import ClassLang.Proofs.Build.Building
import ClassLang.Proofs.Build.Outcome
import ClassLang.Proofs.Build.Spelled
import ClassLang.Proofs.Syntax.Joined

/-!
# Concatenation of texts

A text on a new line behind a text that is parsed means what it means by itself. If it is parsed,
its classes come behind those of the first; if not, the failure is the same, reported at the shifted
place (`parse_joined`). Neither excerpts of the text nor fragments of it reach back over the line
end between the two.
-/

namespace ClassLang

open ClassLang.Tree

/-! ### What stands behind a line end -/

namespace Excerpt

theorem takeWhile_take_stop {p : Char → Bool} {c : Char} (hc : p c = false) (n : Nat)
    (cs ds : List Char) :
    ((cs ++ c :: ds).take n).takeWhile p = (cs.take n).takeWhile p := by
  induction cs generalizing n with
  | nil =>
    cases n with
    | zero => rfl
    | succ n => simp only [List.nil_append, List.take_succ_cons, List.takeWhile_cons, hc]; rfl
  | cons d cs ih =>
    cases n with
    | zero => rfl
    | succ n =>
      simp only [List.cons_append, List.take_succ_cons, List.takeWhile_cons]
      split
      · rw [ih]
      · rfl

theorem drop_joined (front cs : List Char) (offset : Nat) :
    (front ++ '\n' :: cs).drop (offset + (front.length + 1)) = cs.drop offset := by
  have hfront : (front ++ ['\n']).length = front.length + 1 := List.length_append
  rw [List.append_cons front, ← hfront, Nat.add_comm, List.drop_length_add_append]

theorem before_joined (front cs : List Char) (offset : Nat) :
    before (front ++ '\n' :: cs) (offset + (front.length + 1)) = before cs offset := by
  have htake : (front ++ '\n' :: cs).take (offset + (front.length + 1)) =
      front ++ '\n' :: cs.take offset := by
    have hfront : (front ++ ['\n']).length = front.length + 1 := List.length_append
    rw [List.append_cons front, ← hfront, Nat.add_comm, List.take_length_add_append,
      ← List.append_cons]
  rw [before, before, htake, List.reverse_append, List.reverse_cons, List.append_assoc,
    List.singleton_append, takeWhile_take_stop (by decide)]

theorem around_joined (front cs : List Char) (offset : Nat) :
    around (front ++ '\n' :: cs) (offset + (front.length + 1)) = around cs offset := by
  rw [around, around, caret, caret, before_joined, after, drop_joined]
  rfl

end Excerpt

theorem slice_joined (front cs : List Char) (lines : Nat) (r : Range) :
    Build.slice (front ++ '\n' :: cs) (r.relocate (.shift (front.length + 1) lines)) =
      Build.slice cs r := by
  have hstart : (r.relocate (.shift (front.length + 1) lines)).start.offset =
      r.start.offset + (front.length + 1) := rfl
  have hstop : (r.relocate (.shift (front.length + 1) lines)).stop.offset =
      r.stop.offset + (front.length + 1) := rfl
  rw [Build.slice, Build.slice, hstart, hstop, Excerpt.drop_joined, Nat.add_sub_add_right]

/-! ### Failing constructs elsewhere -/

def Failing.relocate (m : Relocation) (c : Failing) : Failing := ⟨c.cause, c.range.relocate m⟩

namespace Tree

/-- The terminal and the text of a tree that is a token. -/
def word? : Tree → Option (Label Terminal × String)
  | token kind text _ => some (kind, text)
  | _ => none

/-- Whether a tree is the spelling of a type that is marked constant. -/
def isConstSpelling : Tree → Bool
  | node rule _ ts =>
    rule = .known .typeSpelling && (ts.head?.bind word?).map Prod.fst = some (.known .kwConst)
  | _ => false

theorem isConstSpelling_map {g : Tree → Tree} (hword : ∀ t, (g t).word? = t.word?)
    (rule : Label Rule) (range range' : Option Range) (ts : List Tree) :
    isConstSpelling (node rule range (ts.map g)) = isConstSpelling (node rule range' ts) := by
  have hcomp : word? ∘ g = word? := funext hword
  rw [isConstSpelling, isConstSpelling, List.head?_map, Option.bind_map, hcomp]

theorem word?_relocate (m : Relocation) (t : Tree) : (t.relocate m).word? = t.word? := by
  cases t <;> rfl

theorem isConstSpelling_relocate (m : Relocation) (t : Tree) :
    (t.relocate m).isConstSpelling = t.isConstSpelling := by
  cases t with
  | node rule range ts =>
    rw [relocate_node]
    exact isConstSpelling_map (word?_relocate m) rule _ range ts
  | token kind text range => rfl
  | absent => rfl

end Tree

namespace Build

theorem constantField?_of_length {ts : List Tree} (h : ts.length ≠ 4) :
    constantField? ts = none := by
  unfold constantField?
  split
  · exact absurd rfl h
  · rfl

theorem constantField?_quadruple (a b c d : Tree) :
    constantField? [a, b, c, d] = if b.isConstSpelling then c.word?.map Prod.snd else none := by
  unfold constantField?
  split
  · rename_i he
    simp only [List.cons.injEq, and_true] at he
    obtain ⟨-, rfl, rfl, -⟩ := he
    rfl
  · rename_i hother
    split
    · rename_i hmark
      cases b with
      | node rule range ts =>
        simp only [isConstSpelling, Bool.and_eq_true, decide_eq_true_eq] at hmark
        obtain ⟨rfl, hmark⟩ := hmark
        obtain ⟨⟨kind, text⟩, hhead, rfl⟩ := Option.map_eq_some_iff.1 hmark
        obtain ⟨t, ht, hword⟩ := Option.bind_eq_some_iff.1 hhead
        obtain ⟨us, rfl⟩ := List.head?_eq_some_iff.1 ht
        cases t with
        | token =>
          obtain ⟨rfl, -⟩ := Prod.mk.inj (Option.some.inj hword)
          cases c with
          | token => exact absurd rfl (hother _ _ _ _ _ _ _ _ _)
          | _ => rfl
        | _ => cases hword
      | _ => cases hmark
    · rfl

/-- Whether a field is constant is told by the mark of its type, and its name by a token. -/
theorem constantField?_map {g : Tree → Tree} (hword : ∀ t, (g t).word? = t.word?)
    (hmark : ∀ t, (g t).isConstSpelling = t.isConstSpelling) (ts : List Tree) :
    constantField? (ts.map g) = constantField? ts := by
  by_cases h : ts.length = 4
  · obtain ⟨a, b, c, d, rfl⟩ := List.length_eq_four.1 h
    simp only [List.map_cons, List.map_nil, constantField?_quadruple, hmark, hword]
  · rw [constantField?_of_length h, constantField?_of_length (by rwa [List.length_map])]

theorem constantField?_relocate (m : Relocation) (ts : List Tree) :
    constantField? (relocateAll m ts) = constantField? ts := by
  rw [relocateAll_eq_map, constantField?_map (word?_relocate m) (isConstSpelling_relocate m)]

theorem failingIn_relocate (m : Relocation) (r : Rule) (range : Option Range) (ts : List Tree) :
    failingIn r (range.map (Range.relocate m)) (relocateAll m ts) =
      (failingIn r range ts).map (Failing.relocate m) := by
  by_cases hf : r = .fieldDecl
  · subst hf
    cases range with
    | none => rfl
    | some range =>
      rw [Option.map_some, failingIn, failingIn, constantField?_relocate]
      cases constantField? ts <;> rfl
  · by_cases hv : r = .value
    · subst hv
      rcases ts with _ | ⟨t, _ | ⟨u, ts⟩⟩
      · rfl
      · cases t with
        | token kind text range =>
          cases kind with
          | known kind =>
            rw [relocateAll, relocate, relocateAll, failingIn, failingIn]
            cases literalFault? kind text <;> rfl
          | other name => rfl
        | _ => rfl
      · cases t with
        | token kind text range => cases kind <;> rfl
        | _ => rfl
    · rw [DerivationTree.failingIn_nil hv hf, DerivationTree.failingIn_nil hv hf]
      rfl

end Build

namespace Tree

mutual

theorem failing_relocate (m : Relocation) :
    (t : Tree) → (t.relocate m).failing = t.failing.map (Failing.relocate m)
  | node (.known rule) range ts => by
    rw [relocate, failing, failing, failingAll_relocate m ts, Build.failingIn_relocate,
      List.map_append]
  | node (.other name) range ts => by
    rw [relocate, failing, failing, failingAll_relocate m ts]
  | token kind text range => by
    rw [relocate, failing, failing]
    rfl
  | absent => by
    rw [relocate, failing]
    rfl

theorem failingAll_relocate (m : Relocation) :
    (ts : List Tree) → failingAll (relocateAll m ts) = (failingAll ts).map (Failing.relocate m)
  | [] => rfl
  | t :: ts => by
    rw [relocateAll, failingAll, failingAll, failing_relocate m t, failingAll_relocate m ts,
      List.map_append]

end

end Tree

/-! ### Shifted reports -/

def Span.shift (offset lines : Nat) (s : Span) : Span :=
  { s with
    start := s.start + offset, stop := s.stop + offset, line := s.line + lines,
    endLine := s.endLine + lines }

def Place.shift (offset lines : Nat) : Place → Place
  | unknown => unknown
  | point line column => point (line.map (· + lines)) column
  | span s => span (s.shift offset lines)

/-- The report of a failure that stands further on in a text: the same stage, the same detail, and
the place shifted. -/
def Diagnostic.shift (offset lines : Nat) (d : Diagnostic) : Diagnostic :=
  { d with place := d.place.shift offset lines }

theorem diagnostic?_rejected_shift (front cs : List Char) (lines : Nat) (cause : Rejection) :
    (Failure.rejected (front ++ '\n' :: cs) (cause.shift (front.length + 1) lines)).diagnostic? =
      (Failure.rejected cs cause).diagnostic?.map (Diagnostic.shift (front.length + 1) lines) := by
  have hdetail : (cause.shift (front.length + 1) lines).detail (front ++ '\n' :: cs) =
      cause.detail cs := by
    have haround := Excerpt.around_joined front cs cause.place.offset
    have hoffset : (cause.shift (front.length + 1) lines).place.offset =
        cause.place.offset + (front.length + 1) := rfl
    rw [Rejection.detail, Rejection.detail, hoffset, haround]
    rfl
  rw [Failure.diagnostic?, Failure.diagnostic?, hdetail]
  rfl

theorem diagnostic?_failing_shift (front cs : List Char) (lines : Nat) (c : Failing) :
    ((c.relocate (.shift (front.length + 1) lines)).failure (front ++ '\n' :: cs)).diagnostic? =
      (c.failure cs).diagnostic?.map (Diagnostic.shift (front.length + 1) lines) := by
  have hslice := slice_joined front cs lines c.range
  simp only [Failing.failure, Failing.relocate, Failure.diagnostic?, hslice]
  rfl

/-! ### Texts behind a text that is parsed -/

section

variable {text other : List Char} {u : SourceUnit}

/-- A failure of a parse is a rejection of the text, or that of the construct that fails first. -/
theorem parse_error_cases {f : Failure} (h : parse text = .error f) :
    (∃ cause, StartRule.unit.read text = .error cause ∧ f = .rejected text cause) ∨
      ∃ tree c cs, StartRule.unit.read text = .ok tree ∧ tree.failing = c :: cs ∧
        f = c.failure text := by
  cases hread : StartRule.unit.read text with
  | error cause =>
    refine Or.inl ⟨cause, rfl, ?_⟩
    rw [parse, tokenize, hread] at h
    exact (Except.error.inj h).symm
  | ok tree =>
    obtain ⟨hbuilds, hfails⟩ := (settles_of_read hread).1.build
    refine Or.inr ⟨tree, ?_⟩
    rw [parse, tokenize, hread] at h
    cases hfailing : tree.failing with
    | nil =>
      obtain ⟨p, hp⟩ := hbuilds hfailing
      simp only [bind, Except.bind, hp] at h
      cases h
    | cons c cs =>
      refine ⟨c, cs, rfl, rfl, ?_⟩
      simp only [bind, Except.bind, hfails c cs hfailing] at h
      exact (Except.error.inj h).symm

theorem parse_of_failing {tree : Tree} {c : Failing} {cs : List Failing}
    (h : StartRule.unit.read text = .ok tree) (hc : tree.failing = c :: cs) :
    parse text = .error (c.failure text) := by
  have hfails := (settles_of_read h).1.build.2 c cs hc
  rw [parse, tokenize, h]
  simp only [bind, Except.bind, hfails]

theorem failing_of_parse {tree : Tree} (h : parse text = .ok u)
    (ht : StartRule.unit.read text = .ok tree) : tree.failing = [] := by
  cases hfailing : tree.failing with
  | nil => rfl
  | cons c cs =>
    rw [parse_of_failing ht hfailing] at h
    cases h

/-- Classes denote the same in another text if no type is spelled another way there. -/
theorem classes_elsewhere {text' : List Char} {m : Relocation} {ts : List Tree} {cs : List Class}
    (h : List.Forall₂ (DenotesClass text) ts cs) (hf : ∀ t ∈ ts, Faithful id text text' m t) :
    List.Forall₂ (DenotesClass text') (ts.map (Tree.relocate m)) cs := by
  obtain ⟨ds, hds, heq⟩ := DenotesClass.relocate_all h hf
  rw [map_eq_self Class.respell_id, map_eq_self Class.respell_id] at heq
  exact heq ▸ hds

/-- More text behind a unit does not change what its classes denote. -/
theorem classes_ahead {range : Option Range} {ts : List Tree} {cs : List Class}
    (ht : StartRule.unit.read text = .ok (.node (.known .unit) range ts))
    (h : List.Forall₂ (DenotesClass text) ts cs) (ext : List Char) :
    List.Forall₂ (DenotesClass (text ++ ext)) ts cs := by
  have hfaithful : ∀ t ∈ ts, Faithful id text (text ++ ext) ⟨id, id⟩ t := by
    intro t hmem r hr
    have hall := spellingsAll_subset_node (.known .unit) range ts (spellings_subset_all hmem hr)
    exact congrArg (fun cs => String.ofList (Layout.collapse cs)) (slice_spelling ht hall ext)
  have hclasses := classes_elsewhere h hfaithful
  rwa [map_eq_self Tree.relocate_id] at hclasses

/-- Text in front of a line does not change how types are spelled on it and behind it. -/
theorem faithful_behind (front : List Char) (lines : Nat) {t : Tree} :
    Faithful id text (front ++ '\n' :: text) (.shift (front.length + 1) lines) t := by
  intro r _
  exact congrArg (fun cs => String.ofList (Layout.collapse cs)) (slice_joined front text lines r)

/-- Text in front of a unit does not change what its classes denote. -/
theorem classes_behind {ts : List Tree} {cs : List Class} (front : List Char) (lines : Nat)
    (h : List.Forall₂ (DenotesClass text) ts cs) :
    List.Forall₂ (DenotesClass (front ++ '\n' :: text))
      (ts.map (Tree.relocate (.shift (front.length + 1) lines))) cs :=
  classes_elsewhere h fun _ _ => faithful_behind front lines

/-- The tree of two units one behind the other: the classes of both. -/
theorem read_joined_of_ok {range range' : Option Range} {ts ts' : List Tree}
    (h : StartRule.unit.read text = .ok (.node (.known .unit) range ts))
    (h' : StartRule.unit.read other = .ok (.node (.known .unit) range' ts')) :
    ∃ range'', StartRule.unit.read (text ++ '\n' :: other) =
      .ok (.node (.known .unit) range'' (ts ++ ts'.map
        (Tree.relocate (.shift (text.length + 1) (text.count '\n' + 1))))) := by
  obtain ⟨classes, htree, hjoined⟩ := read_joined h
  obtain ⟨-, -, rfl⟩ := Tree.node.inj htree
  refine ⟨Range.join (cover classes) (range'.map (Range.relocate
    (.shift (text.length + 1) (text.count '\n' + 1)))), ?_⟩
  rw [hjoined, h', ← relocateAll_eq_map]
  rfl

theorem exists_unit {tree : Tree} (h : StartRule.unit.read text = .ok tree) :
    ∃ range ts, tree = .node (.known .unit) range ts := by
  obtain ⟨us, -, hderives⟩ := derives_of_read h
  obtain ⟨qs, hclose, -⟩ := Derives.eq_close hderives
  exact ⟨_, _, (List.cons.inj hclose).1⟩

theorem failing_unit (range : Option Range) (ts : List Tree) :
    (Tree.node (.known .unit) range ts).failing = failingAll ts := by
  have hnone : Build.failingIn .unit range ts = [] := rfl
  rw [failing, hnone, List.append_nil]

theorem parse_joined_of_rejected {cause : Rejection} (h : parse text = .ok u)
    (h' : StartRule.unit.read other = .error cause) :
    parse (text ++ '\n' :: other) = .error (.rejected (text ++ '\n' :: other)
      (cause.shift (text.length + 1) (text.count '\n' + 1))) := by
  obtain ⟨range, ts, htree, -⟩ := classes_of_parse h
  obtain ⟨classes, -, hjoined⟩ := read_joined (read_of_tokenize htree)
  have hrejected := hjoined other
  rw [h'] at hrejected
  rw [parse, tokenize, hrejected]
  rfl

theorem parse_joined_of_failing {tree : Tree} {c : Failing} {cs : List Failing}
    (h : parse text = .ok u) (h' : StartRule.unit.read other = .ok tree)
    (hc : tree.failing = c :: cs) :
    parse (text ++ '\n' :: other) =
      .error ((c.relocate (.shift (text.length + 1) (text.count '\n' + 1))).failure
        (text ++ '\n' :: other)) := by
  obtain ⟨range, ts, htree, -⟩ := classes_of_parse h
  have hread := read_of_tokenize htree
  have hnone := failing_of_parse h hread
  obtain ⟨range', ts', rfl⟩ := exists_unit h'
  obtain ⟨range'', hjoined⟩ := read_joined_of_ok hread h'
  rw [failing_unit] at hnone hc
  have hfailing : failingAll (ts ++ ts'.map
      (Tree.relocate (.shift (text.length + 1) (text.count '\n' + 1)))) =
        (c :: cs).map (Failing.relocate (.shift (text.length + 1) (text.count '\n' + 1))) := by
    rw [failingAll_append, hnone, ← relocateAll_eq_map, failingAll_relocate, hc, List.nil_append]
  rw [← failing_unit range''] at hfailing
  exact parse_of_failing hjoined hfailing

/-- Behind a text that is parsed another text is parsed to its own classes, or fails as it does by
itself, further on. -/
theorem parse_joined (h : parse text = .ok u) (other : List Char) :
    (∀ u', parse other = .ok u' →
      parse (text ++ '\n' :: other) = .ok ⟨u.classes ++ u'.classes⟩) ∧
    ∀ f, parse other = .error f → ∃ f' d, parse (text ++ '\n' :: other) = .error f' ∧
      f.diagnostic? = some d ∧
      f'.diagnostic? = some (d.shift (text.length + 1) (text.count '\n' + 1)) := by
  obtain ⟨range, ts, htree, hclasses⟩ := classes_of_parse h
  have hread := read_of_tokenize htree
  refine ⟨?_, ?_⟩
  · intro u' h'
    obtain ⟨range', ts', htree', hclasses'⟩ := classes_of_parse h'
    obtain ⟨range'', hjoined⟩ := read_joined_of_ok hread (read_of_tokenize htree')
    have hahead := classes_ahead hread hclasses ('\n' :: other)
    have hbehind := classes_behind text (text.count '\n' + 1) hclasses'
    refine parse_of_denotes (by rw [tokenize, hjoined]) (List.rel_append hahead hbehind) ?_
    exact List.forall_mem_append.2 ⟨names_of_parse h, names_of_parse h'⟩
  · intro f h'
    rcases parse_error_cases h' with ⟨cause, hcause, rfl⟩ | ⟨tree, c, cs, hread', hfailing, rfl⟩
    · exact ⟨_, _, parse_joined_of_rejected h hcause, rfl, diagnostic?_rejected_shift _ _ _ _⟩
    · exact ⟨_, _, parse_joined_of_failing h hread' hfailing, rfl,
        diagnostic?_failing_shift _ _ _ _⟩

/-- A class with a line comment behind it that no line feed ends. -/
def commentedClass : List Char := "class A \x7b\x7d // a".toList

/-- A class with a field of a constant type. -/
def constantClass : List Char := "class B \x7b const int x; \x7d".toList

theorem parse_joined_commentedClass :
    ∃ u f f' d, parse commentedClass = .ok u ∧
      parse (commentedClass ++ '\n' :: commentedClass) = .ok ⟨u.classes ++ u.classes⟩ ∧
      parse constantClass = .error f ∧
      parse (commentedClass ++ '\n' :: constantClass) = .error f' ∧ f.diagnostic? = some d ∧
      f'.diagnostic? =
        some (d.shift (commentedClass.length + 1) (commentedClass.count '\n' + 1)) := by
  have hok : (parse commentedClass).toOption.isSome = true := by decide +kernel
  have hfails : (parse constantClass).toOption.isSome = false := by decide +kernel
  obtain ⟨u, h⟩ := exists_ok_of_isSome hok
  obtain ⟨hjoined, -⟩ := parse_joined h commentedClass
  obtain ⟨-, hfailed⟩ := parse_joined h constantClass
  cases h' : parse constantClass with
  | ok u' =>
    rw [h'] at hfails
    cases hfails
  | error f =>
    obtain ⟨f', d, hf', hd, hd'⟩ := hfailed f h'
    exact ⟨u, f, f', d, h, hjoined u h, rfl, hf', hd, hd'⟩

end

end ClassLang
