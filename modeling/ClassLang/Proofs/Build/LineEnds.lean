import ClassLang.Proofs.Build.Concatenation
import ClassLang.Proofs.Syntax.WidenedReading
import ClassLang.Proofs.Text.Utf8

/-!
# Line ends mean nothing

A text means the same however its lines end. A file is read with its line ends made equal, so it is
parsed to what the text is; and a text with a carriage return in front of each line feed is parsed
to the same unit, or fails at the same stage in the same line and column (`parse_lineEnds`). A
stretch of the text with carriage returns is the stretch of the text, with carriage returns, so
types are kept the same; and no literal holds a line feed.
-/

namespace ClassLang

open Newline

/-! ### Stretches of a text -/

theorem drop_widen (cs : List Char) (n : Nat) :
    (widen cs).drop (widen (cs.take n)).length = widen (cs.drop n) := by
  conv_lhs => rw [← List.take_append_drop n cs, widen_append]
  rw [List.take_append_drop, List.drop_left]

theorem length_widen_take_le (cs : List Char) {m n : Nat} (h : m ≤ n) :
    (widen (cs.take m)).length ≤ (widen (cs.take n)).length := by
  obtain ⟨k, rfl⟩ := Nat.exists_eq_add_of_le h
  rw [List.take_add, widen_append, List.length_append]
  exact Nat.le_add_right _ _

/-- What stands at a range of a text with carriage returns. -/
theorem slice_widen (text : List Char) (r : Range) :
    Build.slice (widen text) (r.relocate (.widening text)) = widen (Build.slice text r) := by
  show ((widen text).drop (widen (text.take r.start.offset)).length).take
    ((widen (text.take r.stop.offset)).length - (widen (text.take r.start.offset)).length) = _
  rw [drop_widen, Build.slice]
  -- nothing stands at a range that stops before it starts
  rcases Nat.le_total r.start.offset r.stop.offset with hle | hle
  · obtain ⟨k, hk⟩ := Nat.exists_eq_add_of_le hle
    have hrest := congrArg widen (List.take_append_drop k (text.drop r.start.offset))
    rw [widen_append] at hrest
    rw [hk, Nat.add_sub_cancel_left, List.take_add, widen_append, List.length_append,
      Nat.add_sub_cancel_left, ← hrest, List.take_left]
  · have hshort := length_widen_take_le text hle
    rw [Nat.sub_eq_zero_of_le hle, Nat.sub_eq_zero_of_le hshort]
    rfl

theorem faithful_widen (text : List Char) (t : Tree) :
    Tree.Faithful id text (widen text) (.widening text) t := by
  intro r _
  show String.ofList (Layout.collapse _) = String.ofList (Layout.collapse _)
  rw [slice_widen, Layout.collapse_widen]

/-! ### Openings of matrices -/

namespace Tree

/-- A matrix is built from its type alone. -/
theorem build_widenOpening (text : List Char) (rule : Label Rule) (range : Option Range)
    (ts : List Tree) :
    (node rule range (widenOpening rule ts)).build text = (node rule range ts).build text := by
  unfold widenOpening
  split
  · rename_i kind s place t ts
    simp only [build, buildAll]
    cases build text t with
    | error f => rfl
    | ok part =>
      cases buildAll text ts with
      | error f => rfl
      | ok parts => rfl
  · rfl

mutual

theorem build_widen (text : List Char) : (t : Tree) → t.widen.build text = t.build text
  | node rule range ts => by
    rw [widen, build_widenOpening, build, build, buildAll_widen text ts]
  | token _ _ _ => rfl
  | absent => rfl

theorem buildAll_widen (text : List Char) :
    (ts : List Tree) → buildAll text (widenAll ts) = buildAll text ts
  | [] => rfl
  | t :: ts => by rw [widenAll, buildAll, buildAll, build_widen text t, buildAll_widen text ts]

end

theorem failing_widenOpening (rule : Label Rule) (range : Option Range) (ts : List Tree) :
    (node rule range (widenOpening rule ts)).failing = (node rule range ts).failing := by
  unfold widenOpening
  split
  · rfl
  · rfl

theorem word?_widen (t : Tree) : t.widen.word? = t.word? := by
  cases t <;> rfl

theorem isConstSpelling_widen (t : Tree) : t.widen.isConstSpelling = t.isConstSpelling := by
  cases t with
  | node rule range ts =>
    by_cases hrule : rule = .known .typeSpelling
    · subst hrule
      rw [widen, widenOpening_of_ne (by decide), widenAll_eq_map]
      exact isConstSpelling_map word?_widen _ range range ts
    · have hother : ∀ us, isConstSpelling (node rule range us) = false := by
        intro us
        rw [isConstSpelling, decide_eq_false hrule, Bool.false_and]
      rw [widen, hother, hother]
  | token _ _ _ => rfl
  | absent => rfl

theorem failingIn_widen (r : Rule) (range : Option Range) (ts : List Tree) :
    Build.failingIn r range (widenAll ts) = Build.failingIn r range ts := by
  by_cases hf : r = .fieldDecl
  · subst hf
    cases range with
    | none => rfl
    | some range =>
      rw [Build.failingIn, Build.failingIn, widenAll_eq_map,
        Build.constantField?_map word?_widen isConstSpelling_widen]
  · by_cases hv : r = .value
    · -- a value is judged by the text of its token, and only nodes are changed
      subst hv
      rcases ts with _ | ⟨t, _ | ⟨u, ts⟩⟩
      · rfl
      · cases t <;> rfl
      · cases t with
        | token kind text range => cases kind <;> rfl
        | _ => rfl
    · rw [DerivationTree.failingIn_nil hv hf, DerivationTree.failingIn_nil hv hf]

mutual

theorem failing_widen : (t : Tree) → t.widen.failing = t.failing
  | node (.known rule) range ts => by
    rw [widen, failing_widenOpening, failing, failing, failingAll_widen ts, failingIn_widen]
  | node (.other name) range ts => by
    rw [widen, failing_widenOpening, failing, failing, failingAll_widen ts]
  | token _ _ _ => rfl
  | absent => rfl

theorem failingAll_widen : (ts : List Tree) → failingAll (widenAll ts) = failingAll ts
  | [] => rfl
  | t :: ts => by rw [widenAll, failingAll, failingAll, failing_widen t, failingAll_widen ts]

end

end Tree

/-! ### Texts with carriage returns -/

section

variable {text : List Char}

/-- A text that is parsed is parsed to the same unit with carriage returns in it. -/
theorem parse_widen {u : SourceUnit} (h : parse text = .ok u) : parse (widen text) = .ok u := by
  obtain ⟨range, ts, htree, hclasses⟩ := classes_of_parse h
  have hread := StartRule.read_widen (read_of_tokenize htree)
  have hwide := classes_elsewhere hclasses fun t _ => faithful_widen text t
  refine parse_of_build (by rw [tokenize, hread]) ?_ (bodies_of_denotes hwide)
  rw [Tree.build_widen, Tree.relocate_node]
  exact build_of_denotes hwide (names_of_parse h)

/-- Whether two failures are reported at one stage, in one line and column. -/
def Failure.Alike (f g : Failure) : Prop :=
  ∃ d e line column, f.diagnostic? = some d ∧ g.diagnostic? = some e ∧ d.stage = e.stage ∧
    d.place.line? = some line ∧ e.place.line? = some line ∧
    d.place.column? = some column ∧ e.place.column? = some column

theorem Failure.alike_rejected {text' : List Char} {c d : Rejection}
    (h : c.place.SamePlace d.place) : (rejected text c).Alike (rejected text' d) := by
  obtain ⟨hline, hcolumn⟩ := h
  exact ⟨_, _, _, _, rfl, rfl, rfl, rfl, congrArg (fun n : Nat => some (n : Int)) hline, rfl,
    congrArg (fun n : Nat => some (n : Int)) hcolumn⟩

theorem Failing.alike_widening (text text' : List Char) (c : Failing) :
    (c.failure text).Alike ((c.relocate (.widening text)).failure text') :=
  ⟨_, _, _, _, rfl, rfl, rfl, rfl, rfl, rfl, rfl⟩

/-- A text that fails fails at the same stage and place with carriage returns in it. -/
theorem parse_widen_error {f : Failure} (h : parse text = .error f) :
    ∃ f', parse (widen text) = .error f' ∧ f.Alike f' := by
  rcases parse_error_cases h with ⟨cause, hread, rfl⟩ | ⟨tree, c, cs, hread, hfailing, rfl⟩
  · have hagree := (StartRule.unit.reading_widen text).run
    have hrun : (StartRule.unit.reading text).run = .error cause := hread
    rw [hrun] at hagree
    cases hwide : (StartRule.unit.reading (widen text)).run with
    | ok tree =>
      rw [hwide] at hagree
      cases hagree
    | error cause' =>
      rw [hwide] at hagree
      have hread' : StartRule.unit.read (widen text) = .error cause' := hwide
      exact ⟨_, by rw [parse, tokenize, hread']; rfl, Failure.alike_rejected hagree⟩
  · have hwide := StartRule.read_widen hread
    have hfailing' : (tree.relocate (.widening text)).widen.failing =
        c.relocate (.widening text) :: cs.map (Failing.relocate (.widening text)) := by
      rw [Tree.failing_widen, Tree.failing_relocate, hfailing, List.map_cons]
    exact ⟨_, parse_of_failing hwide hfailing', c.alike_widening text _⟩

/-! ### Files -/

/-- A file with a text in it is parsed to what the text is, however its lines end. -/
theorem parseBytes_encode {e : List Char} (he : e ∈ ends) (h : '\r' ∉ text) :
    parseBytes (Utf8.encode (write e text)) = (parse text).mapError .text := by
  have hdecode := Utf8.decode_eq_ok.2 (rfl : Utf8.encode (write e text) = Utf8.encode _)
  simp only [parseBytes, hdecode, normalize_write he h]
  cases parse text <;> rfl

theorem parseBytes_of_invalid {bytes : List UInt8} (h : ∀ cs, bytes ≠ Utf8.encode cs) :
    ∃ cause, parseBytes bytes = .error (.encoding cause) := by
  cases hdecode : Utf8.decode bytes with
  | error cause => exact ⟨cause, by rw [parseBytes, hdecode]⟩
  | ok cs => exact absurd (Utf8.decode_eq_ok.1 hdecode) (h cs)

end

/-- Line ends do not change what a text means. A file that holds a text is parsed to exactly what
the text is, whether its lines end in line feeds, in carriage returns or in both. A text with a
carriage return in front of each line feed is parsed to the same unit, or fails at the same stage
in the same line and column. And a file that is not encoded is refused for that, whatever stands in
front of the fault. -/
theorem parse_lineEnds :
    (∀ text, '\r' ∉ text →
      (∀ e ∈ ends, parseBytes (Utf8.encode (write e text)) = (parse text).mapError .text) ∧
      (∀ u, parse text = .ok u → parse (widen text) = .ok u) ∧
      ∀ f, parse text = .error f → ∃ f', parse (widen text) = .error f' ∧ f.Alike f') ∧
    ∀ bytes, (∀ cs, bytes ≠ Utf8.encode cs) →
      ∃ cause, parseBytes bytes = .error (.encoding cause) :=
  ⟨fun _ h => ⟨fun _ he => parseBytes_encode he h, fun _ => parse_widen,
    fun _ => parse_widen_error⟩, fun _ => parseBytes_of_invalid⟩

/-- A class with a type on two lines and a comment. -/
def splitMatrix : List Char := "class A \x7b Matrix\n<int> f(int\n* x); // y\n\x7d\n".toList

/-- The class with a sign behind it that starts nothing. -/
def stoppedMatrix : List Char := splitMatrix ++ ['?']

theorem parse_lineEnds_splitMatrix :
    (∃ u, parse splitMatrix = .ok u ∧ parseBytes (Utf8.encode (write ['\r'] splitMatrix)) = .ok u ∧
      parse (widen splitMatrix) = .ok u) ∧
    (∃ f f', parse stoppedMatrix = .error f ∧ parse (widen stoppedMatrix) = .error f' ∧
      f.Alike f') ∧
    ∃ cause, parseBytes (Utf8.encode stoppedMatrix ++ [0xff]) = .error (.encoding cause) := by
  have hok : (parse splitMatrix).toOption.isSome = true := by decide +kernel
  have hstop : (parse stoppedMatrix).toOption.isSome = false := by decide +kernel
  have hbad : (Utf8.decode (Utf8.encode stoppedMatrix ++ [0xff])).toOption.isSome = false := by
    decide +kernel
  obtain ⟨htexts, hbytes⟩ := parse_lineEnds
  refine ⟨?_, ?_, ?_⟩
  · obtain ⟨u, hu⟩ := exists_ok_of_isSome hok
    obtain ⟨hfile, hwide, -⟩ := htexts splitMatrix (by decide)
    refine ⟨u, hu, ?_, hwide u hu⟩
    rw [hfile ['\r'] (by decide), hu]
    rfl
  · obtain ⟨-, -, hfails⟩ := htexts stoppedMatrix (by decide)
    cases hf : parse stoppedMatrix with
    | ok u =>
      rw [hf] at hstop
      cases hstop
    | error f =>
      obtain ⟨f', hf', halike⟩ := hfails f hf
      exact ⟨f, f', rfl, hf', halike⟩
  · refine hbytes _ fun cs hcs => ?_
    rw [Utf8.decode_eq_ok.2 hcs] at hbad
    cases hbad

end ClassLang
