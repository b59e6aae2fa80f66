import ClassLang.Proofs.Build.Members
import ClassLang.Proofs.Number.PlainNumeral
import ClassLang.Proofs.Syntax.Extent

/-!
# Failing constructs

The constructs of a text that the grammar allows but that denote nothing: a char that is no byte, an
integer with too many digits, a field of a constant type. `Tree.failing` lists those of a tree,
inner ones before the construct around them. Main statement: in a tree that comes from a text they
are listed in the order in which their ranges end.
-/

namespace ClassLang

structure Failing where
  cause : Fault
  range : Range

/-- A failing construct is reported with its range and what stands there. -/
def Failing.failure (text : List Char) (c : Failing) : Failure :=
  .fault c.cause (some (.ofRange c.range (String.ofList (Build.slice text c.range))))

namespace Build

/-- Why a literal denotes no value: a char whose inside is no number or no byte, an integer with
more digits than are read. -/
def literalFault? (kind : Terminal) (text : String) : Option Fault :=
  match kind with
  | .char =>
    match Numeral.integer (inside text) with
    | .error cause => some (.numeral cause)
    | .ok n => if 0 ≤ n ∧ n < 256 then none else some (.charRange n)
  | .integer =>
    if Numeral.digitLimit < Numeral.digitCount text.toList then
      some (.numeral (.digits (Numeral.digitCount text.toList)))
    else none
  | _ => none

/-- The name of a field that is marked constant. -/
def constantField? : List Tree → Option String
  | [_, .node (.known .typeSpelling) _ (.token (.known .kwConst) _ _ :: _), .token _ name _, _] =>
    some name
  | _ => none

/-- What fails in a node apart from its children. -/
def failingIn : Rule → Option Range → List Tree → List Failing
  | .value, _, [.token (.known kind) text range] =>
    ((literalFault? kind text).map fun cause => ⟨cause, range⟩).toList
  | .fieldDecl, some range, ts =>
    ((constantField? ts).map fun name => ⟨.qualifiedField name, range⟩).toList
  | _, _, _ => []

theorem stage_literalFault? {kind : Terminal} {text : String} {cause : Fault}
    (h : literalFault? kind text = some cause) : cause.stage = .value := by
  unfold literalFault? at h
  split at h
  · split at h
    · exact Option.some.inj h ▸ rfl
    · split at h
      · cases h
      · exact Option.some.inj h ▸ rfl
  · split at h
    · exact Option.some.inj h ▸ rfl
    · cases h
  · cases h

theorem stage_failingIn {r : Rule} {range : Option Range} {ts : List Tree} {c : Failing}
    (h : c ∈ failingIn r range ts) : c.cause.stage = .value ∨ c.cause.stage = .field := by
  unfold failingIn at h
  split at h
  · obtain ⟨d, hd, rfl⟩ := Option.map_eq_some_iff.1 (Option.mem_toList.1 h)
    exact Or.inl (stage_literalFault? hd)
  · obtain ⟨name, -, rfl⟩ := Option.map_eq_some_iff.1 (Option.mem_toList.1 h)
    exact Or.inr rfl
  · cases h

end Build

namespace Tree

mutual

def failing : Tree → List Failing
  | node (.known rule) range ts => failingAll ts ++ Build.failingIn rule range ts
  | node (.other _) _ ts => failingAll ts
  | token _ _ _ => []
  | absent => []

/-- The failing constructs of trees, inner ones first, from left to right. -/
def failingAll : List Tree → List Failing
  | [] => []
  | t :: ts => failing t ++ failingAll ts

end

theorem failingAll_append (ts us : List Tree) :
    failingAll (ts ++ us) = failingAll ts ++ failingAll us := by
  induction ts with
  | nil => rfl
  | cons t ts ih => rw [List.cons_append, failingAll, failingAll, ih, List.append_assoc]

theorem failingAll_singleton (t : Tree) : failingAll [t] = t.failing := by
  rw [failingAll, failingAll, List.append_nil]

mutual

/-- Only literals and fields fail. -/
theorem stage_failing :
    (t : Tree) → ∀ c ∈ t.failing, c.cause.stage = .value ∨ c.cause.stage = .field
  | node (.known rule) range ts => by
    intro c hc
    rw [failing] at hc
    rcases List.mem_append.1 hc with hc | hc
    · exact stage_failingAll ts c hc
    · exact Build.stage_failingIn hc
  | node (.other name) range ts => by
    intro c hc
    rw [failing] at hc
    exact stage_failingAll ts c hc
  | token kind text range => by
    intro c hc
    rw [failing] at hc
    cases hc
  | absent => by
    intro c hc
    rw [failing] at hc
    cases hc

theorem stage_failingAll : (ts : List Tree) →
    ∀ c ∈ failingAll ts, c.cause.stage = .value ∨ c.cause.stage = .field
  | [] => nofun
  | t :: ts => by
    intro c hc
    rw [failingAll] at hc
    rcases List.mem_append.1 hc with hc | hc
    · exact stage_failing t c hc
    · exact stage_failingAll ts c hc

end

theorem failing_token (t : Token) : t.tree.failing = [] := by
  rw [Token.tree, failing]

end Tree

open ClassLang.Tree

namespace DerivationTree

variable {p : Phrase}

theorem exists_literal (d : DerivationTree (.rule .value)) :
    ∃ t : Token, t.terminal.isLiteral = true ∧ d.tokens = [t] ∧
      d.kept = [.node (.known .value) (Tree.cover [t.tree]) [t.tree]] := by
  obtain ⟨t, ht, htokens, hpieces⟩ := value_cases d
  have hpunct : t.tree.isPunctuation = false := by
    cases t with
    | mk k text range => cases k <;> first | rfl | cases ht
  refine ⟨t, ht, htokens, ?_⟩
  rw [← pieces_eq_kept, hpieces, Tree.close, List.filter_singleton, hpunct]
  rfl

/-- A literal fails where it stands. -/
theorem failing_value (d : DerivationTree (.rule .value)) :
    ∃ t : Token, d.tokens = [t] ∧ failingAll d.kept = ((Build.literalFault? t.terminal t.text).map
      fun cause => Failing.mk cause t.range).toList := by
  obtain ⟨t, -, htokens, hkept⟩ := exists_literal d
  refine ⟨t, htokens, ?_⟩
  rw [hkept, failingAll_singleton, failing, failingAll_singleton, failing_token, List.nil_append,
    Token.tree, Build.failingIn]

/-- A field ends with its own last token, behind everything else that fails in it. -/
theorem failing_field {r : Rule} (hr : r = .fieldDecl) (d : DerivationTree (.rule r)) :
    ∃ (q : Phrase) (e : DerivationTree q) (t u : Token), e.size < d.size ∧
      d.tokens = e.tokens ++ [u] ∧ d.tokens.head? = some t ∧
      failingAll d.kept = failingAll e.kept ++
        ((Build.constantField? e.kept).map fun name =>
          Failing.mk (.qualifiedField name) ⟨t.range.start, u.range.stop⟩).toList := by
  subst hr
  match d with
  | .rule (.seq e (.terminal u hu)) =>
    have hlast : (e.tokens ++ [u]).getLast? = some u := List.getLast?_concat
    obtain ⟨t, ht⟩ : ∃ t, (e.tokens ++ [u]).head? = some t := by
      cases e.tokens <;> exact ⟨_, rfl⟩
    have hcover : Tree.cover (e.pieces ++ [u.tree]) = some ⟨t.range.start, u.range.stop⟩ :=
      (e.extends_pieces.append (DerivationTree.terminal u hu).extends_pieces).cover ht hlast
    refine ⟨_, e, t, u, ?_, rfl, ht, ?_⟩
    · simp only [size]
      omega
    · have hkept : (DerivationTree.rule (r := .fieldDecl) (.seq e (.terminal u hu))).kept =
          [.node (.known .fieldDecl) (Tree.cover (e.pieces ++ [u.tree])) (e.kept ++ [])] := rfl
      rw [hkept, failingAll_singleton, failing, hcover, List.append_nil, Build.failingIn]

theorem failingIn_nil {r : Rule} (hv : r ≠ .value) (hf : r ≠ .fieldDecl) (range : Option Range)
    (ts : List Tree) : Build.failingIn r range ts = [] := by
  cases r <;> first | rfl | exact absurd rfl hv | exact absurd rfl hf

theorem failing_rule {r : Rule} (hv : r ≠ .value) (hf : r ≠ .fieldDecl)
    (d : DerivationTree r.phrase) :
    failingAll (DerivationTree.rule d).kept = failingAll d.kept := by
  rw [kept, failingAll_singleton, failing, failingIn_nil hv hf, List.append_nil]

end DerivationTree

/-! ### Where failing constructs stand -/

/-- Whether failing constructs start where some of the tokens start, and end where tokens end, one
behind the other. -/
def Among (cs : List Failing) (ts : List Token) : Prop :=
  (∀ c ∈ cs, ∃ t ∈ ts, c.range.start = t.range.start) ∧
    (cs.map fun c => c.range.stop).Sublist (ts.map fun t => t.range.stop)

namespace Among

variable {cs ds : List Failing} {ts us : List Token}

theorem nil : Among [] ts := ⟨nofun, List.nil_sublist _⟩

theorem append (h : Among cs ts) (h' : Among ds us) : Among (cs ++ ds) (ts ++ us) := by
  obtain ⟨hstart, hstop⟩ := h
  obtain ⟨hstart', hstop'⟩ := h'
  constructor
  · intro c hc
    rcases List.mem_append.1 hc with hc | hc
    · obtain ⟨t, ht, he⟩ := hstart c hc
      exact ⟨t, List.mem_append_left us ht, he⟩
    · obtain ⟨t, ht, he⟩ := hstart' c hc
      exact ⟨t, List.mem_append_right ts ht, he⟩
  · rw [List.map_append, List.map_append]
    exact hstop.append hstop'

theorem token (o : Option Fault) (t : Token) :
    Among (o.map fun cause => Failing.mk cause t.range).toList [t] := by
  cases o with
  | none => exact nil
  | some cause =>
    refine ⟨?_, List.Sublist.refl _⟩
    intro c hc
    exact ⟨t, List.mem_singleton_self t, by rw [List.mem_singleton.1 hc]⟩

/-- What fails in front of the last token, and then perhaps the whole up to that token. -/
theorem snoc {t u : Token} (h : Among cs ts) (ht : (ts ++ [u]).head? = some t)
    (o : Option String) :
    Among (cs ++ (o.map fun name =>
      Failing.mk (.qualifiedField name) ⟨t.range.start, u.range.stop⟩).toList) (ts ++ [u]) := by
  cases o with
  | none => exact h.append nil
  | some name =>
    obtain ⟨hstart, hstop⟩ := h
    constructor
    · intro c hc
      rcases List.mem_append.1 hc with hc | hc
      · obtain ⟨v, hv, he⟩ := hstart c hc
        exact ⟨v, List.mem_append_left [u] hv, he⟩
      · exact ⟨t, List.mem_of_head? ht, by rw [List.mem_singleton.1 hc]⟩
    · rw [List.map_append, List.map_append]
      exact hstop.append (List.Sublist.refl _)

end Among

theorem DerivationTree.among_failing {p : Phrase} (d : DerivationTree p) :
    Among (failingAll d.kept) d.tokens := by
  match p, d with
  | _, .terminal (k := k) t h =>
    rw [kept]
    cases k.isPunctuation with
    | true => exact .nil
    | false =>
      rw [cond_false, failingAll_singleton, failing_token]
      exact .nil
  | _, .rule (r := r) d =>
    by_cases hv : r = .value
    · subst hv
      obtain ⟨t, htokens, hfailing⟩ := failing_value (.rule d)
      rw [hfailing, htokens]
      exact .token _ t
    · by_cases hf : r = .fieldDecl
      · obtain ⟨q, e, t, u, hsize, htokens, hhead, hfailing⟩ := failing_field hf (.rule d)
        rw [hfailing, htokens]
        exact (among_failing e).snoc (htokens ▸ hhead) _
      · rw [failing_rule hv hf]
        exact among_failing d
  | _, .type d => exact among_failing d
  | _, .seq d e =>
    rw [kept, failingAll_append]
    exact (among_failing d).append (among_failing e)
  | _, .left d => exact among_failing d
  | _, .right d => exact among_failing d
  | _, .absent => exact .nil
  | _, .present d => exact among_failing d
  | _, .none => exact .nil
  | _, .more d e =>
    rw [kept, failingAll_append]
    exact (among_failing d).append (among_failing e)
  termination_by d.size
  decreasing_by
    all_goals
      simp only [size] at *
      omega

theorem Among.pairwise {cs : List Failing} {ts : List Token} (h : Among cs ts)
    (ht : ts.Pairwise fun t u => t.range.stop.offset < u.range.stop.offset) :
    cs.Pairwise fun c d => c.range.stop.offset < d.range.stop.offset := by
  have hstops : (ts.map fun t => t.range.stop).Pairwise fun p q => p.offset < q.offset :=
    List.pairwise_map.2 ht
  have hsub : (cs.map fun c => c.range.stop).Pairwise fun p q => p.offset < q.offset :=
    hstops.sublist h.2
  rwa [List.pairwise_map] at hsub

theorem Among.counted {text : List Char} {cs : List Failing} {ts : List Token} (h : Among cs ts)
    (ht : ∀ t ∈ ts, t.StandsIn text) : ∀ c ∈ cs, c.range.start.Counted := by
  intro c hc
  obtain ⟨t, hmem, hstart⟩ := h.1 c hc
  rw [hstart]
  exact (ht t hmem).counted

end ClassLang
