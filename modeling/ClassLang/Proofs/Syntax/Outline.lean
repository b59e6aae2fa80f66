import ClassLang.Proofs.Syntax.Completeness
import ClassLang.Proofs.Syntax.Framing
import ClassLang.Proofs.Syntax.TokenMap

/-!
# Outlines of points

The outline of a reading point has one word for all words in its trees and one place for all places.
It is the point inside a frame with nothing in front, so steps go along with outlines: what is
looked for at a point and where tokens lead, as far as outlines go, is a matter of terminals. Main
statement: the tokens of a derivation can be stepped over whatever names stand among them.
-/

namespace ClassLang

/-! ### Trees without words and places -/

/-- A name that is spelled like no keyword. -/
def plainName : String := "x"

namespace Tree

mutual

/-- A tree with one word for all words. -/
def wordless : Tree → Tree
  | node rule range ts => node rule range (wordlessAll ts)
  | token kind _ range => token kind plainName range
  | absent => absent

def wordlessAll : List Tree → List Tree
  | [] => []
  | t :: ts => t.wordless :: wordlessAll ts

end

theorem wordlessAll_eq_map (ts : List Tree) : wordlessAll ts = ts.map wordless := by
  induction ts with
  | nil => rfl
  | cons t ts ih => rw [wordlessAll, ih, List.map_cons]

theorem range?_wordless (t : Tree) : t.wordless.range? = t.range? := by
  cases t <;> rfl

theorem isPunctuation_wordless (t : Tree) : t.wordless.isPunctuation = t.isPunctuation := by
  cases t with
  | token kind text range => cases kind <;> rfl
  | _ => rfl

theorem close_wordless (r : Rule) (ps : List Tree) :
    (close r ps).wordless = close r (ps.map wordless) := by
  rw [close_map range?_wordless isPunctuation_wordless, close, wordless, wordlessAll_eq_map]

end Tree

def Relocation.nowhere : Relocation := ⟨fun _ => .start, fun _ => .start⟩

def Recast.blank : Recast where
  token t := ⟨t.terminal, plainName, t.range.relocate .nowhere⟩
  tree t := t.wordless.relocate .nowhere
  terminal_token _ := rfl
  tree_absent := rfl
  tree_token t := Tree.relocate_tree .nowhere ⟨t.terminal, plainName, t.range⟩
  tree_close r ps := by rw [Tree.close_wordless, Tree.close_relocate, List.map_map]; rfl

namespace Point

variable {p q : Point} {t u : Token} {ts : List Token}

def outline (p : Point) : Point := p.frame ⟨.blank, [], []⟩

/-- What is looked for is a matter of the outline. -/
theorem accepts_of_outline (h : q.outline = p.outline) : q.accepts = p.accepts := by
  have haccepts : ∀ s : Point, s.outline.accepts = s.accepts := fun s => accepts_frame (Or.inr rfl)
  rw [← haccepts q, h, haccepts]

/-- Whether the text may end is a matter of the outline. -/
theorem isSome_finish?_of_outline (h : q.outline = p.outline) :
    q.finish?.isSome = p.finish?.isSome := by
  have hfinish : ∀ s : Point, s.outline.finish?.isSome = s.finish?.isSome :=
    fun s => isSome_finish?_frame _ s
  rw [← hfinish q, h, hfinish]

/-- Where a token leads, as far as outlines go, is a matter of its terminal. -/
theorem step_of_outline (h : q.outline = p.outline) (ht : u.terminal = t.terminal) :
    (q.step u).map outline = (p.step t).map outline := by
  have htoken : Recast.blank.token u = Recast.blank.token t := by
    simp only [Recast.blank, ht, Range.relocate, Relocation.nowhere]
  have hstep : ∀ (s : Point) (v : Token), (s.step v).map outline =
      s.outline.step (Recast.blank.token v) := fun s v => (step_frame _ v s).symm
  rw [hstep, hstep, h, htoken]

theorem run_outline (p : Point) (ts : List Token) :
    (p.run ts).map outline = p.outline.run (ts.map Recast.blank.token) := by
  induction ts generalizing p with
  | nil => rfl
  | cons t ts ih =>
    have hstep : p.outline.step (Recast.blank.token t) = (p.step t).map outline := step_frame _ t p
    rw [run_cons, List.map_cons, run_cons, hstep]
    cases p.step t with
    | none => rfl
    | some s => exact ih s

theorem Leads.run {p q : Point} {ts : List Token} (h : p.Leads ts q) : p.run ts = some q := by
  induction h with
  | nil => rfl
  | cons _ hs _ ih => rw [run_cons, hs, Option.bind_some, ih]

end Point

/-! ### Derivations with other names -/

namespace DerivationTree

/-- A derivation in which every name is the plain one is clear. -/
theorem clear_of_plainName {p : Phrase} (d : DerivationTree p)
    (h : ∀ t ∈ d.tokens, t.text = plainName) : d.Clear := by
  have havoids : ∀ {words : List String} {ts : List Token}, plainName ∉ words →
      (∀ t ∈ ts, t.text = plainName) → Avoids words ts := by
    intro words ts hw hts t ht hi
    rw [hts t (List.mem_of_mem_head? ht)]
    exact hw
  have hbehind : plainName ∉ wordsBehindList := by decide
  induction d with
  | terminal t ht => trivial
  | @rule r d ih =>
    have hmarks : plainName ∉ marks r := by cases r <;> decide
    exact ⟨havoids hmarks h, ih h⟩
  | type d ih => exact ih h
  | seq d e ihd ihe =>
    obtain ⟨hd, he⟩ := List.forall_mem_append.1 h
    exact ⟨ihd hd, ihe he, fun _ => havoids hbehind he⟩
  | left d ih => exact ih h
  | right d ih => exact ih h
  | absent => trivial
  | present d ih => exact ih h
  | none => trivial
  | more d e ihd ihe =>
    obtain ⟨hd, he⟩ := List.forall_mem_append.1 h
    exact ⟨ihd hd, ihe he, fun _ => havoids hbehind he⟩

end DerivationTree

/-- The tokens of a derivation can be stepped over, whatever names stand among them. -/
theorem StartRule.run_isSome (r : StartRule) (d : DerivationTree r.phrase) :
    (r.point.run d.tokens).isSome = true := by
  -- with other names, none of which could be taken for a keyword, the tokens are read
  let e : DerivationTree r.phrase := d.map Recast.blank.token fun _ => rfl
  have htokens : e.tokens = d.tokens.map Recast.blank.token := d.tokens_map
  have hplain : ∀ t ∈ e.tokens, t.text = plainName := by
    rw [htokens]
    intro t ht
    obtain ⟨s, -, rfl⟩ := List.mem_map.1 ht
    rfl
  obtain ⟨tree, q, -, hleads, -⟩ := r.leads e (DerivationTree.clear_of_plainName e hplain)
  have hpoint : r.point.outline = r.point := by cases r <;> rfl
  have hrun := r.point.run_outline d.tokens
  rw [hpoint, ← htokens, hleads.run] at hrun
  obtain ⟨s, hs, -⟩ := Option.map_eq_some_iff.1 hrun
  rw [hs, Option.isSome_some]

end ClassLang
