import ClassLang.Proofs.Syntax.DerivationTree
import ClassLang.Proofs.Syntax.Relocation

/-!
# Derivations with other tokens

A derivation has the form of its terminals, so its leaves can be replaced by any tokens of the same
terminals (`DerivationTree.map`). Other names may stand there, or the same words in other places:
then the pieces are relocated, and where keywords are looked for does not change.
-/

namespace ClassLang.DerivationTree

variable {p : Phrase} {f : Token → Token}

/-- The derivation with every leaf replaced by one of the same terminal. -/
def map (f : Token → Token) (hf : ∀ t, (f t).terminal = t.terminal) {p : Phrase} :
    DerivationTree p → DerivationTree p
  | terminal t h => terminal (f t) ((hf t).trans h)
  | rule d => rule (d.map f hf)
  | type d => type (d.map f hf)
  | seq d e => seq (d.map f hf) (e.map f hf)
  | left d => left (d.map f hf)
  | right d => right (d.map f hf)
  | absent => absent
  | present d => present (d.map f hf)
  | none => none
  | more d e => more (d.map f hf) (e.map f hf)

variable {hf : ∀ t, (f t).terminal = t.terminal}

theorem tokens_map (d : DerivationTree p) : (d.map f hf).tokens = d.tokens.map f := by
  induction d with
  | terminal t h => rfl
  | rule d ih => exact ih
  | type d ih => exact ih
  | seq d e ihd ihe => rw [map, tokens, tokens, ihd, ihe, List.map_append]
  | left d ih => exact ih
  | right d ih => exact ih
  | absent => rfl
  | present d ih => exact ih
  | none => rfl
  | more d e ihd ihe => rw [map, tokens, tokens, ihd, ihe, List.map_append]

theorem tokens_map_eq_nil {d : DerivationTree p} : (d.map f hf).tokens = [] ↔ d.tokens = [] := by
  rw [tokens_map, List.map_eq_nil_iff]

theorem endsInList_map (d : DerivationTree p) : (d.map f hf).EndsInList ↔ d.EndsInList := by
  induction d with
  | terminal t h => rfl
  | rule d ih => exact or_congr_right ih
  | type d ih => exact ih
  | seq d e ihd ihe => exact or_congr ihe (and_congr tokens_map_eq_nil ihd)
  | left d ih => exact ih
  | right d ih => exact ih
  | absent => rfl
  | present d ih => exact ih
  | none => rfl
  | more d e ihd ihe => exact or_congr ihe (and_congr tokens_map_eq_nil ihd)

theorem Avoids.map {words : List String} {ts : List Token} (h : Avoids words ts)
    (hf : ∀ t, (f t).terminal = t.terminal)
    (hname : ∀ t, t.terminal = .identifier → (f t).text = t.text) : Avoids words (ts.map f) := by
  intro t ht hi
  rw [List.head?_map, Option.mem_def, Option.map_eq_some_iff] at ht
  obtain ⟨s, hs, rfl⟩ := ht
  rw [hf s] at hi
  rw [hname s hi]
  exact h s hs hi

/-- The words that are taken for keywords in some place of a name. -/
def reservedWords : List String := ["class", "static", "const", "meta"]

theorem marks_subset (r : Rule) : marks r ⊆ reservedWords := by
  cases r <;> decide

theorem wordsBehindList_subset : wordsBehindList ⊆ reservedWords := by decide

/-- A derivation is as clear as it was if its new tokens avoid every keyword that the old ones
avoid. -/
theorem Clear.map_of_avoids {d : DerivationTree p} (h : d.Clear)
    (havoids : ∀ words ts, words ⊆ reservedWords → Avoids words ts → Avoids words (ts.map f)) :
    (d.map f hf).Clear := by
  have hmap : ∀ {q : Phrase} {words : List String} {e : DerivationTree q}, words ⊆ reservedWords →
      Avoids words e.tokens → Avoids words (e.map f hf).tokens := by
    intro q words e hw he
    rw [tokens_map]
    exact havoids words e.tokens hw he
  induction d with
  | terminal t h => trivial
  | rule d ih => exact ⟨hmap (marks_subset _) h.1, ih h.2⟩
  | type d ih => exact ih h
  | seq d e ihd ihe =>
    refine ⟨ihd h.1, ihe h.2.1, fun hl => hmap wordsBehindList_subset ?_⟩
    exact h.2.2 ((endsInList_map d).1 hl)
  | left d ih => exact ih h
  | right d ih => exact ih h
  | absent => trivial
  | present d ih => exact ih h
  | none => trivial
  | more d e ihd ihe =>
    refine ⟨ihd h.1, ihe h.2.1, fun hl => hmap wordsBehindList_subset ?_⟩
    exact h.2.2 ((endsInList_map d).1 hl)

/-- A derivation with the same names in it is as clear as it was. -/
theorem Clear.map {d : DerivationTree p} (h : d.Clear)
    (hname : ∀ t, t.terminal = .identifier → (f t).text = t.text) : (d.map f hf).Clear :=
  h.map_of_avoids fun _ _ _ havoids => havoids.map hf hname

/-! ### The same words in other places -/

def relocate (m : Relocation) (d : DerivationTree p) : DerivationTree p :=
  d.map (Token.relocate m) (Token.terminal_relocate m)

variable (m : Relocation)

theorem tokens_relocate (d : DerivationTree p) :
    (d.relocate m).tokens = d.tokens.map (Token.relocate m) :=
  d.tokens_map

theorem pieces_relocate (d : DerivationTree p) :
    (d.relocate m).pieces = d.pieces.map (Tree.relocate m) := by
  induction d with
  | terminal t h => exact congrArg (fun t => [t]) (Tree.relocate_tree m t).symm
  | @rule r d ih =>
    show [Tree.close r (d.relocate m).pieces] = [(Tree.close r d.pieces).relocate m]
    rw [ih, Tree.close_relocate]
  | type d ih => exact ih
  | seq d e ihd ihe =>
    show (d.relocate m).pieces ++ (e.relocate m).pieces = (d.pieces ++ e.pieces).map _
    rw [ihd, ihe, List.map_append]
  | left d ih => exact ih
  | right d ih => exact ih
  | absent => rfl
  | present d ih => exact ih
  | none => rfl
  | more d e ihd ihe =>
    show (d.relocate m).pieces ++ (e.relocate m).pieces = (d.pieces ++ e.pieces).map _
    rw [ihd, ihe, List.map_append]

theorem Clear.relocate {d : DerivationTree p} (h : d.Clear) : (d.relocate m).Clear :=
  h.map (f := Token.relocate m) fun _ _ => rfl

end ClassLang.DerivationTree
