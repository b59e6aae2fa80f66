import ClassLang.Parse
import ClassLang.Syntax.Progress

/-!
# Derivation trees

A derivation of a phrase as a tree: which alternative is taken, which optional parts are there, how
often an item is repeated, and at the leaves the tokens, punctuation included. `tokens` is the yield
of a derivation and `pieces` what it leaves in the syntax tree. Main statement: a text that is
tokenized is spread from the yield of a derivation of its tree.
-/

namespace ClassLang

inductive DerivationTree : Phrase → Type
  | terminal {k : Terminal} (t : Token) (h : t.terminal = k) : DerivationTree (.terminal k)
  | rule {r : Rule} (d : DerivationTree r.phrase) : DerivationTree (.rule r)
  | type (d : DerivationTree Phrase.typeForms) : DerivationTree .type
  | seq {p q : Phrase} (d : DerivationTree p) (e : DerivationTree q) : DerivationTree (.seq p q)
  | left {p q : Phrase} (d : DerivationTree p) : DerivationTree (.either p q)
  | right {p q : Phrase} (d : DerivationTree q) : DerivationTree (.either p q)
  | absent {p : Phrase} : DerivationTree (.maybe p)
  | present {p : Phrase} (d : DerivationTree p) : DerivationTree (.maybe p)
  | none {p : Phrase} : DerivationTree (.many p)
  | more {p : Phrase} (d : DerivationTree p) (e : DerivationTree (.many p)) :
      DerivationTree (.many p)

namespace DerivationTree

variable {p q : Phrase}

/-- The leaves from left to right. -/
def tokens {p : Phrase} : DerivationTree p → List Token
  | terminal t _ => [t]
  | rule d => d.tokens
  | type d => d.tokens
  | seq d e => d.tokens ++ e.tokens
  | left d => d.tokens
  | right d => d.tokens
  | absent => []
  | present d => d.tokens
  | none => []
  | more d e => d.tokens ++ e.tokens

/-- What a derivation leaves in the syntax tree. A rule leaves its node, which lacks punctuation, a
type the node of its form, and an optional part that is not there the sign of its absence. -/
def pieces {p : Phrase} : DerivationTree p → List Tree
  | terminal t _ => [t.tree]
  | rule (r := r) d => [Tree.close r d.pieces]
  | type d => d.pieces
  | seq d e => d.pieces ++ e.pieces
  | left d => d.pieces
  | right d => d.pieces
  | absent => [.absent]
  | present d => d.pieces
  | none => []
  | more d e => d.pieces ++ e.pieces

/-- The number of nodes, by which derivations are gone through. -/
def size {p : Phrase} : DerivationTree p → Nat
  | terminal _ _ => 1
  | rule d => d.size + 1
  | type d => d.size + 1
  | seq d e => d.size + e.size + 1
  | left d => d.size + 1
  | right d => d.size + 1
  | absent => 1
  | present d => d.size + 1
  | none => 1
  | more d e => d.size + e.size + 1

theorem derives (d : DerivationTree p) : Derives p d.tokens d.pieces := by
  induction d with
  | terminal t h => exact h ▸ .terminal t
  | rule d ih => exact .rule ih
  | type d ih => exact .type ih
  | seq d e ihd ihe => exact .seq ihd ihe
  | left d ih => exact .left ih
  | right d ih => exact .right ih
  | absent => exact .absent
  | present d ih => exact .present ih
  | none => exact .none
  | more d e ihd ihe => exact .more ihd ihe

theorem value_cases (d : DerivationTree (.rule .value)) :
    ∃ t : Token, t.terminal.isLiteral = true ∧ d.tokens = [t] ∧
      d.pieces = [Tree.close .value [t.tree]] := by
  match d with
  | .rule (.left (.left (.left (.left (.left (.terminal t ht)))))) => exact ⟨t, ht ▸ rfl, rfl, rfl⟩
  | .rule (.left (.left (.left (.left (.right (.terminal t ht)))))) =>
    exact ⟨t, ht ▸ rfl, rfl, rfl⟩
  | .rule (.left (.left (.left (.right (.terminal t ht))))) => exact ⟨t, ht ▸ rfl, rfl, rfl⟩
  | .rule (.left (.left (.right (.terminal t ht)))) => exact ⟨t, ht ▸ rfl, rfl, rfl⟩
  | .rule (.left (.right (.terminal t ht))) => exact ⟨t, ht ▸ rfl, rfl, rfl⟩
  | .rule (.right (.terminal t ht)) => exact ⟨t, ht ▸ rfl, rfl, rfl⟩

end DerivationTree

/-! ### What is gathered from a tree -/

section Gathering

variable {α : Type} (f : Label Terminal → String → Range → List α)

namespace Tree

mutual

/-- What is gathered from the tokens of a tree, from left to right. -/
def gather : Tree → List α
  | node _ _ ts => gatherAll ts
  | token kind text range => f kind text range
  | absent => []

def gatherAll : List Tree → List α
  | [] => []
  | t :: ts => t.gather ++ gatherAll ts

end

theorem gatherAll_singleton (t : Tree) : gatherAll f [t] = t.gather f := by
  rw [gatherAll, gatherAll, List.append_nil]

theorem gatherAll_append (ts us : List Tree) :
    gatherAll f (ts ++ us) = gatherAll f ts ++ gatherAll f us := by
  induction ts with
  | nil => rfl
  | cons t ts ih => rw [List.cons_append, gatherAll, gatherAll, ih, List.append_assoc]

theorem gatherAll_sublist {ts us : List Tree} (h : ts.Sublist us) :
    (gatherAll f ts).Sublist (gatherAll f us) := by
  induction h with
  | slnil => exact .refl _
  | cons t _ ih =>
    rw [gatherAll]
    exact ih.trans (List.sublist_append_right _ _)
  | cons_cons t _ ih =>
    rw [gatherAll, gatherAll]
    exact ih.append_left _

end Tree

/-- The tokens in the tree of a derivation are its leaves but for punctuation. -/
theorem DerivationTree.gather_sublist {p : Phrase} (d : DerivationTree p) :
    (Tree.gatherAll f d.pieces).Sublist
      (d.tokens.flatMap fun t => f (.known t.terminal) t.text t.range) := by
  induction d with
  | terminal t h =>
    rw [pieces, Tree.gatherAll_singleton, tokens, List.flatMap_singleton]
    exact .refl _
  | rule d ih =>
    rw [pieces, Tree.gatherAll_singleton, Tree.close, Tree.gather]
    exact (Tree.gatherAll_sublist f List.filter_sublist).trans ih
  | type d ih => exact ih
  | seq d e ihd ihe =>
    rw [pieces, tokens, Tree.gatherAll_append, List.flatMap_append]
    exact ihd.append ihe
  | left d ih => exact ih
  | right d ih => exact ih
  | absent => exact .refl _
  | present d ih => exact ih
  | none => exact .refl _
  | more d e ihd ihe =>
    rw [pieces, tokens, Tree.gatherAll_append, List.flatMap_append]
    exact ihd.append ihe

end Gathering

namespace DerivationTree

variable {p : Phrase}

/-! ### Names that could be taken for keywords -/

/-- Whether no name that is spelled like one of some words stands in front. -/
def Avoids (words : List String) (ts : List Token) : Prop :=
  ∀ t ∈ ts.head?, t.terminal = .identifier → t.text ∉ words

/-- The words that are taken for the mark of a rule in front of it. -/
def marks : Rule → List String
  | .property => ["meta"]
  | .fieldDecl => ["static"]
  | .methodDecl => ["static"]
  | .typeSpelling => ["const"]
  | _ => []

/-- The words that are taken for keywords behind any property list. -/
def wordsBehindList : List String := ["class", "static", "const"]

/-- Whether the last token is the closing bracket of a property list. -/
def EndsInList {p : Phrase} : DerivationTree p → Prop
  | terminal _ _ => False
  | rule (r := r) d => r = .properties ∨ d.EndsInList
  | type d => d.EndsInList
  | seq d e => e.EndsInList ∨ e.tokens = [] ∧ d.EndsInList
  | left d => d.EndsInList
  | right d => d.EndsInList
  | absent => False
  | present d => d.EndsInList
  | none => False
  | more d e => e.EndsInList ∨ e.tokens = [] ∧ d.EndsInList

/-- Whether no name stands where its text is taken for a keyword: in place of the mark of a rule, or
right behind a property list. -/
def Clear {p : Phrase} : DerivationTree p → Prop
  | terminal _ _ => True
  | rule (r := r) d => Avoids (marks r) d.tokens ∧ d.Clear
  | type d => d.Clear
  | seq d e => d.Clear ∧ e.Clear ∧ (d.EndsInList → Avoids wordsBehindList e.tokens)
  | left d => d.Clear
  | right d => d.Clear
  | absent => True
  | present d => d.Clear
  | none => True
  | more d e => d.Clear ∧ e.Clear ∧ (d.EndsInList → Avoids wordsBehindList e.tokens)

end DerivationTree

theorem Derives.exists_derivationTree {p : Phrase} {ts : List Token} {ps : List Tree}
    (h : Derives p ts ps) : ∃ d : DerivationTree p, d.tokens = ts ∧ d.pieces = ps := by
  induction h with
  | terminal t => exact ⟨.terminal t rfl, rfl, rfl⟩
  | rule _ ih =>
    obtain ⟨d, rfl, rfl⟩ := ih
    exact ⟨.rule d, rfl, rfl⟩
  | type _ ih =>
    obtain ⟨d, rfl, rfl⟩ := ih
    exact ⟨.type d, rfl, rfl⟩
  | seq _ _ ihd ihe =>
    obtain ⟨d, rfl, rfl⟩ := ihd
    obtain ⟨e, rfl, rfl⟩ := ihe
    exact ⟨.seq d e, rfl, rfl⟩
  | left _ ih =>
    obtain ⟨d, rfl, rfl⟩ := ih
    exact ⟨.left d, rfl, rfl⟩
  | right _ ih =>
    obtain ⟨d, rfl, rfl⟩ := ih
    exact ⟨.right d, rfl, rfl⟩
  | absent => exact ⟨.absent, rfl, rfl⟩
  | present _ ih =>
    obtain ⟨d, rfl, rfl⟩ := ih
    exact ⟨.present d, rfl, rfl⟩
  | none => exact ⟨.none, rfl, rfl⟩
  | more _ _ ihd ihe =>
    obtain ⟨d, rfl, rfl⟩ := ihd
    obtain ⟨e, rfl, rfl⟩ := ihe
    exact ⟨.more d e, rfl, rfl⟩

theorem read_of_tokenize {r : StartRule} {text : List Char} {tree : Tree}
    (h : tokenize r text = .ok tree) : r.read text = .ok tree := by
  unfold tokenize at h
  split at h
  · rename_i t ht
    rw [ht, Except.ok.inj h]
  · cases h

/-- Nothing outside the grammar is accepted and nothing of the text is lost: between the tokens of
the text stands only layout, and its tree is the one of a derivation with these tokens. -/
theorem tokenize_sound {r : StartRule} {text : List Char} {tree : Tree}
    (h : tokenize r text = .ok tree) :
    ∃ d : DerivationTree r.phrase, Spread .start d.tokens text ∧ d.pieces = [tree] := by
  obtain ⟨ts, hspread, hderives⟩ := derives_of_read (read_of_tokenize h)
  obtain ⟨d, rfl, hpieces⟩ := hderives.exists_derivationTree
  exact ⟨d, hspread, hpieces⟩

/-- A text with comments between its tokens. -/
theorem tokenize_sound_class :
    ∃ tree, tokenize .unit "[a]/* */class A // b\n{}".toList = .ok tree ∧
      ∃ d : DerivationTree StartRule.unit.phrase,
        Spread .start d.tokens "[a]/* */class A // b\n{}".toList ∧ d.pieces = [tree] := by
  have hok : (tokenize .unit "[a]/* */class A // b\n{}".toList).toOption.isSome = true := by
    decide +kernel
  cases h : tokenize .unit "[a]/* */class A // b\n{}".toList with
  | error e =>
    rw [h] at hok
    cases hok
  | ok tree => exact ⟨tree, rfl, tokenize_sound h⟩

end ClassLang
