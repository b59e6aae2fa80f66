import ClassLang.Proofs.Syntax.DerivationTree
import ClassLang.Proofs.Syntax.Laid
import Mathlib.Data.List.Forall2

/-!
# Trees written out

The leaves of a derivation written one after the other with single blanks between them. What is read
from such a text stands where the text puts it, so trees are compared without their ranges. Main
statements: the written text is laid out from tokens that differ in their ranges alone, and they are
the yield of a derivation with the same tree and the same keywords.
-/

namespace ClassLang

/-! ### Trees without ranges -/

namespace Tree

mutual

def unplaced : Tree → Tree
  | node rule _ children => node rule none (unplacedAll children)
  | token kind text _ => token kind text ⟨.start, .start⟩
  | absent => absent

def unplacedAll : List Tree → List Tree
  | [] => []
  | t :: ts => t.unplaced :: unplacedAll ts

end

theorem unplacedAll_eq_map (ts : List Tree) : unplacedAll ts = ts.map unplaced := by
  induction ts with
  | nil => rfl
  | cons t ts ih => rw [unplacedAll, ih, List.map_cons]

theorem isPunctuation_unplaced (t : Tree) : t.unplaced.isPunctuation = t.isPunctuation := by
  cases t with
  | token kind text range => cases kind <;> simp only [unplaced, isPunctuation]
  | _ => simp only [unplaced, isPunctuation]

theorem unplaced_close (r : Rule) (ps : List Tree) :
    (close r ps).unplaced =
      node (.known r) none ((ps.map unplaced).filter fun t => !t.isPunctuation) := by
  rw [close, unplaced, unplacedAll_eq_map, List.filter_map]
  simp only [Function.comp_def, isPunctuation_unplaced]

end Tree

/-! ### Tokens in other places -/

/-- Tokens that differ in their ranges at most. -/
def Token.Alike (t u : Token) : Prop := t.terminal = u.terminal ∧ t.text = u.text

theorem Token.unplaced_tree {t u : Token} (h : t.Alike u) : t.tree.unplaced = u.tree.unplaced := by
  rw [tree, tree, h.1, h.2, Tree.unplaced, Tree.unplaced]

namespace DerivationTree

variable {p : Phrase} {ts us : List Token}

theorem avoids_of_alike {words : List String} (h : List.Forall₂ Token.Alike us ts)
    (ha : Avoids words ts) : Avoids words us := by
  cases h with
  | nil => exact ha
  | cons hut _ =>
    intro u hu hi
    obtain rfl := Option.some.inj hu
    rw [hut.2]
    exact ha _ rfl (hut.1.symm.trans hi)

theorem eq_nil_of_alike (h : List.Forall₂ Token.Alike us ts) (hu : us = []) : ts = [] := by
  subst hu
  exact List.forall₂_nil_left_iff.1 h

/-- What two derivations of the same form share: the tree, and where keywords are looked for. -/
structure Alike (d e : DerivationTree p) : Prop where
  pieces : e.pieces.map Tree.unplaced = d.pieces.map Tree.unplaced
  endsInList : e.EndsInList → d.EndsInList
  clear : d.Clear → e.Clear

/-- Two derivations one behind the other share what each of them shares. -/
theorem Alike.both {q : Phrase} {d e : DerivationTree p} {d' e' : DerivationTree q}
    (h : d.Alike e) (h' : d'.Alike e') (hts : List.Forall₂ Token.Alike e'.tokens d'.tokens) :
    (e.pieces ++ e'.pieces).map Tree.unplaced = (d.pieces ++ d'.pieces).map Tree.unplaced ∧
      (e'.EndsInList ∨ e'.tokens = [] ∧ e.EndsInList →
        d'.EndsInList ∨ d'.tokens = [] ∧ d.EndsInList) ∧
      (d.Clear ∧ d'.Clear ∧ (d.EndsInList → Avoids wordsBehindList d'.tokens) →
        e.Clear ∧ e'.Clear ∧ (e.EndsInList → Avoids wordsBehindList e'.tokens)) := by
  refine ⟨?_, ?_, ?_⟩
  · rw [List.map_append, List.map_append, h.pieces, h'.pieces]
  · rintro (hl | ⟨hnil, hl⟩)
    · exact Or.inl (h'.endsInList hl)
    · exact Or.inr ⟨eq_nil_of_alike hts hnil, h.endsInList hl⟩
  · rintro ⟨hc, hc', hw⟩
    refine ⟨h.clear hc, h'.clear hc', ?_⟩
    intro hl
    exact avoids_of_alike hts (hw (h.endsInList hl))

/-- A derivation takes any other places for its tokens. -/
theorem exists_alike (d : DerivationTree p) (h : List.Forall₂ Token.Alike us d.tokens) :
    ∃ e : DerivationTree p, e.tokens = us ∧ d.Alike e := by
  induction d generalizing us with
  | terminal t ht =>
    obtain ⟨u, rest, hut, hrest, rfl⟩ := List.forall₂_cons_right_iff.1 h
    obtain rfl := List.forall₂_nil_right_iff.1 hrest
    refine ⟨.terminal u (hut.1.trans ht), rfl, ?_, id, id⟩
    simp only [pieces, List.map_cons, Token.unplaced_tree hut]
  | rule d ih =>
    obtain ⟨e, rfl, hp, hl, hc⟩ := ih h
    refine ⟨.rule e, rfl, ?_, Or.imp_right hl, fun hd => ⟨avoids_of_alike h hd.1, hc hd.2⟩⟩
    simp only [pieces, List.map_cons, List.map_nil, Tree.unplaced_close, hp]
  | type d ih =>
    obtain ⟨e, rfl, hp, hl, hc⟩ := ih h
    exact ⟨.type e, rfl, hp, hl, hc⟩
  | left d ih =>
    obtain ⟨e, rfl, hp, hl, hc⟩ := ih h
    exact ⟨.left e, rfl, hp, hl, hc⟩
  | right d ih =>
    obtain ⟨e, rfl, hp, hl, hc⟩ := ih h
    exact ⟨.right e, rfl, hp, hl, hc⟩
  | absent =>
    obtain rfl := List.forall₂_nil_right_iff.1 h
    exact ⟨.absent, rfl, rfl, id, id⟩
  | present d ih =>
    obtain ⟨e, rfl, hp, hl, hc⟩ := ih h
    exact ⟨.present e, rfl, hp, hl, hc⟩
  | none =>
    obtain rfl := List.forall₂_nil_right_iff.1 h
    exact ⟨.none, rfl, rfl, id, id⟩
  | seq d d' ih ih' =>
    have hback := List.forall₂_drop_append us d.tokens d'.tokens h
    obtain ⟨e, hts, he⟩ := ih (List.forall₂_take_append us d.tokens d'.tokens h)
    obtain ⟨e', hts', he'⟩ := ih' hback
    rw [← hts'] at hback
    obtain ⟨hp, hl, hc⟩ := he.both he' hback
    exact ⟨.seq e e', by rw [tokens, hts, hts', List.take_append_drop], hp, hl, hc⟩
  | more d d' ih ih' =>
    have hback := List.forall₂_drop_append us d.tokens d'.tokens h
    obtain ⟨e, hts, he⟩ := ih (List.forall₂_take_append us d.tokens d'.tokens h)
    obtain ⟨e', hts', he'⟩ := ih' hback
    rw [← hts'] at hback
    obtain ⟨hp, hl, hc⟩ := he.both he' hback
    exact ⟨.more e e', by rw [tokens, hts, hts', List.take_append_drop], hp, hl, hc⟩

end DerivationTree

/-! ### Single blanks between tokens -/

/-- The texts of tokens with single blanks between them. -/
def spaced (ts : List Token) : List Char := [' '].intercalate (ts.map fun t => t.text.toList)

theorem spaced_single (t : Token) : spaced [t] = t.text.toList := by
  simp [spaced, List.intercalate]

theorem spaced_cons_cons (t u : Token) (ts : List Token) :
    spaced (t :: u :: ts) = t.text.toList ++ ' ' :: spaced (u :: ts) := by
  simp [spaced, List.intercalate]

theorem spaced_cons (t : Token) (ts : List Token) :
    ∃ rest, spaced (t :: ts) = t.text.toList ++ rest := by
  cases ts with
  | nil => exact ⟨[], by rw [spaced_single, List.append_nil]⟩
  | cons u ts => exact ⟨_, spaced_cons_cons t u ts⟩

/-- No lexeme starts with an angle bracket or a blank. -/
theorem Terminal.angle_blank {t : Terminal} {w rest : List Char} (h : t.Matches w) :
    Scan.angle (' ' :: (w ++ rest)) = none := by
  obtain ⟨c, v, rfl, hc⟩ := mem_starters h
  have hblank : Blank.isMatrixBlank c = false := by
    by_contra hb
    simp only [Blank.isMatrixBlank, Bool.not_eq_false, Bool.or_eq_true, decide_eq_true_eq] at hb
    rcases hb with ((rfl | rfl) | rfl) | rfl <;> cases hc
  have hangle : c ≠ '<' := by
    rintro rfl
    cases hc
  have hdrop : (' ' :: (c :: v ++ rest)).dropWhile Blank.isMatrixBlank = c :: v ++ rest := by
    rw [List.dropWhile_cons_of_pos (by decide), List.cons_append,
      List.dropWhile_cons_of_neg (by rw [hblank]; exact Bool.false_ne_true)]
  rw [Scan.angle, hdrop, List.cons_append, Scan.word, if_neg]
  · rfl
  · simp [List.isPrefixOf, Ne.symm hangle]

theorem Terminal.endsBefore_nil (t : Terminal) : t.EndsBefore [] := by
  cases t <;> first | exact ⟨rfl, rfl⟩ | exact rfl | exact trivial

theorem Terminal.endsBefore_blank (t : Terminal) {cs : List Char}
    (h : Scan.angle (' ' :: cs) = none) : t.EndsBefore (' ' :: cs) := by
  cases t <;> first | exact ⟨rfl, h⟩ | exact ⟨rfl, rfl⟩ | exact rfl | exact trivial

theorem exists_laid_spaced {ts : List Token} (hm : ∀ t ∈ ts, t.terminal.Matches t.text.toList)
    {gap : List Char} (hg : ∀ closed, Layout.IsGap closed gap) (p : Position) :
    ∃ us, List.Forall₂ Token.Alike us ts ∧ Laid p us (gap ++ spaced ts) := by
  induction ts generalizing p gap with
  | nil =>
    have hnil : gap ++ spaced [] = gap := List.append_nil gap
    exact ⟨[], .nil, .nil (hnil.symm ▸ hg false)⟩
  | cons t ts ih =>
    have ht := hm t List.mem_cons_self
    let range : Range := ⟨p.advance gap, (p.advance gap).advance t.text.toList⟩
    cases ts with
    | nil =>
      refine ⟨[⟨t.terminal, t.text, range⟩], .cons ⟨rfl, rfl⟩ .nil, ?_⟩
      rw [spaced_single, ← List.append_nil t.text.toList]
      exact .cons (hg true) rfl ht (Terminal.endsBefore_nil _) (.nil .nil)
    | cons u ts =>
      have hblank : ∀ closed, Layout.IsGap closed [' '] := fun _ => .blank rfl .nil
      obtain ⟨us, halike, hlaid⟩ := ih (fun u hu => hm u (List.mem_cons_of_mem t hu)) hblank
        range.stop
      have hu := hm u (List.mem_cons_of_mem t List.mem_cons_self)
      refine ⟨⟨t.terminal, t.text, range⟩ :: us, .cons ⟨rfl, rfl⟩ halike, ?_⟩
      rw [spaced_cons_cons]
      refine .cons (hg true) rfl ht (Terminal.endsBefore_blank _ ?_) hlaid
      obtain ⟨rest, hrest⟩ := spaced_cons u ts
      rw [hrest]
      exact Terminal.angle_blank hu

end ClassLang
