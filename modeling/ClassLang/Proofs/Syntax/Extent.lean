import ClassLang.Build.Node
import ClassLang.Proofs.Syntax.Delimited
import ClassLang.Proofs.Syntax.DerivationTree

/-!
# Where things stand

The tokens of a text stand one behind another, each where its range says, and positions count lines
and columns from 1. The node of a derivation ranges from the start of its first token to the stop of
its last (`DerivationTree.extends_pieces`), whatever the pieces in between are.
-/

namespace ClassLang

/-! ### Lines and columns -/

/-- Lines and columns are counted from 1. -/
def Position.Counted (p : Position) : Prop := 1 ≤ p.line ∧ 1 ≤ p.column

namespace Position

theorem counted_start : start.Counted := ⟨Nat.le_refl 1, Nat.le_refl 1⟩

theorem Counted.next {p : Position} (h : p.Counted) (c : Char) : (p.next c).Counted := by
  obtain ⟨hline, hcolumn⟩ := h
  unfold Position.next
  split
  · exact ⟨Nat.le_succ_of_le hline, Nat.le_refl 1⟩
  · exact ⟨hline, Nat.le_succ_of_le hcolumn⟩

theorem Counted.advance {p : Position} (h : p.Counted) (cs : List Char) :
    (p.advance cs).Counted := by
  induction cs generalizing p with
  | nil => exact h
  | cons c cs ih => exact ih (h.next c)

end Position

namespace Reading

variable {r s : Reading} {cause : Rejection}

theorem place_of_moveAt {place : Position} {cs : List Char}
    (h : r.moveAt place cs = .answer (.error cause)) : cause.place = place := by
  unfold moveAt at h
  split at h
  · rw [← Except.error.inj (Move.answer.inj h)]
    rfl
  · simp only at h
    split at h
    · rw [← Except.error.inj (Move.answer.inj h)]
      rfl
    · cases h

/-- A text is rejected at the start of its last token or behind the layout that follows. -/
theorem place_of_answer (h : r.move = .answer (.error cause)) :
    cause.place = r.last ∨ cause.place = r.place.advance (Layout.split r.rest).1 := by
  unfold move moveOver at h
  split at h
  · simp only [answerAtEnd, Move.answer.injEq] at h
    split at h
    · cases h
    · rw [← Except.error.inj h]
      exact Or.inl rfl
  · exact Or.inr (place_of_moveAt h)

theorem place_of_next (h : r.move = .next s) :
    s.last = r.place.advance (Layout.split r.rest).1 ∧ ∃ w, s.place = s.last.advance w ∧
      (Layout.split r.rest).1 ++ (w ++ s.rest) = r.rest := by
  obtain ⟨-, hmove⟩ := move_next h
  obtain ⟨l, hl, -, hs⟩ := moveAt_next hmove
  rw [hs]
  refine ⟨rfl, l.text, rfl, ?_⟩
  simp only [lexeme?_append hl, Layout.split_append]

/-- What is true of where the last token starts, and of every place from here on, is true of the
place where a text is rejected. -/
theorem place_of_run {P : Position → Prop} {r : Reading} (hl : P r.last)
    (hp : ∀ front, front <+: r.rest → P (r.place.advance front)) (h : r.run = .error cause) :
    P cause.place := by
  have hgap := Layout.split_append r.rest
  cases hm : r.move with
  | answer a =>
    rw [run_of_answer hm] at h
    subst h
    obtain hplace | hplace := place_of_answer hm
    · exact hplace ▸ hl
    · exact hplace ▸ hp _ ⟨_, hgap⟩
  | next s =>
    have hlt := rest_length_lt hm
    obtain ⟨hlast, w, hplace, happend⟩ := place_of_next hm
    rw [run_of_next hm] at h
    refine place_of_run (hlast ▸ hp _ ⟨_, hgap⟩) ?_ h
    rintro front ⟨back, hfront⟩
    rw [hplace, hlast, ← Position.advance_append, ← Position.advance_append]
    refine hp _ ⟨back, ?_⟩
    rw [List.append_assoc, List.append_assoc, hfront, happend]
  termination_by r.rest.length

/-- A text is rejected at a line and a column of its own. -/
theorem counted_of_run (hl : r.last.Counted) (hp : r.place.Counted) (h : r.run = .error cause) :
    cause.place.Counted :=
  place_of_run hl (fun front _ => hp.advance front) h

end Reading

/-! ### Tokens -/

/-- Whether a token is what stands at its range, and belongs to its terminal there. -/
structure Token.StandsIn (text : List Char) (t : Token) : Prop where
  isMatch : t.terminal.Matches t.text.toList
  slice : Build.slice text t.range = t.text.toList
  counted : t.range.start.Counted

theorem Terminal.Matches.length_pos {t : Terminal} {w : List Char} (h : t.Matches w) :
    0 < w.length := by
  obtain ⟨c, v, rfl, -⟩ := Terminal.mem_starters h
  exact Nat.succ_pos _

namespace Spread

variable {p : Position} {ts : List Token} {rest : List Char}

/-- Ranges are not empty and do not reach back behind the place from which the tokens are spread. -/
theorem ranges (h : Spread p ts rest) :
    ∀ t ∈ ts, p.offset ≤ t.range.start.offset ∧ t.range.start.offset < t.range.stop.offset := by
  induction h with
  | nil => exact nofun
  | @cons p t ts gap w rest hg hr ht hm _ ih =>
    have hstart : t.range.start.offset = p.offset + gap.length := by
      rw [hr, Position.advance_offset]
    have hstop : t.range.stop.offset = t.range.start.offset + w.length := by
      rw [hr, Position.advance_offset]
    have hpos := hm.length_pos
    refine List.forall_mem_cons.2 ⟨by omega, ?_⟩
    intro u hu
    obtain ⟨hle, hlt⟩ := ih u hu
    omega

/-- Each token stops before the next one does. -/
theorem pairwise_stop (h : Spread p ts rest) :
    ts.Pairwise fun t u => t.range.stop.offset < u.range.stop.offset := by
  induction h with
  | nil => exact .nil
  | cons hg hr ht hm hrest ih =>
    refine .cons ?_ ih
    intro u hu
    obtain ⟨hle, hlt⟩ := hrest.ranges u hu
    omega

theorem standsIn {before : List Char} (h : Spread p ts rest)
    (hp : p = Position.start.advance before) : ∀ t ∈ ts, t.StandsIn (before ++ rest) := by
  induction h generalizing before with
  | nil => exact nofun
  | @cons p t ts gap w rest hg hr ht hm _ ih =>
    have hstart : t.range.start = Position.start.advance (before ++ gap) := by
      rw [hr, hp, Position.advance_append]
    have hstop : t.range.stop = Position.start.advance (before ++ gap ++ w) := by
      rw [hr, hp, Position.advance_append, Position.advance_append]
    have hfrom : t.range.start.offset = (before ++ gap).length := by
      rw [hstart, Position.offset_advance_start]
    have hto : t.range.stop.offset = (before ++ gap).length + w.length := by
      rw [hstop, Position.offset_advance_start, List.length_append]
    have hw : t.text.toList = w := by rw [ht, String.toList_ofList]
    refine List.forall_mem_cons.2 ⟨⟨hw ▸ hm, ?_, ?_⟩, ?_⟩
    · rw [Build.slice, hfrom, hto, Nat.add_sub_cancel_left, hw, ← List.append_assoc,
        List.drop_left, List.take_left]
    · rw [hstart]
      exact Position.counted_start.advance _
    · have hall := ih hstop
      rwa [List.append_assoc, List.append_assoc] at hall

end Spread

/-! ### Nodes -/

/-- Whether pieces range from the start of the first of some tokens to the stop of the last. -/
def Extends (ps : List Tree) (ts : List Token) : Prop :=
  (ps.findSome? Tree.range?).map Range.start = ts.head?.map (·.range.start) ∧
    (ps.reverse.findSome? Tree.range?).map Range.stop = ts.getLast?.map (·.range.stop)

namespace Extends

variable {ps qs : List Tree} {ts us : List Token}

theorem append (h : Extends ps ts) (h' : Extends qs us) : Extends (ps ++ qs) (ts ++ us) := by
  obtain ⟨hs, he⟩ := h
  obtain ⟨hs', he'⟩ := h'
  constructor
  · rw [List.findSome?_append, List.head?_append, Option.map_or, Option.map_or, hs, hs']
  · rw [List.reverse_append, List.findSome?_append, List.getLast?_append, Option.map_or,
      Option.map_or, he, he']

theorem cover (h : Extends ps ts) {t u : Token} (ht : ts.head? = some t)
    (hu : ts.getLast? = some u) : Tree.cover ps = some ⟨t.range.start, u.range.stop⟩ := by
  obtain ⟨hs, he⟩ := h
  rw [ht] at hs
  rw [hu] at he
  obtain ⟨r, hr, hstart⟩ := Option.map_eq_some_iff.1 hs
  obtain ⟨r', hr', hstop⟩ := Option.map_eq_some_iff.1 he
  rw [Tree.cover, hr, hr']
  simp only [hstart, hstop]

theorem exists_cover (h : Extends ps ts) (hne : ts ≠ []) : ∃ range, Tree.cover ps = some range := by
  cases ht : ts.head? with
  | none => exact absurd (List.head?_eq_none_iff.1 ht) hne
  | some t =>
    cases hu : ts.getLast? with
    | none => exact absurd (List.getLast?_eq_none_iff.1 hu) hne
    | some u => exact ⟨_, h.cover ht hu⟩

theorem cover_nil (h : Extends ps []) : Tree.cover ps = none := by
  have hnone : ps.findSome? Tree.range? = none := Option.map_eq_none_iff.1 h.1
  rw [Tree.cover, hnone]

theorem close {r : Rule} (h : Extends ps ts) : Extends [Tree.close r ps] ts := by
  cases ht : ts.head? with
  | none =>
    obtain rfl := List.head?_eq_none_iff.1 ht
    have hcover := h.cover_nil
    simp only [Extends, Tree.close, List.reverse_singleton, List.findSome?_singleton, Tree.range?,
      hcover]
    exact ⟨rfl, rfl⟩
  | some t =>
    cases hu : ts.getLast? with
    | none =>
      obtain rfl := List.getLast?_eq_none_iff.1 hu
      cases ht
    | some u =>
      have hcover := h.cover ht hu
      simp only [Extends, Tree.close, List.reverse_singleton, List.findSome?_singleton,
        Tree.range?, hcover, ht, hu]
      exact ⟨rfl, rfl⟩

end Extends

theorem DerivationTree.extends_pieces {p : Phrase} (d : DerivationTree p) :
    Extends d.pieces d.tokens := by
  induction d with
  | terminal t h => exact ⟨rfl, rfl⟩
  | rule d ih => exact ih.close
  | type d ih => exact ih
  | seq d e ihd ihe => exact ihd.append ihe
  | left d ih => exact ih
  | right d ih => exact ih
  | absent => exact ⟨rfl, rfl⟩
  | present d ih => exact ih
  | none => exact ⟨rfl, rfl⟩
  | more d e ihd ihe => exact ihd.append ihe

end ClassLang
