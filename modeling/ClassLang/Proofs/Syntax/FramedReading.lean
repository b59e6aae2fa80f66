import ClassLang.Proofs.Syntax.Framing
import ClassLang.Proofs.Syntax.Trail
import Mathlib.Data.List.Forall2

/-!
# Reading inside a frame

Inside a frame a text is read like by itself. A trail is a trail inside the frame, whatever layout
stands between its words there (`Trail.frame`). Where the frame does no more than shift positions,
every reading corresponds, rejections included (`Reading.run_frame`).
-/

namespace ClassLang

/-! ### The same words with other layout -/

/-- Whether a piece has the word of another, behind layout of its own. -/
def Piece.SameWord (x y : Piece) : Prop :=
  y.terminal = x.terminal ∧ y.word = x.word ∧ Layout.IsGap true y.gap

/-- Whether layout in front of a word stays layout. -/
def Piece.KeepsGap (x y : Piece) : Prop := x.gap ≠ [] → y.gap ≠ []

theorem startsWith_weave {accepted : List Terminal} {t : Terminal} {p : Point} {place : Position}
    {q : Point} {xs ys : List Piece} {tail tail' : List Char} (h : Trail p place xs tail q)
    (hw : List.Forall₂ Piece.SameWord xs ys) (hg : List.Forall₂ Piece.KeepsGap xs ys)
    (ht : Layout.IsGap false tail')
    (hc : startsWith (t.carriesOn accepted) (weave xs tail) = false) :
    startsWith (t.carriesOn accepted) (weave ys tail') = false := by
  cases hw with
  | nil => exact ht.blunt.1 accepted t
  | @cons x y xs ys hxy _ =>
    obtain ⟨-, hword, hgap⟩ := hxy
    rw [weave]
    by_cases hy : y.gap = []
    · have hx : x.gap = [] := by
        by_contra hx
        obtain _ | ⟨hkeeps, _⟩ := hg
        exact hkeeps hx hy
      cases h with
      | cons _ hm _ _ _ _ =>
        rw [weave, hx, List.nil_append, startsWith_of_ne_nil hm.ne_nil] at hc
        rw [hy, List.nil_append, hword, startsWith_of_ne_nil hm.ne_nil]
        exact hc
    · rw [startsWith_of_ne_nil hy]
      exact hgap.blunt.1 accepted t

/-- A trail is a trail inside a frame that puts its tokens where other layout puts them. -/
theorem Trail.frame {f : Frame} {r : StartRule} {ts : List Token} {p q : Point}
    {place place' : Position} {xs ys : List Piece} {tail tail' : List Char}
    (h : Trail p place xs tail q) (hp : p.Reached r ts) (hne : p ≠ .loneDeclaration)
    (hw : List.Forall₂ Piece.SameWord xs ys) (hg : List.Forall₂ Piece.KeepsGap xs.tail ys.tail)
    (ht : Layout.IsGap false tail')
    (hf : tokensFrom place' ys = (tokensFrom place xs).map f.token) :
    Trail (p.frame f) place' ys tail' (q.frame f) := by
  induction h generalizing ys place' ts with
  | nil =>
    obtain rfl := List.forall₂_nil_left_iff.1 hw
    exact .nil ht
  | @cons p q s place x xs tail hgap hm hc htells hs h ih =>
    obtain ⟨y, ys, hxy, hws, rfl⟩ := List.forall₂_cons_left_iff.1 hw
    obtain ⟨hterminal, hword, hygap⟩ := hxy
    obtain ⟨htoken, htokens⟩ := List.cons.inj hf
    obtain ⟨hreached, hnext⟩ := Point.reached_step_ne hp hs
    have hkeeps : List.Forall₂ Piece.KeepsGap xs.tail ys.tail := by
      cases hg with
      | nil => exact .nil
      | cons _ hrest => exact hrest
    refine .cons hygap (by rw [hterminal, hword]; exact hm) ?_ ?_ ?_
      (ih hreached hnext hws hkeeps htokens)
    · rw [Point.accepts_frame (Or.inl hne), hterminal]
      exact startsWith_weave h hws hg ht hc
    · intro hi
      have htext : (y.token place').text = (x.token place).text := congrArg String.ofList hword
      rw [Point.accepts_frame (Or.inl hne), htext]
      exact htells (hterminal.symm.trans hi)
    · rw [htoken, Point.step_frame, hs]
      rfl

/-! ### Readings behind more text -/

def Rejection.shift (offset lines : Nat) (c : Rejection) : Rejection :=
  ⟨c.unexpected, c.place.shift offset lines⟩

/-- What is answered inside a frame. -/
def Frame.answer (f : Frame) (offset lines : Nat) (a : Except Rejection Tree) :
    Except Rejection Tree :=
  (a.map f.root).mapError (Rejection.shift offset lines)

def Reading.frame (f : Frame) (offset lines : Nat) (r : Reading) : Reading :=
  ⟨r.point.frame f, r.last.shift offset lines, r.place.shift offset lines, r.rest⟩

/-- The move inside a frame that corresponds to a move. -/
def Move.frame (f : Frame) (offset lines : Nat) : Move → Move
  | next s => next (s.frame f offset lines)
  | answer a => answer (f.answer offset lines a)

namespace Reading

variable {f : Frame} {offset lines : Nat}

theorem answerAtEnd_frame {r : Reading} (hs : ∀ t, r.point ≠ .suffix t .alone) :
    (r.frame f offset lines).answerAtEnd = f.answer offset lines r.answerAtEnd := by
  have hfinish : (r.frame f offset lines).point.finish? = r.point.finish?.map f.root :=
    Point.finish?_frame hs
  rw [answerAtEnd, answerAtEnd, hfinish]
  cases r.point.finish? <;> rfl

theorem moveAt_frame (hf : f.toRecast = (Relocation.shift offset lines).recast) {r : Reading}
    (hne : r.point ≠ .loneDeclaration) (place : Position) (cs : List Char) :
    (r.frame f offset lines).moveAt (place.shift offset lines) cs =
      (r.moveAt place cs).frame f offset lines := by
  have haccepts : (r.frame f offset lines).point.accepts = r.point.accepts :=
    Point.accepts_frame (Or.inl hne)
  rw [moveAt, moveAt, haccepts]
  cases lexeme? r.point.accepts cs with
  | none => rfl
  | some l =>
    have hstep := Point.step_frame f
      ⟨l.terminal, String.ofList l.text, ⟨place, place.advance l.text⟩⟩ r.point
    rw [hf] at hstep
    have hpoint : (r.frame f offset lines).point.step
        ⟨l.terminal, String.ofList l.text,
          ⟨place.shift offset lines, (place.shift offset lines).advance l.text⟩⟩ =
        (r.point.step ⟨l.terminal, String.ofList l.text, ⟨place, place.advance l.text⟩⟩).map
          (Point.frame f) := by
      rw [Position.advance_shift]
      exact hstep
    simp only [hpoint]
    cases r.point.step ⟨l.terminal, String.ofList l.text, ⟨place, place.advance l.text⟩⟩ with
    | none => rfl
    | some q =>
      simp only [Option.map_some, Move.frame, frame, Position.advance_shift]

theorem move_frame (hf : f.toRecast = (Relocation.shift offset lines).recast) {r : Reading}
    (hne : r.point ≠ .loneDeclaration) (hs : ∀ t, r.point ≠ .suffix t .alone) :
    (r.frame f offset lines).move = r.move.frame f offset lines := by
  have hrest : (r.frame f offset lines).rest = r.rest := rfl
  have hplace : (r.frame f offset lines).place = r.place.shift offset lines := rfl
  rw [move, move, moveOver, moveOver, hrest, hplace, Position.advance_shift]
  split
  · rw [answerAtEnd_frame hs]
    rfl
  · exact moveAt_frame hf hne _ _

/-- Behind more text a text is read to what it is read to by itself. -/
theorem run_frame (hf : f.toRecast = (Relocation.shift offset lines).recast) {start : StartRule}
    (hstart : start ≠ .typeDecl) {ts : List Token} (r : Reading) (hp : r.point.Reached start ts)
    (hne : r.point ≠ .loneDeclaration) :
    (r.frame f offset lines).run = f.answer offset lines r.run := by
  have hmove := move_frame hf hne (Point.ne_suffix_of_reached hp hstart)
  cases hm : r.move with
  | answer a =>
    rw [hm, Move.frame] at hmove
    rw [run_of_answer hm, run_of_answer hmove]
  | next s =>
    rw [hm, Move.frame] at hmove
    have hlt := rest_length_lt hm
    obtain ⟨x, -, -, -, -, -, hstep, -⟩ := piece?_of_next hm
    obtain ⟨hreached, hnext⟩ := Point.reached_step_ne hp hstep
    rw [run_of_next hm, run_of_next hmove]
    exact run_frame hf hstart s hreached hnext
  termination_by r.rest.length

end Reading

end ClassLang
