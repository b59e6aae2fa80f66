import ClassLang.Proofs.Syntax.LaidReading
import ClassLang.Proofs.Syntax.Widened

/-!
# Reading with other line ends

A text and the text with a carriage return in front of each line feed are read in lockstep: at each
move the points have one outline, what was read ends in the same line and column, and what is left
of the one text is what is left of the other with carriage returns. So both are read or both are
rejected at the same place (`StartRule.run_widen`). The tree is the same but for offsets and for
what stands in the openings of matrices (`StartRule.read_widen`).
-/

namespace ClassLang

open Newline

/-! ### Lockstep -/

/-- Whether two answers are trees, or rejections in the same line and column. -/
def Rejection.Agree : Except Rejection Tree → Except Rejection Tree → Prop
  | .ok _, .ok _ => True
  | .error c, .error d => c.place.SamePlace d.place
  | _, _ => False

/-- A reading of a text and one of the text with carriage returns. -/
structure Reading.Widened (r s : Reading) : Prop where
  outline : s.point.outline = r.point.outline
  last : r.last.SamePlace s.last
  place : r.place.SamePlace s.place
  rest : s.rest = widen r.rest

inductive Move.Widened : Move → Move → Prop
  | next {r s : Reading} (h : r.Widened s) : Widened (.next r) (.next s)
  | answer {a b : Except Rejection Tree} (h : Rejection.Agree a b) : Widened (.answer a) (.answer b)

def Piece.widen (x : Piece) : Piece := ⟨Newline.widen x.gap, x.terminal, Newline.widen x.word⟩

namespace Reading.Widened

variable {r s : Reading}

theorem answerAtEnd (h : r.Widened s) : Rejection.Agree r.answerAtEnd s.answerAtEnd := by
  have hfinish := Point.isSome_finish?_of_outline h.outline
  unfold Reading.answerAtEnd
  cases hr : r.point.finish? with
  | none =>
    cases hs : s.point.finish? with
    | none => exact h.last
    | some tree =>
      rw [hr, hs] at hfinish
      cases hfinish
  | some tree =>
    cases hs : s.point.finish? with
    | none =>
      rw [hr, hs] at hfinish
      cases hfinish
    | some tree => trivial

theorem moveAt (h : r.Widened s) {place place' : Position} (hplace : place.SamePlace place')
    (cs : List Char) : Move.Widened (r.moveAt place cs) (s.moveAt place' (widen cs)) := by
  unfold Reading.moveAt
  rw [Point.accepts_of_outline h.outline, lexeme?_widen]
  cases lexeme? r.point.accepts cs with
  | none => exact .answer hplace
  | some l =>
    have hstop := hplace.widen l.text
    let t : Token := ⟨l.terminal, String.ofList l.text, ⟨place, place.advance l.text⟩⟩
    let u : Token :=
      ⟨l.terminal, String.ofList (widen l.text), ⟨place', place'.advance (widen l.text)⟩⟩
    have hstep : (s.point.step u).map Point.outline = (r.point.step t).map Point.outline :=
      Point.step_of_outline h.outline rfl
    cases hr : r.point.step t with
    | none =>
      rw [hr, Option.map_none, Option.map_eq_none_iff] at hstep
      -- neither token may follow, and both readings stop in front of it
      simp only [Option.map_some, Lexeme.widen, t, u] at hr hstep ⊢
      simp only [hr, hstep]
      exact .answer hplace
    | some p =>
      rw [hr, Option.map_some, Option.map_eq_some_iff] at hstep
      obtain ⟨q, hq, houtline⟩ := hstep
      simp only [Option.map_some, Lexeme.widen, t, u] at hr hq ⊢
      simp only [hr, hq]
      exact .next ⟨houtline, hplace, hstop, rfl⟩

theorem move (h : r.Widened s) : Move.Widened r.move s.move := by
  rw [Reading.move, Reading.move, h.rest, Layout.split_widen, Reading.moveOver, Reading.moveOver,
    isEmpty_widen]
  split
  · exact .answer h.answerAtEnd
  · exact h.moveAt (h.place.widen _) _

/-- A text and the text with carriage returns are both read, or rejected at the same place. -/
theorem run {r s : Reading} (h : r.Widened s) : Rejection.Agree r.run s.run := by
  have hmove := h.move
  cases hr : r.move with
  | answer a =>
    rw [hr] at hmove
    generalize hs : s.move = m at hmove
    cases hmove with
    | answer hagree => rwa [run_of_answer hr, run_of_answer hs]
  | next r' =>
    have hlt := rest_length_lt hr
    rw [hr] at hmove
    generalize hs : s.move = m at hmove
    cases hmove with
    | next h' =>
      rw [run_of_next hr, run_of_next hs]
      exact h'.run
  termination_by r.rest.length

theorem piece? (h : r.Widened s) : s.piece? = r.piece?.map Piece.widen := by
  rw [Reading.piece?, Reading.piece?, h.rest, Layout.split_widen,
    Point.accepts_of_outline h.outline, lexeme?_widen, Option.map_map, Option.map_map]
  rfl

/-- The pieces of a text with carriage returns are those of the text, with carriage returns. -/
theorem pieces {r s : Reading} (h : r.Widened s) :
    s.pieces = (r.pieces.1.map Piece.widen, widen r.pieces.2) := by
  have hmove := h.move
  cases hr : r.move with
  | answer a =>
    rw [hr] at hmove
    generalize hs : s.move = m at hmove
    cases hmove with
    | answer => rw [pieces_of_answer hr, pieces_of_answer hs, h.rest]; rfl
  | next r' =>
    have hlt := rest_length_lt hr
    rw [hr] at hmove
    generalize hs : s.move = m at hmove
    cases hmove with
    | next h' =>
      rw [pieces_of_next hr, pieces_of_next hs, h'.pieces, h.piece?, List.map_append]
      cases r.piece? <;> rfl
  termination_by r.rest.length

end Reading.Widened

theorem StartRule.reading_widen (r : StartRule) (text : List Char) :
    (r.reading text).Widened (r.reading (widen text)) :=
  ⟨rfl, .refl .start, .refl .start, rfl⟩

/-! ### Tokens -/

/-- The text of a token with carriage returns in it: only the opening of a matrix holds any. -/
def Terminal.widenText (t : Terminal) (s : String) : String :=
  if t = matrixOpen then widenString s else s

def Token.widen (t : Token) : Token := ⟨t.terminal, t.terminal.widenText t.text, t.range⟩

/-- Where the positions of a text are in the text with carriage returns. -/
def Relocation.widening (text : List Char) : Relocation :=
  let place := fun p : Position => ⟨(widen (text.take p.offset)).length, p.line, p.column⟩
  ⟨place, place⟩

theorem Relocation.widening_start {text front rest : List Char} (h : text = front ++ rest) :
    (widening text).start (Position.start.advance front) =
      Position.start.advance (widen front) := by
  obtain ⟨hline, hcolumn⟩ := (Position.SamePlace.refl .start).widen front
  have hoffset := Position.offset_advance_start (widen front)
  have htake : text.take (Position.start.advance front).offset = front := by
    rw [Position.offset_advance_start, h, List.take_left]
  show Position.mk _ _ _ = _
  rw [htake, ← hoffset, ← hline, ← hcolumn]

theorem Relocation.widening_stop {text front rest : List Char} (h : text = front ++ rest) :
    (widening text).stop (Position.start.advance front) =
      Position.start.advance (widen front) :=
  widening_start h

theorem Piece.text_widen {x : Piece} (h : x.terminal.Matches x.word) :
    String.ofList x.widen.word = x.terminal.widenText (String.ofList x.word) := by
  unfold Terminal.widenText
  split
  · rw [widenString, String.toList_ofList]
    rfl
  · rename_i hopen
    exact congrArg String.ofList (widen_of_not_mem (Terminal.newline_not_mem hopen h))

/-- The tokens of a text with carriage returns are those of the text, elsewhere. -/
theorem tokensFrom_widen {text front : List Char} {xs : List Piece} {tail : List Char}
    (h : text = front ++ weave xs tail) (hm : ∀ x ∈ xs, x.terminal.Matches x.word) :
    tokensFrom (Position.start.advance (widen front)) (xs.map Piece.widen) =
      ((tokensFrom (Position.start.advance front) xs).map (Token.relocate (.widening text))).map
        Token.widen := by
  induction xs generalizing front with
  | nil => rfl
  | cons x xs ih =>
    obtain ⟨hx, hxs⟩ := List.forall_mem_cons.1 hm
    have hgap : text = front ++ x.gap ++ (x.word ++ weave xs tail) := by
      rw [h, weave, List.append_assoc]
    have hword : text = front ++ x.gap ++ x.word ++ weave xs tail := by
      rw [hgap, List.append_assoc (front ++ x.gap)]
    have hstart := Relocation.widening_start hgap
    have hstop := Relocation.widening_stop hword
    have hrest := ih hword hxs
    rw [widen_append, Position.advance_append, Position.advance_append] at hstart
    rw [widen_append, widen_append, Position.advance_append, Position.advance_append,
      Position.advance_append, Position.advance_append] at hstop hrest
    have hhead : x.widen.token (Position.start.advance (widen front)) =
        ((x.token (Position.start.advance front)).relocate (.widening text)).widen := by
      simp only [Piece.token, Token.relocate, Token.widen, Range.relocate, hstart, hstop,
        ← Piece.text_widen hx]
      rfl
    exact congrArg₂ List.cons hhead hrest

/-! ### Trees -/

namespace Tree

/-- The children of a node, with carriage returns in the opening if the node is a matrix. -/
def widenOpening : Label Rule → List Tree → List Tree
  | .known .matrixType, .token kind s range :: t :: ts =>
    .token kind (widenString s) range :: t :: ts
  | _, ts => ts

mutual

/-- A tree with carriage returns in the openings of its matrices. -/
def widen : Tree → Tree
  | node rule range ts => node rule range (widenOpening rule (widenAll ts))
  | token kind s range => token kind s range
  | absent => absent

def widenAll : List Tree → List Tree
  | [] => []
  | t :: ts => t.widen :: widenAll ts

end

theorem widenAll_eq_map (ts : List Tree) : widenAll ts = ts.map widen := by
  induction ts with
  | nil => rfl
  | cons t ts ih => rw [widenAll, ih, List.map_cons]

theorem widenOpening_of_ne {r : Rule} (hr : r ≠ .matrixType) (ts : List Tree) :
    widenOpening (.known r) ts = ts := by
  rw [widenOpening]
  exact fun _ _ _ _ _ he => absurd (Label.known.inj he) hr

theorem range?_widen (t : Tree) : t.widen.range? = t.range? := by
  cases t <;> rfl

theorem isPunctuation_widen (t : Tree) : t.widen.isPunctuation = t.isPunctuation := by
  cases t <;> rfl

theorem close_widen {r : Rule} (hr : r ≠ .matrixType) (ps : List Tree) :
    (close r ps).widen = close r (ps.map widen) := by
  rw [close_map range?_widen isPunctuation_widen, close, widen, widenAll_eq_map,
    widenOpening_of_ne hr]

/-- The opening of a matrix with carriage returns in it opens the matrix around the same type. -/
theorem close_matrix_widen {t g : Token} (ht : t.terminal = .matrixOpen)
    (hg : g.terminal = .greater) (r : Rule) (ps : List Tree) :
    (close .matrixType [t.tree, close r ps, g.tree]).widen =
      close .matrixType [t.widen.tree, (close r ps).widen, g.widen.tree] := by
  obtain ⟨k, s, range⟩ := t
  obtain ⟨l, sign, stop⟩ := g
  obtain rfl : k = .matrixOpen := ht
  obtain rfl : l = .greater := hg
  rfl

end Tree

namespace Phrase

/-- Whether the opening of a matrix stands among the pieces of a phrase itself. -/
def opensMatrix : Phrase → Bool
  | terminal t => t = .matrixOpen
  | rule _ => false
  | type => false
  | seq p q => p.opensMatrix || q.opensMatrix
  | either p q => p.opensMatrix || q.opensMatrix
  | maybe p => p.opensMatrix
  | many p => p.opensMatrix

end Phrase

theorem Rule.opensMatrix_phrase {r : Rule} (hr : r ≠ .matrixType) :
    r.phrase.opensMatrix = false := by
  cases r <;> first | rfl | exact absurd rfl hr

theorem StartRule.opensMatrix_phrase (r : StartRule) : r.phrase.opensMatrix = false := by
  cases r <;> rfl

namespace DerivationTree

def widen {p : Phrase} (d : DerivationTree p) : DerivationTree p := d.map Token.widen fun _ => rfl

theorem tokens_widen {p : Phrase} (d : DerivationTree p) :
    d.widen.tokens = d.tokens.map Token.widen :=
  d.tokens_map

theorem Clear.widen {p : Phrase} {d : DerivationTree p} (h : d.Clear) : d.widen.Clear := by
  refine h.map (f := Token.widen) fun t ht => ?_
  rw [Token.widen, Terminal.widenText, if_neg (by rw [ht]; decide)]

theorem exists_close (d : DerivationTree .type) : ∃ r ps, d.pieces = [Tree.close r ps] := by
  match d with
  | .type (.left (.left (.left (.left (.left (.rule e)))))) => exact ⟨_, _, rfl⟩
  | .type (.left (.left (.left (.left (.right (.rule e)))))) => exact ⟨_, _, rfl⟩
  | .type (.left (.left (.left (.right (.rule e))))) => exact ⟨_, _, rfl⟩
  | .type (.left (.left (.right (.rule e)))) => exact ⟨_, _, rfl⟩
  | .type (.left (.right (.rule e))) => exact ⟨_, _, rfl⟩
  | .type (.right (.rule e)) => exact ⟨_, _, rfl⟩

theorem pieces_widen_matrix {r : Rule} (hr : r = .matrixType) (d : DerivationTree r.phrase)
    (ih : ∀ e : DerivationTree .type, e.size < d.size →
      e.widen.pieces = e.pieces.map Tree.widen) :
    d.rule.widen.pieces = d.rule.pieces.map Tree.widen := by
  subst hr
  match d with
  | .seq (.seq (.terminal t ht) e) (.terminal g hg) =>
    have hlt : e.size < (((terminal t ht).seq e).seq (terminal g hg)).size := by
      simp only [size]
      omega
    have hinner := ih e hlt
    obtain ⟨r, ps, hclose⟩ := e.exists_close
    rw [hclose, List.map_singleton] at hinner
    show [Tree.close .matrixType ([t.widen.tree] ++ e.widen.pieces ++ [g.widen.tree])] =
      [(Tree.close .matrixType ([t.tree] ++ e.pieces ++ [g.tree])).widen]
    rw [hinner, hclose]
    exact congrArg (fun t => [t]) (Tree.close_matrix_widen ht hg r ps).symm

/-- In a derivation of a text with carriage returns only the openings of matrices hold any. -/
theorem pieces_widen {p : Phrase} (d : DerivationTree p) (hp : p.opensMatrix = false) :
    d.widen.pieces = d.pieces.map Tree.widen := by
  match d with
  | .terminal t ht =>
    have hother : t.terminal ≠ .matrixOpen := by
      rw [ht]
      exact of_decide_eq_false hp
    have htext : t.widen = t := by
      rw [Token.widen, Terminal.widenText, if_neg hother]
    exact congrArg (fun t => [t.tree]) htext
  | .rule (r := r) e =>
    -- no other rule has an opening of a matrix among its own pieces
    by_cases hr : r = .matrixType
    · exact pieces_widen_matrix hr e fun inner hlt => inner.pieces_widen rfl
    · have ih := e.pieces_widen (Rule.opensMatrix_phrase hr)
      show [Tree.close r e.widen.pieces] = [(Tree.close r e.pieces).widen]
      rw [ih, Tree.close_widen hr]
  | .type e => exact e.pieces_widen rfl
  | .seq d e =>
    have hpq := Bool.or_eq_false_iff.1 hp
    show d.widen.pieces ++ e.widen.pieces = (d.pieces ++ e.pieces).map Tree.widen
    rw [d.pieces_widen hpq.1, e.pieces_widen hpq.2, List.map_append]
  | .left d => exact d.pieces_widen (Bool.or_eq_false_iff.1 hp).1
  | .right d => exact d.pieces_widen (Bool.or_eq_false_iff.1 hp).2
  | .absent => rfl
  | .present d => exact d.pieces_widen hp
  | .none => rfl
  | .more d e =>
    show d.widen.pieces ++ e.widen.pieces = (d.pieces ++ e.pieces).map Tree.widen
    rw [d.pieces_widen hp, e.pieces_widen hp, List.map_append]
  termination_by d.size
  decreasing_by
    all_goals
      simp only [size]
      omega

end DerivationTree

namespace StartRule

variable {r : StartRule} {text : List Char} {tree : Tree}

/-- The tree of a text with carriage returns is that of the text, but for offsets and for what
stands in the openings of matrices. -/
theorem read_widen (h : r.read text = .ok tree) :
    r.read (widen text) = .ok (tree.relocate (.widening text)).widen := by
  have hagree := (r.reading_widen text).run
  have hread : (r.reading text).run = .ok tree := h
  rw [hread] at hagree
  cases hwide : (r.reading (widen text)).run with
  | error cause =>
    rw [hwide] at hagree
    cases hagree
  | ok tree' =>
    obtain ⟨d, hclear, hpieces, htokens⟩ := exists_clear h
    obtain ⟨q, htrail, -⟩ := trail_of_run _ h
    have hwhole : text = [] ++ weave (r.reading text).pieces.1 (r.reading text).pieces.2 :=
      (Reading.weave_pieces (r.reading text)).symm
    have hsame := tokensFrom_widen hwhole fun x hx => (htrail.forall_pieces x hx).1
    let e := (d.relocate (.widening text)).widen
    have he : e.tokens = tokensFrom .start (r.reading (widen text)).pieces.1 := by
      rw [(r.reading_widen text).pieces, DerivationTree.tokens_widen,
        DerivationTree.tokens_relocate, htokens]
      exact hsame.symm
    have hpieces' : e.pieces = [(tree.relocate (.widening text)).widen] := by
      have hopens := r.opensMatrix_phrase
      rw [DerivationTree.pieces_widen _ hopens, DerivationTree.pieces_relocate, hpieces]
      rfl
    -- the point that the tokens lead to tells the tree
    obtain ⟨tree'', q'', hpieces'', hleads, hfinish''⟩ := r.leads e (hclear.relocate _).widen
    obtain ⟨q', htrail', hfinish'⟩ := trail_of_run _ hwide
    have hrun := htrail'.run_tokensFrom
    have hrun'' := hleads.run
    rw [he] at hrun''
    obtain rfl := Option.some.inj (hrun.symm.trans hrun'')
    obtain rfl := Option.some.inj (hfinish'.symm.trans hfinish'')
    exact hwide.trans (congrArg Except.ok (List.cons.inj (hpieces''.symm.trans hpieces')).1)

end StartRule

end ClassLang
