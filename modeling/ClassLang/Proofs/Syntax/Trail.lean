import ClassLang.Proofs.Syntax.DerivationTree
import ClassLang.Proofs.Syntax.Parted

/-!
# Trails

A text that is read falls into pieces, each a stretch of layout with a word behind it, and a tail of
layout (`Reading.pieces`). A trail is the path of reading points over such pieces. It is all there
is to reading a text: a text is read to a tree exactly if a trail over its pieces ends where the
text may end (`trail_of_run`, `Reading.run_of_trail`). What follows a text behind a line feed is
read from where the trail over the text ends (`Reading.run_of_trail_newline`).
-/

namespace ClassLang

/-- A word of a text with the layout in front of it. -/
structure Piece where
  gap : List Char
  terminal : Terminal
  word : List Char

/-- The token of a piece that starts at a place. -/
def Piece.token (place : Position) (x : Piece) : Token :=
  ⟨x.terminal, String.ofList x.word,
    ⟨place.advance x.gap, (place.advance x.gap).advance x.word⟩⟩

/-- The text of some pieces and a tail behind them. -/
def weave : List Piece → List Char → List Char
  | [], tail => tail
  | x :: xs, tail => x.gap ++ (x.word ++ weave xs tail)

/-- Some pieces without the layout in front of the first of them and behind the last. -/
def inner : List Piece → List Char
  | [] => []
  | x :: xs => x.word ++ weave xs []

def tokensFrom (place : Position) : List Piece → List Token
  | [] => []
  | x :: xs => x.token place :: tokensFrom (x.token place).range.stop xs

theorem weave_append (xs ys : List Piece) (tail : List Char) :
    weave (xs ++ ys) tail = weave xs (weave ys tail) := by
  induction xs with
  | nil => rfl
  | cons x xs ih => rw [List.cons_append, weave, weave, ih]

theorem weave_tail (xs : List Piece) (cs ds : List Char) :
    weave xs (cs ++ ds) = weave xs cs ++ ds := by
  induction xs with
  | nil => rfl
  | cons x xs ih => simp only [weave, ih, List.append_assoc]

theorem weave_around (xs : List Piece) (x : Piece) (ys : List Piece) (tail : List Char) :
    weave (xs ++ x :: ys) tail = (weave xs [] ++ x.gap) ++ (x.word ++ weave ys tail) := by
  rw [weave_append, weave, List.append_assoc, ← weave_tail, List.nil_append]

theorem Piece.offset_start_token (x : Piece) (front : List Char) :
    (x.token (Position.start.advance front)).range.start.offset = (front ++ x.gap).length := by
  rw [token, ← Position.advance_append, Position.offset_advance_start]

theorem Piece.offset_stop_token (x : Piece) (front : List Char) :
    (x.token (Position.start.advance front)).range.stop.offset =
      ((front ++ x.gap) ++ x.word).length := by
  rw [token, ← Position.advance_append, ← Position.advance_append, Position.offset_advance_start]

theorem tokensFrom_append (place : Position) (xs ys : List Piece) :
    tokensFrom place (xs ++ ys) =
      tokensFrom place xs ++ tokensFrom (place.advance (weave xs [])) ys := by
  induction xs generalizing place with
  | nil => rfl
  | cons x xs ih =>
    rw [List.cons_append, tokensFrom, ih, tokensFrom, weave, Position.advance_append,
      Position.advance_append]
    rfl

theorem tokensFrom_eq_append {place : Position} {xs : List Piece} {ts us : List Token}
    (h : tokensFrom place xs = ts ++ us) :
    ∃ ys zs, xs = ys ++ zs ∧ tokensFrom place ys = ts ∧
      tokensFrom (place.advance (weave ys [])) zs = us := by
  induction ts generalizing place xs with
  | nil => exact ⟨[], xs, rfl, rfl, h⟩
  | cons t ts ih =>
    cases xs with
    | nil => cases h
    | cons x xs =>
      rw [tokensFrom, List.cons_append] at h
      obtain ⟨hx, hxs⟩ := List.cons.inj h
      obtain ⟨ys, zs, rfl, hys, hzs⟩ := ih hxs
      refine ⟨x :: ys, zs, rfl, ?_, ?_⟩
      · rw [tokensFrom, hys, hx]
      · rw [weave, Position.advance_append, Position.advance_append]
        exact hzs

theorem map_terminal_tokensFrom (place : Position) (xs : List Piece) :
    (tokensFrom place xs).map Token.terminal = xs.map Piece.terminal := by
  induction xs generalizing place with
  | nil => rfl
  | cons x xs ih => rw [tokensFrom, List.map_cons, List.map_cons, ih]; rfl

theorem forall_terminal_of_tokensFrom {f : Terminal → Prop} {place : Position} {xs : List Piece}
    (h : ∀ t ∈ tokensFrom place xs, f t.terminal) : ∀ x ∈ xs, f x.terminal := by
  intro x hx
  have hmem : x.terminal ∈ (tokensFrom place xs).map Token.terminal := by
    rw [map_terminal_tokensFrom]
    exact List.mem_map_of_mem hx
  obtain ⟨t, ht, hterminal⟩ := List.mem_map.1 hmem
  exact hterminal ▸ h t ht

/-! ### The pieces of a text as it is read -/

namespace Reading

/-- The piece that is read next, if there is one. -/
def piece? (r : Reading) : Option Piece :=
  (lexeme? r.point.accepts (Layout.split r.rest).2).map fun l =>
    ⟨(Layout.split r.rest).1, l.terminal, l.text⟩

/-- The pieces of a text as far as it is read, and the tail. -/
def pieces (r : Reading) : List Piece × List Char :=
  match _h : r.move with
  | .answer _ => ([], r.rest)
  | .next s => (r.piece?.toList ++ s.pieces.1, s.pieces.2)
  termination_by r.rest.length
  decreasing_by
    all_goals exact rest_length_lt _h

theorem pieces_of_answer {r : Reading} {a : Except Rejection Tree} (h : r.move = .answer a) :
    r.pieces = ([], r.rest) := by
  rw [pieces]
  split <;> simp_all only [reduceCtorEq]

theorem pieces_of_next {r s : Reading} (h : r.move = .next s) :
    r.pieces = (r.piece?.toList ++ s.pieces.1, s.pieces.2) := by
  rw [pieces]
  split <;> simp_all only [Move.next.injEq, reduceCtorEq]

theorem piece?_of_next {r s : Reading} (h : r.move = .next s) :
    ∃ x, r.piece? = some x ∧ x.gap = (Layout.split r.rest).1 ∧ Layout.IsGap true x.gap ∧
      x.gap ++ (x.word ++ s.rest) = r.rest ∧
      lexeme? r.point.accepts (Layout.split r.rest).2 = some ⟨x.terminal, x.word, s.rest⟩ ∧
      r.point.step (x.token r.place) = some s.point ∧
      s.place = (x.token r.place).range.stop := by
  obtain ⟨hne, hmove⟩ := move_next h
  obtain ⟨l, hl, hstep, hs⟩ := moveAt_next hmove
  have hrest : s.rest = l.rest := by rw [hs]
  have hplace : s.place = (r.place.advance (Layout.split r.rest).1).advance l.text := by rw [hs]
  refine ⟨⟨(Layout.split r.rest).1, l.terminal, l.text⟩, ?_, rfl, ?_, ?_, ?_, hstep, hplace⟩
  · rw [piece?, hl, Option.map_some]
  · exact Layout.isGap_split true r.rest fun _ => hne
  · rw [hrest, lexeme?_append hl, Layout.split_append]
  · rw [hl, hrest]

theorem finish_of_answer {r : Reading} {tree : Tree} (h : r.move = .answer (.ok tree)) :
    (Layout.split r.rest).2 = [] ∧ r.point.finish? = some tree := by
  unfold move moveOver at h
  split at h
  · rename_i hempty
    refine ⟨List.isEmpty_iff.1 hempty, ?_⟩
    simp only [Move.answer.injEq, answerAtEnd] at h
    split at h
    · rename_i t ht
      rw [ht, Except.ok.inj h]
    · cases h
  · unfold moveAt at h
    split at h
    · cases h
    · simp only at h
      split at h <;> cases h

/-- Nothing of a text is lost. -/
theorem weave_pieces (r : Reading) : weave r.pieces.1 r.pieces.2 = r.rest := by
  cases hm : r.move with
  | answer a => rw [pieces_of_answer hm, weave]
  | next s =>
    have hlt := rest_length_lt hm
    obtain ⟨x, hx, -, -, happend, -⟩ := piece?_of_next hm
    rw [pieces_of_next hm, hx, Option.toList_some, List.singleton_append, weave, weave_pieces s,
      happend]
  termination_by r.rest.length

end Reading

/-! ### Trails -/

/-- A path of reading points over pieces, where each word is taken for what it is and ends where the
piece does. -/
inductive Trail : Point → Position → List Piece → List Char → Point → Prop
  | nil {p : Point} {place : Position} {tail : List Char} (hg : Layout.IsGap false tail) :
      Trail p place [] tail p
  | cons {p q s : Point} {place : Position} {x : Piece} {xs : List Piece} {tail : List Char}
      (hg : Layout.IsGap true x.gap) (hm : x.terminal.Matches x.word)
      (hc : startsWith (x.terminal.carriesOn p.accepts) (weave xs tail) = false)
      (ht : p.Tells (x.token place)) (hs : p.step (x.token place) = some q)
      (h : Trail q (x.token place).range.stop xs tail s) : Trail p place (x :: xs) tail s

theorem not_mistaken_of_lexeme? {accepted : List Terminal} {cs : List Char} {l : Lexeme}
    (h : lexeme? accepted cs = some l) (hl : l.terminal = .identifier) :
    ¬Terminal.Mistaken accepted (String.ofList l.text) := by
  rintro ⟨k, hk, hkey, hspelling⟩
  obtain ⟨t, -, -, -, ht⟩ := lexeme?_eq_some h
  rw [hl, Terminal.resolve] at ht
  split at ht
  · have hword := Terminal.keywordOf?_of_mem hk hkey hspelling
    rw [String.toList_ofList] at hword
    rw [hword, Option.getD_some] at ht
    rw [← ht] at hkey
    cases hkey
  · rename_i hne
    exact hne ht.symm

/-- Reading a text to a tree leaves a trail over its pieces. -/
theorem trail_of_run (r : Reading) {tree : Tree} (h : r.run = .ok tree) :
    ∃ q, Trail r.point r.place r.pieces.1 r.pieces.2 q ∧ q.finish? = some tree := by
  cases hm : r.move with
  | answer a =>
    rw [Reading.run_of_answer hm] at h
    subst h
    obtain ⟨hempty, hfinish⟩ := Reading.finish_of_answer hm
    have hgap : Layout.IsGap false r.rest := by
      have hsplit := Layout.isGap_split false r.rest nofun
      have happend := Layout.split_append r.rest
      rw [hempty, List.append_nil] at happend
      rwa [happend] at hsplit
    rw [Reading.pieces_of_answer hm]
    exact ⟨r.point, .nil hgap, hfinish⟩
  | next s =>
    have hlt := Reading.rest_length_lt hm
    obtain ⟨x, hx, hgap, hclosed, happend, hlexeme, hstep, hplace⟩ := Reading.piece?_of_next hm
    rw [Reading.run_of_next hm] at h
    obtain ⟨q, htrail, hfinish⟩ := trail_of_run s h
    rw [hplace] at htrail
    refine ⟨q, ?_, hfinish⟩
    rw [Reading.pieces_of_next hm, hx, Option.toList_some, List.singleton_append]
    refine .cons hclosed (lexeme?_matches hlexeme) ?_ ?_ hstep htrail
    · rw [Reading.weave_pieces]
      exact Terminal.lexeme?_parted_off hlexeme
    · exact not_mistaken_of_lexeme? hlexeme
  termination_by r.rest.length

/-! ### Reading along a trail -/

theorem startsWith_append {p : Char → Bool} {cs ds : List Char} (h : startsWith p cs = false)
    (h' : startsWith p ds = false) : startsWith p (cs ++ ds) = false := by
  cases cs with
  | nil => exact h'
  | cons c cs => exact h

namespace Scan

theorem angle_cons_blank {c : Char} {cs : List Char} (hc : Blank.isMatrixBlank c = true)
    (h : angle cs = none) : angle (c :: cs) = none := by
  rw [angle, List.takeWhile_cons_of_pos hc, List.dropWhile_cons_of_pos hc]
  have hword : word ['<'] (cs.dropWhile Blank.isMatrixBlank) = none := by
    rw [angle, extend, Option.map_eq_none_iff] at h
    exact h
  rw [hword]
  rfl

theorem angle_cons_other {c : Char} {cs : List Char} (hb : Blank.isMatrixBlank c = false)
    (hc : c ≠ '<') : angle (c :: cs) = none := by
  have hneg : ¬Blank.isMatrixBlank c = true := by
    rw [hb]
    exact Bool.false_ne_true
  rw [angle, List.takeWhile_cons_of_neg hneg, List.dropWhile_cons_of_neg hneg, word, if_neg]
  · rfl
  · simp only [List.isPrefixOf, Bool.and_true, beq_iff_eq]
    exact fun h => hc h.symm

end Scan

/-- No terminal starts with an angle bracket, so none follows a name. -/
theorem Terminal.angle_of_mem_starters {t : Terminal} {c : Char} {cs : List Char}
    (h : t ∈ starters c) : Scan.angle (c :: cs) = none := by
  refine Scan.angle_cons_other ?_ ?_
  · cases hb : Blank.isMatrixBlank c with
    | false => rfl
    | true =>
      simp only [Blank.isMatrixBlank, Bool.or_eq_true, decide_eq_true_eq] at hb
      rcases hb with ((rfl | rfl) | rfl) | rfl <;> cases h
  · rintro rfl
    cases h

theorem Terminal.angle_word {t : Terminal} {w rest : List Char} (h : t.Matches w) :
    Scan.angle (w ++ rest) = none := by
  obtain ⟨c, v, rfl, hc⟩ := mem_starters h
  exact angle_of_mem_starters hc

theorem Layout.IsGap.angle {closed : Bool} {gap rest : List Char} (h : IsGap closed gap)
    (hr : Scan.angle rest = none) : Scan.angle (gap ++ rest) = none := by
  induction h with
  | nil => exact hr
  | @blank _ c cs hc _ ih =>
    cases hb : Blank.isMatrixBlank c with
    | true => exact Scan.angle_cons_blank hb ih
    | false =>
      refine Scan.angle_cons_other hb ?_
      rintro rfl
      cases hc
  | block => exact Scan.angle_cons_other rfl nofun
  | line => exact Scan.angle_cons_other rfl nofun
  | lastLine => exact Scan.angle_cons_other rfl nofun

/-- Layout does not start like anything that could carry on a lexeme. -/
theorem Layout.IsGap.startsWith {closed : Bool} {gap : List Char} {p : Char → Bool}
    (h : IsGap closed gap) (hp : ∀ c, Blank.isLayout c = true → p c = false) (hs : p '/' = false) :
    ClassLang.startsWith p gap = false := by
  cases h with
  | nil => rfl
  | blank hc => exact hp _ hc
  | block => exact hs
  | line => exact hs
  | lastLine => exact hs

theorem Terminal.carriesOn_eq_false {accepted : List Terminal} {t : Terminal} {c : Char}
    (hn : Ascii.isNameChar c = false) (hd : Ascii.isDigit c = false) (hs : c ≠ '*') (hc : c ≠ ':') :
    t.carriesOn accepted c = false := by
  cases t <;> simp only [carriesOn, hn, hd, hs, hc, decide_false, Bool.and_false]

theorem Terminal.carriesOn_layout (accepted : List Terminal) (t : Terminal) :
    (∀ c, Blank.isLayout c = true → t.carriesOn accepted c = false) ∧
      t.carriesOn accepted '/' = false := by
  refine ⟨?_, carriesOn_eq_false rfl rfl (by decide) (by decide)⟩
  intro c hc
  simp only [Blank.isLayout, Bool.or_eq_true, decide_eq_true_eq] at hc
  rcases hc with (((rfl | rfl) | rfl) | rfl) | rfl <;>
    exact carriesOn_eq_false rfl rfl (by decide) (by decide)

/-- No word starts with a point. -/
theorem Terminal.startsWith_point {t : Terminal} {w : List Char} (h : t.Matches w) :
    startsWith (· = '.') w = false := by
  obtain ⟨c, v, rfl, hc⟩ := mem_starters h
  refine decide_eq_false ?_
  rintro rfl
  cases hc

/-- What cannot carry on any lexeme, whatever is looked for. -/
def Blunt (cs : List Char) : Prop :=
  (∀ (accepted : List Terminal) (t : Terminal), startsWith (t.carriesOn accepted) cs = false) ∧
    startsWith (· = '.') cs = false

theorem Layout.IsGap.blunt {closed : Bool} {gap : List Char} (h : IsGap closed gap) :
    Blunt gap := by
  refine ⟨fun accepted t => ?_, ?_⟩
  · obtain ⟨hblank, hslash⟩ := Terminal.carriesOn_layout accepted t
    exact h.startsWith hblank hslash
  · refine h.startsWith ?_ rfl
    intro c hc
    refine decide_eq_false ?_
    rintro rfl
    cases hc

theorem startsWith_of_ne_nil {p : Char → Bool} {cs : List Char} (h : cs ≠ []) (ds : List Char) :
    startsWith p (cs ++ ds) = startsWith p cs := by
  cases cs with
  | nil => exact absurd rfl h
  | cons c cs => rfl

theorem Terminal.Matches.ne_nil {t : Terminal} {w : List Char} (h : t.Matches w) : w ≠ [] := by
  obtain ⟨c, v, rfl, -⟩ := mem_starters h
  exact List.cons_ne_nil c v

/-- Whether the last of some pieces is no word. -/
def EndsInSign (xs : List Piece) : Prop := ∀ x ∈ xs.getLast?, x.terminal.isWord = false

theorem endsInSign_of_tokens {place : Position} {xs : List Piece}
    (h : ∀ t ∈ (tokensFrom place xs).getLast?, t.terminal.isWord = false) : EndsInSign xs := by
  intro x hx
  have hlast := congrArg List.getLast? (map_terminal_tokensFrom place xs)
  rw [List.getLast?_map, List.getLast?_map, Option.mem_def.1 hx] at hlast
  obtain ⟨t, ht, hterminal⟩ := Option.map_eq_some_iff.1 hlast
  exact hterminal ▸ h t ht

namespace Trail

variable {p q : Point} {last place : Position} {x : Piece} {xs : List Piece}
  {tail ext : List Char}

theorem startsWith_point (h : Trail p place xs tail q) :
    startsWith (· = '.') (weave xs tail) = false := by
  cases h with
  | nil hg => exact hg.blunt.2
  | cons hg hm _ _ _ _ =>
    refine startsWith_append hg.blunt.2 ?_
    rw [startsWith_of_ne_nil hm.ne_nil]
    exact Terminal.startsWith_point hm

theorem angle (h : Trail p place xs tail q) (he : xs = [] → Scan.angle ext = none) :
    Scan.angle (weave xs tail ++ ext) = none := by
  cases h with
  | nil hg => exact hg.angle (he rfl)
  | cons hg hm _ _ _ _ =>
    rw [weave, List.append_assoc, List.append_assoc]
    exact hg.angle (Terminal.angle_word hm)

/-- A word is parted from what follows it on a trail, and behind the trail. -/
theorem parted {accepted : List Terminal} {t : Terminal} (h : Trail p place xs tail q)
    (hc : startsWith (t.carriesOn accepted) (weave xs tail) = false) (he : Blunt ext)
    (ha : t.isWord = true → xs = [] → Scan.angle ext = none) :
    t.Parted accepted (weave xs tail ++ ext) :=
  ⟨startsWith_append hc (he.1 accepted t), startsWith_append h.startsWith_point he.2,
    fun ht => h.angle (ha ht)⟩

end Trail

namespace Layout

theorem IsGap.newline {closed : Bool} {gap : List Char} (h : IsGap closed gap) :
    IsGap true (gap ++ ['\n']) := by
  induction h with
  | nil => exact .blank rfl .nil
  | blank hc _ ih => exact .blank hc ih
  | block hb _ ih =>
    simp only [List.cons_append, List.append_assoc]
    exact .block hb ih
  | line hb _ ih =>
    simp only [List.cons_append, List.append_assoc]
    exact .line hb ih
  | lastLine hb => exact .line hb (.blank rfl .nil)

theorem piece?_block {body : List Char} (hb : IsCommentBody body) (rest : List Char) :
    piece? ('/' :: '*' :: (body ++ '*' :: '/' :: rest)) =
      some ('/' :: '*' :: (body ++ ['*', '/']), rest) := by
  rw [piece?, blockComment?_of_isCommentBody hb]
  rfl

theorem piece?_line {body : List Char} (hb : '\n' ∉ body) (rest : List Char) :
    piece? ('/' :: '/' :: (body ++ '\n' :: rest)) =
      some ('/' :: '/' :: body, '\n' :: rest) := by
  rw [piece?, (takeWhile_line hb).1, (takeWhile_line hb).2]

/-- Layout behind a closed gap is layout together with it. -/
theorem split_append_gap {closed : Bool} {gap : List Char} (h : IsGap closed gap)
    (hc : closed = true) (rest : List Char) :
    split (gap ++ rest) = (gap ++ (split rest).1, (split rest).2) := by
  induction h with
  | nil => rfl
  | blank hb _ ih => rw [List.cons_append, split_of_some (piece?_blank hb), ih hc]; rfl
  | @block _ body cs hb _ ih =>
    simp only [List.cons_append, List.append_assoc]
    rw [split_of_some (piece?_block hb _), ih hc]
    simp only [List.cons_append, List.append_assoc, List.nil_append]
  | @line _ body cs hb _ ih =>
    simp only [List.cons_append, List.append_assoc] at ih ⊢
    rw [split_of_some (piece?_line hb _), ih hc]
    rfl
  | lastLine => cases hc

end Layout

theorem Trail.isGap_tail {p q : Point} {place : Position} {xs : List Piece} {tail : List Char}
    (h : Trail p place xs tail q) : Layout.IsGap false tail := by
  induction h with
  | nil hg => exact hg
  | cons _ _ _ _ _ _ ih => exact ih

namespace Reading

variable {p q : Point} {last place : Position} {x : Piece} {xs : List Piece}
  {tail rest ext : List Char}

theorem run_eq_of_move_eq {r s : Reading} (h : r.move = s.move) : r.run = s.run := by
  cases hs : s.move with
  | answer a => rw [run_of_answer hs, run_of_answer (h.trans hs)]
  | next t => rw [run_of_next hs, run_of_next (h.trans hs)]

/-- Layout that has been passed over need not be read again. -/
theorem run_of_gap_append {gap : List Char} (hg : Layout.IsGap true gap) :
    run ⟨p, last, place, gap ++ rest⟩ = run ⟨p, last, place.advance gap, rest⟩ := by
  refine run_eq_of_move_eq ?_
  rw [move, move, Layout.split_append_gap hg rfl]
  simp only [moveOver, Position.advance_append]
  rfl

/-- In front of what starts like a terminal the layout is passed over. -/
theorem move_of_mem_starters {t : Terminal} {gap cs : List Char} {c : Char}
    (hg : Layout.IsGap true gap) (hc : t ∈ Terminal.starters c) :
    move ⟨p, last, place, gap ++ c :: cs⟩ =
      moveAt ⟨p, last, place, gap ++ c :: cs⟩ (place.advance gap) (c :: cs) := by
  have hpiece : Layout.piece? (c :: cs) = none := Layout.piece?_of_mem_starters hc
  rw [move, Layout.split_of_isGap hg hpiece fun h => Bool.noConfusion h]
  rfl

theorem move_of_gap {t : Terminal} {gap w : List Char} (hg : Layout.IsGap true gap)
    (hm : t.Matches w) :
    move ⟨p, last, place, gap ++ (w ++ rest)⟩ =
      moveAt ⟨p, last, place, gap ++ (w ++ rest)⟩ (place.advance gap) (w ++ rest) := by
  obtain ⟨c, v, rfl, hc⟩ := Terminal.mem_starters hm
  exact move_of_mem_starters hg hc

/-- One move over a piece. -/
theorem move_of_piece (last : Position) (hg : Layout.IsGap true x.gap)
    (hm : x.terminal.Matches x.word)
    (hp : x.terminal.Parted p.accepts rest) (ht : p.Tells (x.token place))
    (hs : p.step (x.token place) = some q) :
    move ⟨p, last, place, x.gap ++ (x.word ++ rest)⟩ =
      .next ⟨q, (x.token place).range.start, (x.token place).range.stop, rest⟩ := by
  have hlexeme : lexeme? p.accepts (x.word ++ rest) = some ⟨x.terminal, x.word, rest⟩ :=
    Terminal.lexeme?_of_parted (Point.mem_accepts hs) hm hp Point.bool_not_mem_accepts ht
  change p.step ⟨x.terminal, String.ofList x.word, _⟩ = some q at hs
  rw [move_of_gap hg hm]
  simp only [moveAt, hlexeme, hs]
  rfl

/-- A text is read along the trail over its front, whatever follows there, if what follows does not
carry on the last word. -/
theorem run_of_trail_append (h : Trail p place xs tail q) (he : Blunt ext)
    (ha : EndsInSign xs ∨ Scan.angle ext = none) (last : Position) :
    ∃ last', (xs = [] → last' = last) ∧ run ⟨p, last, place, weave xs tail ++ ext⟩ =
      run ⟨q, last', place.advance (weave xs []), tail ++ ext⟩ := by
  induction h generalizing last with
  | nil hg => exact ⟨last, fun _ => rfl, rfl⟩
  | @cons p q s place x xs tail hg hm hc ht hs h ih =>
    have hrest : EndsInSign xs ∨ Scan.angle ext = none := by
      refine ha.imp_left fun hsign y hy => hsign y ?_
      rw [List.getLast?_cons, Option.mem_def.1 hy]
      rfl
    have hword : x.terminal.isWord = true → xs = [] → Scan.angle ext = none := by
      rintro hw rfl
      refine ha.resolve_left fun hsign => ?_
      rw [hsign x rfl] at hw
      cases hw
    obtain ⟨last', -, hrun⟩ := ih hrest (x.token place).range.start
    refine ⟨last', nofun, ?_⟩
    have hmove := move_of_piece last hg hm (h.parted hc he hword) ht hs
    rw [weave, List.append_assoc, List.append_assoc, run_of_next hmove, hrun, weave,
      Position.advance_append, Position.advance_append]
    rfl

/-- What follows a text on a new line is read from where the trail over the text ends. -/
theorem run_of_trail_newline (h : Trail p place xs tail q) (hs : EndsInSign xs)
    (last : Position) (ext : List Char) :
    ∃ last', (xs = [] → last' = last) ∧ run ⟨p, last, place, weave xs tail ++ '\n' :: ext⟩ =
      run ⟨q, last', place.advance (weave xs tail ++ ['\n']), ext⟩ := by
  have hblunt : Blunt ('\n' :: ext) := by
    have hline : Layout.IsGap true ['\n'] := .blank rfl .nil
    exact ⟨fun accepted t => hline.blunt.1 accepted t, rfl⟩
  obtain ⟨last', hlast, hrun⟩ := run_of_trail_append h hblunt (Or.inl hs) last
  have hweave : weave xs tail ++ ['\n'] = weave xs [] ++ (tail ++ ['\n']) := by
    rw [← weave_tail, ← weave_tail, List.nil_append]
  refine ⟨last', hlast, hrun.trans ?_⟩
  rw [hweave, Position.advance_append, ← run_of_gap_append h.isGap_tail.newline,
    List.append_assoc, List.singleton_append]

/-- A text is read to the tree of the point where the trail over it ends. -/
theorem run_of_trail {tree : Tree} (h : Trail p place xs tail q) (hf : q.finish? = some tree)
    (last : Position) :
    run ⟨p, last, place, weave xs tail⟩ = .ok tree := by
  have hblunt : Blunt [] := ⟨fun _ _ => rfl, rfl⟩
  obtain ⟨last', -, hrun⟩ := run_of_trail_append h hblunt (Or.inr rfl) last
  rw [List.append_nil, List.append_nil] at hrun
  rw [hrun]
  exact run_of_gap h.isGap_tail hf

end Reading

/-! ### The pieces and tokens of a trail -/

namespace Trail

variable {p q : Point} {place : Position} {xs : List Piece} {tail : List Char}

/-- The words of a trail belong to their terminals and stand behind closed layout. -/
theorem forall_pieces (h : Trail p place xs tail q) :
    ∀ x ∈ xs, x.terminal.Matches x.word ∧ Layout.IsGap true x.gap := by
  induction h with
  | nil => exact nofun
  | cons hg hm _ _ _ _ ih => exact List.forall_mem_cons.2 ⟨⟨hm, hg⟩, ih⟩

theorem run_tokensFrom (h : Trail p place xs tail q) : p.run (tokensFrom place xs) = some q := by
  induction h with
  | nil => rfl
  | cons _ _ _ _ hs _ ih => rw [tokensFrom, Point.run_cons, hs, Option.bind_some, ih]

/-- A trail over pieces and others behind them passes a point between the two. -/
theorem of_append {ys : List Piece} (h : Trail p place (xs ++ ys) tail q) :
    ∃ s, p.run (tokensFrom place xs) = some s ∧
      Trail s (place.advance (weave xs [])) ys tail q := by
  induction xs generalizing p place with
  | nil => exact ⟨p, rfl, h⟩
  | cons x xs ih =>
    cases h with
    | @cons _ q' _ _ _ _ _ hg hm hc ht hs h =>
      obtain ⟨s, hrun, htrail⟩ := ih h
      refine ⟨s, ?_, ?_⟩
      · rw [tokensFrom, Point.run_cons, hs, Option.bind_some, hrun]
      · rw [weave, Position.advance_append, Position.advance_append]
        exact htrail

theorem spread (h : Trail p place xs tail q) :
    Spread place (tokensFrom place xs) (weave xs tail) := by
  induction h with
  | nil hg => exact .nil hg
  | cons hg hm _ _ _ _ ih => exact .cons hg rfl rfl hm ih

/-- The tokens of a trail are the yield of a derivation of the tree at its end. -/
theorem exists_derivationTree {r : StartRule} {tree : Tree} (h : Trail r.point place xs tail q)
    (hf : q.finish? = some tree) :
    ∃ d : DerivationTree r.phrase, d.tokens = tokensFrom place xs ∧ d.pieces = [tree] :=
  (derives_of_run h.run_tokensFrom hf).exists_derivationTree

end Trail

/-- A trail over the pieces of a text that is read, with the tokens on it. -/
theorem exists_trail_of_tokenize {r : StartRule} {text : List Char} {tree : Tree}
    (h : tokenize r text = .ok tree) :
    ∃ xs tail q, weave xs tail = text ∧ Trail r.point .start xs tail q ∧ q.finish? = some tree ∧
      ∃ d : DerivationTree r.phrase, d.tokens = tokensFrom .start xs ∧ d.pieces = [tree] ∧
        Spread .start d.tokens text := by
  obtain ⟨q, htrail, hfinish⟩ := trail_of_run _ (read_of_tokenize h)
  obtain ⟨d, htokens, hpieces⟩ := htrail.exists_derivationTree hfinish
  have hweave := (r.reading text).weave_pieces
  have hspread := htrail.spread
  rw [hweave, ← htokens] at hspread
  exact ⟨_, _, q, hweave, htrail, hfinish, d, htokens, hpieces, hspread⟩

end ClassLang
