import ClassLang.Proofs.Syntax.Collapse
import ClassLang.Proofs.Text.LineEnds

/-!
# Words and layout with other line ends

A carriage return in front of a line feed is layout where the line feed is, and it never ends or
carries on a word: in a text with carriage returns in front of its line feeds the same lexemes are
found behind the same layout (`lexeme?_widen`, `Layout.split_widen`), and what is kept of a written
type is the same (`Layout.collapse_widen`).
-/

namespace ClassLang

open Newline

/-! ### Lexemes -/

namespace Scan

/-- A lexeme and the text behind it, with carriage returns in front of their line feeds. -/
def Cut.widen (cut : Cut) : Cut := (Newline.widen cut.1, Newline.widen cut.2)

/-- Whether a scanner cuts a text with such carriage returns where it cuts the text without. -/
def Widens (scan : List Char → Option Cut) : Prop :=
  ∀ cs, scan (widen cs) = (scan cs).map Cut.widen

theorem extend_widen (front : List Char) (cut : Option Cut) :
    extend (widen front) (cut.map Cut.widen) = (extend front cut).map Cut.widen := by
  cases cut with
  | none => rfl
  | some cut => exact congrArg (fun w => some (w, widen cut.2)) (widen_append front cut.1).symm

theorem extend_widen_of_not_mem {front : List Char} (h : '\n' ∉ front) (cut : Option Cut) :
    extend front (cut.map Cut.widen) = (extend front cut).map Cut.widen := by
  rw [← extend_widen, widen_of_not_mem h]

theorem isPrefixOf_widen {w : List Char} (hn : '\n' ∉ w) (hr : '\r' ∉ w) (cs : List Char) :
    w.isPrefixOf (widen cs) = w.isPrefixOf cs := by
  induction w generalizing cs with
  | nil => rfl
  | cons c w ih =>
    rw [List.mem_cons, not_or] at hn hr
    cases cs with
    | nil => rfl
    | cons d cs =>
      by_cases hd : d = '\n'
      · subst hd
        rw [widen_newline, List.isPrefixOf_cons_cons, List.isPrefixOf_cons_cons,
          beq_eq_false_iff_ne.2 (Ne.symm hn.1), beq_eq_false_iff_ne.2 (Ne.symm hr.1),
          Bool.false_and, Bool.false_and]
      · rw [widen_cons hd, List.isPrefixOf_cons_cons, List.isPrefixOf_cons_cons, ih hn.2 hr.2]

theorem word_widens {w : List Char} (hn : '\n' ∉ w) (hr : '\r' ∉ w) : Widens (word w) := by
  intro cs
  rw [word, word, isPrefixOf_widen hn hr]
  cases hprefix : w.isPrefixOf cs with
  | false => rfl
  | true =>
    obtain ⟨rest, rfl⟩ := List.isPrefixOf_iff_prefix.1 hprefix
    have hcut : Cut.widen (w, rest) = (w, widen rest) :=
      congrArg (fun v => (v, widen rest)) (widen_of_not_mem hn)
    rw [if_pos rfl, if_pos rfl, widen_append, widen_of_not_mem hn, List.drop_left, List.drop_left,
      Option.map_some, hcut]

theorem name_widens : Widens name := by
  intro cs
  cases cs with
  | nil => rfl
  | cons c cs =>
    by_cases hc : c = '\n'
    · subst hc
      rfl
    · rw [widen_cons hc, name, name, takeWhile_widen rfl, dropWhile_widen rfl]
      split
      · rw [← widen_cons hc]
        rfl
      · rfl

theorem digits_widens : Widens digits := by
  intro cs
  rw [digits, digits, takeWhile_widen rfl, dropWhile_widen rfl]
  cases hdigits : cs.takeWhile Ascii.isDigit with
  | nil => rfl
  | cons c ds =>
    rw [isEmpty_widen, List.isEmpty_cons, if_neg Bool.false_ne_true, if_neg Bool.false_ne_true]
    rfl

/-- A scanner that asks for one character and then goes on as another one. -/
theorem widens_of_opening (d : Char) {scan inner : List Char → Option Cut} (hn : d ≠ '\n')
    (hr : d ≠ '\r') (hscan : ∀ cs, scan (d :: cs) = extend [d] (inner cs))
    (hother : ∀ cs, cs.head? ≠ some d → scan cs = none) (h : Widens inner) : Widens scan := by
  have hne : ∀ {c : Char} {cs : List Char}, c ≠ d → scan (c :: cs) = none :=
    fun hc => hother _ (mt Option.some.inj hc)
  intro cs
  cases cs with
  | nil => rw [widen_nil, hother [] (Option.some_ne_none d).symm, Option.map_none]
  | cons c cs =>
    by_cases hc : c = '\n'
    · subst hc
      rw [widen_newline, hne hr.symm, hne hn.symm, Option.map_none]
    · rw [widen_cons hc]
      by_cases hd : c = d
      · subst hd
        have hfront : '\n' ∉ [c] := fun hmem => hc (List.mem_singleton.1 hmem).symm
        rw [hscan, hscan, h, extend_widen_of_not_mem hfront]
      · rw [hne hd, hne hd, Option.map_none]

theorem fraction_widens : Widens fraction := by
  refine widens_of_opening '.' (by decide) (by decide) (fun _ => rfl) ?_ digits_widens
  intro cs hcs
  rw [fraction]
  rintro ds rfl
  exact hcs rfl

theorem integer_cons {c : Char} (hc : c ≠ '-') (cs : List Char) :
    integer (c :: cs) = digits (c :: cs) := by
  rw [integer]
  rintro ds he
  exact hc (List.cons.inj he).1

theorem integer_widens : Widens integer := by
  intro cs
  cases cs with
  | nil => rfl
  | cons c cs =>
    by_cases hc : c = '\n'
    · subst hc
      rfl
    · by_cases hd : c = '-'
      · subst hd
        rw [widen_cons hc, integer, integer, digits_widens, extend_widen_of_not_mem (by decide)]
      · have hdigits := digits_widens (c :: cs)
        rw [widen_cons hc] at hdigits ⊢
        rw [integer_cons hd, integer_cons hd, hdigits]

theorem float_widens : Widens float := by
  intro cs
  rw [float, float, integer_widens]
  cases integer cs with
  | none => rfl
  | some cut =>
    rw [Option.map_some, Option.bind_some, Option.bind_some]
    exact (congrArg _ (fraction_widens cut.2)).trans (extend_widen cut.1 _)

theorem stringBody_widens : Widens stringBody := by
  intro cs
  fun_induction stringBody cs with
  | case1 => rfl
  | case2 => rfl
  -- a backslash takes the carriage return, but the line feed behind it still ends the line
  | case3 cs => rfl
  | case4 c cs hc ih =>
    have hpair : '\n' ∉ ['\\', c] := by
      simp only [List.mem_cons, List.not_mem_nil, or_false, not_or]
      exact ⟨by decide, Ne.symm hc⟩
    rw [widen_cons (by decide), widen_cons hc, stringBody, if_neg hc, ih,
      extend_widen_of_not_mem hpair]
  | case5 cs => rfl
  | case6 cs => rfl
  | case7 c cs hb hq hn ih =>
    have hfront : '\n' ∉ [c] := fun hmem => hn (List.mem_singleton.1 hmem).symm
    rw [widen_cons hn, stringBody, if_neg hq, if_neg hn, ih, extend_widen_of_not_mem hfront]
    exact hb

theorem string_widens : Widens string := by
  refine widens_of_opening '\x22' (by decide) (by decide) (fun _ => rfl) ?_ stringBody_widens
  intro cs hcs
  rw [string]
  rintro ds rfl
  exact hcs rfl

theorem charBody_widens : Widens charBody := by
  intro cs
  fun_induction charBody cs with
  | case1 => rfl
  | case2 cs => rfl
  | case3 cs => rfl
  | case4 c cs hq hn ih =>
    have hfront : '\n' ∉ [c] := fun hmem => hn (List.mem_singleton.1 hmem).symm
    rw [widen_cons hn, charBody, if_neg hq, if_neg hn, ih, extend_widen_of_not_mem hfront]

theorem char_widens : Widens char := by
  refine widens_of_opening '\x27' (by decide) (by decide) (fun _ => rfl) ?_ charBody_widens
  intro cs hcs
  rw [char]
  rintro ds rfl
  exact hcs rfl

theorem angle_widens : Widens angle := by
  intro cs
  rw [angle, angle, takeWhile_widen rfl, dropWhile_widen rfl,
    word_widens (by decide) (by decide), extend_widen]

theorem matrixOpen_widens : Widens matrixOpen := by
  intro cs
  rw [matrixOpen, matrixOpen, word_widens (by decide) (by decide)]
  cases word matrixWord cs with
  | none => rfl
  | some cut =>
    rw [Option.map_some, Option.bind_some, Option.bind_some]
    exact (congrArg _ (angle_widens cut.2)).trans (extend_widen cut.1 _)

theorem bool_widens : Widens bool := by
  intro cs
  rw [bool, bool, word_widens (by decide) (by decide), word_widens (by decide) (by decide),
    Option.map_or]

end Scan

namespace Pattern

variable {w : List Char}

theorem IsDigits.newline_not_mem (h : IsDigits w) : '\n' ∉ w :=
  fun hmem => absurd (h.2 _ hmem) (by decide)

theorem IsInteger.newline_not_mem (h : IsInteger w) : '\n' ∉ w := by
  rcases h with h | ⟨ds, h, rfl⟩
  · exact h.newline_not_mem
  · rw [List.mem_cons, not_or]
    exact ⟨by decide, h.newline_not_mem⟩

theorem IsName.newline_not_mem (h : IsName w) : '\n' ∉ w := by
  cases w with
  | nil => exact List.not_mem_nil
  | cons c w =>
    rw [List.mem_cons, not_or]
    refine ⟨?_, fun hmem => absurd (h.2 _ hmem) (by decide)⟩
    rintro rfl
    exact absurd h.1 (by decide)

theorem IsStringBody.newline_not_mem (h : IsStringBody w) : '\n' ∉ w := by
  induction h with
  | nil => exact List.not_mem_nil
  | plain _ _ hn _ ih =>
    rw [List.mem_cons, not_or]
    exact ⟨Ne.symm hn, ih⟩
  | escaped hn _ ih =>
    rw [List.mem_cons, List.mem_cons, not_or, not_or]
    exact ⟨by decide, Ne.symm hn, ih⟩

theorem newline_not_mem_quoted {q : Char} {body : List Char} (hq : '\n' ≠ q) (h : '\n' ∉ body) :
    '\n' ∉ q :: (body ++ [q]) := by
  rw [List.mem_cons, List.mem_append, List.mem_singleton, not_or, not_or]
  exact ⟨hq, h, hq⟩

end Pattern

namespace Terminal

/-- No line end cuts a lexeme short or makes it longer. -/
theorem scan_widens (t : Terminal) : Scan.Widens t.scan := by
  cases t with
  | matrixOpen => exact Scan.matrixOpen_widens
  | bool => exact Scan.bool_widens
  | identifier => exact Scan.name_widens
  | char => exact Scan.char_widens
  | float => exact Scan.float_widens
  | integer => exact Scan.integer_widens
  | string => exact Scan.string_widens
  | _ => exact Scan.word_widens (by decide) (by decide)

/-- Only the opening of a matrix holds line feeds. -/
theorem newline_not_mem {t : Terminal} {w : List Char} (ht : t ≠ matrixOpen) (h : t.Matches w) :
    '\n' ∉ w := by
  cases t with
  | matrixOpen => exact absurd rfl ht
  | bool =>
    rcases h with rfl | rfl
    · decide
    · decide
  | identifier => exact h.newline_not_mem
  | char =>
    obtain ⟨body, hbody, rfl⟩ := h
    refine Pattern.newline_not_mem_quoted (by decide) fun hmem => ?_
    exact (hbody _ hmem).2 rfl
  | float =>
    obtain ⟨whole, ds, hwhole, hds, rfl⟩ := h
    rw [List.mem_append, List.mem_cons, not_or, not_or]
    exact ⟨hwhole.newline_not_mem, by decide, hds.newline_not_mem⟩
  | integer => exact Pattern.IsInteger.newline_not_mem h
  | string =>
    obtain ⟨body, hbody, rfl⟩ := h
    exact Pattern.newline_not_mem_quoted (by decide) hbody.newline_not_mem
  | _ =>
    rw [eq_spelling h rfl]
    decide

theorem resolve_widen {accepted : List Terminal} {t : Terminal} {w : List Char}
    (h : t.Matches w) : resolve accepted t (widen w) = resolve accepted t w := by
  rw [resolve, resolve]
  split
  · rename_i hname
    rw [widen_of_not_mem (newline_not_mem (by rw [hname]; decide) h)]
  · rfl

end Terminal

/-- A lexeme with carriage returns in front of the line feeds in it and behind it. -/
def Lexeme.widen (l : Lexeme) : Lexeme := ⟨l.terminal, Newline.widen l.text, Newline.widen l.rest⟩

/-- Behind the same layout the same lexeme is found. -/
theorem lexeme?_widen (accepted : List Terminal) (cs : List Char) :
    lexeme? accepted (widen cs) = (lexeme? accepted cs).map Lexeme.widen := by
  rw [lexeme?, lexeme?, List.map_findSome?]
  refine congrArg (fun f => Terminal.all.findSome? f) (funext fun t => ?_)
  rw [Function.comp_apply, t.scan_widens]
  split
  · cases hscan : t.scan cs with
    | none => rfl
    | some cut =>
      obtain ⟨w, rest⟩ := cut
      simp only [Option.map_some, Scan.Cut.widen, isEmpty_widen,
        Terminal.resolve_widen (Terminal.scan_matches hscan)]
      cases w <;> rfl
  · rfl

/-! ### Layout -/

namespace Layout

theorem head?_widen {c : Char} (hn : c ≠ '\n') (hr : c ≠ '\r') (cs : List Char) :
    (widen cs).head? = some c ↔ cs.head? = some c := by
  cases cs with
  | nil => exact Iff.rfl
  | cons d cs =>
    by_cases hd : d = '\n'
    · subst hd
      exact iff_of_false (fun h => hr (Option.some.inj h).symm) fun h => hn (Option.some.inj h).symm
    · rw [widen_cons hd]
      exact Iff.rfl

theorem IsCommentBody.widen {cs : List Char} (h : IsCommentBody cs) :
    IsCommentBody (widen cs) := by
  induction h with
  | nil => exact .nil
  | @cons c cs hc _ ih =>
    by_cases hd : c = '\n'
    · subst hd
      exact .cons (fun h => absurd h.1 (by decide)) (.cons (fun h => absurd h.1 (by decide)) ih)
    · rw [widen_cons hd]
      refine .cons ?_ ih
      rintro ⟨hstar, hslash⟩
      exact hc ⟨hstar, (head?_widen (by decide) (by decide) cs).1 hslash⟩

theorem IsGap.of_return {closed : Bool} {cs : List Char} (h : IsGap closed ('\r' :: cs)) :
    IsGap closed cs := by
  cases h with
  | blank _ h => exact h

/-- Carriage returns in front of line feeds are layout in layout. -/
theorem IsGap.widen {closed : Bool} {gap : List Char} (h : IsGap closed gap) :
    IsGap closed (widen gap) := by
  induction h with
  | nil => exact .nil
  | @blank _ c cs hc _ ih =>
    by_cases hd : c = '\n'
    · subst hd
      exact .blank rfl (.blank rfl ih)
    · rw [widen_cons hd]
      exact .blank hc ih
  | @block _ body cs hb _ ih =>
    have hwhole := IsGap.block hb.widen ih
    have heq : Newline.widen ('/' :: '*' :: (body ++ '*' :: '/' :: cs)) =
        '/' :: '*' :: (Newline.widen body ++ '*' :: '/' :: Newline.widen cs) := by
      rw [widen_cons (by decide), widen_cons (by decide), widen_append, widen_cons (by decide),
        widen_cons (by decide)]
    rwa [heq]
  | @line _ body cs hb _ ih =>
    -- the carriage return belongs to the comment
    have hbody : '\n' ∉ body ++ ['\r'] := by
      rw [List.mem_append, not_or]
      exact ⟨hb, by decide⟩
    have hwhole := IsGap.line hbody ih.of_return
    have heq : Newline.widen ('/' :: '/' :: (body ++ '\n' :: cs)) =
        '/' :: '/' :: (body ++ ['\r'] ++ '\n' :: Newline.widen cs) := by
      rw [widen_cons (by decide), widen_cons (by decide), widen_append, widen_of_not_mem hb,
        List.append_assoc]
      rfl
    rwa [heq]
  | @lastLine body hb =>
    rw [widen_cons (by decide), widen_cons (by decide), widen_of_not_mem hb]
    exact .lastLine hb

theorem blockComment?_widen (cs : List Char) :
    blockComment? (Newline.widen cs) = (blockComment? cs).map Scan.Cut.widen := by
  fun_induction blockComment? cs with
  | case1 => rfl
  | case2 cs => rfl
  | case3 c cs hc ih =>
    by_cases hd : c = '\n'
    · subst hd
      rw [widen_newline, blockComment?, blockComment?, ih]
      · cases blockComment? cs <;> rfl
      · exact fun _ h => absurd h (by decide)
      · exact fun _ h => absurd h (by decide)
    · rw [widen_cons hd, blockComment?, ih]
      · cases blockComment? cs with
        | none => rfl
        | some cut =>
          exact congrArg (fun w => some (w, Newline.widen cut.2)) (widen_cons hd cut.1).symm
      · -- no carriage return comes between the star and the slash that end a comment
        rintro ds hstar hslash
        have hhead : cs.head? = some '/' :=
          (head?_widen (by decide) (by decide) cs).1 (congrArg List.head? hslash)
        obtain ⟨es, rfl⟩ := List.head?_eq_some_iff.1 hhead
        exact hc es hstar rfl

theorem piece?_cons {c : Char} (hc : c ≠ '/') (cs : List Char) :
    piece? (c :: cs) = if Blank.isLayout c then some ([c], cs) else none := by
  rw [piece?]
  · exact fun _ h => absurd h hc
  · exact fun _ h => absurd h hc

theorem piece?_slash {cs : List Char} (hline : cs.head? ≠ some '/') (hblock : cs.head? ≠ some '*') :
    piece? ('/' :: cs) = none := by
  rw [piece?]
  · rfl
  · exact fun _ _ h => hline (congrArg List.head? h)
  · exact fun _ _ h => hblock (congrArg List.head? h)

/-- Where a comment ends with carriage returns in it: a line comment takes the last of them. -/
theorem piece?_slash_widen {cs piece rest : List Char}
    (h : piece? ('/' :: cs) = some (piece, rest)) :
    ∃ piece' rest', piece? ('/' :: Newline.widen cs) = some (piece', rest') ∧
      (Newline.widen rest = rest' ∨ Newline.widen rest = '\r' :: rest') := by
  by_cases hline : cs.head? = some '/'
  · obtain ⟨cs, rfl⟩ := List.head?_eq_some_iff.1 hline
    have hbody : '\n' ∉ cs.takeWhile (· ≠ '\n') := fun hmem =>
      absurd (Scan.all_takeWhile _ hmem) (by decide)
    have hrest : cs.dropWhile (· ≠ '\n') = rest := (Prod.mk.inj (Option.some.inj h)).2
    have hcs : cs.takeWhile (· ≠ '\n') ++ rest = cs := hrest ▸ List.takeWhile_append_dropWhile
    -- the line may be the last one, and then no carriage return follows the comment
    rcases dropWhile_newline cs with hdrop | ⟨tail, hdrop⟩
    · obtain rfl := hrest.symm.trans hdrop
      rw [List.append_nil] at hcs
      rw [hcs] at hbody
      refine ⟨piece, [], ?_, Or.inl rfl⟩
      rw [widen_cons (by decide), widen_of_not_mem hbody, h]
    · obtain rfl := hrest.symm.trans hdrop
      have hwide : Newline.widen cs =
          cs.takeWhile (· ≠ '\n') ++ ['\r'] ++ '\n' :: Newline.widen tail := by
        conv_lhs => rw [← hcs, widen_append, widen_of_not_mem hbody]
        rw [List.append_assoc]
        rfl
      have hreturn : '\n' ∉ cs.takeWhile (· ≠ '\n') ++ ['\r'] := by
        rw [List.mem_append, not_or]
        exact ⟨hbody, by decide⟩
      rw [widen_cons (by decide), hwide]
      exact ⟨_, _, piece?_line hreturn _, Or.inr (widen_newline tail)⟩
  · by_cases hblock : cs.head? = some '*'
    · obtain ⟨cs, rfl⟩ := List.head?_eq_some_iff.1 hblock
      obtain ⟨⟨inside, after⟩, hinside, he⟩ := Option.map_eq_some_iff.1 h
      obtain ⟨-, rfl⟩ := Prod.mk.inj he
      refine ⟨'/' :: '*' :: Newline.widen inside, _, ?_, Or.inl rfl⟩
      rw [widen_cons (by decide), piece?, blockComment?_widen, hinside]
      rfl
    · rw [piece?_slash hline hblock] at h
      cases h

theorem piece?_slash_widen_none {cs : List Char} (h : piece? ('/' :: cs) = none) :
    piece? ('/' :: Newline.widen cs) = none := by
  by_cases hline : cs.head? = some '/'
  · obtain ⟨cs, rfl⟩ := List.head?_eq_some_iff.1 hline
    cases h
  · by_cases hblock : cs.head? = some '*'
    · obtain ⟨cs, rfl⟩ := List.head?_eq_some_iff.1 hblock
      have hinside : blockComment? cs = none := Option.map_eq_none_iff.1 h
      rw [widen_cons (by decide), piece?, blockComment?_widen, hinside]
      rfl
    · exact piece?_slash (mt (head?_widen (by decide) (by decide) cs).1 hline)
        (mt (head?_widen (by decide) (by decide) cs).1 hblock)

theorem piece?_widen_none {cs : List Char} (h : piece? cs = none) :
    piece? (Newline.widen cs) = none := by
  cases cs with
  | nil => rfl
  | cons c cs =>
    by_cases hslash : c = '/'
    · subst hslash
      rw [widen_cons (by decide)]
      exact piece?_slash_widen_none h
    · by_cases hnewline : c = '\n'
      · subst hnewline
        cases h
      · rw [piece?_cons hslash] at h
        rw [widen_cons hnewline, piece?_cons hslash]
        split at h
        · cases h
        · rename_i hblank
          exact if_neg hblank

theorem split_widen (cs : List Char) :
    split (Newline.widen cs) = (Newline.widen (split cs).1, Newline.widen (split cs).2) := by
  have hrest := piece?_widen_none (piece?_split cs)
  have hwhole := congrArg Newline.widen (split_append cs)
  rw [widen_append] at hwhole
  rw [← hwhole]
  -- a line comment without its line feed is layout at the end of the text only
  by_cases hend : (split cs).2 = []
  · refine split_of_isGap (isGap_split false cs nofun).widen hrest fun _ => ?_
    rw [hend, widen_nil]
  · exact split_of_isGap (isGap_split true cs fun _ => hend).widen hrest nofun

/-! ### Types -/

theorem withoutComments_of_none {cs : List Char} (h : piece? ('/' :: cs) = none) :
    withoutComments ('/' :: cs) = '/' :: withoutComments cs := by
  rw [withoutComments, if_pos rfl]
  split
  · rfl
  · simp_all only [reduceCtorEq]

theorem words_break {b : Char} (hb : Blank.isWordBreak b = true) (as bs : List Char) :
    Blank.words (as ++ ' ' :: b :: bs) = Blank.words (as ++ ' ' :: bs) := by
  have hspace : Blank.isWordBreak ' ' = true := rfl
  rw [Blank.words_append_cons as _ hspace, Blank.words_append_cons as _ hspace,
    Blank.words_cons _ hb]

/-- Carriage returns in front of line feeds part no words and join none, comments aside. -/
theorem words_widen (as cs : List Char) :
    Blank.words (as ++ withoutComments (Newline.widen cs)) =
      Blank.words (as ++ withoutComments cs) := by
  fun_induction withoutComments cs generalizing as with
  | case1 => rw [widen_nil, withoutComments]
  | case2 cs hpiece ih =>
    rw [widen_cons (by decide), withoutComments_of_none (piece?_slash_widen_none hpiece)]
    have hwords := ih (as ++ ['/'])
    rwa [← List.append_cons, ← List.append_cons] at hwords
  | case3 cs piece rest hpiece ih =>
    obtain ⟨piece', rest', hpiece', hrest⟩ := piece?_slash_widen hpiece
    rw [widen_cons (by decide), withoutComments_of_piece hpiece']
    have hwords := ih (as ++ [' '])
    rw [← List.append_cons, ← List.append_cons] at hwords
    -- a carriage return that went with the comment stood behind a space, where it parts nothing
    rcases hrest with rfl | hreturn
    · exact hwords
    · rw [hreturn, withoutComments_cons (by decide), words_break (by decide)] at hwords
      exact hwords
  | case4 c cs hc ih =>
    by_cases hnewline : c = '\n'
    · subst hnewline
      have hbreak : Blank.isWordBreak '\n' = true := by decide
      have hreturn : Blank.isWordBreak '\r' = true := by decide
      -- the words in front of a line end are finished, so those behind it stand on their own
      have hwords := ih []
      rw [widen_newline, withoutComments_cons (by decide), withoutComments_cons (by decide),
        Blank.words_append_cons as _ hreturn, Blank.words_append_cons as _ hbreak,
        Blank.words_cons _ hbreak]
      exact congrArg (Blank.words as ++ ·) hwords
    · have hwords := ih (as ++ [c])
      rw [← List.append_cons, ← List.append_cons] at hwords
      rwa [widen_cons hnewline, withoutComments_cons hc]

/-- What is kept of a written type does not depend on line ends. -/
theorem collapse_widen (cs : List Char) : collapse (Newline.widen cs) = collapse cs :=
  congrArg [' '].intercalate (words_widen [] cs)

end Layout

end ClassLang
