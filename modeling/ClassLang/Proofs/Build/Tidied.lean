import ClassLang.Proofs.Build.TypeText
import ClassLang.Proofs.Syntax.LaidReading
import ClassLang.Proofs.Syntax.Spaced

/-!
# Tidied types

What is kept of a type that is written in a text are its words, with one space wherever there is
layout between two of them (`collapse_inner`). The words of the lexer are met again, though layout
is taken out without it: no two of them are joined, none is split, and nothing of a comment stays.
Pieces that are apart stay apart with other layout, and so with single spaces (`Apart.respaced`).
-/

namespace ClassLang

open Terminal

/-! ### Words with single spaces between them -/

/-- A word with a single space for the blanks in it. Only an opened matrix has any. -/
def Terminal.tidy (k : Terminal) (w : List Char) : List Char :=
  if k = matrixOpen ∧ w ≠ "Matrix<".toList then "Matrix <".toList else w

/-- A single space for layout, and nothing where there is none. -/
def Layout.tidy : List Char → List Char
  | [] => []
  | _ :: _ => [' ']

def Piece.tidy (x : Piece) : Piece := ⟨Layout.tidy x.gap, x.terminal, x.terminal.tidy x.word⟩

/-- The text of some words, with one space wherever there is layout between two of them. -/
def tidied (xs : List Piece) : List Char := inner (xs.map Piece.tidy)

theorem Terminal.tidy_of_ne {k : Terminal} (hk : k ≠ matrixOpen) (w : List Char) : k.tidy w = w :=
  if_neg fun h => hk h.1

theorem Terminal.tidy_tidy (k : Terminal) (w : List Char) : k.tidy (k.tidy w) = k.tidy w := by
  by_cases h : k = matrixOpen ∧ w ≠ "Matrix<".toList
  · have htidy : k.tidy w = "Matrix <".toList := if_pos h
    rw [htidy, tidy, if_pos ⟨h.1, by decide⟩]
  · have htidy : k.tidy w = w := if_neg h
    rw [htidy, htidy]

theorem Layout.tidy_eq_nil {gap : List Char} : tidy gap = [] ↔ gap = [] := by
  cases gap with
  | nil => exact Iff.rfl
  | cons c gap => exact iff_of_false (List.cons_ne_nil _ _) (List.cons_ne_nil _ _)

theorem Layout.tidy_of_ne {gap : List Char} (h : gap ≠ []) : tidy gap = [' '] := by
  cases gap with
  | nil => exact absurd rfl h
  | cons c gap => rfl

theorem Piece.tidy_tidy (x : Piece) : x.tidy.tidy = x.tidy := by
  have hgap : Layout.tidy (Layout.tidy x.gap) = Layout.tidy x.gap := by
    cases x.gap <;> rfl
  rw [tidy, tidy, hgap, Terminal.tidy_tidy]

theorem tidied_tidy (xs : List Piece) : tidied (xs.map Piece.tidy) = tidied xs := by
  rw [tidied, tidied, List.map_map]
  congr 1
  exact List.map_congr_left fun x _ => x.tidy_tidy

namespace Blank

/-- Whether a text that stands behind letters comes out as another one when the words of the whole
are joined by single spaces. -/
def Squeezes (cs ds : List Char) : Prop :=
  ∀ w : List Char, w ≠ [] → (∀ c ∈ w, isWordBreak c = false) →
    [' '].intercalate (words (w ++ cs)) = w ++ ds

theorem letters_of_all {w : List Char} (h : (w.all fun c => !isWordBreak c) = true) :
    ∀ c ∈ w, isWordBreak c = false :=
  fun c hc => Bool.not_eq_true' _ ▸ List.all_eq_true.1 h c hc

theorem words_of_letters {w : List Char} (hne : w ≠ []) (hw : ∀ c ∈ w, isWordBreak c = false) :
    words w = [w] := by
  have hone : w.splitOnP isWordBreak = [w] := by
    apply List.splitOnP_eq_singleton
    intro c hc
    rw [hw c hc]
  rw [words, hone, List.filter_singleton]
  cases w with
  | nil => exact absurd rfl hne
  | cons c w => rfl

namespace Squeezes

variable {cs ds w : List Char}

theorem nil : Squeezes [] [] := by
  intro w hne hw
  rw [List.append_nil, words_of_letters hne hw, List.intercalate_singleton]

theorem letters (h : Squeezes cs ds) (hw : ∀ c ∈ w, isWordBreak c = false) :
    Squeezes (w ++ cs) (w ++ ds) := by
  intro v hne hv
  rw [← List.append_assoc, ← List.append_assoc]
  exact h _ (List.append_ne_nil_of_left_ne_nil hne w) (List.forall_mem_append.2 ⟨hv, hw⟩)

/-- Breaks between letters come out as one space. -/
theorem breaks {bs : List Char} (h : Squeezes cs ds) (hbs : bs ≠ [])
    (hb : ∀ b ∈ bs, isWordBreak b = true) (hne : w ≠ []) (hw : ∀ c ∈ w, isWordBreak c = false) :
    Squeezes (bs ++ (w ++ cs)) (' ' :: (w ++ ds)) := by
  intro v hv hletters
  have hrest := h w hne hw
  obtain ⟨u, us, hus⟩ : ∃ u us, words (w ++ cs) = u :: us := by
    apply List.exists_cons_of_ne_nil
    intro hnil
    rw [hnil] at hrest
    exact List.append_ne_nil_of_left_ne_nil hne ds hrest.symm
  rw [words_append_breaks hbs hb, words_of_letters hv hletters, hus, List.singleton_append,
    List.intercalate_cons_cons, ← hus, hrest, List.append_assoc, List.singleton_append]

end Squeezes

end Blank

/-! ### The words of types -/

/-- Whether pieces are words that types are written with, behind closed layout. -/
def TypeWords (xs : List Piece) : Prop :=
  ∀ x ∈ xs, x.terminal.spellsType = true ∧ x.terminal.Matches x.word ∧ Layout.IsGap true x.gap

theorem Ascii.isWordBreak_of_isNameChar {c : Char} (h : isNameChar c = true) :
    Blank.isWordBreak c = false := by
  rcases Bool.or_eq_true_iff.1 h with h | h
  · have hrange := toNat_of_isNameStart h
    exact Blank.isWordBreak_of_toNat (by omega) (by omega)
  · have hrange := Numeral.toNat_of_isDigit h
    exact Blank.isWordBreak_of_toNat (by omega) (by omega)

/-- No blanks are in the words of types but in an opened matrix. -/
theorem Terminal.letters_of_spellsType {k : Terminal} {w : List Char} (hk : k.spellsType = true)
    (ho : k ≠ matrixOpen) (hm : k.Matches w) : ∀ c ∈ w, Blank.isWordBreak c = false := by
  have hsign : ∀ s : String, k.spelling? = some s →
      (s.toList.all fun c => !Blank.isWordBreak c) = true →
      ∀ c ∈ w, Blank.isWordBreak c = false := by
    intro s hs hall
    rw [eq_spelling hm hs]
    exact Blank.letters_of_all hall
  cases k with
  | matrixOpen => exact absurd rfl ho
  | identifier =>
    cases w with
    | nil => cases hm
    | cons c w =>
      obtain ⟨hc, hw⟩ := hm
      have hname : ∀ d ∈ c :: w, Ascii.isNameChar d = true :=
        List.forall_mem_cons.2 ⟨Ascii.isNameChar_of_isNameStart hc, hw⟩
      exact fun d hd => Ascii.isWordBreak_of_isNameChar (hname d hd)
  | kwConst => exact hsign _ rfl rfl
  | doubleColon => exact hsign _ rfl rfl
  | star => exact hsign _ rfl rfl
  | doubleStar => exact hsign _ rfl rfl
  | ampersand => exact hsign _ rfl rfl
  | leftBracket => exact hsign _ rfl rfl
  | rightBracket => exact hsign _ rfl rfl
  | greater => exact hsign _ rfl rfl
  | _ => cases hk

/-- A word of a type is letters, and what may follow them in it comes out as in the tidy word. -/
theorem Terminal.exists_letters {k : Terminal} {w : List Char} (hk : k.spellsType = true)
    (hm : k.Matches w) :
    ∃ v more more', w = v ++ more ∧ k.tidy w = v ++ more' ∧ v ≠ [] ∧
      (∀ c ∈ v, Blank.isWordBreak c = false) ∧
      ∀ cs ds, Blank.Squeezes cs ds → Blank.Squeezes (more ++ cs) (more' ++ ds) := by
  by_cases ho : k = matrixOpen
  · subst ho
    obtain ⟨blanks, hblanks, rfl⟩ := hm
    have hword := Blank.letters_of_all (w := Scan.matrixWord) rfl
    have hangle := Blank.letters_of_all (w := ['<']) rfl
    have hbreaks : ∀ b ∈ blanks, Blank.isWordBreak b = true := by
      intro b hb
      have hblank := hblanks b hb
      simp only [Blank.isMatrixBlank, Bool.or_eq_true, decide_eq_true_eq] at hblank
      rcases hblank with ((rfl | rfl) | rfl) | rfl <;> rfl
    by_cases hnil : blanks = []
    · subst hnil
      exact ⟨Scan.matrixWord, ['<'], ['<'], rfl, rfl, by decide, hword,
        fun _ _ h => h.letters hangle⟩
    · have htidy : matrixOpen.tidy (Scan.matrixWord ++ (blanks ++ ['<'])) = "Matrix <".toList := by
        refine if_pos ⟨rfl, fun heq => hnil ?_⟩
        have hlength := congrArg List.length heq
        have hmatrix : Scan.matrixWord.length = 6 := rfl
        have hopen : "Matrix<".toList.length = 7 := rfl
        rw [List.length_append, List.length_append, List.length_singleton, hmatrix, hopen]
          at hlength
        exact List.length_eq_zero_iff.1 (by omega)
      refine ⟨Scan.matrixWord, blanks ++ ['<'], [' ', '<'], rfl, htidy, by decide, hword, ?_⟩
      intro cs ds h
      rw [List.append_assoc]
      exact h.breaks hnil hbreaks (List.cons_ne_nil _ _) hangle
  · exact ⟨w, [], [], (List.append_nil w).symm, (tidy_of_ne ho w).trans (List.append_nil w).symm,
      hm.ne_nil, letters_of_spellsType hk ho hm, fun _ _ h => h⟩

theorem squeezes_weave {xs : List Piece} (h : TypeWords xs) :
    Blank.Squeezes (Layout.withoutComments (weave xs [])) (weave (xs.map Piece.tidy) []) := by
  induction xs with
  | nil =>
    rw [weave, Layout.withoutComments]
    exact .nil
  | cons x xs ih =>
    obtain ⟨⟨hk, hm, hgap⟩, hxs⟩ := List.forall_mem_cons.1 h
    obtain ⟨bs, hbs, hnil, hrest⟩ := Layout.withoutComments_gap hgap rfl
    obtain ⟨v, more, more', hword, htidy, hne, hletters, hmore⟩ := exists_letters hk hm
    have hbehind := hmore _ _ (ih hxs)
    rw [weave, hrest, Layout.withoutComments_word (slash_not_mem hk hm), hword, List.append_assoc,
      List.map_cons, weave]
    simp only [Piece.tidy, htidy, List.append_assoc]
    by_cases hempty : x.gap = []
    · rw [Layout.tidy_eq_nil.2 hempty, hnil.2 hempty]
      exact hbehind.letters hletters
    · rw [Layout.tidy_of_ne hempty]
      exact hbehind.breaks (fun hb => hempty (hnil.1 hb)) hbs hne hletters

/-- What is kept of a type are its words, with one space wherever there is layout. -/
theorem collapse_inner {xs : List Piece} (h : TypeWords xs) :
    Layout.collapse (inner xs) = tidied xs := by
  cases xs with
  | nil =>
    rw [inner, Layout.collapse, Layout.withoutComments]
    rfl
  | cons x xs =>
    obtain ⟨⟨hk, hm, -⟩, hxs⟩ := List.forall_mem_cons.1 h
    obtain ⟨v, more, more', hword, htidy, hne, hletters, hmore⟩ := exists_letters hk hm
    have hbehind := hmore _ _ (squeezes_weave hxs) v hne hletters
    rw [inner, Layout.collapse, Layout.withoutComments_word (slash_not_mem hk hm), hword,
      List.append_assoc, hbehind, tidied, List.map_cons, inner]
    simp only [Piece.tidy, htidy, List.append_assoc]

/-! ### Other layout between words -/

/-- Layout ends whatever stands in front of it. -/
theorem Terminal.endsBefore_gap {closed : Bool} {gap rest : List Char}
    (h : Layout.IsGap closed gap) (hne : gap ≠ []) (ha : Scan.angle (gap ++ rest) = none)
    (k : Terminal) : k.EndsBefore (gap ++ rest) := by
  have hstart : ∀ p : Char → Bool, ([' ', '\t', '\x0c', '\r', '\n', '/'].any p) = false →
      startsWith p (gap ++ rest) = false := by
    intro p hp
    have hall := List.any_eq_false.1 hp
    have hnot : ∀ c ∈ [' ', '\t', '\x0c', '\r', '\n', '/'], p c = false :=
      fun c hc => Bool.eq_false_iff.2 (hall c hc)
    rw [startsWith_of_ne_nil hne]
    refine h.startsWith ?_ (hnot '/' (by decide))
    intro c hc
    simp only [Blank.isLayout, Bool.or_eq_true, decide_eq_true_eq] at hc
    rcases hc with (((rfl | rfl) | rfl) | rfl) | rfl <;> exact hnot _ (by decide)
  cases k <;> first
    | exact ⟨hstart _ rfl, ha⟩
    | exact ⟨hstart _ rfl, hstart _ rfl⟩
    | exact hstart _ rfl
    | exact trivial

/-- A word behind a space ends whatever stands in front of the space. -/
theorem Terminal.endsBefore_spaced {t : Terminal} {w : List Char} (hm : t.Matches w)
    (rest : List Char) (k : Terminal) : k.EndsBefore ([' '] ++ (w ++ rest)) := by
  have hgap : Layout.IsGap true [' '] := .blank rfl .nil
  exact endsBefore_gap hgap (List.cons_ne_nil _ _) (hgap.angle (angle_word hm)) k

/-- A sign that carries on no other ends whatever stands in front of it. -/
theorem Terminal.endsBefore_sign {c : Char} {cs : List Char} (hn : Ascii.isNameChar c = false)
    (hb : Blank.isMatrixBlank c = false) (hc : c ∉ ['<', '.', '*', ':']) {k : Terminal} :
    k.EndsBefore (c :: cs) := by
  simp only [List.mem_cons, List.not_mem_nil, or_false, not_or] at hc
  obtain ⟨hangle, hpoint, hstar, hcolon⟩ := hc
  have hdigit : Ascii.isDigit c = false := (Bool.or_eq_false_iff.1 hn).2
  cases k <;> first
    | exact ⟨hn, Scan.angle_cons_other hb hangle⟩
    | exact ⟨hdigit, decide_eq_false hpoint⟩
    | exact hdigit
    | exact decide_eq_false hstar
    | exact decide_eq_false hcolon
    | exact trivial

/-- What ends in front of a word ends in front of any other that starts with the same character. -/
theorem Terminal.endsBefore_word {k t u : Terminal} {w v rest rest' : List Char}
    (hw : t.Matches w) (hv : u.Matches v) (hhead : v.head? = w.head?)
    (h : k.EndsBefore (w ++ rest)) : k.EndsBefore (v ++ rest') := by
  have hangle : Scan.angle (v ++ rest') = none := angle_word hv
  have hstart : ∀ p : Char → Bool, startsWith p (w ++ rest) = false →
      startsWith p (v ++ rest') = false := by
    intro p hp
    obtain ⟨c, w, rfl⟩ := List.exists_cons_of_ne_nil hw.ne_nil
    obtain ⟨d, v, rfl⟩ := List.exists_cons_of_ne_nil hv.ne_nil
    obtain rfl : d = c := Option.some.inj hhead
    exact hp
  cases k <;> first
    | exact ⟨hstart _ h.1, hangle⟩
    | exact ⟨hstart _ h.1, hstart _ h.2⟩
    | exact hstart _ h
    | exact trivial

/-- Whether a piece may stand for another one with other layout: the words start alike, and they are
the same if they are names. -/
structure Piece.Respaced (x y : Piece) : Prop where
  terminal : y.terminal = x.terminal
  word : y.terminal.Matches y.word
  head : y.word.head? = x.word.head?
  name : x.terminal = identifier → y.word = x.word
  gap : Layout.IsGap true y.gap

/-- Pieces that are apart are so with other layout, if the same words are parted. -/
theorem Apart.respaced {xs ys : List Piece} {rest rest' : List Char} (h : Apart xs rest)
    (hxs : List.Forall₂ Piece.Respaced xs ys) (hg : List.Forall₂ Piece.SameGap xs.tail ys.tail)
    (hends : ∀ k : Terminal, k.EndsBefore rest') : Apart ys rest' := by
  induction h generalizing ys with
  | nil =>
    obtain rfl := List.forall₂_nil_left_iff.1 hxs
    exact .nil
  | @cons x xs rest _ _ he h ih =>
    obtain ⟨y, ys, hxy, hys, rfl⟩ := List.forall₂_cons_left_iff.1 hxs
    cases h with
    | nil =>
      obtain rfl := List.forall₂_nil_left_iff.1 hys
      exact .cons hxy.gap hxy.word (hends _) .nil
    | @cons z zs _ _ hz _ _ =>
      obtain ⟨z', zs', hzz', hzs, rfl⟩ := List.forall₂_cons_left_iff.1 hys
      obtain _ | ⟨hgap, hgaps⟩ := hg
      refine .cons hxy.gap hxy.word ?_ (ih hys hgaps)
      rw [hxy.terminal]
      rw [weave] at he ⊢
      by_cases hnil : z'.gap = []
      · rw [hgap.2 hnil, List.nil_append] at he
        rw [hnil, List.nil_append]
        exact endsBefore_word hz hzz'.word hzz'.head he
      · exact endsBefore_gap hzz'.gap hnil (hzz'.gap.angle (angle_word hzz'.word)) _

theorem Terminal.Matches.tidy {k : Terminal} {w : List Char} (h : k.Matches w) :
    k.Matches (k.tidy w) ∧ (k.tidy w).head? = w.head? := by
  by_cases hk : k = matrixOpen ∧ w ≠ "Matrix<".toList
  · have htidy : k.tidy w = "Matrix <".toList := if_pos hk
    obtain ⟨rfl, -⟩ := hk
    obtain ⟨blanks, -, rfl⟩ := h
    rw [htidy]
    exact ⟨⟨[' '], List.forall_mem_singleton.2 rfl, rfl⟩, rfl⟩
  · have htidy : k.tidy w = w := if_neg hk
    rw [htidy]
    exact ⟨h, rfl⟩

theorem Layout.isGap_tidy (gap : List Char) : IsGap true (tidy gap) := by
  cases gap with
  | nil => exact .nil
  | cons c gap => exact .blank rfl .nil

theorem Piece.respaced_tidy {x : Piece} (h : x.terminal.Matches x.word) : x.Respaced x.tidy where
  terminal := rfl
  word := h.tidy.1
  head := h.tidy.2
  name hi := tidy_of_ne (by rw [hi]; decide) x.word
  gap := Layout.isGap_tidy x.gap

theorem forall₂_respaced_tidy {xs : List Piece} (h : TypeWords xs) :
    List.Forall₂ Piece.Respaced xs (xs.map Piece.tidy) := by
  rw [List.forall₂_map_right_iff, List.forall₂_same]
  exact fun x hx => Piece.respaced_tidy (h x hx).2.1

theorem forall₂_sameGap_tidy (xs : List Piece) :
    List.Forall₂ Piece.SameGap xs (xs.map Piece.tidy) := by
  rw [List.forall₂_map_right_iff, List.forall₂_same]
  exact fun x _ => Layout.tidy_eq_nil.symm

theorem TypeWords.tidy {xs : List Piece} (h : TypeWords xs) : TypeWords (xs.map Piece.tidy) := by
  intro y hy
  obtain ⟨x, hx, rfl⟩ := List.mem_map.1 hy
  exact ⟨(h x hx).1, (h x hx).2.1.tidy.1, Layout.isGap_tidy x.gap⟩

/-- Pieces with other layout in front of the first of them. -/
def lead (gap : List Char) : List Piece → List Piece
  | [] => []
  | x :: xs => ⟨gap, x.terminal, x.word⟩ :: xs

section

variable {gap : List Char} {xs : List Piece}

theorem weave_lead_nil (xs : List Piece) : weave (lead [] xs) [] = inner xs := by
  cases xs <;> rfl

theorem weave_lead (hne : xs ≠ []) (gap rest : List Char) :
    weave (lead gap xs) rest = gap ++ (inner xs ++ rest) := by
  cases xs with
  | nil => exact absurd rfl hne
  | cons x xs =>
    rw [lead, weave, inner, List.append_assoc, ← weave_tail, List.nil_append]

theorem tidied_lead (gap : List Char) (xs : List Piece) : tidied (lead gap xs) = tidied xs := by
  cases xs <;> rfl

theorem tail_lead (gap : List Char) (xs : List Piece) : (lead gap xs).tail = xs.tail := by
  cases xs <;> rfl

theorem TypeWords.respaced (h : TypeWords xs) : List.Forall₂ Piece.Respaced xs xs :=
  List.forall₂_same.2 fun x hx => ⟨rfl, (h x hx).2.1, rfl, fun _ => rfl, (h x hx).2.2⟩

theorem TypeWords.behind (h : TypeWords xs) (hg : Layout.IsGap true gap) :
    TypeWords (lead gap xs) ∧ List.Forall₂ Piece.Respaced xs (lead gap xs) := by
  cases xs with
  | nil => exact ⟨nofun, .nil⟩
  | cons x xs =>
    obtain ⟨⟨hk, hm, -⟩, hxs⟩ := List.forall_mem_cons.1 h
    exact ⟨List.forall_mem_cons.2 ⟨⟨hk, hm, hg⟩, hxs⟩,
      .cons ⟨rfl, hm, rfl, fun _ => rfl, hg⟩ (respaced hxs)⟩

end

end ClassLang
