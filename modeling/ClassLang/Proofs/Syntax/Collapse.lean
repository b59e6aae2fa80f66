import ClassLang.Proofs.Syntax.FramedReading

/-!
# Types with other layout

What is kept of a written type depends on its words and on where there is layout between them, not
on the layout itself (`collapse_relaid`). Where layout is put between words that touched, only
spaces are added (`unspaced_relaid`). The words of a type hold no slash, so the comments in its text
are those of its layout.
-/

namespace ClassLang

/-! ### Words of a text -/

namespace Blank

theorem words_append_cons (as bs : List Char) {b : Char} (hb : isWordBreak b = true) :
    words (as ++ b :: bs) = words as ++ words bs := by
  rw [words, List.splitOnP_append_cons as bs hb, List.filter_append]
  rfl

theorem words_cons (bs : List Char) {b : Char} (hb : isWordBreak b = true) :
    words (b :: bs) = words bs := words_append_cons [] bs hb

theorem words_append_breaks {bs : List Char} (hne : bs ≠ []) (hb : ∀ b ∈ bs, isWordBreak b = true)
    (as cs : List Char) : words (as ++ (bs ++ cs)) = words as ++ words cs := by
  cases bs with
  | nil => exact absurd rfl hne
  | cons b bs =>
    obtain ⟨hhead, htail⟩ := List.forall_mem_cons.1 hb
    rw [List.cons_append, words_append_cons as _ hhead]
    refine congrArg (words as ++ ·) ?_
    clear hne hb hhead
    induction bs with
    | nil => rfl
    | cons d bs ih =>
      obtain ⟨hd, hbs⟩ := List.forall_mem_cons.1 htail
      rw [List.cons_append, words_cons _ hd, ih hbs]

theorem flatten_splitOnP (p : Char → Bool) (cs : List Char) :
    (cs.splitOnP p).flatten = cs.filter fun c => !p c := by
  induction cs with
  | nil => rfl
  | cons c cs ih =>
    rw [List.splitOnP_cons_eq_if_modifyHead, List.filter_cons]
    cases hc : p c with
    | true => exact ih
    | false =>
      obtain ⟨w, ws, hw⟩ := List.exists_cons_of_ne_nil (List.splitOnP_ne_nil p cs)
      rw [hw] at ih ⊢
      exact congrArg (c :: ·) ih

theorem flatten_words (cs : List Char) :
    (words cs).flatten = cs.filter fun c => !isWordBreak c := by
  rw [words, List.flatten_filter_not_isEmpty, flatten_splitOnP]

end Blank

/-! ### Comments in a text -/

namespace Layout

theorem withoutComments_cons {c : Char} (hc : c ≠ '/') (cs : List Char) :
    withoutComments (c :: cs) = c :: withoutComments cs := by
  rw [withoutComments, if_neg hc]

theorem withoutComments_of_piece {cs piece rest : List Char}
    (h : piece? ('/' :: cs) = some (piece, rest)) :
    withoutComments ('/' :: cs) = ' ' :: withoutComments rest := by
  rw [withoutComments, if_pos rfl]
  split
  · simp_all only [reduceCtorEq]
  · simp_all only [Option.some.injEq, Prod.mk.injEq]

theorem withoutComments_word {w : List Char} (hw : '/' ∉ w) (rest : List Char) :
    withoutComments (w ++ rest) = w ++ withoutComments rest := by
  induction w with
  | nil => rfl
  | cons c w ih =>
    rw [List.mem_cons, not_or] at hw
    rw [List.cons_append, withoutComments_cons (Ne.symm hw.1), ih hw.2, List.cons_append]

/-- Without comments nothing but breaks between words is left of layout, and something is. -/
theorem withoutComments_gap {closed : Bool} {gap : List Char} (h : IsGap closed gap)
    (hc : closed = true) :
    ∃ breaks, (∀ b ∈ breaks, Blank.isWordBreak b = true) ∧ (breaks = [] ↔ gap = []) ∧
      ∀ rest, withoutComments (gap ++ rest) = breaks ++ withoutComments rest := by
  induction h with
  | nil => exact ⟨[], nofun, Iff.rfl, fun _ => rfl⟩
  | @blank _ c cs hb _ ih =>
    obtain ⟨breaks, hbreaks, -, hrest⟩ := ih hc
    have hbreak := Blank.isWordBreak_of_isNumeralBlank (Blank.isNumeralBlank_of_isLayout hb)
    have hslash : c ≠ '/' := by
      rintro rfl
      cases hb
    refine ⟨c :: breaks, List.forall_mem_cons.2 ⟨hbreak, hbreaks⟩, by simp, ?_⟩
    intro rest
    rw [List.cons_append, withoutComments_cons hslash, hrest, List.cons_append]
  | @block _ body cs hb _ ih =>
    obtain ⟨breaks, hbreaks, -, hrest⟩ := ih hc
    refine ⟨' ' :: breaks, List.forall_mem_cons.2 ⟨rfl, hbreaks⟩, by simp, ?_⟩
    intro rest
    simp only [List.cons_append, List.append_assoc]
    rw [withoutComments_of_piece (piece?_block hb _), hrest]
  | @line _ body cs hb _ ih =>
    obtain ⟨breaks, hbreaks, -, hrest⟩ := ih hc
    refine ⟨' ' :: breaks, List.forall_mem_cons.2 ⟨rfl, hbreaks⟩, by simp, ?_⟩
    intro rest
    simp only [List.cons_append, List.append_assoc] at hrest ⊢
    rw [withoutComments_of_piece (piece?_line hb _), hrest]
  | lastLine => cases hc

theorem filter_intercalate (ws : List (List Char)) :
    ([' '].intercalate ws).filter (· ≠ ' ') = ws.flatten.filter (· ≠ ' ') := by
  have hspace : [' '].filter (· ≠ ' ') = [] := rfl
  induction ws with
  | nil => rfl
  | cons w ws ih =>
    cases ws with
    | nil => rw [List.intercalate_singleton, List.flatten_singleton]
    | cons v ws =>
      rw [List.intercalate_cons_cons, List.filter_append, List.filter_append, hspace,
        List.append_nil, ih, ← List.filter_append]
      rfl

/-- What is kept of a text are its characters that break no words, with spaces added. -/
theorem filter_collapse (cs : List Char) :
    (collapse cs).filter (· ≠ ' ') = (withoutComments cs).filter fun c => !Blank.isWordBreak c := by
  rw [collapse, filter_intercalate, Blank.flatten_words, List.filter_filter]
  refine List.filter_congr ?_
  intro c _
  by_cases hc : c = ' '
  · subst hc
    rfl
  · rw [decide_eq_true hc, Bool.true_and]

end Layout

/-! ### The same words with other layout -/

/-- Whether there is layout in front of both of two words, or in front of neither. -/
def Piece.SameGap (x y : Piece) : Prop := x.gap = [] ↔ y.gap = []

/-- A text without its spaces. -/
def unspaced (s : String) : String := String.ofList (s.toList.filter (· ≠ ' '))

/-- Whether the pieces of a type are words without a slash behind closed layout. -/
def Slashless (xs : List Piece) : Prop := ∀ x ∈ xs, '/' ∉ x.word ∧ Layout.IsGap true x.gap

section

variable {xs ys : List Piece}

theorem words_relaid (hx : Slashless xs) (hw : List.Forall₂ Piece.SameWord xs ys)
    (hg : List.Forall₂ Piece.SameGap xs ys) (front : List Char) :
    Blank.words (front ++ Layout.withoutComments (weave xs [])) =
      Blank.words (front ++ Layout.withoutComments (weave ys [])) := by
  induction hw generalizing front with
  | nil => rfl
  | @cons x y xs ys hxy _ ih =>
    obtain ⟨-, hword, hygap⟩ := hxy
    obtain ⟨⟨hslash, hxgap⟩, hxs⟩ := List.forall_mem_cons.1 hx
    obtain _ | ⟨hsame, hrest⟩ := hg
    obtain ⟨bs, hbs, hnil, hall⟩ := Layout.withoutComments_gap hxgap rfl
    obtain ⟨bs', hbs', hnil', hall'⟩ := Layout.withoutComments_gap hygap rfl
    rw [weave, weave, hall, hall', hword, Layout.withoutComments_word hslash,
      Layout.withoutComments_word hslash]
    by_cases hgap : bs = []
    · have hgap' : bs' = [] := hnil'.2 (hsame.1 (hnil.1 hgap))
      rw [hgap, hgap', List.nil_append, List.nil_append, ← List.append_assoc, ← List.append_assoc]
      exact ih hxs hrest _
    · have hgap' : bs' ≠ [] := fun h => hgap (hnil.2 (hsame.2 (hnil'.1 h)))
      rw [Blank.words_append_breaks hgap hbs, Blank.words_append_breaks hgap' hbs', ih hxs hrest]

theorem letters_relaid (hx : Slashless xs) (hw : List.Forall₂ Piece.SameWord xs ys) :
    (Layout.withoutComments (weave xs [])).filter (fun c => !Blank.isWordBreak c) =
      (Layout.withoutComments (weave ys [])).filter (fun c => !Blank.isWordBreak c) := by
  induction hw with
  | nil => rfl
  | @cons x y xs ys hxy _ ih =>
    obtain ⟨-, hword, hygap⟩ := hxy
    obtain ⟨⟨hslash, hxgap⟩, hxs⟩ := List.forall_mem_cons.1 hx
    obtain ⟨bs, hbs, -, hall⟩ := Layout.withoutComments_gap hxgap rfl
    obtain ⟨bs', hbs', -, hall'⟩ := Layout.withoutComments_gap hygap rfl
    have hnone : ∀ cs : List Char, (∀ b ∈ cs, Blank.isWordBreak b = true) →
        cs.filter (fun c => !Blank.isWordBreak c) = [] := by
      intro cs hcs
      rw [List.filter_eq_nil_iff]
      intro b hb
      rw [hcs b hb]
      exact Bool.false_ne_true
    rw [weave, weave, hall, hall', hword, Layout.withoutComments_word hslash,
      Layout.withoutComments_word hslash]
    simp only [List.filter_append, hnone bs hbs, hnone bs' hbs', ih hxs]

/-- Other layout between the same words does not change what is kept of a type. -/
theorem collapse_relaid (hx : Slashless xs) (hw : List.Forall₂ Piece.SameWord xs ys)
    (hg : List.Forall₂ Piece.SameGap xs.tail ys.tail) :
    Layout.collapse (inner xs) = Layout.collapse (inner ys) := by
  cases hw with
  | nil => rfl
  | @cons x y xs ys hxy hw =>
    obtain ⟨-, hword, -⟩ := hxy
    obtain ⟨⟨hslash, -⟩, hxs⟩ := List.forall_mem_cons.1 hx
    rw [Layout.collapse, Layout.collapse, inner, inner, hword, Layout.withoutComments_word hslash,
      Layout.withoutComments_word hslash, words_relaid hxs hw hg]

/-- Layout between words that touched adds no more than spaces to what is kept of a type. -/
theorem unspaced_relaid (hx : Slashless xs) (hw : List.Forall₂ Piece.SameWord xs ys) :
    unspaced (String.ofList (Layout.collapse (inner xs))) =
      unspaced (String.ofList (Layout.collapse (inner ys))) := by
  rw [unspaced, unspaced, String.toList_ofList, String.toList_ofList, Layout.filter_collapse,
    Layout.filter_collapse]
  cases hw with
  | nil => rfl
  | @cons x y xs ys hxy hw =>
    obtain ⟨-, hword, -⟩ := hxy
    obtain ⟨⟨hslash, -⟩, hxs⟩ := List.forall_mem_cons.1 hx
    rw [inner, inner, hword, Layout.withoutComments_word hslash,
      Layout.withoutComments_word hslash, List.filter_append, List.filter_append,
      letters_relaid hxs hw]

end

end ClassLang
