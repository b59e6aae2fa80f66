import ClassLang.Proofs.Build.Spelled
import ClassLang.Proofs.Number.PlainNumeral
import Mathlib.Data.List.Chain

/-!
# The text of types

The types of arguments and the return types of methods are kept as they were written, but for the
layout in them. What is kept is never empty, and neither a comment nor any blank but single spaces
between other characters is left in it (`isTypeText_of_read`).
-/

namespace ClassLang

/-- Characters other than blanks, at least one, and single spaces between them, without any slash
and so without a comment. -/
structure Pattern.IsTypeText (cs : List Char) : Prop where
  nonempty : cs ≠ []
  blank : ∀ c ∈ cs, Blank.isWordBreak c = true → c = ' '
  single : cs.IsChain fun c d => c = ' ' → d ≠ ' '
  first : cs.head? ≠ some ' '
  last : cs.getLast? ≠ some ' '
  uncommented : '/' ∉ cs

/-! ### Words with single spaces between them -/

section

variable {w : List Char} {ws : List (List Char)}

theorem intercalate_ne_nil (hw : w ≠ []) : [' '].intercalate (w :: ws) ≠ [] := by
  cases ws with
  | nil => rwa [List.intercalate_singleton]
  | cons v ws =>
    rw [List.intercalate_cons_cons, List.append_assoc]
    exact List.append_ne_nil_of_left_ne_nil hw _

theorem head?_intercalate (h : ∀ w ∈ ws, w ≠ [] ∧ ' ' ∉ w) :
    ([' '].intercalate ws).head? ≠ some ' ' := by
  cases ws with
  | nil => exact nofun
  | cons w ws =>
    obtain ⟨hne, hspace⟩ := h w List.mem_cons_self
    obtain ⟨c, v, rfl⟩ := List.exists_cons_of_ne_nil hne
    have hhead : ([' '].intercalate ((c :: v) :: ws)).head? = some c := by
      cases ws <;> rfl
    rw [hhead]
    rintro hc
    exact hspace (Option.some.inj hc ▸ List.mem_cons_self)

theorem getLast?_intercalate (h : ∀ w ∈ ws, w ≠ [] ∧ ' ' ∉ w) :
    ([' '].intercalate ws).getLast? ≠ some ' ' := by
  induction ws with
  | nil => exact nofun
  | cons w ws ih =>
    obtain ⟨⟨-, hspace⟩, hws⟩ := List.forall_mem_cons.1 h
    cases ws with
    | nil =>
      rw [List.intercalate_singleton]
      exact fun hlast => hspace (List.mem_of_getLast? hlast)
    | cons v ws =>
      have hne : [' '].intercalate (v :: ws) ≠ [] := intercalate_ne_nil (hws v List.mem_cons_self).1
      rw [List.intercalate_cons_cons, List.getLast?_append_of_ne_nil _ hne]
      exact ih hws

theorem isChain_intercalate (h : ∀ w ∈ ws, w ≠ [] ∧ ' ' ∉ w) :
    ([' '].intercalate ws).IsChain fun c d => c = ' ' → d ≠ ' ' := by
  have hword : ∀ v : List Char, ' ' ∉ v → v.IsChain fun c d => c = ' ' → d ≠ ' ' := by
    intro v hv
    refine List.Pairwise.isChain (List.pairwise_of_forall_mem_list ?_)
    rintro c hc d - rfl
    exact absurd hc hv
  induction ws with
  | nil => exact .nil
  | cons w ws ih =>
    obtain ⟨⟨-, hspace⟩, hws⟩ := List.forall_mem_cons.1 h
    cases ws with
    | nil =>
      rw [List.intercalate_singleton]
      exact hword w hspace
    | cons v ws =>
      have hrest : ([' '] ++ [' '].intercalate (v :: ws)).IsChain fun c d => c = ' ' → d ≠ ' ' := by
        refine List.isChain_append.2 ⟨.singleton _, ih hws, ?_⟩
        rintro c - d hd - rfl
        exact head?_intercalate hws hd
      rw [List.intercalate_cons_cons, List.append_assoc]
      refine List.isChain_append.2 ⟨hword w hspace, hrest, ?_⟩
      rintro c hc d - rfl
      exact absurd (List.mem_of_getLast? hc) hspace

end

/-! ### What is kept of a type -/

namespace Blank

theorem of_mem_words {w cs : List Char} (h : w ∈ words cs) : w ≠ [] ∧ ' ' ∉ w := by
  have hletters : ∀ c ∈ w, isWordBreak c = false := by
    intro c hc
    have hmem : c ∈ (words cs).flatten := List.mem_flatten.2 ⟨w, h, hc⟩
    rw [flatten_words, List.mem_filter, Bool.not_eq_true'] at hmem
    exact hmem.2
  constructor
  · rintro rfl
    cases (List.mem_filter.1 h).2
  · exact fun hspace => Bool.noConfusion (hletters ' ' hspace)

/-- No visible character of ASCII is a break. -/
theorem isWordBreak_of_toNat {c : Char} (h : 33 ≤ c.toNat) (h' : c.toNat ≤ 126) :
    isWordBreak c = false := by
  rw [← Bool.not_eq_true]
  intro hbreak
  simp only [isWordBreak, isNumeralBlank, isAsciiBlank, isWideBlank, Bool.or_eq_true,
    Bool.and_eq_true, decide_eq_true_eq, Char.ext_iff, Char.le_def, UInt32.le_iff_toNat_le,
    ← UInt32.toNat_inj, Char.reduceVal, UInt32.reduceToNat, Char.toNat] at hbreak h h'
  omega

end Blank

theorem Ascii.toNat_of_isNameStart {c : Char} (h : isNameStart c = true) :
    65 ≤ c.toNat ∧ c.toNat ≤ 122 := by
  simp only [isNameStart, Bool.or_eq_true, Bool.and_eq_true, decide_eq_true_eq, Char.le_def,
    UInt32.le_iff_toNat_le, Char.reduceVal, UInt32.reduceToNat] at h
  rcases h with (h | h) | rfl
  · change 65 ≤ c.val.toNat ∧ c.val.toNat ≤ 122
    omega
  · change 65 ≤ c.val.toNat ∧ c.val.toNat ≤ 122
    omega
  · decide

/-- No break stands at the front of a lexeme. -/
theorem Terminal.isWordBreak_of_mem_starters {t : Terminal} {c : Char} (h : t ∈ starters c) :
    Blank.isWordBreak c = false := by
  unfold starters at h
  split at h <;> first | rfl | skip
  split at h
  · rename_i hname
    obtain ⟨hfrom, hto⟩ := Ascii.toNat_of_isNameStart hname
    exact Blank.isWordBreak_of_toNat (by omega) (by omega)
  · split at h
    · rename_i hdigit
      obtain ⟨hfrom, hto⟩ := Numeral.toNat_of_isDigit hdigit
      exact Blank.isWordBreak_of_toNat (by omega) (by omega)
    · cases h

/-- A slash in a type opens a comment, which is not kept. -/
theorem slash_not_mem_withoutComments {xs : List Piece} (h : Slashless xs) :
    '/' ∉ Layout.withoutComments (weave xs []) := by
  induction xs with
  | nil =>
    rw [weave, Layout.withoutComments]
    exact List.not_mem_nil
  | cons x xs ih =>
    obtain ⟨⟨hword, hgap⟩, hxs⟩ := List.forall_mem_cons.1 h
    obtain ⟨breaks, hbreaks, -, hrest⟩ := Layout.withoutComments_gap hgap rfl
    rw [weave, hrest, Layout.withoutComments_word hword]
    intro hmem
    rcases List.mem_append.1 hmem with hmem | hmem
    · cases hbreaks _ hmem
    · rcases List.mem_append.1 hmem with hmem | hmem
      · exact hword hmem
      · exact ih hxs hmem

theorem isTypeText_collapse {x : Piece} {xs : List Piece} (h : Slashless (x :: xs))
    (hm : x.terminal.Matches x.word) :
    Pattern.IsTypeText (Layout.collapse (inner (x :: xs))) := by
  obtain ⟨⟨hword, -⟩, hxs⟩ := List.forall_mem_cons.1 h
  have hbare : Layout.withoutComments (inner (x :: xs)) =
      x.word ++ Layout.withoutComments (weave xs []) := Layout.withoutComments_word hword _
  -- but for spaces, what is kept are the characters of the pieces that are no breaks
  have hletters : ∀ c, c ≠ ' ' → (c ∈ Layout.collapse (inner (x :: xs)) ↔
      c ∈ x.word ++ Layout.withoutComments (weave xs []) ∧ Blank.isWordBreak c = false) := by
    intro c hc
    have hfilter := congrArg (c ∈ ·) (Layout.filter_collapse (inner (x :: xs)))
    simpa only [List.mem_filter, hbare, decide_eq_true hc, and_true, Bool.not_eq_true',
      eq_iff_iff] using hfilter
  have hwords : ∀ w ∈ Blank.words (Layout.withoutComments (inner (x :: xs))), w ≠ [] ∧ ' ' ∉ w :=
    fun w => Blank.of_mem_words
  refine ⟨?_, ?_, isChain_intercalate hwords, head?_intercalate hwords,
    getLast?_intercalate hwords, ?_⟩
  · obtain ⟨c, v, hw, hc⟩ := Terminal.mem_starters hm
    have hbreak := Terminal.isWordBreak_of_mem_starters hc
    have hspace : c ≠ ' ' := by
      rintro rfl
      cases hbreak
    have hmem : c ∈ x.word ++ Layout.withoutComments (weave xs []) := by
      rw [hw]
      exact List.mem_cons_self
    exact List.ne_nil_of_mem ((hletters c hspace).2 ⟨hmem, hbreak⟩)
  · intro c hc hbreak
    by_contra hspace
    rw [((hletters c hspace).1 hc).2] at hbreak
    cases hbreak
  · intro hslash
    rcases List.mem_append.1 ((hletters '/' (by decide)).1 hslash).1 with hmem | hmem
    · exact hword hmem
    · exact slash_not_mem_withoutComments hxs hmem

/-- A type that is written in a text that is read is kept as the text of a type. -/
theorem isTypeText_of_read {s : StartRule} {text : List Char} {tree : Tree} {r : Range}
    (h : s.read text = .ok tree) (hr : r ∈ tree.spellings) :
    Pattern.IsTypeText (Layout.collapse (Build.slice text r)) := by
  obtain ⟨front, stretch, -, -, hcover, hslice, hslash, hmatch⟩ := exists_stretch_of_read h hr
  rw [hslice]
  cases stretch with
  | nil => cases hcover
  | cons x xs => exact isTypeText_collapse hslash (hmatch x List.mem_cons_self)

end ClassLang
