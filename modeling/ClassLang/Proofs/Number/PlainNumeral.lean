import ClassLang.Number.Numeral
import ClassLang.Syntax.Pattern

/-!
# Numerals in source form

A number literal is written with ASCII digits, a minus sign and a point only. Such a numeral is read
as it stands: there are no blanks to trim, no digits of other scripts and no underscores. Main
statements: an integer literal is refused exactly when it has too many digits, and a floating point
literal is never refused and never denotes what is no number.
-/

namespace ClassLang

namespace Binary64

theorem ofRatio_le (num den : Nat) : ofRatio num den ≤ infinity := Nat.min_le_left _ _

theorem ofDecimal_le (m : Nat) (e : Int) : ofDecimal m e ≤ infinity := by
  unfold ofDecimal
  simp only
  split
  · exact Nat.zero_le _
  · split
    · exact Nat.le_refl _
    · split
      · exact Nat.zero_le _
      · split <;> exact ofRatio_le _ _

theorem magnitude_ofMagnitude (negative : Bool) {m : Nat} (h : m ≤ infinity) :
    (ofMagnitude negative m).magnitude = m := by
  have hinfinity : infinity = 9218868437227405312 := rfl
  have hsign : Nat.pow 2 63 = 9223372036854775808 := rfl
  rw [magnitude, ofMagnitude, UInt64.toNat_ofNat', hsign]
  cases negative with
  | false => simp only [Bool.false_eq_true, if_false]; omega
  | true => simp only [if_true]; omega

theorem isNaN_ofMagnitude (negative : Bool) {m : Nat} (h : m ≤ infinity) :
    (ofMagnitude negative m).isNaN = false := by
  rw [isNaN, magnitude_ofMagnitude negative h]
  exact decide_eq_false (Nat.not_lt.2 h)

end Binary64

namespace Numeral

/-! ### Plain characters -/

def IsPlainChar (c : Char) : Prop := Ascii.isDigit c = true ∨ c = '-' ∨ c = '.'

/-- Only characters that literals of numbers are written with. -/
def IsPlain (cs : List Char) : Prop := ∀ c ∈ cs, IsPlainChar c

theorem toNat_of_isDigit {c : Char} (h : Ascii.isDigit c = true) : 48 ≤ c.toNat ∧ c.toNat ≤ 57 := by
  simp only [Ascii.isDigit, Bool.and_eq_true, decide_eq_true_eq, Char.le_def,
    UInt32.le_iff_toNat_le] at h
  exact h

theorem toNat_of_isPlainChar {c : Char} (h : IsPlainChar c) : 45 ≤ c.toNat ∧ c.toNat ≤ 57 := by
  rcases h with h | rfl | rfl
  · have hd := toNat_of_isDigit h
    omega
  · decide
  · decide

theorem toAscii_of_isPlainChar {c : Char} (h : IsPlainChar c) : toAscii c = c := by
  have hc := toNat_of_isPlainChar h
  rw [toAscii, if_pos (by omega)]

theorem isAsciiBlank_of_isPlainChar {c : Char} (h : IsPlainChar c) :
    Blank.isAsciiBlank c = false := by
  have hc := toNat_of_isPlainChar h
  have hspace : c ≠ ' ' := by
    rintro rfl
    exact absurd hc (by decide)
  have hreturn : ¬c ≤ '\r' := by
    intro hle
    have hval : c.toNat ≤ 13 := hle
    omega
  simp only [Blank.isAsciiBlank, hspace, hreturn, decide_false, Bool.and_false, Bool.or_self]

theorem ne_underscore_of_isPlainChar {c : Char} (h : IsPlainChar c) : c ≠ '_' := by
  have hc := toNat_of_isPlainChar h
  rintro rfl
  exact absurd hc (by decide)

variable {cs ds : List Char}

theorem isPlain_of_isDigits (h : Pattern.IsDigits ds) : IsPlain ds := fun c hc => Or.inl (h.2 c hc)

theorem isPlain_append (h : IsPlain cs) (h' : IsPlain ds) : IsPlain (cs ++ ds) := by
  intro c hc
  rcases List.mem_append.1 hc with hc | hc
  · exact h c hc
  · exact h' c hc

theorem isPlain_cons {c : Char} (hc : IsPlainChar c) (h : IsPlain cs) : IsPlain (c :: cs) :=
  List.forall_mem_cons.2 ⟨hc, h⟩

theorem map_toAscii (h : IsPlain cs) : cs.map toAscii = cs := by
  have hid : ∀ c ∈ cs, toAscii c = id c := fun c hc => toAscii_of_isPlainChar (h c hc)
  rw [List.map_congr_left hid, List.map_id]

theorem dropWhile_isAsciiBlank (h : IsPlain cs) : cs.dropWhile Blank.isAsciiBlank = cs := by
  cases cs with
  | nil => rfl
  | cons c cs =>
    have hc := isAsciiBlank_of_isPlainChar (h c List.mem_cons_self)
    exact List.dropWhile_cons_of_neg (by rw [hc]; exact Bool.false_ne_true)

theorem trim_of_isPlain (h : IsPlain cs) : trim cs = cs := by
  have hrev : IsPlain cs.reverse := fun c hc => h c (List.mem_reverse.1 hc)
  rw [trim, dropWhile_isAsciiBlank h, dropWhile_isAsciiBlank hrev, List.reverse_reverse]

theorem underscoresOk_of_isPlain (h : IsPlain cs) (previous : Bool) :
    underscoresOk previous cs = true := by
  induction cs generalizing previous with
  | nil => rfl
  | cons c cs ih =>
    have hc := ne_underscore_of_isPlainChar (h c List.mem_cons_self)
    rw [underscoresOk]
    · exact ih (fun d hd => h d (List.mem_cons_of_mem c hd)) _
    · rintro rfl
      exact hc rfl

theorem filter_ne_underscore (h : IsPlain cs) : cs.filter (· ≠ '_') = cs := by
  refine List.filter_eq_self.2 ?_
  intro c hc
  exact decide_eq_true (ne_underscore_of_isPlainChar (h c hc))

/-! ### Signs -/

/-- Digits behind a minus sign that may be there. -/
def signed (negative : Bool) (cs : List Char) : List Char := if negative then '-' :: cs else cs

theorem exists_signed (h : Pattern.IsInteger cs) :
    ∃ negative ds, Pattern.IsDigits ds ∧ cs = signed negative ds := by
  rcases h with h | ⟨ds, h, rfl⟩
  · exact ⟨false, cs, h, rfl⟩
  · exact ⟨true, ds, h, rfl⟩

theorem isPlain_signed (negative : Bool) (h : IsPlain cs) : IsPlain (signed negative cs) := by
  cases negative with
  | false => exact h
  | true => exact isPlain_cons (Or.inr (Or.inl rfl)) h

theorem splitSign_of_isDigits (h : Pattern.IsDigits ds) (rest : List Char) :
    splitSign (ds ++ rest) = (false, ds ++ rest) := by
  cases ds with
  | nil => exact absurd rfl h.1
  | cons c ds =>
    have hc := toNat_of_isDigit (h.2 c List.mem_cons_self)
    rw [List.cons_append, splitSign]
    · intro cs he
      obtain ⟨rfl, -⟩ := List.cons.inj he
      exact absurd hc (by decide)
    · intro cs he
      obtain ⟨rfl, -⟩ := List.cons.inj he
      exact absurd hc (by decide)

theorem splitSign_signed (negative : Bool) (h : Pattern.IsDigits ds) (rest : List Char) :
    splitSign (signed negative (ds ++ rest)) = (negative, ds ++ rest) := by
  cases negative with
  | false => exact splitSign_of_isDigits h rest
  | true => rfl

theorem takeWhile_of_isDigits {p : Char → Bool} (h : ∀ c ∈ ds, p c = true) :
    ds.takeWhile p = ds ∧ ds.dropWhile p = [] := by
  have htake : (ds ++ []).takeWhile p = ds ++ [].takeWhile p := List.takeWhile_append_of_pos h
  have hdrop : (ds ++ []).dropWhile p = [].dropWhile p := List.dropWhile_append_of_pos h
  rw [List.append_nil, List.takeWhile_nil, List.append_nil] at htake
  rw [List.append_nil, List.dropWhile_nil] at hdrop
  exact ⟨htake, hdrop⟩

/-! ### Literals of numbers -/

/-- How many digits a text holds. -/
def digitCount (cs : List Char) : Nat := cs.countP Ascii.isDigit

theorem digitCount_signed (negative : Bool) (h : Pattern.IsDigits ds) :
    digitCount (signed negative ds) = ds.length := by
  have hall : ds.countP Ascii.isDigit = ds.length := List.countP_eq_length.2 h.2
  cases negative with
  | false => exact hall
  | true =>
    have hminus : ¬Ascii.isDigit '-' = true := by decide
    rw [digitCount, signed, if_pos rfl, List.countP_cons_of_neg hminus, hall]

theorem integer_signed {s : String} {negative : Bool} (h : Pattern.IsDigits ds)
    (hs : s.toList = signed negative ds) :
    integer s =
      if digitLimit < ds.length then .error (.digits ds.length)
      else .ok (if negative then -(valueOf ds : Int) else valueOf ds) := by
  have hplain : IsPlain (signed negative ds) := isPlain_signed negative (isPlain_of_isDigits h)
  have hsplit : splitSign (signed negative ds) = (negative, ds) := by
    have hnil := splitSign_signed negative h []
    rwa [List.append_nil] at hnil
  have hrun : ds.takeWhile (fun c => Ascii.isDigit c || c = '_') = ds := by
    refine (takeWhile_of_isDigits ?_).1
    intro c hc
    rw [h.2 c hc, Bool.true_or]
  have hfilter : ds.filter Ascii.isDigit = ds := List.filter_eq_self.2 h.2
  have hne : ds.isEmpty = false := by
    cases ds with
    | nil => exact absurd rfl h.1
    | cons c ds => rfl
  rw [integer, hs, map_toAscii hplain, trim_of_isPlain hplain, hsplit]
  simp only [hrun, hfilter, underscoresOk_of_isPlain (isPlain_of_isDigits h), hne, Bool.not_true,
    Bool.false_eq_true, if_false, Bool.false_or, Nat.lt_irrefl, decide_false]

/-- An integer literal denotes a number unless it has more digits than are read. -/
theorem integer_of_isInteger {s : String} (h : Pattern.IsInteger s.toList) :
    (digitLimit < digitCount s.toList → integer s = .error (.digits (digitCount s.toList))) ∧
      (digitCount s.toList ≤ digitLimit → ∃ n, integer s = .ok n) := by
  obtain ⟨negative, ds, hd, hs⟩ := exists_signed h
  have hcount : digitCount s.toList = ds.length := by rw [hs, digitCount_signed negative hd]
  rw [integer_signed hd hs, hcount]
  constructor
  · intro hlimit
    rw [if_pos hlimit]
  · intro hlimit
    exact ⟨_, if_neg (Nat.not_lt.2 hlimit)⟩

theorem magnitude?_of_isDigits {fraction : List Char} (h : Pattern.IsDigits ds)
    (hf : Pattern.IsDigits fraction) :
    magnitude? (ds ++ '.' :: fraction) =
      some (Binary64.ofDecimal (valueOf (ds ++ fraction)) (-fraction.length)) := by
  have hpoint : ¬Ascii.isDigit '.' = true := by decide
  have hwhole : (ds ++ '.' :: fraction).takeWhile Ascii.isDigit = ds := by
    rw [List.takeWhile_append_of_pos h.2, List.takeWhile_cons_of_neg hpoint, List.append_nil]
  have hrest : (ds ++ '.' :: fraction).dropWhile Ascii.isDigit = '.' :: fraction := by
    rw [List.dropWhile_append_of_pos h.2, List.dropWhile_cons_of_neg hpoint]
  have hne : ds.isEmpty = false := by
    cases ds with
    | nil => exact absurd rfl h.1
    | cons c ds => rfl
  obtain ⟨htake, hdrop⟩ := takeWhile_of_isDigits hf.2
  unfold magnitude?
  simp only [hwhole, hrest, htake, hdrop, hne, Bool.false_and, Bool.false_eq_true, if_false,
    exponent?, Option.map_some, Int.zero_sub]

/-- None of the words for magnitudes has a point in it. -/
theorem lookup_words_of_point (h : '.' ∈ cs) :
    words.lookup (String.ofList (cs.map Char.toLower)) = none := by
  have hne : ∀ w : String, '.' ∉ w.toList → (String.ofList (cs.map Char.toLower) == w) = false := by
    intro w hw
    refine beq_eq_false_iff_ne.2 ?_
    rintro rfl
    rw [String.toList_ofList] at hw
    exact hw (List.mem_map.2 ⟨'.', h, rfl⟩)
  rw [words, List.lookup_cons, hne "inf" (by decide), List.lookup_cons, hne "infinity" (by decide),
    List.lookup_cons, hne "nan" (by decide)]
  rfl

/-- The number that digits with a point among them denote. -/
theorem float_signed {s : String} {negative : Bool} {fraction : List Char}
    (h : Pattern.IsDigits ds) (hf : Pattern.IsDigits fraction)
    (hs : s.toList = signed negative (ds ++ '.' :: fraction)) :
    float s = .ok (Binary64.ofMagnitude negative
      (Binary64.ofDecimal (valueOf (ds ++ fraction)) (-fraction.length))) := by
  have hbody : IsPlain (ds ++ '.' :: fraction) :=
    isPlain_append (isPlain_of_isDigits h)
      (isPlain_cons (Or.inr (Or.inr rfl)) (isPlain_of_isDigits hf))
  have hplain := isPlain_signed negative hbody
  have hwords : words.lookup (String.ofList ((ds ++ '.' :: fraction).map Char.toLower)) = none :=
    lookup_words_of_point (List.mem_append_right ds List.mem_cons_self)
  rw [float, hs, map_toAscii hplain, trim_of_isPlain hplain, splitSign_signed negative h]
  simp only [underscoresOk_of_isPlain hplain, filter_ne_underscore hbody, Bool.not_true,
    Bool.false_eq_true, if_false, hwords, magnitude?_of_isDigits h hf]

/-- A floating point literal always denotes a number that is one. -/
theorem float_of_isFloat {s : String} (h : Pattern.IsFloat s.toList) :
    ∃ x, float s = .ok x ∧ x.isNaN = false := by
  obtain ⟨whole, fraction, hwhole, hfraction, hs⟩ := h
  obtain ⟨negative, ds, hd, rfl⟩ := exists_signed hwhole
  have hsign : signed negative ds ++ '.' :: fraction = signed negative (ds ++ '.' :: fraction) := by
    cases negative <;> rfl
  refine ⟨_, float_signed hd hfraction (hs.trans hsign), ?_⟩
  exact Binary64.isNaN_ofMagnitude negative (Binary64.ofDecimal_le _ _)

end Numeral

end ClassLang
