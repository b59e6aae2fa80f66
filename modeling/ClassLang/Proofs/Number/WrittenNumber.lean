import ClassLang.Proofs.Number.PlainNumeral
import ClassLang.Proofs.Number.Rounding

/-!
# The texts of numbers

The shortest decimal of a number rounds back to it (`round_shortest`). Written without an exponent
it is a floating point literal that denotes the number again. That is how the zeros and the numbers
from `10 ^ -4` up to `10 ^ 16` are written (`Binary64.IsPositional`); the text of any other number
has a letter in it, so it is no literal. An integer is written in decimal, which is a literal that
denotes it if it has no more digits than may be read.
-/

namespace ClassLang

namespace Binary64

/-! ### The shortest decimal -/

theorem round_exact {m : Nat} (h : m ≤ infinity) : (exact m).round = m := by
  have hexact : (exact m).round =
      ofRatio ((ratio m).1 * 5 ^ (1074 - scale m)) (10 ^ (1074 - scale m)) := by
    generalize hplaces : 1074 - scale m = places
    have hneg : (-(places : Int)).toNat = 0 := by omega
    have hpos : (-(-(places : Int))).toNat = places := by omega
    simp only [Decimal.round, exact, hplaces]
    rw [ofDecimal_eq_ofRatio, hneg, hpos, Nat.pow_zero, Nat.mul_one]
    rfl
  have hten : 10 ^ (1074 - scale m) = (ratio m).2 * 5 ^ (1074 - scale m) :=
    Nat.mul_pow 2 5 (1074 - scale m)
  have hfive : 0 < 5 ^ (1074 - scale m) := Nat.pow_pos (by decide)
  rw [hexact, hten, ofRatio_scaled _ _ hfive, ofRatio_ratio h]

/-- The shortest decimal of a magnitude rounds back to it. -/
theorem round_shortest {m : Nat} (h : m ≤ infinity) : (shortest m).round = m := by
  unfold shortest
  cases hfound : (List.range 17).findSome? fun n => hit? m (n + 1) with
  | none => exact round_exact h
  | some d =>
    obtain ⟨n, -, hn⟩ := List.exists_of_findSome?_eq_some hfound
    exact round_of_hit? hn

theorem coefficient_ne_zero {m : Nat} (h : m ≤ infinity) (hm : m ≠ 0) :
    (shortest m).coefficient ≠ 0 := by
  intro hzero
  have hround := round_shortest h
  rw [Decimal.round, hzero, ofDecimal, if_pos rfl] at hround
  exact hm hround.symm

/-! ### Where the point stands -/

theorem round_le_pow {d : Decimal} {k : Int} (h : d.point ≤ k) : d.round ≤ ofDecimal 1 k := by
  rw [Decimal.round, ofDecimal_eq_ofRatio, ofDecimal_eq_ofRatio, Nat.one_mul]
  exact ofRatio_le_pow h

theorem pow_le_round {d : Decimal} {k : Int} (hd : d.coefficient ≠ 0) (h : k < d.point) :
    ofDecimal 1 k ≤ d.round := by
  rw [Decimal.round, ofDecimal_eq_ofRatio, ofDecimal_eq_ofRatio, Nat.one_mul]
  exact pow_le_ofRatio hd h

/-- Where the point of the shortest decimal stands is seen from the magnitude, at a power of ten
that is written as such. -/
theorem point_shortest_le_iff {m : Nat} {k : Int} (h : m ≤ infinity) (hm : m ≠ 0)
    (hk : (shortest (ofDecimal 1 k)).point = k + 1) :
    (shortest m).point ≤ k ↔ m < ofDecimal 1 k := by
  have hround := round_shortest h
  constructor
  · intro hpoint
    have hle := round_le_pow hpoint
    rw [hround] at hle
    apply Nat.lt_of_le_of_ne hle
    rintro rfl
    omega
  · intro hlt
    apply Int.le_of_not_gt
    intro hpoint
    have hle := pow_le_round (coefficient_ne_zero h hm) hpoint
    omega

/-- Whether a number is zero or lies from `10 ^ -4` up to `10 ^ 16`, on either side of zero. -/
def IsPositional (x : Binary64) : Prop :=
  x.magnitude = 0 ∨ ofDecimal 1 (-4) ≤ x.magnitude ∧ x.magnitude < ofDecimal 1 16

instance (x : Binary64) : Decidable x.IsPositional :=
  inferInstanceAs (Decidable (x.magnitude = 0 ∨
    ofDecimal 1 (-4) ≤ x.magnitude ∧ x.magnitude < ofDecimal 1 16))

theorem isPositional_iff {x : Binary64} (h : x.magnitude ≤ infinity) (hx : x.magnitude ≠ 0) :
    x.IsPositional ↔ positionalFrom ≤ (shortest x.magnitude).point - 1 ∧
      (shortest x.magnitude).point - 1 < positionalBelow := by
  have hlow := point_shortest_le_iff h hx (k := -4) (by decide +kernel)
  have hhigh := point_shortest_le_iff h hx (k := 16) (by decide +kernel)
  unfold IsPositional positionalFrom positionalBelow
  omega

/-! ### The digits of the shortest decimal -/

open Numeral (valueOf)

theorem valueOf_eq (ds : List Char) : valueOf ds = Nat.ofDigitChars 10 ds 0 := rfl

theorem valueOf_append_zeros (ds : List Char) (k : Nat) :
    valueOf (ds ++ List.replicate k '0') = valueOf ds * 10 ^ k := by
  rw [valueOf_eq, valueOf_eq, Nat.ofDigitChars_append, Nat.ofDigitChars_replicate_zero,
    Nat.mul_comm]

theorem valueOf_zeros_append (ds : List Char) (k : Nat) :
    valueOf (List.replicate k '0' ++ ds) = valueOf ds := by
  rw [valueOf_eq, valueOf_eq, Nat.ofDigitChars_append, Nat.ofDigitChars_replicate_zero,
    Nat.mul_zero]

theorem isDigit_of_mem_toDigits {n : Nat} {c : Char} (h : c ∈ Nat.toDigits 10 n) :
    Ascii.isDigit c = true := by
  have hc := Nat.isDigit_of_mem_toDigits (by decide) (by decide) h
  simp only [Char.isDigit, Bool.and_eq_true, decide_eq_true_eq] at hc
  simp only [Ascii.isDigit, Bool.and_eq_true, decide_eq_true_eq, Char.le_def]
  exact hc

theorem isDigits_toDigits (n : Nat) : Pattern.IsDigits (Nat.toDigits 10 n) :=
  ⟨Nat.toDigits_ne_nil, fun _ => isDigit_of_mem_toDigits⟩

theorem isDigits_replicate {k : Nat} (h : 0 < k) : Pattern.IsDigits (List.replicate k '0') := by
  constructor
  · rw [Ne, List.replicate_eq_nil_iff]
    omega
  · intro c hc
    rw [List.eq_of_mem_replicate hc]
    rfl

theorem isDigits_append {ds es : List Char} (h : Pattern.IsDigits ds)
    (he : ∀ c ∈ es, Ascii.isDigit c = true) : Pattern.IsDigits (ds ++ es) :=
  ⟨List.append_ne_nil_of_left_ne_nil h.1 es, List.forall_mem_append.2 ⟨h.2, he⟩⟩

namespace Decimal

variable {d : Decimal}

/-- The digits of a coefficient are the significant ones and zeros behind them. -/
theorem exists_zeros (d : Decimal) :
    ∃ k, Nat.toDigits 10 d.coefficient = d.digits ++ List.replicate k '0' := by
  generalize hall : (Nat.toDigits 10 d.coefficient).reverse = ds
  have hzeros : ds.takeWhile (· = '0') = List.replicate (ds.takeWhile (· = '0')).length '0' := by
    apply List.eq_replicate_of_mem
    intro c hc
    exact of_decide_eq_true (Scan.all_takeWhile c hc)
  refine ⟨(ds.takeWhile (· = '0')).length, ?_⟩
  calc Nat.toDigits 10 d.coefficient = ds.reverse := by rw [← hall, List.reverse_reverse]
    _ = (ds.takeWhile (· = '0') ++ ds.dropWhile (· = '0')).reverse := by
        rw [List.takeWhile_append_dropWhile]
    _ = d.digits ++ (ds.takeWhile (· = '0')).reverse := by
        rw [List.reverse_append, digits, hall]
    _ = d.digits ++ List.replicate (ds.takeWhile (· = '0')).length '0' := by
        rw [hzeros, List.reverse_replicate, List.length_replicate]

theorem isDigits_digits (h : d.coefficient ≠ 0) : Pattern.IsDigits d.digits := by
  obtain ⟨k, hk⟩ := d.exists_zeros
  constructor
  · intro hnil
    apply h
    have hvalue : valueOf (Nat.toDigits 10 d.coefficient) = 0 := by
      rw [hk, hnil, valueOf_append_zeros]
      exact Nat.zero_mul _
    rwa [valueOf_eq, Nat.ofDigitChars_ten_toDigits] at hvalue
  · intro c hc
    exact isDigit_of_mem_toDigits (hk ▸ List.mem_append_left _ hc)

/-- A decimal is the one of its significant digits. -/
theorem round_digits (d : Decimal) :
    ofDecimal (valueOf d.digits) (d.point - d.digits.length) = d.round := by
  obtain ⟨k, hk⟩ := d.exists_zeros
  have hvalue : d.coefficient = valueOf d.digits * 10 ^ k := by
    rw [← valueOf_append_zeros, ← hk, valueOf_eq, Nat.ofDigitChars_ten_toDigits]
  have hpoint : d.point - d.digits.length = d.exponent + k := by
    rw [point, hk, List.length_append, List.length_replicate]
    omega
  rw [hpoint, ← ofDecimal_shift, ← hvalue, round]

end Decimal

/-! ### Texts without an exponent -/

/-- Digits that are laid out without an exponent are a floating point literal for the decimal that
they stand for. -/
theorem exists_layOut {ds : List Char} {point : Int} (hd : Pattern.IsDigits ds)
    (h : positionalFrom ≤ point - 1 ∧ point - 1 < positionalBelow) :
    ∃ whole fraction, Pattern.IsDigits whole ∧ Pattern.IsDigits fraction ∧
      layOut ds point = whole ++ '.' :: fraction ∧
      ofDecimal (valueOf (whole ++ fraction)) (-fraction.length) =
        ofDecimal (valueOf ds) (point - ds.length) := by
  have hlength : 0 < ds.length := List.length_pos_iff.2 hd.1
  have hzero : ∀ k, ∀ c ∈ List.replicate k '0', Ascii.isDigit c = true := by
    intro k c hc
    rw [List.eq_of_mem_replicate hc]
    rfl
  simp only [layOut, if_pos h]
  split
  · refine ⟨['0'], List.replicate (-point).toNat '0' ++ ds, isDigits_replicate Nat.one_pos,
      ⟨List.append_ne_nil_of_right_ne_nil _ hd.1,
        List.forall_mem_append.2 ⟨hzero _, hd.2⟩⟩, rfl, ?_⟩
    have hvalue : valueOf (['0'] ++ (List.replicate (-point).toNat '0' ++ ds)) = valueOf ds :=
      (valueOf_zeros_append _ 1).trans (valueOf_zeros_append ds _)
    rw [hvalue, List.length_append, List.length_replicate]
    congr 1
    omega
  · split
    · refine ⟨ds ++ List.replicate (point.toNat - ds.length) '0', ['0'],
        isDigits_append hd (hzero _), isDigits_replicate Nat.one_pos, rfl, ?_⟩
      have hvalue : valueOf (ds ++ List.replicate (point.toNat - ds.length) '0' ++ ['0']) =
          valueOf ds * 10 ^ (point.toNat - ds.length + 1) := by
        rw [List.append_assoc, ← List.replicate_succ', valueOf_append_zeros]
      rw [hvalue, ofDecimal_shift]
      congr 1
      rw [List.length_singleton]
      omega
    · refine ⟨ds.take point.toNat, ds.drop point.toNat,
        ⟨?_, fun c hc => hd.2 c (List.mem_of_mem_take hc)⟩,
        ⟨?_, fun c hc => hd.2 c (List.mem_of_mem_drop hc)⟩, rfl, ?_⟩
      · apply List.ne_nil_of_length_pos
        rw [List.length_take]
        omega
      · apply List.ne_nil_of_length_pos
        rw [List.length_drop]
        omega
      · rw [List.take_append_drop, List.length_drop]
        congr 1
        omega

theorem ofMagnitude_magnitude (x : Binary64) : ofMagnitude x.isNegative x.magnitude = x := by
  have hlt : x.bits.toNat < 18446744073709551616 := x.bits.toNat_lt
  have hsign : Nat.pow 2 63 = 9223372036854775808 := rfl
  have hbits : (if x.isNegative then Nat.pow 2 63 + x.magnitude else x.magnitude) =
      x.bits.toNat := by
    unfold isNegative magnitude
    rw [hsign]
    split
    · rename_i h
      have hle := of_decide_eq_true h
      omega
    · rename_i h
      have hgt : ¬9223372036854775808 ≤ x.bits.toNat := fun hle => h (decide_eq_true hle)
      omega
  rw [ofMagnitude, hbits, UInt64.ofNat_toNat]

theorem magnitude_le {x : Binary64} (h : x.isNaN = false) : x.magnitude ≤ infinity :=
  Nat.le_of_not_lt (of_decide_eq_false h)

theorem magnitude_lt {x : Binary64} (h : x.IsPositional) : x.magnitude < infinity := by
  have hzero : 0 < infinity := by decide
  have hhigh : ofDecimal 1 16 < infinity := by decide +kernel
  unfold IsPositional at h
  omega

/-- The text of a number without its sign. -/
theorem toList_text {x : Binary64} (h : x.isNaN = false) :
    x.text.toList = Numeral.signed x.isNegative
      (if x.isInfinite then "inf".toList
        else if x.magnitude = 0 then "0.0".toList
        else layOut (shortest x.magnitude).digits (shortest x.magnitude).point) := by
  rw [text, h, if_neg Bool.false_ne_true, String.toList_ofList]
  rfl

theorem isFloat_signed {negative : Bool} {whole fraction : List Char}
    (h : Pattern.IsDigits whole) (hf : Pattern.IsDigits fraction) :
    Pattern.IsFloat (Numeral.signed negative (whole ++ '.' :: fraction)) := by
  cases negative with
  | false => exact ⟨whole, fraction, Or.inl h, hf, rfl⟩
  | true => exact ⟨'-' :: whole, fraction, Or.inr ⟨whole, h, rfl⟩, hf, rfl⟩

/-- Without an exponent, the text of a number is a literal for it. -/
theorem float_text {x : Binary64} (h : x.IsPositional) :
    Pattern.IsFloat x.text.toList ∧ Numeral.float x.text = .ok x := by
  have hlt := magnitude_lt h
  have hfinite : x.isInfinite = false := beq_eq_false_iff_ne.2 (Nat.ne_of_lt hlt)
  have hnumber : x.isNaN = false := decide_eq_false (by omega)
  obtain ⟨whole, fraction, hwhole, hfraction, htext, hvalue⟩ :
      ∃ whole fraction, Pattern.IsDigits whole ∧ Pattern.IsDigits fraction ∧
        x.text.toList = Numeral.signed x.isNegative (whole ++ '.' :: fraction) ∧
        ofDecimal (valueOf (whole ++ fraction)) (-fraction.length) = x.magnitude := by
    rw [toList_text hnumber, hfinite, if_neg Bool.false_ne_true]
    split
    · rename_i hzero
      refine ⟨['0'], ['0'], isDigits_replicate Nat.one_pos, isDigits_replicate Nat.one_pos,
        rfl, ?_⟩
      rw [hzero]
      rfl
    · rename_i hne
      have hle := Nat.le_of_lt hlt
      have hpoint := (isPositional_iff hle hne).1 h
      have hdigits := Decimal.isDigits_digits (coefficient_ne_zero hle hne)
      obtain ⟨whole, fraction, hwhole, hfraction, hlay, hvalue⟩ := exists_layOut hdigits hpoint
      refine ⟨whole, fraction, hwhole, hfraction, by rw [hlay], ?_⟩
      rw [hvalue, Decimal.round_digits, round_shortest hle]
  constructor
  · rw [htext]
    exact isFloat_signed hwhole hfraction
  · rw [Numeral.float_signed hwhole hfraction htext, hvalue, ofMagnitude_magnitude]

/-! ### Texts with a letter -/

/-- What numbers are written with. -/
def IsTextChar (c : Char) : Prop := Numeral.IsPlainChar c ∨ c ∈ ['+', 'e', 'i', 'n', 'f']

theorem isTextChar_of_isDigit {c : Char} (h : Ascii.isDigit c = true) : IsTextChar c :=
  Or.inl (Or.inl h)

theorem isTextChar_exponentText (e : Int) : ∀ c ∈ exponentText e, IsTextChar c := by
  unfold exponentText
  refine List.forall_mem_cons.2 ⟨?_, List.forall_mem_append.2 ⟨?_, ?_⟩⟩
  · split
    · exact Or.inl (Or.inr (Or.inl rfl))
    · exact Or.inr List.mem_cons_self
  · intro c hc
    rw [List.eq_of_mem_replicate hc]
    exact isTextChar_of_isDigit rfl
  · exact fun c hc => isTextChar_of_isDigit (isDigit_of_mem_toDigits hc)

/-- Digits that are laid out with an exponent start with a digit and have a letter among them. -/
theorem exists_layOut_exponent {ds : List Char} {point : Int} (hd : Pattern.IsDigits ds)
    (h : ¬(positionalFrom ≤ point - 1 ∧ point - 1 < positionalBelow)) :
    ∃ c cs, layOut ds point = c :: cs ∧ Ascii.isDigit c = true ∧ 'e' ∈ cs ∧
      ∀ d ∈ c :: cs, IsTextChar d := by
  cases ds with
  | nil => exact absurd rfl hd.1
  | cons c ds =>
    obtain ⟨hc, hds⟩ := List.forall_mem_cons.1 hd.2
    simp only [layOut, if_neg h]
    refine ⟨c, (if ds.isEmpty then [] else '.' :: ds) ++ 'e' :: exponentText (point - 1), rfl, hc,
      List.mem_append_right _ List.mem_cons_self, ?_⟩
    refine List.forall_mem_cons.2 ⟨isTextChar_of_isDigit hc, List.forall_mem_append.2 ⟨?_, ?_⟩⟩
    · split
      · exact nofun
      · refine List.forall_mem_cons.2 ⟨Or.inl (Or.inr (Or.inr rfl)), ?_⟩
        exact fun d hd => isTextChar_of_isDigit (hds d hd)
    · exact List.forall_mem_cons.2 ⟨Or.inr (by decide), isTextChar_exponentText _⟩

/-- With an exponent, or where it is a word, the text of a number has a character that no literal
of a number has. -/
theorem text_of_not_isPositional {x : Binary64} (hn : x.isNaN = false) (h : ¬x.IsPositional) :
    ∃ c cs, x.text.toList = c :: cs ∧ (c = '-' ∨ c = 'i' ∨ Ascii.isDigit c = true) ∧
      (∃ d ∈ c :: cs, ¬Numeral.IsPlainChar d) ∧ ∀ d ∈ c :: cs, IsTextChar d := by
  obtain ⟨c, cs, htext, hc, hletter, hall⟩ : ∃ c cs,
      x.text.toList = Numeral.signed x.isNegative (c :: cs) ∧
      (c = 'i' ∨ Ascii.isDigit c = true) ∧ (∃ d ∈ c :: cs, ¬Numeral.IsPlainChar d) ∧
      ∀ d ∈ c :: cs, IsTextChar d := by
    rw [toList_text hn]
    split
    · refine ⟨'i', ['n', 'f'], rfl, Or.inl rfl, ⟨'i', List.mem_cons_self, ?_⟩, ?_⟩
      · unfold Numeral.IsPlainChar
        decide
      · exact fun d hd => Or.inr (List.mem_append_right ['+', 'e'] hd)
    · split
      · rename_i hzero
        exact absurd (Or.inl hzero) h
      · rename_i hne
        have hle := magnitude_le hn
        have hpoint := mt (isPositional_iff hle hne).2 h
        have hdigits := Decimal.isDigits_digits (coefficient_ne_zero hle hne)
        obtain ⟨c, cs, hlay, hc, he, hall⟩ := exists_layOut_exponent hdigits hpoint
        refine ⟨c, cs, by rw [hlay], Or.inr hc, ⟨'e', List.mem_cons_of_mem c he, ?_⟩, hall⟩
        unfold Numeral.IsPlainChar
        decide
  cases hsign : x.isNegative with
  | false =>
    rw [hsign] at htext
    exact ⟨c, cs, htext, Or.inr hc, hletter, hall⟩
  | true =>
    rw [hsign] at htext
    obtain ⟨d, hd, hplain⟩ := hletter
    exact ⟨'-', c :: cs, htext, Or.inl rfl, ⟨d, List.mem_cons_of_mem _ hd, hplain⟩,
      List.forall_mem_cons.2 ⟨Or.inl (Or.inr (Or.inl rfl)), hall⟩⟩

end Binary64

/-! ### Integers in decimal -/

namespace Numeral

theorem valueOf_lt {ds : List Char} (h : ∀ c ∈ ds, Ascii.isDigit c = true) :
    valueOf ds < 10 ^ ds.length := by
  induction ds with
  | nil => exact Nat.one_pos
  | cons c ds ih =>
    obtain ⟨hc, hds⟩ := List.forall_mem_cons.1 h
    have hrest := ih hds
    have hdigit : c.toNat - '0'.toNat ≤ 9 := by
      have hrange := toNat_of_isDigit hc
      show c.toNat - 48 ≤ 9
      omega
    have hvalue : valueOf (c :: ds) = 10 ^ ds.length * (c.toNat - '0'.toNat) + valueOf ds := by
      show Nat.ofDigitChars 10 (c :: ds) 0 = _
      rw [Nat.ofDigitChars_cons, Nat.ofDigitChars_eq_ofDigitChars_zero, Nat.mul_zero, Nat.zero_add]
      rfl
    rw [hvalue, List.length_cons, Nat.pow_succ]
    calc 10 ^ ds.length * (c.toNat - '0'.toNat) + valueOf ds
        ≤ 10 ^ ds.length * 9 + valueOf ds :=
          Nat.add_le_add_right (Nat.mul_le_mul_left _ hdigit) _
      _ < 10 ^ ds.length * 10 := by omega

theorem toList_toString (n : Int) :
    (toString n).toList = signed (decide (n < 0)) (Nat.toDigits 10 n.natAbs) := by
  rw [Int.toString_eq_repr, Int.repr_eq_if]
  split
  · rename_i h
    have hsign : decide (n < 0) = false := decide_eq_false (by omega)
    have habs : n.toNat = n.natAbs := by omega
    rw [hsign, habs, Nat.toList_repr]
    rfl
  · rename_i h
    have hsign : decide (n < 0) = true := decide_eq_true (by omega)
    have habs : (-n).toNat = n.natAbs := by omega
    rw [hsign, habs, String.toList_append, Nat.toList_repr]
    rfl

theorem isInteger_signed {negative : Bool} {ds : List Char} (h : Pattern.IsDigits ds) :
    Pattern.IsInteger (signed negative ds) := by
  cases negative with
  | false => exact Or.inl h
  | true => exact Or.inr ⟨ds, h, rfl⟩

theorem integer_toString {n : Int} (h : (Nat.toDigits 10 n.natAbs).length ≤ digitLimit) :
    integer (toString n) = .ok n := by
  have hdigits := Binary64.isDigits_toDigits n.natAbs
  have hvalue : valueOf (Nat.toDigits 10 n.natAbs) = n.natAbs := Nat.ofDigitChars_ten_toDigits
  rw [integer_signed hdigits (toList_toString n), if_neg (Nat.not_lt.2 h), hvalue]
  congr 1
  split
  · rename_i hsign
    have hneg := of_decide_eq_true hsign
    omega
  · rename_i hsign
    have hpos : ¬n < 0 := fun hneg => hsign (decide_eq_true hneg)
    omega

/-- An integer that is read has no more digits than may be read. -/
theorem length_toDigits_le {s : String} {n : Int} (hm : Pattern.IsInteger s.toList)
    (h : integer s = .ok n) : (Nat.toDigits 10 n.natAbs).length ≤ digitLimit := by
  obtain ⟨negative, ds, hd, hs⟩ := exists_signed hm
  rw [integer_signed hd hs] at h
  split at h
  · cases h
  · rename_i hlimit
    have habs : n.natAbs = valueOf ds := by
      obtain rfl := Except.ok.inj h
      split <;> omega
    rw [Nat.length_toDigits_le_iff (by decide) (by decide), habs]
    calc valueOf ds < 10 ^ ds.length := valueOf_lt hd.2
      _ ≤ 10 ^ digitLimit := Nat.pow_le_pow_right (by decide) (Nat.not_lt.1 hlimit)

end Numeral

end ClassLang
