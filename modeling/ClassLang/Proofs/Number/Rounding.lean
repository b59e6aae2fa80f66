import ClassLang.Number.Shortest
import Mathlib.Algebra.Group.Nat.Defs

/-!
# Rounding to magnitudes

Rounding is monotone: a greater quotient never rounds to a smaller magnitude. So two ways to write
one quotient round alike, and the limits at which a decimal is given up as infinite or as nothing
only save work (`ofDecimal_eq_ofRatio`). Every finite magnitude is where its own quotient rounds to
(`ofRatio_ratio`).
-/

namespace ClassLang.Binary64

/-! ### Rounded quotients -/

theorem roundDiv_scaled (num den : Nat) {k : Nat} (h : 0 < k) :
    roundDiv (num * k) (den * k) = roundDiv num den := by
  have hlt : den * k < 2 * (num % den * k) ↔ den < 2 * (num % den) := by
    rw [← Nat.mul_assoc]
    exact Nat.mul_lt_mul_right h
  have heq : den * k = 2 * (num % den * k) ↔ den = 2 * (num % den) := by
    rw [← Nat.mul_assoc]
    exact Nat.mul_left_inj (Nat.pos_iff_ne_zero.1 h)
  simp only [roundDiv, Nat.mul_div_mul_right _ _ h, Nat.mul_mod_mul_right, hlt, heq]

theorem roundDiv_mono {num num' den : Nat} (h : num ≤ num') :
    roundDiv num den ≤ roundDiv num' den := by
  have hdiv : num / den ≤ num' / den := Nat.div_le_div_right h
  have hd := Nat.div_add_mod num den
  have hd' := Nat.div_add_mod num' den
  simp only [roundDiv]
  rcases Nat.lt_or_eq_of_le hdiv with hlt | heq
  · split <;> split <;> omega
  · -- the quotients agree, so the greater remainder decides
    rw [heq] at hd ⊢
    split <;> split <;> omega

theorem roundDiv_le {num den q : Nat} (hd : 0 < den) (h : num ≤ q * den) :
    roundDiv num den ≤ q := by
  calc roundDiv num den ≤ roundDiv (q * den) den := roundDiv_mono h
    _ = q := roundDiv_mul hd

theorem le_roundDiv {num den q : Nat} (hd : 0 < den) (h : q * den ≤ num) :
    q ≤ roundDiv num den := by
  calc q = roundDiv (q * den) den := (roundDiv_mul hd).symm
    _ ≤ roundDiv num den := roundDiv_mono h

/-! ### Rounded ratios -/

theorem scaleOfRatio_scaled (num den : Nat) {k : Nat} (h : 0 < k) :
    scaleOfRatio (num * k) (den * k) = scaleOfRatio num den := by
  rw [scaleOfRatio, scaleOfRatio, Nat.mul_right_comm, Nat.mul_div_mul_right _ _ h]

theorem ofRatio_scaled (num den : Nat) {k : Nat} (h : 0 < k) :
    ofRatio (num * k) (den * k) = ofRatio num den := by
  simp only [ofRatio, scaleOfRatio_scaled num den h]
  rw [Nat.mul_right_comm num, Nat.mul_right_comm den, roundDiv_scaled _ _ h]

theorem log2_mono {n m : Nat} (h : n ≤ m) : n.log2 ≤ m.log2 := by
  rcases Nat.eq_zero_or_pos n with rfl | hpos
  · rw [Nat.log2_zero]
    exact Nat.zero_le _
  · have hself := Nat.log2_self_le (Nat.pos_iff_ne_zero.1 hpos)
    exact (Nat.le_log2 (by omega)).2 (Nat.le_trans hself h)

/-- The rounded significand has at most 53 bits, and no fewer unless the scale is the smallest. -/
theorem significand_bounds {n den s : Nat} (h : 0 < den) (hs : s = (n / den).log2 - 52) :
    roundDiv n (den * Nat.pow 2 s) ≤ 2 * Nat.pow 2 52 ∧
      (0 < s → Nat.pow 2 52 ≤ roundDiv n (den * Nat.pow 2 s)) := by
  have hunit : 0 < den * Nat.pow 2 s := Nat.mul_pos h (Nat.two_pow_pos s)
  constructor
  · apply roundDiv_le hunit
    have hlog : n / den < 2 ^ (s + 53) := by
      apply Nat.lt_of_lt_of_le Nat.lt_log2_self
      exact Nat.pow_le_pow_right Nat.two_pos (by omega)
    apply Nat.le_of_lt
    calc n < 2 ^ (s + 53) * den := (Nat.div_lt_iff_lt_mul h).1 hlog
      _ = 2 ^ s * 2 ^ 53 * den := by rw [Nat.pow_add]
      _ = 2 ^ 53 * (den * 2 ^ s) := by rw [Nat.mul_comm (2 ^ s), Nat.mul_assoc, Nat.mul_comm den]
  · intro hpos
    apply le_roundDiv hunit
    have hne : n / den ≠ 0 := by
      intro hzero
      rw [hzero, Nat.log2_zero] at hs
      omega
    have hlog : 2 ^ (s + 52) ≤ n / den := (Nat.le_log2 hne).1 (by omega)
    calc 2 ^ 52 * (den * 2 ^ s) = 2 ^ s * 2 ^ 52 * den := by
          rw [Nat.mul_comm (2 ^ s), Nat.mul_assoc, Nat.mul_comm den]
      _ = 2 ^ (s + 52) * den := by rw [Nat.pow_add]
      _ ≤ n := (Nat.le_div_iff_mul_le h).1 hlog

/-- Ratios over one denominator round in their order. -/
theorem ofRatio_mono_left {num num' den : Nat} (h : 0 < den) (hle : num ≤ num') :
    ofRatio num den ≤ ofRatio num' den := by
  have hbits : num * Nat.pow 2 1074 ≤ num' * Nat.pow 2 1074 := Nat.mul_le_mul_right _ hle
  simp only [ofRatio, scaleOfRatio]
  generalize num * Nat.pow 2 1074 = n at hbits
  generalize num' * Nat.pow 2 1074 = n' at hbits
  have hscale : (n / den).log2 - 52 ≤ (n' / den).log2 - 52 := by
    apply Nat.sub_le_sub_right
    exact log2_mono (Nat.div_le_div_right hbits)
  generalize hs : (n / den).log2 - 52 = s at hscale
  generalize hs' : (n' / den).log2 - 52 = s' at hscale
  have hhigh := (significand_bounds h hs.symm).1
  have hlow := (significand_bounds h hs'.symm).2
  generalize Nat.pow 2 52 = unit at hhigh hlow
  have hbound : s * unit + roundDiv n (den * Nat.pow 2 s) ≤
      s' * unit + roundDiv n' (den * Nat.pow 2 s') := by
    rcases Nat.lt_or_eq_of_le hscale with hlt | rfl
    · calc s * unit + roundDiv n (den * Nat.pow 2 s) ≤ s * unit + 2 * unit :=
            Nat.add_le_add_left hhigh _
        _ = (s + 1) * unit + unit := by rw [Nat.add_mul, Nat.one_mul]; omega
        _ ≤ s' * unit + roundDiv n' (den * Nat.pow 2 s') :=
            Nat.add_le_add (Nat.mul_le_mul_right unit hlt) (hlow (by omega))
    · exact Nat.add_le_add_left (roundDiv_mono hbits) _
  omega

theorem ofRatio_mono {num den num' den' : Nat} (h : 0 < den) (h' : 0 < den')
    (hle : num * den' ≤ num' * den) : ofRatio num den ≤ ofRatio num' den' := by
  calc ofRatio num den = ofRatio (num * den') (den * den') := (ofRatio_scaled num den h').symm
    _ ≤ ofRatio (num' * den) (den * den') := ofRatio_mono_left (Nat.mul_pos h h') hle
    _ = ofRatio (num' * den) (den' * den) := by rw [Nat.mul_comm den]
    _ = ofRatio num' den' := ofRatio_scaled num' den' h

/-- The scale of a finite magnitude is that of its own quotient. -/
theorem log2_significand (m : Nat) : (significand m * 2 ^ scale m).log2 - 52 = scale m := by
  have hp : Nat.pow 2 52 = 2 ^ 52 := rfl
  unfold significand scale
  rw [hp]
  split
  · rename_i hsmall
    have hzero : m / 2 ^ 52 - 1 = 0 := by omega
    rw [hzero, Nat.pow_zero, Nat.mul_one]
    rcases Nat.eq_zero_or_pos m with rfl | hpos
    · rw [Nat.log2_zero]
    · have hlog : m.log2 < 52 := (Nat.log2_lt (Nat.pos_iff_ne_zero.1 hpos)).2 hsmall
      omega
  · generalize m / 2 ^ 52 - 1 = s
    have hlow : 2 ^ 52 ≤ 2 ^ 52 + m % 2 ^ 52 := Nat.le_add_right _ _
    have hhigh : 2 ^ 52 + m % 2 ^ 52 < 2 ^ 53 := by omega
    generalize 2 ^ 52 + m % 2 ^ 52 = g at hlow hhigh
    have hpos : 0 < 2 ^ s := Nat.two_pow_pos s
    have hlog : (g * 2 ^ s).log2 = 52 + s := by
      apply (Nat.log2_eq_iff (Nat.pos_iff_ne_zero.1 (Nat.mul_pos (by omega) hpos))).2
      constructor
      · rw [Nat.pow_add]
        exact Nat.mul_le_mul_right _ hlow
      · rw [Nat.add_right_comm, Nat.pow_add]
        exact Nat.mul_lt_mul_of_pos_right hhigh hpos
    omega

theorem two_pow_sub_mul (s b : Nat) :
    Nat.pow 2 (s - b) * Nat.pow 2 b = Nat.pow 2 (b - s) * Nat.pow 2 s := by
  show 2 ^ (s - b) * 2 ^ b = 2 ^ (b - s) * 2 ^ s
  rw [← Nat.pow_add, ← Nat.pow_add]
  congr 1
  omega

/-- A finite magnitude is what its own quotient is rounded to. -/
theorem ofRatio_ratio {m : Nat} (h : m ≤ infinity) : ofRatio (ratio m).1 (ratio m).2 = m := by
  have hbits : (ratio m).1 * Nat.pow 2 1074 =
      significand m * ((ratio m).2 * Nat.pow 2 (scale m)) := by
    dsimp only [ratio]
    generalize 1074 = bias
    rw [Nat.mul_assoc, two_pow_sub_mul]
  have hden : 0 < (ratio m).2 := Nat.two_pow_pos _
  have hscale : scaleOfRatio (ratio m).1 (ratio m).2 = scale m := by
    have hquot : significand m * ((ratio m).2 * Nat.pow 2 (scale m)) / (ratio m).2 =
        significand m * 2 ^ scale m := by
      rw [Nat.mul_left_comm, Nat.mul_div_cancel_left _ hden]
      rfl
    rw [scaleOfRatio, hbits, hquot, log2_significand]
  have hround : roundDiv ((ratio m).1 * Nat.pow 2 1074) ((ratio m).2 * Nat.pow 2 (scale m)) =
      significand m := by
    rw [hbits]
    exact roundDiv_mul (Nat.mul_pos hden (Nat.two_pow_pos _))
  simp only [ofRatio, hscale, hround, scale_add_significand]
  exact Nat.min_eq_right h

/-! ### Decimals -/

theorem pow_pos (k : Nat) : 0 < 10 ^ k := Nat.pow_pos (by decide)

theorem lt_pow_digitCount (n : Nat) : n < 10 ^ digitCount n :=
  (Nat.length_toDigits_le_iff (by decide) Nat.length_toDigits_pos).1 (Nat.le_refl _)

theorem pow_digitCount_le {n : Nat} (h : n ≠ 0) : 10 ^ (digitCount n - 1) ≤ n := by
  rcases Nat.eq_zero_or_pos (digitCount n - 1) with hzero | hpos
  · rw [hzero, Nat.pow_zero]
    exact Nat.pos_iff_ne_zero.2 h
  · apply Nat.le_of_not_lt
    intro hlt
    have hle : digitCount n ≤ digitCount n - 1 :=
      (Nat.length_toDigits_le_iff (by decide) hpos).2 hlt
    omega

/-- What has at most `k` digits before the point rounds to no more than `10 ^ k`. -/
theorem ofRatio_le_pow {m : Nat} {e k : Int} (h : digitCount m + e ≤ k) :
    ofRatio (m * 10 ^ e.toNat) (10 ^ (-e).toNat) ≤ ofRatio (10 ^ k.toNat) (10 ^ (-k).toNat) := by
  apply ofRatio_mono (pow_pos _) (pow_pos _)
  calc m * 10 ^ e.toNat * 10 ^ (-k).toNat
      ≤ 10 ^ digitCount m * 10 ^ e.toNat * 10 ^ (-k).toNat := by
        have hm := Nat.le_of_lt (lt_pow_digitCount m)
        exact Nat.mul_le_mul_right _ (Nat.mul_le_mul_right _ hm)
    _ = 10 ^ (digitCount m + e.toNat + (-k).toNat) := by rw [Nat.pow_add, Nat.pow_add]
    _ ≤ 10 ^ (k.toNat + (-e).toNat) := Nat.pow_le_pow_right (by decide) (by omega)
    _ = 10 ^ k.toNat * 10 ^ (-e).toNat := Nat.pow_add _ _ _

/-- What has more than `k` digits before the point rounds to no less than `10 ^ k`. -/
theorem pow_le_ofRatio {m : Nat} {e k : Int} (hm : m ≠ 0) (h : k < digitCount m + e) :
    ofRatio (10 ^ k.toNat) (10 ^ (-k).toNat) ≤ ofRatio (m * 10 ^ e.toNat) (10 ^ (-e).toNat) := by
  apply ofRatio_mono (pow_pos _) (pow_pos _)
  calc 10 ^ k.toNat * 10 ^ (-e).toNat
      = 10 ^ (k.toNat + (-e).toNat) := (Nat.pow_add _ _ _).symm
    _ ≤ 10 ^ (digitCount m - 1 + e.toNat + (-k).toNat) :=
        Nat.pow_le_pow_right (by decide) (by omega)
    _ = 10 ^ (digitCount m - 1) * 10 ^ e.toNat * 10 ^ (-k).toNat := by
        rw [Nat.pow_add, Nat.pow_add]
    _ ≤ m * 10 ^ e.toNat * 10 ^ (-k).toNat :=
        Nat.mul_le_mul_right _ (Nat.mul_le_mul_right _ (pow_digitCount_le hm))

/-- The limits at which a decimal is given up change nothing. -/
theorem ofDecimal_eq_ofRatio (m : Nat) (e : Int) :
    ofDecimal m e = ofRatio (m * 10 ^ e.toNat) (10 ^ (-e).toNat) := by
  have hgreat : ofRatio (10 ^ (310 : Int).toNat) (10 ^ (-(310 : Int)).toNat) = infinity := by
    decide +kernel
  have hsmall : ofRatio (10 ^ (-401 : Int).toNat) (10 ^ (-(-401 : Int)).toNat) = 0 := by
    decide +kernel
  have hzero : ofRatio 0 1 = 0 := by decide +kernel
  unfold ofDecimal
  simp only
  split
  · rename_i hm
    have hle : ofRatio 0 (10 ^ (-e).toNat) ≤ ofRatio 0 1 :=
      ofRatio_mono (pow_pos _) Nat.one_pos (by omega)
    rw [hzero] at hle
    rw [hm, Nat.zero_mul]
    exact (Nat.le_zero.1 hle).symm
  · rename_i hm
    split
    · rename_i hlong
      have hle := pow_le_ofRatio hm (k := 310) hlong
      rw [hgreat] at hle
      exact Nat.le_antisymm hle (Nat.min_le_left _ _)
    · split
      · rename_i hshort
        have hle := ofRatio_le_pow (m := m) (e := e) (k := -401) (by unfold digitCount; omega)
        rw [hsmall] at hle
        omega
      · split
        · rename_i hpos
          have hneg : (-e).toNat = 0 := by omega
          rw [hneg]
          rfl
        · rename_i hneg
          have hpos : e.toNat = 0 := by omega
          rw [hpos, Nat.pow_zero, Nat.mul_one]
          rfl

/-- Zeros at the end of the coefficient are as good as a greater exponent. -/
theorem ofDecimal_shift (m : Nat) (e : Int) (k : Nat) :
    ofDecimal (m * 10 ^ k) e = ofDecimal m (e + k) := by
  rw [ofDecimal_eq_ofRatio, ofDecimal_eq_ofRatio]
  have hcross : m * 10 ^ k * 10 ^ e.toNat * 10 ^ (-(e + k)).toNat =
      m * 10 ^ (e + k).toNat * 10 ^ (-e).toNat := by
    rw [Nat.mul_assoc, Nat.mul_assoc, Nat.mul_assoc, ← Nat.pow_add, ← Nat.pow_add, ← Nat.pow_add]
    congr 2
    omega
  apply Nat.le_antisymm
  · exact ofRatio_mono (pow_pos _) (pow_pos _) (Nat.le_of_eq hcross)
  · exact ofRatio_mono (pow_pos _) (pow_pos _) (Nat.le_of_eq hcross.symm)

end ClassLang.Binary64
