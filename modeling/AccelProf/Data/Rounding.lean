import Mathlib

/-! Rounding a rational number to a binary floating-point format, to nearest and ties to even. The
largest exponent is left to the user of a format. -/

namespace Accel.Data

section Nearest

/-- The nearest integer, the even one of two. -/
def roundEven (x : ℚ) : ℤ :=
  let r := x - ⌊x⌋
  if r < 1 / 2 ∨ r = 1 / 2 ∧ ⌊x⌋ % 2 = 0 then ⌊x⌋ else ⌊x⌋ + 1

theorem roundEven_intCast (n : ℤ) : roundEven n = n := by
  unfold roundEven
  rw [Int.floor_intCast]
  exact if_pos (.inl (by norm_num))

theorem roundEven_nonneg {x : ℚ} (hx : 0 ≤ x) : 0 ≤ roundEven x := by
  have hfloor : 0 ≤ ⌊x⌋ := Int.floor_nonneg.2 hx
  simp only [roundEven]
  split_ifs
  · exact hfloor
  · omega

end Nearest

/-- `prec` binary digits, none of them worth less than `2 ^ emin`. -/
structure BinaryFormat where
  prec : ℕ
  emin : ℤ

def binary64 : BinaryFormat := ⟨53, -1074⟩

/-- The exponent of the leading binary digit. -/
def leadingExp (x : ℚ) : ℤ :=
  let e : ℤ := Nat.log2 x.num.natAbs - Nat.log2 x.den
  if |x| < 2 ^ e then e - 1 else e

theorem two_zpow_leadingExp_le {x : ℚ} (hx : x ≠ 0) : (2 : ℚ) ^ leadingExp x ≤ |x| := by
  simp only [leadingExp]
  split_ifs with hlt
  · have hnum : (2 : ℚ) ^ Nat.log2 x.num.natAbs ≤ x.num.natAbs := by
      exact_mod_cast Nat.log2_self_le (Int.natAbs_ne_zero.2 (Rat.num_ne_zero.2 hx))
    have hden : (x.den : ℚ) ≤ 2 ^ (Nat.log2 x.den + 1) := by
      exact_mod_cast Nat.lt_log2_self.le
    have hden₀ : (0 : ℚ) < x.den := by exact_mod_cast x.den_pos
    have habs : |x| = x.num.natAbs / x.den := by
      rw [← Rat.num_div_den |x|, Rat.num_abs_eq_abs_num, Rat.den_abs_eq_den]
      simp
    rw [habs, le_div_iff₀ hden₀]
    calc (2 : ℚ) ^ ((Nat.log2 x.num.natAbs : ℤ) - Nat.log2 x.den - 1) * x.den
        ≤ 2 ^ ((Nat.log2 x.num.natAbs : ℤ) - Nat.log2 x.den - 1) * 2 ^ (Nat.log2 x.den + 1) :=
          mul_le_mul_of_nonneg_left hden (zpow_pos two_pos _).le
      _ = 2 ^ Nat.log2 x.num.natAbs := by
          rw [← zpow_natCast, ← zpow_natCast, ← zpow_add₀ two_ne_zero]
          congr 1
          push_cast
          ring
      _ ≤ x.num.natAbs := hnum
  · exact not_lt.1 hlt

namespace BinaryFormat
variable (f : BinaryFormat)

/-- What the last digit of a number of this size is worth. -/
def ulp (x : ℚ) : ℚ := 2 ^ max (leadingExp x + 1 - f.prec) f.emin

def round (x : ℚ) : ℚ := roundEven (x / f.ulp x) * f.ulp x

theorem ulp_pos (x : ℚ) : 0 < f.ulp x := zpow_pos two_pos _

theorem round_nonneg {x : ℚ} (hx : 0 ≤ x) : 0 ≤ f.round x := by
  have hscaled : 0 ≤ x / f.ulp x := div_nonneg hx (f.ulp_pos x).le
  have hdigits : (0 : ℚ) ≤ roundEven (x / f.ulp x) := by exact_mod_cast roundEven_nonneg hscaled
  exact mul_nonneg hdigits (f.ulp_pos x).le

theorem round_of_multiple {x : ℚ} {n : ℤ} (h : x = n * f.ulp x) : f.round x = x := by
  have hdigits : x / f.ulp x = n := by
    rw [div_eq_iff (f.ulp_pos x).ne']
    exact h
  unfold round
  rw [hdigits, roundEven_intCast]
  exact h.symm

/-- What fits into the digits of the format stays as it is. -/
theorem round_eq_self {m e : ℤ} (hm : |m| < 2 ^ f.prec) (he : f.emin ≤ e) :
    f.round (m * 2 ^ e) = m * 2 ^ e := by
  have hsplit : ∀ {a b : ℤ}, b ≤ a → (2 : ℚ) ^ a = (2 ^ (a - b).toNat : ℤ) * 2 ^ b := by
    intro a b hab
    rw [Int.cast_pow, Int.cast_ofNat, ← zpow_natCast, ← zpow_add₀ two_ne_zero]
    congr 1
    omega
  rcases eq_or_ne m 0 with rfl | hm₀
  · exact f.round_of_multiple (n := 0) (by simp)
  set x : ℚ := m * 2 ^ e with hx
  have hx₀ : x ≠ 0 := mul_ne_zero (by exact_mod_cast hm₀) (zpow_ne_zero _ two_ne_zero)
  have habs : |x| = |m| * 2 ^ e := by
    rw [hx, abs_mul, abs_of_pos (zpow_pos two_pos e : (0 : ℚ) < 2 ^ e)]
    norm_cast
  by_cases hfine : max (leadingExp x + 1 - f.prec) f.emin ≤ e
  · apply f.round_of_multiple (n := m * 2 ^ (e - max (leadingExp x + 1 - f.prec) f.emin).toNat)
    rw [Int.cast_mul, mul_assoc]
    unfold ulp
    rw [← hsplit hfine]
  · -- the leading digit would be worth more than all the digits of `m` together
    exfalso
    have hlead : e + f.prec ≤ leadingExp x := by omega
    have hlt : |x| < 2 ^ (e + f.prec) := by
      rw [habs, add_comm, zpow_add₀ two_ne_zero, zpow_natCast]
      have : ((|m| : ℤ) : ℚ) < 2 ^ f.prec := by exact_mod_cast hm
      exact mul_lt_mul_of_pos_right this (zpow_pos two_pos e)
    have hle : (2 : ℚ) ^ leadingExp x ≤ |x| := two_zpow_leadingExp_le hx₀
    have hpow : (2 : ℚ) ^ (e + f.prec) ≤ 2 ^ leadingExp x := zpow_le_zpow_right₀ one_le_two hlead
    exact absurd (hlt.trans_le hpow) (not_lt.2 hle)

end BinaryFormat

end Accel.Data
