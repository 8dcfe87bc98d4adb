import Mathlib.Data.Int.Log
import Mathlib.Algebra.Order.Field.Power
import Mathlib.Algebra.Order.Floor.Ring
import Mathlib.Algebra.Order.AbsoluteValue.Basic
import Mathlib.Algebra.Ring.Parity
import Mathlib.Tactic.Linarith
import Mathlib.Tactic.Positivity
import Mathlib.Tactic.Ring
import Mathlib.Tactic.FieldSimp
import Mathlib.Tactic.NormNum

/-!
# Rounding to nearest, ties to even

Rounding to integers, to floating-point numbers with significands of `p` bits,
and what is left of a number with `k` decimals after both.
-/

namespace Rounding

variable {K : Type*} [Field K] [LinearOrder K] [IsStrictOrderedRing K] [FloorRing K]
variable {x y : K} {n : ℤ}

/-! ## Integers -/

def roundEven (x : K) : ℤ :=
  if Int.fract x < 1 / 2 then ⌊x⌋
  else if 1 / 2 < Int.fract x then ⌊x⌋ + 1
  else if 2 ∣ ⌊x⌋ then ⌊x⌋ else ⌊x⌋ + 1

omit [IsStrictOrderedRing K] in
theorem floor_le_roundEven (x : K) : ⌊x⌋ ≤ roundEven x := by
  unfold roundEven
  split_ifs <;> omega

omit [IsStrictOrderedRing K] in
theorem roundEven_le_floor (x : K) : roundEven x ≤ ⌊x⌋ + 1 := by
  unfold roundEven
  split_ifs <;> omega

theorem abs_roundEven_sub_le (x : K) : |(roundEven x : K) - x| ≤ 1 / 2 := by
  have hf := Int.floor_add_fract x
  have h₀ := Int.fract_nonneg x
  have h₁ := Int.fract_lt_one x
  unfold roundEven
  rw [abs_le]
  split_ifs with h₂ h₃ h₄ <;> push_cast <;> constructor <;> linarith

theorem roundEven_eq (h : |x - n| < 1 / 2) : roundEven x = n := by
  have hx := abs_roundEven_sub_le x
  rw [abs_lt] at h
  rw [abs_le] at hx
  have h₁ : ((roundEven x : ℤ) : K) < n + 1 := by linarith
  have h₂ : (n : K) < roundEven x + 1 := by linarith
  have h₁' : roundEven x < n + 1 := by exact_mod_cast h₁
  have h₂' : n < roundEven x + 1 := by exact_mod_cast h₂
  omega

@[simp] theorem roundEven_intCast (n : ℤ) : roundEven (n : K) = n := by
  apply roundEven_eq
  simp

theorem roundEven_mono (h : x ≤ y) : roundEven x ≤ roundEven y := by
  rcases (Int.floor_mono h).lt_or_eq with hf | hf
  · calc roundEven x ≤ ⌊x⌋ + 1 := roundEven_le_floor x
      _ ≤ ⌊y⌋ := hf
      _ ≤ roundEven y := floor_le_roundEven y
  · -- the same integer below both
    have hle : Int.fract x ≤ Int.fract y := by
      rw [Int.fract, Int.fract, hf]
      linarith
    unfold roundEven
    rw [hf]
    split_ifs <;> first | omega | (exfalso; linarith)

theorem roundEven_le (h : x ≤ n) : roundEven x ≤ n := by
  rw [← roundEven_intCast (K := K) n]
  exact roundEven_mono h

theorem le_roundEven (h : (n : K) ≤ x) : n ≤ roundEven x := by
  rw [← roundEven_intCast (K := K) n]
  exact roundEven_mono h

/-! ## Floating point -/

variable {p : ℕ} {l : ℤ}

/-- The exponent of the last bit of the significand of a positive number. -/
def ulpExp (p : ℕ) (l : ℤ) (x : K) : ℤ := max (Int.log 2 x + 1 - p) l

/-- The floating-point number that a nonnegative `x` is rounded to; the exponents are not bounded above. -/
def nearest (p : ℕ) (l : ℤ) (x : K) : K := roundEven (x / 2 ^ ulpExp p l x) * 2 ^ ulpExp p l x

theorem nearest_zero : nearest p l (0 : K) = 0 := by
  have h : roundEven (0 : K) = 0 := by exact_mod_cast roundEven_intCast (K := K) 0
  simp [nearest, h]

theorem abs_nearest_sub_le (x : K) : |nearest p l x - x| ≤ 2 ^ ulpExp p l x / 2 := by
  have hp : (0 : K) < 2 ^ ulpExp p l x := by positivity
  have he : nearest p l x - x = (roundEven (x / 2 ^ ulpExp p l x) - x / 2 ^ ulpExp p l x) * 2 ^ ulpExp p l x := by
    rw [sub_mul, div_mul_cancel₀ _ hp.ne', nearest]
  rw [he, abs_mul, abs_of_pos hp]
  calc _ ≤ 1 / 2 * (2 : K) ^ ulpExp p l x := mul_le_mul_of_nonneg_right (abs_roundEven_sub_le _) hp.le
    _ = _ := by ring

theorem ulpExp_mono (hx : 0 < x) (h : x ≤ y) : ulpExp p l x ≤ ulpExp p l y := by
  have hl := Int.log_mono_right (b := 2) hx h
  unfold ulpExp
  omega

theorem ulpExp_le {k : ℤ} (hx : 0 < x) (h : x < 2 ^ k) (hk : l ≤ k - p) : ulpExp p l x ≤ k - p := by
  have hl : Int.log 2 x < k := (Int.lt_zpow_iff_log_lt one_lt_two hx).mp (by exact_mod_cast h)
  unfold ulpExp
  omega

theorem lt_ulpExp (x : K) : x < 2 ^ (ulpExp p l x + p) := by
  have hl := Int.lt_zpow_succ_log_self one_lt_two x
  refine hl.trans_le ?_
  rw [Nat.cast_ofNat]
  apply zpow_le_zpow_right₀ one_le_two
  unfold ulpExp
  omega

theorem nearest_mono (hx : 0 ≤ x) (h : x ≤ y) (hp : 0 < p) : nearest p l x ≤ nearest p l y := by
  have hpos : ∀ e : ℤ, (0 : K) < 2 ^ e := fun e => by positivity
  rcases hx.eq_or_lt with rfl | hx
  · rw [nearest_zero, nearest]
    have hr : 0 ≤ roundEven (y / 2 ^ ulpExp p l y) := by
      apply le_roundEven
      rw [Int.cast_zero]
      exact div_nonneg h (hpos _).le
    have hr' : (0 : K) ≤ (roundEven (y / 2 ^ ulpExp p l y) : K) := by exact_mod_cast hr
    exact mul_nonneg hr' (hpos _).le
  · rcases (ulpExp_mono (p := p) (l := l) hx h).lt_or_eq with he | he
    · -- a power of two lies between the two
      have hlow : nearest p l x ≤ 2 ^ (ulpExp p l x + p) := by
        have hr : roundEven (x / 2 ^ ulpExp p l x) ≤ 2 ^ p := by
          apply roundEven_le
          rw [div_le_iff₀ (hpos _)]
          push_cast
          rw [← zpow_natCast, ← zpow_add₀ two_ne_zero, add_comm]
          exact (lt_ulpExp x).le
        have hr' : (roundEven (x / 2 ^ ulpExp p l x) : K) ≤ 2 ^ p := by exact_mod_cast hr
        calc nearest p l x ≤ 2 ^ p * 2 ^ ulpExp p l x := mul_le_mul_of_nonneg_right hr' (hpos _).le
          _ = _ := by rw [← zpow_natCast, ← zpow_add₀ two_ne_zero, add_comm]
      have hey : ulpExp p l y = Int.log 2 y + 1 - p := by
        unfold ulpExp at he ⊢
        omega
      have hhigh : (2 : K) ^ (ulpExp p l y + p - 1) ≤ nearest p l y := by
        have hl := Int.zpow_log_le_self one_lt_two (hx.trans_le h)
        rw [Nat.cast_ofNat] at hl
        have hr : (2 : ℤ) ^ (p - 1) ≤ roundEven (y / 2 ^ ulpExp p l y) := by
          apply le_roundEven
          rw [le_div_iff₀ (hpos _)]
          push_cast
          rw [← zpow_natCast, ← zpow_add₀ two_ne_zero]
          refine le_trans (le_of_eq ?_) hl
          congr 1
          omega
        have hr' : (2 : K) ^ (p - 1) ≤ (roundEven (y / 2 ^ ulpExp p l y) : K) := by exact_mod_cast hr
        calc (2 : K) ^ (ulpExp p l y + p - 1) = 2 ^ (p - 1) * 2 ^ ulpExp p l y := by
              rw [← zpow_natCast, ← zpow_add₀ two_ne_zero]
              congr 1
              omega
          _ ≤ _ := mul_le_mul_of_nonneg_right hr' (hpos _).le
      refine hlow.trans (le_trans ?_ hhigh)
      apply zpow_le_zpow_right₀ one_le_two
      omega
    · rw [nearest, nearest, he]
      apply mul_le_mul_of_nonneg_right _ (hpos _).le
      have hr := roundEven_mono (div_le_div_of_nonneg_right h (hpos (ulpExp p l y)).le)
      exact_mod_cast hr

theorem nearest_natCast {m : ℕ} (hm : m < 2 ^ p) (he : l ≤ 0) : nearest p l (m : K) = m := by
  rcases Nat.eq_zero_or_pos m with rfl | h0
  · rw [Nat.cast_zero, nearest_zero]
  · have hk : (m : K) < 2 ^ (p : ℤ) := by
      rw [zpow_natCast]
      exact_mod_cast hm
    have hu : ulpExp p l (m : K) ≤ 0 := by
      have := ulpExp_le (p := p) (l := l) (k := p) (by exact_mod_cast h0) hk (by omega)
      omega
    obtain ⟨d, hd⟩ := Int.eq_ofNat_of_zero_le (neg_nonneg.mpr hu)
    have hz : (2 : K) ^ ulpExp p l (m : K) = (2 ^ d)⁻¹ := by
      rw [show ulpExp p l (m : K) = -(d : ℤ) by omega, zpow_neg, zpow_natCast]
    have hr : roundEven ((m : K) * 2 ^ d) = m * 2 ^ d := by exact_mod_cast roundEven_intCast (K := K) (m * 2 ^ d)
    have hne : (2 : K) ^ d ≠ 0 := pow_ne_zero _ two_ne_zero
    rw [nearest, hz, div_inv_eq_mul, hr]
    push_cast
    rw [mul_assoc, mul_inv_cancel₀ hne, mul_one]

/-! ## Decimals -/

/-- The decimal with `k` places that a number is printed as, in units of its last place. -/
def fixed (k : ℕ) (x : K) : ℤ := roundEven (x * 10 ^ k)

theorem fixed_mono {k : ℕ} (h : x ≤ y) : fixed k x ≤ fixed k y :=
  roundEven_mono (mul_le_mul_of_nonneg_right h (by positivity))

/-- A decimal that is small enough for the precision is printed as it was before it was rounded. -/
theorem fixed_nearest {k m : ℕ} {j : ℤ} (hx : x * 10 ^ k = m) (hj : x < 2 ^ j) (he : l ≤ j - p)
    (hp : (10 : K) ^ k * 2 ^ (j - p) < 1) : fixed k (nearest p l x) = m := by
  have h10 : (0 : K) < 10 ^ k := by positivity
  rcases Nat.eq_zero_or_pos m with rfl | h0
  · have hz : x = 0 := by
      rw [Nat.cast_zero] at hx
      exact (mul_eq_zero.mp hx).resolve_right h10.ne'
    have hr : roundEven (0 : K) = 0 := by exact_mod_cast roundEven_intCast (K := K) 0
    rw [hz, nearest_zero, fixed, zero_mul, hr, Nat.cast_zero]
  · have hpos : 0 < x := by
      have hm : (0 : K) < m := by exact_mod_cast h0
      rw [← hx] at hm
      exact (mul_pos_iff_of_pos_right h10).mp hm
    apply roundEven_eq
    have hd : nearest p l x * 10 ^ k - ((m : ℤ) : K) = (nearest p l x - x) * 10 ^ k := by
      rw [sub_mul, hx, Int.cast_natCast]
    have hu : (2 : K) ^ ulpExp p l x ≤ 2 ^ (j - p) := zpow_le_zpow_right₀ one_le_two (ulpExp_le hpos hj he)
    rw [hd, abs_mul, abs_of_pos h10]
    calc |nearest p l x - x| * 10 ^ k ≤ 2 ^ ulpExp p l x / 2 * 10 ^ k :=
          mul_le_mul_of_nonneg_right (abs_nearest_sub_le x) h10.le
      _ ≤ 2 ^ (j - p) / 2 * 10 ^ k := by gcongr
      _ = 10 ^ k * 2 ^ (j - p) / 2 := by ring
      _ < 1 / 2 := by linarith

end Rounding
