import Mathlib.Algebra.Order.Group.Nat
import Mathlib.Data.Nat.Log

/-!
# Rounding to a number of bits

A natural number rounded to `m + 1` significant bits, to the nearest such number and halves to
even (`roundBits`), as numbers are that are converted to a binary floating-point format.

Numbers up to `2 ^ (m + 1)` are not changed (`roundBits_eq_self`), rounding keeps the order
(`roundBits_mono`), and a number is changed by at most one part in `2 ^ (m + 1)`
(`roundBits_error`). So a comparison of two rounded numbers never says that the smaller one is
greater, and when it does not say that the greater one is, they are close
(`close_of_roundBits_le`).
-/

namespace EmbeddedKv.Library

/-- `n / k`, rounded to the nearest number, halves to even. -/
def nearestEven (k n : ℕ) : ℕ := if k < 2 * (n % k) ∨ k = 2 * (n % k) ∧ n / k % 2 = 1 then n / k + 1 else n / k

/-- **A number rounded** to `m + 1` significant bits. -/
def roundBits (m n : ℕ) : ℕ := nearestEven (2 ^ (n.log2 - m)) n * 2 ^ (n.log2 - m)

variable {m k n a b : ℕ}

theorem nearestEven_bounds (k n : ℕ) : n / k ≤ nearestEven k n ∧ nearestEven k n ≤ n / k + 1 := by
  unfold nearestEven
  split_ifs <;> omega

/-- It is off by at most one half. -/
theorem nearestEven_error (hk : 0 < k) (n : ℕ) :
    2 * (nearestEven k n * k) ≤ 2 * n + k ∧ 2 * n ≤ 2 * (nearestEven k n * k) + k := by
  have hn := Nat.div_add_mod n k
  have hlt := Nat.mod_lt n hk
  rw [Nat.mul_comm] at hn
  unfold nearestEven
  split_ifs with hup
  · rw [Nat.add_mul, Nat.one_mul]
    omega
  · omega

/-- A multiple is what it is. -/
theorem nearestEven_mul (hk : 0 < k) (q : ℕ) : nearestEven k (q * k) = q := by
  rw [nearestEven, Nat.mul_mod_left, Nat.mul_div_cancel q hk, if_neg (by omega)]

/-- A greater number is not rounded to a smaller one. -/
theorem nearestEven_mono (k : ℕ) (h : a ≤ b) : nearestEven k a ≤ nearestEven k b := by
  have hdiv : a / k ≤ b / k := Nat.div_le_div_right h
  rcases Nat.lt_or_eq_of_le hdiv with hlt | heq
  · have := (nearestEven_bounds k a).2
    have := (nearestEven_bounds k b).1
    omega
  · -- only the remainder may be greater
    have ha := Nat.div_add_mod a k
    have hb := Nat.div_add_mod b k
    rw [heq] at ha
    unfold nearestEven
    rw [heq]
    split_ifs <;> omega

/-! ### Significant bits -/

/-- A number with more than `m + 1` bits, without the last ones. -/
theorem two_pow_mul_le (h : m < n.log2) : 2 ^ m * 2 ^ (n.log2 - m) ≤ n := by
  rw [← Nat.pow_add, Nat.add_sub_cancel' (Nat.le_of_lt h)]
  apply Nat.log2_self_le
  rintro rfl
  simp at h

/-- **Small numbers are not changed.** -/
theorem roundBits_eq_self (h : n ≤ 2 ^ (m + 1)) : roundBits m n = n := by
  rcases Nat.lt_or_eq_of_le h with hlt | rfl
  · have hlog : n.log2 - m = 0 := by
      by_cases h0 : n = 0
      · simp [h0]
      · have := (Nat.log2_lt h0).mpr hlt
        omega
    rw [roundBits, hlog]
    simpa using nearestEven_mul Nat.one_pos n
  · rw [roundBits, Nat.log2_two_pow, Nat.add_sub_cancel_left, pow_one, Nat.pow_succ, nearestEven_mul Nat.two_pos]

/-- **A number is changed** by at most one part in `2 ^ (m + 1)`. -/
theorem roundBits_error (m n : ℕ) : 2 ^ (m + 1) * roundBits m n ≤ 2 ^ (m + 1) * n + n ∧
    2 ^ (m + 1) * n ≤ 2 ^ (m + 1) * roundBits m n + n := by
  by_cases hlog : m < n.log2
  · obtain ⟨hup, hdown⟩ := nearestEven_error (Nat.two_pow_pos (n.log2 - m)) n
    have hsize := two_pow_mul_le hlog
    have hup' := Nat.mul_le_mul_left (2 ^ m) hup
    have hdown' := Nat.mul_le_mul_left (2 ^ m) hdown
    simp only [Nat.mul_add, ← Nat.mul_assoc (2 ^ m) 2, ← Nat.pow_succ] at hup' hdown'
    exact ⟨hup'.trans (Nat.add_le_add_left hsize _), hdown'.trans (Nat.add_le_add_left hsize _)⟩
  · have hself : roundBits m n = n := by
      by_cases h0 : n = 0
      · simp [h0, roundBits, nearestEven]
      · exact roundBits_eq_self (Nat.le_of_lt ((Nat.log2_lt h0).mp (by omega)))
    rw [hself]
    exact ⟨Nat.le_add_right _ _, Nat.le_add_right _ _⟩

/-- Rounding does not go beyond the next power of two. -/
theorem roundBits_le (m n : ℕ) : roundBits m n ≤ 2 ^ (n.log2 + 1) := by
  have hsplit : 2 ^ (n.log2 + 1) = 2 ^ (n.log2 + 1 - (n.log2 - m)) * 2 ^ (n.log2 - m) := by
    rw [← Nat.pow_add]
    congr 1
    omega
  have hlt : n / 2 ^ (n.log2 - m) < 2 ^ (n.log2 + 1 - (n.log2 - m)) := by
    rw [Nat.div_lt_iff_lt_mul (Nat.two_pow_pos _), ← hsplit]
    exact Nat.lt_log2_self
  rw [hsplit]
  exact Nat.mul_le_mul_right _ ((nearestEven_bounds _ _).2.trans hlt)

/-- Nor below the last one. -/
theorem le_roundBits (h : m < n.log2) : 2 ^ n.log2 ≤ roundBits m n := by
  have hle : 2 ^ m ≤ n / 2 ^ (n.log2 - m) := (Nat.le_div_iff_mul_le (Nat.two_pow_pos _)).mpr (two_pow_mul_le h)
  calc 2 ^ n.log2 = 2 ^ m * 2 ^ (n.log2 - m) := by rw [← Nat.pow_add, Nat.add_sub_cancel' (Nat.le_of_lt h)]
    _ ≤ roundBits m n := Nat.mul_le_mul_right _ (hle.trans (nearestEven_bounds _ _).1)

/-- **Rounding keeps the order.** -/
theorem roundBits_mono (m : ℕ) (h : a ≤ b) : roundBits m a ≤ roundBits m b := by
  have hlog : a.log2 ≤ b.log2 := by
    rw [Nat.log2_eq_log_two, Nat.log2_eq_log_two]
    exact Nat.log_mono_right h
  by_cases he : a.log2 - m = b.log2 - m
  · rw [roundBits, roundBits, he]
    exact Nat.mul_le_mul_right _ (nearestEven_mono _ h)
  · -- a power of two is between them
    calc roundBits m a ≤ 2 ^ (a.log2 + 1) := roundBits_le m a
      _ ≤ 2 ^ b.log2 := Nat.pow_le_pow_right Nat.two_pos (by omega)
      _ ≤ roundBits m b := le_roundBits (by omega)

/-! ### Comparisons -/

/-- **What is greater when rounded** is greater. -/
theorem lt_of_roundBits_lt (h : roundBits m a < roundBits m b) : a < b := by
  by_contra hge
  exact absurd (roundBits_mono m (Nat.not_lt.mp hge)) (Nat.not_le.mpr h)

/-- **What is not greater when rounded** is greater by two parts at most. -/
theorem close_of_roundBits_le (h : roundBits m b ≤ roundBits m a) :
    2 ^ (m + 1) * b ≤ 2 ^ (m + 1) * a + (a + b) := by
  have hb := (roundBits_error m b).2
  have ha := (roundBits_error m a).1
  have hmul := Nat.mul_le_mul_left (2 ^ (m + 1)) h
  omega

/-- **With small numbers** the comparison is exact. -/
theorem roundBits_lt_iff (ha : a < 2 ^ (m + 1)) : roundBits m a < roundBits m b ↔ a < b := by
  refine ⟨lt_of_roundBits_lt, fun hlt => ?_⟩
  calc roundBits m a = a := roundBits_eq_self (Nat.le_of_lt ha)
    _ < a + 1 := Nat.lt_succ_self a
    _ = roundBits m (a + 1) := (roundBits_eq_self ha).symm
    _ ≤ roundBits m b := roundBits_mono m hlt

end EmbeddedKv.Library
