import Mathlib.Algebra.Order.BigOperators.Group.Finset

/-!
# Totals over numbered places

A total `∑ p ∈ Finset.range n, m p` of what `n` places hold, when one of them changes, or
when one is added.
-/

namespace EmbeddedKv.Library

variable {n p : ℕ}

/-- **One place is changed**: the total changes by what that one holds. -/
theorem total_update (m m' : ℕ → ℕ) (hp : p < n) (hrest : ∀ q, q ≠ p → m' q = m q) :
    ∑ q ∈ Finset.range n, m' q + m p = ∑ q ∈ Finset.range n, m q + m' p := by
  have hin : p ∈ Finset.range n := Finset.mem_range.mpr hp
  have hsame : ∑ q ∈ (Finset.range n).erase p, m' q = ∑ q ∈ (Finset.range n).erase p, m q :=
    Finset.sum_congr rfl fun q hq => hrest q (Finset.ne_of_mem_erase hq)
  rw [← Finset.add_sum_erase _ m' hin, ← Finset.add_sum_erase _ m hin, hsame]
  omega

/-- **A place is added.** -/
theorem total_succ (m m' : ℕ → ℕ) (hrest : ∀ q, q < n → m' q = m q) :
    ∑ q ∈ Finset.range (n + 1), m' q = ∑ q ∈ Finset.range n, m q + m' n := by
  rw [Finset.sum_range_succ, Finset.sum_congr rfl fun q hq => hrest q (Finset.mem_range.mp hq)]

/-- A place holds no more than all of them. -/
theorem le_total (m : ℕ → ℕ) (hp : p < n) : m p ≤ ∑ q ∈ Finset.range n, m q :=
  Finset.single_le_sum_of_canonicallyOrdered (Finset.mem_range.mpr hp)

end EmbeddedKv.Library
