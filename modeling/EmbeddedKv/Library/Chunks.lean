import Mathlib.Data.List.Basic
import Mathlib.Algebra.Order.Ring.Nat
import Mathlib.Tactic.Ring

/-!
# A log cut into chunks

A growing log kept in a row of containers of one capacity `c`: container `i` holds
the items `i * c, …, (i + 1) * c - 1` of the log, as far as they exist. Given the
capacity and the number of containers the contents are determined by the log, so
"all containers before the current one are full and all after it are empty" is the
equation `contents = chunks c n log`.
-/

namespace EmbeddedKv.Library

variable {α : Type*}

/-- The contents of `n` containers of capacity `c` that hold the log `l`. What does
not fit is not held. -/
def chunks (c : ℕ) : ℕ → List α → List (List α)
  | 0, _ => []
  | n + 1, l => l.take c :: chunks c n (l.drop c)

@[simp] theorem length_chunks (c n : ℕ) (l : List α) : (chunks c n l).length = n := by
  induction n generalizing l with
  | zero => rfl
  | succ n ih => simp [chunks, ih]

@[simp] theorem chunks_nil (c n : ℕ) : chunks c n ([] : List α) = List.replicate n [] := by
  induction n with
  | zero => rfl
  | succ n ih => simp [chunks, ih, List.replicate_succ]

/-- The containers hold the log up to their common capacity. -/
theorem flatten_chunks (c n : ℕ) (l : List α) : (chunks c n l).flatten = l.take (n * c) := by
  induction n generalizing l with
  | zero => simp [chunks]
  | succ n ih =>
    rw [chunks, List.flatten_cons, ih, Nat.succ_mul, Nat.add_comm, List.take_add]

/-- Containers `0, …, m - 1` do not depend on those after them. -/
theorem chunks_add (c m n : ℕ) (l : List α) :
    chunks c (m + n) l = chunks c m l ++ chunks c n (l.drop (m * c)) := by
  induction m generalizing l with
  | zero => simp [chunks]
  | succ m ih =>
    have hd : (l.drop c).drop (m * c) = l.drop ((m + 1) * c) := by
      rw [List.drop_drop, Nat.succ_mul, Nat.add_comm]
    rw [Nat.add_right_comm, chunks, ih, hd]
    rfl

theorem take_chunks (c n m : ℕ) (l : List α) (h : m ≤ n) : (chunks c n l).take m = chunks c m l := by
  obtain ⟨k, rfl⟩ := Nat.exists_eq_add_of_le h
  rw [chunks_add, List.take_left' (length_chunks c m l)]

theorem drop_chunks (c n m : ℕ) (l : List α) :
    (chunks c n l).drop m = chunks c (n - m) (l.drop (m * c)) := by
  rcases Nat.le_total m n with h | h
  · obtain ⟨k, rfl⟩ := Nat.exists_eq_add_of_le h
    rw [chunks_add, List.drop_left' (length_chunks c m l), Nat.add_sub_cancel_left]
  · rw [Nat.sub_eq_zero_of_le h, List.drop_eq_nil_of_le (by simpa using h)]
    rfl

/-- Container `i` holds the items from `i * c` on. -/
theorem getElem?_chunks (c n i : ℕ) (l : List α) :
    (chunks c n l)[i]? = if i < n then some ((l.drop (i * c)).take c) else none := by
  induction n generalizing i l with
  | zero => simp [chunks]
  | succ n ih =>
    cases i with
    | zero => simp [chunks]
    | succ i =>
      have hd : (l.drop c).drop (i * c) = l.drop ((i + 1) * c) := by
        rw [List.drop_drop, Nat.succ_mul, Nat.add_comm]
      simp only [chunks, List.getElem?_cons_succ, ih, hd, Nat.add_lt_add_iff_right]

/-- What is beyond the common capacity is not held. -/
theorem chunks_take (c n : ℕ) (l : List α) : chunks c n (l.take (n * c)) = chunks c n l := by
  induction n generalizing l with
  | zero => rfl
  | succ n ih =>
    have ht : (l.take ((n + 1) * c)).take c = l.take c := by
      rw [List.take_take, Nat.min_eq_left (Nat.le_mul_of_pos_left c n.succ_pos)]
    have hd : (l.take ((n + 1) * c)).drop c = (l.drop c).take (n * c) := by
      rw [List.drop_take, Nat.succ_mul, Nat.add_sub_cancel]
    rw [chunks, ht, hd, ih]
    rfl

end EmbeddedKv.Library
