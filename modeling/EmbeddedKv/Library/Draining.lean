import Mathlib.Data.List.Basic
import Mathlib.Logic.Relation

/-!
# Draining a list

A loop that takes the head of a list as long as a level is too high; what is taken changes
the level. The loop is stuck at the end of the list, and at a head that cannot be taken.

`GoesOn` says that it never gets stuck, and `StopsAt` names the rest of the list at which
it stops. Together they come down to the levels after the first elements (`drains_iff`):
the level is too high until all that is missing from the rest was taken, and no longer.
A system that `Drains` such a list does what the loop does.
-/

namespace EmbeddedKv.Library

open Relation

/-- **A loop that drains a list.** -/
structure Drain (L α : Type*) where
  /-- The level is too high. -/
  exceeds : L → Prop
  /-- The element can be taken at this level. -/
  takes : L → α → Prop
  /-- The level after it was taken. -/
  after : L → α → L

namespace Drain

variable {L α : Type*}

/-- One round. -/
inductive Step (d : Drain L α) : L × List α → L × List α → Prop where
  /-- The head is taken. -/
  | take {l : L} {x : α} {xs : List α} (hover : d.exceeds l) (htakes : d.takes l x) : Step d (l, x :: xs) (d.after l x, xs)

/-- While the level is too high there is another round. -/
def GoesOn (d : Drain L α) (s : L × List α) : Prop := ∀ t, ReflTransGen d.Step s t → d.exceeds t.1 → ∃ u, d.Step t u

/-- Where the level is not too high, this is the rest of the list. -/
def StopsAt (d : Drain L α) (s : L × List α) (rest : List α) : Prop :=
  ∀ t, ReflTransGen d.Step s t → ¬ d.exceeds t.1 → t.2 = rest

/-- The level after some elements. -/
def level (d : Drain L α) (l : L) (xs : List α) : L := xs.foldl d.after l

variable {d : Drain L α} {l : L} {x : α} {xs rest : List α} {s t : L × List α} {k : ℕ}

/-- **The loop ends**: the list gets shorter. -/
theorem acc (d : Drain L α) (l : L) (xs : List α) : Acc (fun u t => d.Step t u) (l, xs) := by
  induction xs generalizing l with
  | nil => exact ⟨_, fun u hu => nomatch hu⟩
  | cons x xs ih =>
    refine ⟨_, fun u hu => ?_⟩
    cases hu with
    | take => exact ih _

/-- It stops somewhere. -/
theorem GoesOn.exists_stop (h : d.GoesOn s) : ∃ t, ReflTransGen d.Step s t ∧ ¬ d.exceeds t.1 := by
  have hacc : Acc (fun u t => d.Step t u) s := d.acc s.1 s.2
  induction hacc with
  | intro s _ ih =>
    by_cases hover : d.exceeds s.1
    · obtain ⟨u, hu⟩ := h s .refl hover
      obtain ⟨t, ht, hstop⟩ := ih u hu fun t ht => h t (.head hu ht)
      exact ⟨t, .head hu ht, hstop⟩
    · exact ⟨s, .refl, hover⟩

/-- The list only gets shorter. -/
theorem length_le (h : ReflTransGen d.Step s t) : t.2.length ≤ s.2.length := by
  induction h with
  | refl => exact Nat.le_refl _
  | tail _ hs ih =>
    cases hs with
    | take => exact Nat.le_of_succ_le ih

/-- Without a level that is too high there is no round. -/
theorem eq_of_not_over (hover : ¬ d.exceeds s.1) (h : ReflTransGen d.Step s t) : t = s := by
  rcases h.cases_head with rfl | ⟨u, hu, -⟩
  · rfl
  · cases hu with
    | take hover' => exact absurd hover' hover

/-- The rounds after the first one. -/
theorem reaches_cons (hover : d.exceeds l) (htakes : d.takes l x) :
    ReflTransGen d.Step (l, x :: xs) t ↔ t = (l, x :: xs) ∨ ReflTransGen d.Step (d.after l x, xs) t := by
  constructor
  · intro h
    rcases h.cases_head with rfl | ⟨u, hu, ht⟩
    · exact .inl rfl
    · cases hu with
      | take => exact .inr ht
  · rintro (rfl | h)
    · exact .refl
    · exact .head (.take hover htakes) h

/-- Nothing is taken exactly if the level is not too high. -/
theorem drains_nothing : d.GoesOn (l, xs) ∧ d.StopsAt (l, xs) xs ↔ ¬ d.exceeds l := by
  constructor
  · rintro ⟨hgo, hstop⟩ hover
    obtain ⟨u, hu⟩ := hgo _ .refl hover
    cases hu with
    | @take _ x ys _ htakes =>
      -- the rest at the end is shorter than the list
      obtain ⟨t, ht, hend⟩ := GoesOn.exists_stop fun t ht => hgo t (.head (.take hover htakes) ht)
      have hrest := hstop t (.head (.take hover htakes) ht) hend
      have hle := length_le ht
      rw [hrest, List.length_cons] at hle
      exact Nat.not_succ_le_self _ hle
  · intro hover
    refine ⟨fun t ht hover' => ?_, fun t ht _ => ?_⟩
    · rw [eq_of_not_over hover ht] at hover'
      exact absurd hover' hover
    · rw [eq_of_not_over hover ht]

/-- Something is taken: the head, and then what is to be taken after it. -/
theorem drains_cons (hne : rest ≠ x :: xs) : d.GoesOn (l, x :: xs) ∧ d.StopsAt (l, x :: xs) rest ↔
    d.exceeds l ∧ d.takes l x ∧ d.GoesOn (d.after l x, xs) ∧ d.StopsAt (d.after l x, xs) rest := by
  constructor
  · rintro ⟨hgo, hstop⟩
    have hover : d.exceeds l := by
      by_contra hover
      exact hne (hstop _ .refl hover).symm
    obtain ⟨u, hu⟩ := hgo _ .refl hover
    cases hu with
    | take _ htakes =>
      have hreach : ∀ t, ReflTransGen d.Step (d.after l x, xs) t → ReflTransGen d.Step (l, x :: xs) t :=
        fun t ht => (reaches_cons hover htakes).mpr (.inr ht)
      exact ⟨hover, htakes, fun t ht => hgo t (hreach t ht), fun t ht => hstop t (hreach t ht)⟩
  · rintro ⟨hover, htakes, hgo, hstop⟩
    refine ⟨fun t ht hover' => ?_, fun t ht hend => ?_⟩
    · rcases (reaches_cons hover htakes).mp ht with rfl | ht
      · exact ⟨_, .take hover htakes⟩
      · exact hgo t ht hover'
    · rcases (reaches_cons hover htakes).mp ht with rfl | ht
      · exact absurd hover hend
      · exact hstop t ht hend

/-- **What the loop takes**: it goes on and stops behind the first `k` elements exactly if
the level is too high until then and no longer, and these elements can be taken. -/
theorem drains_iff (hk : k ≤ xs.length) : d.GoesOn (l, xs) ∧ d.StopsAt (l, xs) (xs.drop k) ↔
    ∀ j, j ≤ k → (d.exceeds (d.level l (xs.take j)) ↔ j < k) ∧
      ∀ x, j < k → xs[j]? = some x → d.takes (d.level l (xs.take j)) x := by
  induction k generalizing l xs with
  | zero =>
    rw [List.drop_zero, drains_nothing]
    constructor
    · intro hover j hj
      obtain rfl := Nat.le_zero.mp hj
      exact ⟨iff_of_false hover (Nat.lt_irrefl 0), fun x hlt => absurd hlt (Nat.lt_irrefl 0)⟩
    · intro h hover
      exact Nat.lt_irrefl 0 ((h 0 (Nat.le_refl 0)).1.mp hover)
  | succ k ih =>
    cases xs with
    | nil => cases hk
    | cons x xs =>
      have hne : (x :: xs).drop (k + 1) ≠ x :: xs := by
        intro heq
        have hlen := congrArg List.length heq
        rw [List.length_drop, List.length_cons] at hlen
        omega
      rw [drains_cons hne, List.drop_succ_cons, ih (Nat.le_of_succ_le_succ hk)]
      constructor
      · rintro ⟨hover, htakes, hrest⟩ j hj
        cases j with
        | zero =>
          refine ⟨iff_of_true hover (Nat.succ_pos k), fun y _ hy => ?_⟩
          obtain rfl : x = y := Option.some.inj hy
          exact htakes
        | succ j =>
          obtain ⟨hlevel, hall⟩ := hrest j (Nat.le_of_succ_le_succ hj)
          exact ⟨hlevel.trans Nat.succ_lt_succ_iff.symm, fun y hlt => hall y (Nat.lt_of_succ_lt_succ hlt)⟩
      · intro h
        obtain ⟨hover, htakes⟩ := h 0 (Nat.zero_le _)
        refine ⟨hover.mpr (Nat.succ_pos k), htakes x (Nat.succ_pos k) rfl, fun j hj => ?_⟩
        obtain ⟨hlevel, hall⟩ := h (j + 1) (Nat.succ_le_succ hj)
        exact ⟨hlevel.trans Nat.succ_lt_succ_iff, fun y hlt => hall y (Nat.succ_lt_succ hlt)⟩

/-! ### Systems -/

/-- **A system whose steps are the rounds of the loop**, as long as an invariant holds. -/
structure Drains {S : Type*} (d : Drain L α) (R : S → S → Prop) (I : S → Prop) (view : S → L × List α) : Prop where
  /-- A step is a round. -/
  step : ∀ s t, I s → R s t → d.Step (view s) (view t) ∧ I t
  /-- A round is taken by a step. -/
  lift : ∀ s u, I s → d.Step (view s) u → ∃ t, R s t ∧ view t = u

namespace Drains

variable {S : Type*} {R : S → S → Prop} {I : S → Prop} {view : S → L × List α} {a b : S} {u : L × List α}

theorem reach (h : d.Drains R I view) (ha : I a) (hrun : ReflTransGen R a b) :
    ReflTransGen d.Step (view a) (view b) ∧ I b := by
  induction hrun with
  | refl => exact ⟨.refl, ha⟩
  | tail _ hs ih =>
    obtain ⟨hstep, hb⟩ := h.step _ _ ih.2 hs
    exact ⟨ih.1.tail hstep, hb⟩

theorem reach_lift (h : d.Drains R I view) (ha : I a) (hrun : ReflTransGen d.Step (view a) u) :
    ∃ b, ReflTransGen R a b ∧ view b = u := by
  induction hrun with
  | refl => exact ⟨a, .refl, rfl⟩
  | tail _ hs ih =>
    obtain ⟨b, hb, rfl⟩ := ih
    obtain ⟨e, he, hview⟩ := h.lift b _ (h.reach ha hb).2 hs
    exact ⟨e, hb.tail he, hview⟩

/-- The system comes to an end. -/
theorem acc (h : d.Drains R I view) (ha : I a) : Acc (fun t s => R s t) a := by
  have hacc := d.acc (view a).1 (view a).2
  generalize hs : ((view a).1, (view a).2) = s at hacc
  induction hacc generalizing a with
  | intro s _ ih =>
    refine ⟨_, fun b hb => ?_⟩
    obtain ⟨hstep, hib⟩ := h.step a b ha hb
    exact ih (view b) (hs ▸ hstep) hib rfl

/-- While the level is too high there is another step. -/
theorem goesOn_iff (h : d.Drains R I view) (ha : I a) :
    d.GoesOn (view a) ↔ ∀ b, ReflTransGen R a b → d.exceeds (view b).1 → ∃ e, R b e := by
  constructor
  · intro hgo b hb hover
    obtain ⟨hrun, hib⟩ := h.reach ha hb
    obtain ⟨u, hu⟩ := hgo _ hrun hover
    obtain ⟨e, he, -⟩ := h.lift b u hib hu
    exact ⟨e, he⟩
  · intro hgo t ht hover
    obtain ⟨b, hb, rfl⟩ := h.reach_lift ha ht
    obtain ⟨e, he⟩ := hgo b hb hover
    exact ⟨_, (h.step b e (h.reach ha hb).2 he).1⟩

/-- Where it is not too high, this is the rest of the list. -/
theorem stopsAt_iff (h : d.Drains R I view) (ha : I a) :
    d.StopsAt (view a) rest ↔ ∀ b, ReflTransGen R a b → ¬ d.exceeds (view b).1 → (view b).2 = rest := by
  constructor
  · intro hstop b hb hover
    exact hstop _ (h.reach ha hb).1 hover
  · intro hstop t ht hover
    obtain ⟨b, hb, rfl⟩ := h.reach_lift ha ht
    exact hstop b hb hover

end Drains

end Drain

end EmbeddedKv.Library
