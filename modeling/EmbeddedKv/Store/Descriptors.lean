import EmbeddedKv.Library.Runs
import Mathlib.Data.Int.Notation
import Mathlib.Data.Nat.Notation
import Mathlib.Logic.Function.Basic

/-!
# Descriptors and eviction

`Evict` deletes a file with `Delete`, which closes it, and then destroys the object, whose
destructor closes it again.

## The model

The kernel has a table of descriptors. The thread in `Evict` goes through its steps on one
file (`EvictPc`): `Close` from `Delete`, `unlink`, the loop over the keys, and `Close` from
the destructor. In between other threads open files and accept connections, for which they
get any number that is free, and close what they have opened.

## What is proved

`closes_own_iff`: in a run every `close(fd_)` closes a descriptor that the file has opened
and not closed yet exactly if no one of them is that of the destructor, and `fd_` was opened
in the first place. So an eviction that comes to its end never does: it closes nothing, or
the descriptor of another thread that got the number in between (`closed_by_destructor`).
-/

namespace EmbeddedKv.Store

open EmbeddedKv.Library

/-! ### The table -/

/-- Who has opened a descriptor. -/
inductive Owner where
  /-- The file that is evicted. -/
  | file
  /-- Another thread, or another file. -/
  | other (who : ℕ)
  deriving DecidableEq, Repr

/-- Where `Close()` is called. -/
inductive CloseCaller where
  /-- In `Delete()`. -/
  | delete
  /-- In the destructor. -/
  | destructor
  deriving DecidableEq, Repr

/-- Where the thread in `Evict` is. -/
inductive EvictPc where
  /-- In `Close()`, before the buffers are cleared; `tid` is joined if it can be. -/
  | joining (caller : CloseCaller)
  /-- In `Close()`, at `close(fd_)`. -/
  | closing (caller : CloseCaller)
  /-- In `Delete()`, at `unlink`. -/
  | unlinking
  /-- In the loop over `key_lists()`. -/
  | erasing
  /-- The file is destroyed. -/
  | evicted
  deriving DecidableEq, Repr

/-- The table of the kernel, and the file. -/
structure DescriptorTable where
  /-- Who has opened each number; `none` for one that is free. -/
  table : ℕ → Option Owner
  /-- `fd_`. -/
  fd : ℤ
  /-- Where `Evict` is. -/
  pc : EvictPc

namespace DescriptorTable

/-- The number is one that the file has opened and not closed. -/
def Own (s : DescriptorTable) : Prop := 0 ≤ s.fd ∧ s.table s.fd.toNat = some .file

/-- `close(fd_)`, which does nothing to a number that is not open. -/
def closeFd (s : DescriptorTable) : ℕ → Option Owner :=
  if 0 ≤ s.fd then Function.update s.table s.fd.toNat none else s.table

end DescriptorTable

/-- What happens. -/
inductive DescriptorAct where
  /-- The next step of `Evict`. -/
  | evict
  /-- `open` or `accept` returns a number to another thread. -/
  | opens (who n : ℕ)
  /-- Another thread closes a number. -/
  | closes (who n : ℕ)

/-- **One step** of `Evict` or of another thread. -/
inductive DescriptorStep : DescriptorTable → DescriptorAct → DescriptorTable → Prop where
  /-- `tid` is joined if it can be, and the buffers are cleared. -/
  | join {s : DescriptorTable} {caller : CloseCaller} (hpc : s.pc = .joining caller) :
      DescriptorStep s .evict { s with pc := .closing caller }
  /-- `close(fd_)` in `Close()`, called in `Delete()`. -/
  | closeDelete {s : DescriptorTable} (hpc : s.pc = .closing .delete) :
      DescriptorStep s .evict { s with table := s.closeFd, pc := .unlinking }
  /-- `unlink`. -/
  | unlink {s : DescriptorTable} (hpc : s.pc = .unlinking) : DescriptorStep s .evict { s with pc := .erasing }
  /-- The keys of the file are erased, and the destructor is called. -/
  | erase {s : DescriptorTable} (hpc : s.pc = .erasing) : DescriptorStep s .evict { s with pc := .joining .destructor }
  /-- `close(fd_)` in `Close()`, called in the destructor. -/
  | closeDestructor {s : DescriptorTable} (hpc : s.pc = .closing .destructor) :
      DescriptorStep s .evict { s with table := s.closeFd, pc := .evicted }
  /-- Another thread gets a number that is free. -/
  | opens {s : DescriptorTable} {who n : ℕ} (hfree : s.table n = none) :
      DescriptorStep s (.opens who n) { s with table := Function.update s.table n (some (.other who)) }
  /-- Another thread closes a number of its own. -/
  | closes {s : DescriptorTable} {who n : ℕ} (hown : s.table n = some (.other who)) :
      DescriptorStep s (.closes who n) { s with table := Function.update s.table n none }

/-- **A `close(fd_)` closes what the file has opened** and not closed yet. -/
def DescriptorTable.ClosesOwn (s : DescriptorTable) (a : DescriptorAct) : Prop :=
  ∀ caller, a = .evict → s.pc = .closing caller → s.Own

/-- It is the one in `Delete()`, and the file was open at the start. -/
def DescriptorTable.ClosesInDelete (s₀ s : DescriptorTable) (a : DescriptorAct) : Prop :=
  ∀ caller, a = .evict → s.pc = .closing caller → caller = .delete ∧ s₀.Own

variable {s s' s₀ : DescriptorTable} {as : List DescriptorAct} {a : DescriptorAct} {who n : ℕ}

/-- Before `close(fd_)` in `Delete()`. -/
def EvictPc.Before : EvictPc → Prop
  | .joining caller => caller = .delete
  | .closing caller => caller = .delete
  | _ => False

/-- **The file is open until `Delete()` has closed it**, and then never again. -/
structure Descending (s₀ s : DescriptorTable) : Prop where
  /-- `fd_` does not change. -/
  fd : s.fd = s₀.fd
  /-- Before it is closed it is open if it was so at the start. -/
  before : s.pc.Before → (s.Own ↔ s₀.Own)
  /-- Afterwards it is not. -/
  after : ¬ s.pc.Before → ¬ s.Own

/-- What other threads open and close is not the file's. -/
theorem own_update (h : s.table n ≠ some .file) {o : Option Owner} (ho : o ≠ some .file) :
    ({ s with table := Function.update s.table n o } : DescriptorTable).Own ↔ s.Own := by
  rw [DescriptorTable.Own, DescriptorTable.Own]
  refine and_congr_right fun _ => ?_
  show Function.update s.table n o s.fd.toNat = _ ↔ _
  by_cases heq : s.fd.toNat = n
  · rw [heq, Function.update_self]
    exact ⟨fun hfile => absurd hfile ho, fun hfile => absurd hfile h⟩
  · rw [Function.update_of_ne heq]

/-- What is closed is not open. -/
theorem not_own_closeFd (s : DescriptorTable) (pc : EvictPc) :
    ¬ ({ s with table := s.closeFd, pc } : DescriptorTable).Own := by
  rintro ⟨hfd, hfile⟩
  have hfree : s.closeFd s.fd.toNat = none := by
    rw [DescriptorTable.closeFd, if_pos hfd, Function.update_self]
  exact Option.some_ne_none _ (hfile.symm.trans hfree)

/-- Another thread does something. -/
theorem Descending.other (h : Descending s₀ s) (hn : s.table n ≠ some .file) {o : Option Owner}
    (ho : o ≠ some .file) : Descending s₀ { s with table := Function.update s.table n o } where
  fd := h.fd
  before hpc := (own_update hn ho).trans (h.before hpc)
  after hpc hown := h.after hpc ((own_update hn ho).mp hown)

theorem Descending.step (h : Descending s₀ s) (hs : DescriptorStep s a s') : Descending s₀ s' := by
  cases hs with
  | @join caller hpc =>
    have hsame : s.pc.Before ↔ EvictPc.Before (.closing caller) := by rw [hpc]; exact Iff.rfl
    exact ⟨h.fd, fun hb => h.before (hsame.mpr hb), fun hb => h.after (mt hsame.mp hb)⟩
  | closeDelete hpc => exact ⟨h.fd, fun hb => hb.elim, fun _ => not_own_closeFd s _⟩
  | unlink hpc => exact ⟨h.fd, fun hb => hb.elim, fun _ => h.after (by rw [hpc]; exact id)⟩
  | erase hpc => exact ⟨h.fd, fun hb => CloseCaller.noConfusion hb, fun _ => h.after (by rw [hpc]; exact id)⟩
  | closeDestructor hpc => exact ⟨h.fd, fun hb => hb.elim, fun _ => not_own_closeFd s _⟩
  | opens hfree => exact h.other (by rw [hfree]; simp) (by simp)
  | closes hown => exact h.other (by rw [hown]; simp) (by simp)

/-- **A step closes what the file has opened** exactly if it is the right one. -/
theorem Descending.closesOwn_iff (h : Descending s₀ s) : s.ClosesOwn a ↔ s₀.ClosesInDelete s a := by
  refine forall_congr' fun caller => forall_congr' fun _ => forall_congr' fun hpc => ?_
  cases caller with
  | delete =>
    have hown := h.before (by rw [hpc]; exact rfl)
    exact hown.trans ⟨fun h₀ => ⟨rfl, h₀⟩, And.right⟩
  | destructor =>
    have hnot := h.after (by rw [hpc]; exact CloseCaller.noConfusion)
    exact ⟨fun hown => absurd hown hnot, fun hd => CloseCaller.noConfusion hd.1⟩

/-- **The destructor closes nothing, or the descriptor of another thread**: whose it is
depends on who got the number since `Delete()` gave it back. -/
theorem closed_by_destructor (h : Descending s₀ s) (hpc : s.pc = .closing .destructor) :
    s.fd < 0 ∨ s.table s.fd.toNat = none ∨ ∃ who, s.table s.fd.toNat = some (.other who) := by
  have hnot := h.after (by rw [hpc]; exact CloseCaller.noConfusion)
  by_cases hfd : s.fd < 0
  · exact .inl hfd
  refine .inr ?_
  cases ho : s.table s.fd.toNat with
  | none => exact .inl rfl
  | some o =>
    cases o with
    | file => exact absurd ⟨Int.not_lt.mp hfd, ho⟩ hnot
    | other who => exact .inr ⟨who, rfl⟩

/-- **Evicting a file closes no one else's descriptor** as long as the destructor does not
close: in a run of the steps of `Evict` and of other threads every `close(fd_)` closes a
descriptor that the file has opened and not closed yet exactly if each is the one in
`Delete()`, and the file was open at the start. -/
theorem closes_own_iff (hstart : s₀.pc = .joining .delete) (as : List DescriptorAct) (s : DescriptorTable) :
    Run DescriptorStep (fun _ s a => s.ClosesOwn a) s₀ as s ↔
      Run DescriptorStep (fun _ s a => s₀.ClosesInDelete s a) s₀ as s := by
  have h₀ : Descending s₀ s₀ := ⟨rfl, fun _ => Iff.rfl, fun hb => absurd (by rw [hstart]; exact rfl) hb⟩
  constructor
  · intro h
    exact h.congr (P := fun _ s => Descending s₀ s) h₀ (fun _ _ _ _ hd hs => hd.step hs) fun _ _ _ hd => hd.closesOwn_iff.mp
  · intro h
    exact h.congr (P := fun _ s => Descending s₀ s) h₀ (fun _ _ _ _ hd hs => hd.step hs) fun _ _ _ hd => hd.closesOwn_iff.mpr

/-- The file has number 5, and is the only one. -/
def DescriptorTable.five : DescriptorTable := ⟨Function.update (fun _ => none) 5 (some .file), 5, .joining .delete⟩

/-- `Delete()` has closed the file, a connection has got its number, and the destructor is
about to close it. -/
theorem destructor_closes_connection : ∃ (as : List DescriptorAct) (s : DescriptorTable),
    DescriptorTable.five.Own ∧ Run DescriptorStep (fun _ _ _ => True) .five as s ∧
      s.pc = .closing .destructor ∧ s.fd = 5 ∧ s.table 5 = some (.other 0) ∧ ¬ s.ClosesOwn .evict := by
  have hown : DescriptorTable.five.Own := ⟨by decide, rfl⟩
  have h₀ : Run DescriptorStep (fun _ _ _ => True) .five [] .five := .nil _
  have h₂ := (h₀.snoc trivial (.join rfl)).snoc trivial (.closeDelete rfl)
  have h₃ := h₂.snoc (a := .opens 0 5) trivial (.opens rfl)
  have h₆ := ((h₃.snoc trivial (.unlink rfl)).snoc trivial (.erase rfl)).snoc trivial (.join rfl)
  refine ⟨_, _, hown, h₆, rfl, rfl, rfl, fun hcloses => ?_⟩
  cases (hcloses .destructor rfl rfl).2

/-- Until the destructor is called the file closes its own descriptor only. -/
theorem closes_own_deleted : ∃ (as : List DescriptorAct) (s : DescriptorTable), s.pc = .unlinking ∧
    Run DescriptorStep (fun _ s a => s.ClosesOwn a) .five as s := by
  refine ⟨_, _, rfl,
    (closes_own_iff rfl _ _).mpr (((Run.nil DescriptorTable.five).snoc ?_ (.join rfl)).snoc ?_ (.closeDelete rfl))⟩
  · intro caller _ hpc
    cases hpc
  · intro caller _ hpc
    cases hpc
    exact ⟨rfl, by decide, rfl⟩

end EmbeddedKv.Store
