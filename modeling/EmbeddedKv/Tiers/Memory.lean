import EmbeddedKv.Flash.Record
import Mathlib.Algebra.BigOperators.Group.List.Basic
import Mathlib.Algebra.Order.BigOperators.Group.List
import Mathlib.Data.List.Induction

/-!
# The account of memory

`chmalloc`, `chcalloc` and `chfree` of `util.c`, which keep the amount of memory in use in
`used_memory`. Each block has a word in front of it that holds the size asked for.

## The model

Blocks are numbered in the order of their allocation, and a freed block stays in the list
with a flag. What `used_memory` was raised by for a block is written down beside it
(`charged`); the program does not keep it. A sum that leaves the range of an `int`, or a
size that does, ends the run (`Stop.undefined`), and so does freeing what is not a live
block.

## What is proved

`used_memory_balance_iff`: `used_memory` is the initial value and what was charged for the
live blocks exactly as long as no block of `chmalloc` has been freed; each of these leaves
four bytes behind.
-/

namespace EmbeddedKv.Tiers

open EmbeddedKv.Library EmbeddedKv.Flash

/-! ### The allocators -/

/-- `sizeof(int)`. -/
def sizeofInt : ℕ := 4

/-- A block of memory. -/
structure Block where
  /-- The word in front of the block. -/
  usedSize : ℕ
  /-- What `used_memory` was raised by. -/
  charged : ℕ
  /-- The block has not been freed. -/
  live : Bool
  deriving DecidableEq, Repr

/-- `used_memory` and the blocks allocated so far. -/
structure Memory where
  /-- `used_memory`. -/
  usedMemory : ℤ
  /-- The blocks, oldest first. -/
  blocks : List Block := []
  deriving DecidableEq, Repr

/-- A number is in the range of an `int`. -/
def InInt (n : ℤ) : Prop := -2 ^ 31 ≤ n ∧ n < 2 ^ 31

instance (n : ℤ) : Decidable (InInt n) := instDecidableAnd

namespace Memory

/-- What the two allocators do: the size is written in front of the block, and
`used_memory` is raised by `charge`. -/
def allocate (m : Memory) (size charge : ℕ) : Except Stop Memory :=
  if InInt size ∧ InInt (m.usedMemory + charge) then
    .ok { usedMemory := m.usedMemory + charge, blocks := m.blocks ++ [⟨size, charge, true⟩] }
  else .error .undefined

/-- `chmalloc(size)`. -/
def chmalloc (m : Memory) (size : ℕ) : Except Stop Memory := m.allocate size (size + sizeofInt)

/-- `chcalloc(size)`. -/
def chcalloc (m : Memory) (size : ℕ) : Except Stop Memory := m.allocate size size

/-- `chfree(ptr)` of the block number `p`. -/
def chfree (m : Memory) (p : ℕ) : Except Stop Memory :=
  match m.blocks[p]? with
  | none => .error .undefined
  | some b =>
    if b.live = true ∧ InInt (m.usedMemory - b.usedSize) then
      .ok { usedMemory := m.usedMemory - b.usedSize, blocks := m.blocks.set p { b with live := false } }
    else .error .undefined

end Memory

/-- A call. -/
inductive MemoryCall where
  /-- `chmalloc(size)`. -/
  | chmalloc (size : ℕ)
  /-- `chcalloc(size)`. -/
  | chcalloc (size : ℕ)
  /-- `chfree` of the block number `p`. -/
  | chfree (p : ℕ)
  deriving DecidableEq, Repr

/-- One call. -/
def MemoryCall.exec (m : Memory) : MemoryCall → Except Stop Memory
  | .chmalloc size => m.chmalloc size
  | .chcalloc size => m.chcalloc size
  | .chfree p => m.chfree p

/-- The calls one after the other, from the initial value of `used_memory`. -/
def Memory.Run (initial : ℤ) (calls : List MemoryCall) (m : Memory) : Prop :=
  calls.foldlM MemoryCall.exec { usedMemory := initial } = .ok m

/-! ### What the blocks cost -/

/-- What was charged for the live blocks. -/
def Memory.liveCharges (m : Memory) : ℤ := ((m.blocks.filter Block.live).map fun b => (b.charged : ℤ)).sum

/-- What a block has left in `used_memory`: what was charged, and after it is freed what
was charged too much. -/
def Block.cost (b : Block) : ℤ := if b.live then b.charged else b.charged - b.usedSize

/-- Where the blocks of some calls come from: `true` for `chmalloc`, in the order of their
numbers. -/
def mallocated (calls : List MemoryCall) : List Bool :=
  calls.filterMap fun
    | .chmalloc _ => some true
    | .chcalloc _ => some false
    | .chfree _ => none

variable {m m' : Memory} {initial : ℤ} {calls : List MemoryCall} {p : ℕ} {b : Block} {l : List Block}

theorem sum_set_cost (hp : l[p]? = some b) (b' : Block) :
    ((l.set p b').map Block.cost).sum + b.cost = (l.map Block.cost).sum + b'.cost := by
  induction l generalizing p with
  | nil => cases hp
  | cons a l ih =>
    cases p with
    | zero =>
      obtain rfl := Option.some.inj hp
      simp only [List.set_cons_zero, List.map_cons, List.sum_cons]
      omega
    | succ p =>
      have hrest := ih (p := p) hp
      simp only [List.set_cons_succ, List.map_cons, List.sum_cons]
      omega

/-- **What one call does** to the account: `used_memory` and the costs of the blocks change
by the same amount. -/
theorem MemoryCall.exec_cost {call : MemoryCall} (hr : call.exec m = .ok m') :
    m'.usedMemory - (m'.blocks.map Block.cost).sum = m.usedMemory - (m.blocks.map Block.cost).sum := by
  have hallocate : ∀ size charge : ℕ, m.allocate size charge = .ok m' →
      m'.usedMemory - (m'.blocks.map Block.cost).sum = m.usedMemory - (m.blocks.map Block.cost).sum := by
    intro size charge hr
    unfold Memory.allocate at hr
    split_ifs at hr
    cases hr
    simp only [List.map_append, List.sum_append, List.map_singleton, List.sum_singleton, Block.cost, if_true]
    omega
  cases call with
  | chmalloc size => exact hallocate size (size + sizeofInt) hr
  | chcalloc size => exact hallocate size size hr
  | chfree p =>
    replace hr : m.chfree p = .ok m' := hr
    unfold Memory.chfree at hr
    split at hr
    · cases hr
    · next b hb =>
      split_ifs at hr with hfree
      cases hr
      have hset := sum_set_cost hb { b with live := false }
      simp only [Block.cost, hfree.1, if_true, Bool.false_eq_true, if_false] at hset ⊢
      omega

/-- What is known of the blocks after some calls: they are those of the allocations, with
the word that the allocator writes, and those that are not live have been freed. -/
structure Accounts (calls : List MemoryCall) (m : Memory) : Prop where
  /-- One block for each allocation. -/
  length : m.blocks.length = (mallocated calls).length
  /-- `chmalloc` charges for the word in front of the block, `chcalloc` does not. -/
  charged : ∀ (p : ℕ) (b : Block) (malloc : Bool), m.blocks[p]? = some b → (mallocated calls)[p]? = some malloc →
    b.charged = b.usedSize + if malloc then sizeofInt else 0
  /-- The blocks that are not live. -/
  freed : ∀ (p : ℕ) (b : Block), m.blocks[p]? = some b → (b.live = false ↔ .chfree p ∈ calls)
  /-- Only blocks are freed. -/
  inside : ∀ p : ℕ, .chfree p ∈ calls → p < m.blocks.length

theorem mallocated_append (calls : List MemoryCall) (call : MemoryCall) :
    mallocated (calls ++ [call]) = mallocated calls ++ mallocated [call] := List.filterMap_append

/-- An allocation adds a block. -/
theorem Accounts.allocate (h : Accounts calls m) (call : MemoryCall) (malloc : Bool) (size charge : ℕ)
    (hcall : mallocated [call] = [malloc]) (hnofree : ∀ p, call ≠ .chfree p)
    (hcharge : charge = size + if malloc then sizeofInt else 0) (hr : m.allocate size charge = .ok m') :
    Accounts (calls ++ [call]) m' := by
  unfold Memory.allocate at hr
  split_ifs at hr
  cases hr
  have hmem : ∀ p, MemoryCall.chfree p ∈ calls ++ [call] ↔ MemoryCall.chfree p ∈ calls := by
    intro p
    rw [List.mem_append, List.mem_singleton]
    exact ⟨fun h => h.resolve_right (Ne.symm (hnofree p)), .inl⟩
  refine ⟨?_, fun p b malloc' hb hm => ?_, fun p b hb => ?_, fun p hp => ?_⟩
  · rw [mallocated_append, hcall, List.length_append, List.length_append, h.length]
    rfl
  · rw [mallocated_append, hcall, List.getElem?_append, ← h.length] at hm
    rw [List.getElem?_append] at hb
    split_ifs at hb hm with hlt
    · exact h.charged p b malloc' hb hm
    · rw [List.getElem?_singleton] at hb hm
      split_ifs at hb hm
      cases hb
      cases hm
      exact hcharge
  · rw [hmem]
    rw [List.getElem?_append] at hb
    split_ifs at hb with hlt
    · exact h.freed p b hb
    · rw [List.getElem?_singleton] at hb
      split_ifs at hb
      cases hb
      exact iff_of_false Bool.noConfusion fun hp => hlt (h.inside p hp)
  · rw [List.length_append]
    exact Nat.lt_add_right _ (h.inside p ((hmem p).mp hp))

/-- Freeing a block takes its flag away. -/
theorem Accounts.chfree (h : Accounts calls m) (hr : m.chfree p = .ok m') : Accounts (calls ++ [.chfree p]) m' := by
  unfold Memory.chfree at hr
  split at hr
  · cases hr
  · next b hb =>
    split_ifs at hr with hfree
    cases hr
    have hlt : p < m.blocks.length := (List.getElem?_eq_some_iff.mp hb).1
    have hsame : mallocated (calls ++ [.chfree p]) = mallocated calls :=
      (mallocated_append calls (.chfree p)).trans (List.append_nil _)
    have hmem : ∀ q, MemoryCall.chfree q ∈ calls ++ [MemoryCall.chfree p] ↔ MemoryCall.chfree q ∈ calls ∨ q = p := by
      intro q
      rw [List.mem_append, List.mem_singleton, MemoryCall.chfree.injEq]
    refine ⟨?_, fun q b' malloc hb' hm => ?_, fun q b' hb' => ?_, fun q hq => ?_⟩
    · rw [hsame, List.length_set, h.length]
    · rw [hsame] at hm
      rw [List.getElem?_set] at hb'
      split_ifs at hb' with hq
      · cases hb'
        exact h.charged p b malloc hb (hq ▸ hm)
      · exact h.charged q b' malloc hb' hm
    · rw [hmem]
      rw [List.getElem?_set] at hb'
      split_ifs at hb' with hq
      · cases hb'
        exact iff_of_true rfl (.inr hq.symm)
      · rw [h.freed q b' hb']
        exact ⟨.inl, fun hor => hor.resolve_right (Ne.symm hq)⟩
    · rw [List.length_set]
      rcases (hmem q).mp hq with hq | rfl
      · exact h.inside q hq
      · exact hlt

/-- **After any calls**, `used_memory` is the initial value and what the blocks cost. -/
theorem Memory.Run.accounts (h : Memory.Run initial calls m) :
    Accounts calls m ∧ m.usedMemory = initial + (m.blocks.map Block.cost).sum := by
  unfold Memory.Run at h
  induction calls using List.reverseRecOn generalizing m with
  | nil =>
    cases h
    refine ⟨⟨rfl, ?_, ?_, ?_⟩, (add_zero initial).symm⟩
    · intro p b malloc hb
      cases hb
    · intro p b hb
      cases hb
    · intro p hp
      cases hp
  | append_singleton calls call ih =>
    rw [List.foldlM_append] at h
    cases hprev : calls.foldlM MemoryCall.exec { usedMemory := initial } with
    | error e => rw [hprev] at h; cases h
    | ok m₁ =>
      rw [hprev] at h
      have hr : call.exec m₁ = .ok m := by
        cases hcall : call.exec m₁ with
        | error e => simp [hcall, bind, Except.bind] at h
        | ok m₂ => simpa [hcall, bind, Except.bind, pure, Except.pure] using h
      obtain ⟨haccounts, hsum⟩ := ih hprev
      refine ⟨?_, ?_⟩
      · cases call with
        | chmalloc size => exact haccounts.allocate (.chmalloc size) true size (size + sizeofInt) rfl (by simp) rfl hr
        | chcalloc size => exact haccounts.allocate (.chcalloc size) false size size rfl (by simp) rfl hr
        | chfree p => exact haccounts.chfree hr
      · have hcost := MemoryCall.exec_cost hr
        omega

/-! ### The balance -/

/-- What the blocks cost is what was charged for the live ones, and what was charged too
much for the others. -/
theorem sum_cost (l : List Block) : (l.map Block.cost).sum =
    ((l.filter Block.live).map fun b => (b.charged : ℤ)).sum +
      ((l.filter fun b => !b.live).map fun b => (b.charged - b.usedSize : ℤ)).sum := by
  induction l with
  | nil => rfl
  | cons b l ih =>
    rw [List.map_cons, List.sum_cons, ih]
    cases hb : b.live with
    | true =>
      rw [List.filter_cons_of_pos hb, List.filter_cons_of_neg (by simp [hb]), List.map_cons, List.sum_cons,
        Block.cost, if_pos hb]
      omega
    | false =>
      rw [List.filter_cons_of_neg (by simp [hb]), List.filter_cons_of_pos (by simp [hb]), List.map_cons, List.sum_cons,
        Block.cost, if_neg (by simp [hb])]
      omega

/-- A block is charged four bytes more than its word says, or as much as it says. -/
theorem Accounts.charged_cases (h : Accounts calls m) (hb : m.blocks[p]? = some b) :
    (mallocated calls)[p]? = some true ∧ b.charged = b.usedSize + sizeofInt ∨
      (mallocated calls)[p]? = some false ∧ b.charged = b.usedSize := by
  have hlt : p < (mallocated calls).length := h.length ▸ (List.getElem?_eq_some_iff.mp hb).1
  cases hm : (mallocated calls)[p]? with
  | none => exact absurd (List.getElem?_eq_none_iff.mp hm) (Nat.not_le.mpr hlt)
  | some malloc =>
    cases malloc with
    | true => exact .inl ⟨rfl, h.charged p b true hb hm⟩
    | false => exact .inr ⟨rfl, h.charged p b false hb hm⟩

/-- **The account balances** exactly as long as no block of `chmalloc` has been freed:
after any calls whose sizes and totals are in the range of an `int`, `used_memory` is the
initial value and the sum of what was charged for the live blocks, if and only if none of
the freed blocks came from `chmalloc`. -/
theorem used_memory_balance_iff (h : Memory.Run initial calls m) :
    m.usedMemory = initial + m.liveCharges ↔
      ∀ p, .chfree p ∈ calls → (mallocated calls)[p]? ≠ some true := by
  obtain ⟨haccounts, hused⟩ := h.accounts
  have hexcess : m.usedMemory = initial + m.liveCharges ↔
      ((m.blocks.filter fun b => !b.live).map fun b => (b.charged - b.usedSize : ℤ)).sum = 0 := by
    rw [hused, sum_cost, Memory.liveCharges]
    omega
  have hnonneg : ∀ x ∈ (m.blocks.filter fun b => !b.live).map fun b => (b.charged - b.usedSize : ℤ), 0 ≤ x := by
    intro x hx
    obtain ⟨b, hb, rfl⟩ := List.mem_map.mp hx
    obtain ⟨p, hp⟩ := List.mem_iff_getElem?.mp (List.mem_of_mem_filter hb)
    rcases haccounts.charged_cases hp with ⟨-, hb⟩ | ⟨-, hb⟩ <;> omega
  rw [hexcess]
  constructor
  · intro hsum p hfree hmalloc
    obtain ⟨b, hb⟩ : ∃ b, m.blocks[p]? = some b := ⟨_, List.getElem?_eq_getElem (haccounts.inside p hfree)⟩
    have hdead : b ∈ m.blocks.filter fun b => !b.live := by
      rw [List.mem_filter, (haccounts.freed p b hb).mpr hfree]
      exact ⟨List.mem_of_getElem? hb, rfl⟩
    have hdiff := List.all_zero_of_le_zero_le_of_sum_eq_zero hnonneg hsum (List.mem_map_of_mem hdead)
    have hcharged := haccounts.charged p b true hb hmalloc
    simp only [if_true, sizeofInt] at hcharged
    omega
  · intro hfree
    refine List.sum_eq_zero fun x hx => ?_
    obtain ⟨b, hb, rfl⟩ := List.mem_map.mp hx
    obtain ⟨hmem, hdead⟩ := List.mem_filter.mp hb
    obtain ⟨p, hp⟩ := List.mem_iff_getElem?.mp hmem
    rcases haccounts.charged_cases hp with ⟨hmalloc, -⟩ | ⟨-, hcharged⟩
    · exact absurd hmalloc (hfree p ((haccounts.freed p b hp).mp (by simpa using hdead)))
    · omega

/-- Two blocks of `chcalloc` and one of `chmalloc`; one of the first is freed. -/
theorem used_memory_balance_chcalloc : ∃ m : Memory,
    Memory.Run 0 [.chcalloc 800, .chmalloc 24, .chcalloc 5, .chfree 0] m ∧ m.usedMemory = 33 ∧
      m.usedMemory = 0 + m.liveCharges := by
  have hrun : Memory.Run 0 [.chcalloc 800, .chmalloc 24, .chcalloc 5, .chfree 0]
      ⟨33, [⟨800, 800, false⟩, ⟨24, 28, true⟩, ⟨5, 5, true⟩]⟩ := rfl
  refine ⟨_, hrun, rfl, (used_memory_balance_iff hrun).mpr fun p hp => ?_⟩
  obtain rfl : p = 0 := by simpa using hp
  decide

/-- One block of `chmalloc`, allocated and freed: four bytes are left. -/
theorem used_memory_not_balanced : ∃ m : Memory,
    Memory.Run 0 [.chmalloc 10, .chfree 0] m ∧ m.liveCharges = 0 ∧ m.usedMemory = 4 :=
  ⟨⟨4, [⟨10, 14, false⟩]⟩, rfl, rfl, rfl⟩

end EmbeddedKv.Tiers
