import EmbeddedKv.Library.Totals
import EmbeddedKv.Tiers.EvictAll
import EmbeddedKv.Tiers.Memory

/-!
# The budget of the memory tier

`memUsedCheck`, which SET calls before it adds anything, in the mode with an LRU cache: above
90% of `maxmemory` it hands one entry to the flush worker; then, if `maxmemory` is reached,
it waits until the queue of the worker is empty.

## The model

`used_memory` goes up and down with the calls of `chmalloc` and `chfree`, as in
`Tiers.Memory`. The blocks of an entry are known by their sizes; the other blocks are those
of the clients (`blocks`), the object of a value being one of them until SET puts it into an
entry. While `memUsedCheck` runs the flush worker and the writers of the cache files take
steps, and no other client does. `exceeds` is the comparison with 90% of `maxmemory`, in
floating-point numbers. The length of the queue is a number without a bound.

## What is proved

`memUsedCheck_restores`: when the call returns and there is anything left in memory, less
than `maxmemory` is in use, in runs in which the second look at the memory finds that enough
of it will be free when the queue is empty. At that moment the last entry of the queue is
in the hands of the worker, so that its memory does not count. `memUsedCheck_early` is a run
in which the call returns with too much in use.
-/

namespace EmbeddedKv.Tiers

open EmbeddedKv.Library EmbeddedKv.Flash EmbeddedKv.Store

/-! ### Sizes -/

/-- `sizeof(struct kvObject)`. -/
def sizeofKvObject : ℕ := 24

/-- `sizeof(struct msg)`. -/
def sizeofMsg : ℕ := 4

/-- `sizeof(struct hashEntry)`. -/
def sizeofHashEntry : ℕ := 24

/-- What `createObject` asks for. -/
def objectSize (len : ℕ) : ℕ := sizeofKvObject + sizeofMsg + len + 1

/-- What `msgdup` asks for. -/
def keySize (len : ℕ) : ℕ := len + 1

/-- The words of the three blocks that are freed with an entry. -/
def HashEntry.size (he : HashEntry) : ℕ := keySize he.key.length + objectSize he.val.ptr.length + sizeofHashEntry

/-- `get_used_memory()`: an `int` as a `size_t`. -/
def getUsedMemory (usedMemory : ℤ) : ℕ := (usedMemory % 2 ^ 64).toNat

namespace KvDb

/-- The size of the entry behind a pointer. -/
def sizeAt (s : KvDb) (p : ℕ) : ℕ := (s.entry p).elim 0 HashEntry.size

/-- What all entries take. -/
def entriesSize (s : KvDb) : ℕ := ∑ p ∈ Finset.range s.entries.length, s.sizeAt p

/-- What `cacheAdd` allocates: a copy of the key and an entry, if the key has none. -/
def cacheAddCharge (s t : KvDb) : ℕ :=
  match t.entry s.entries.length with
  | none => 0
  | some he => (keySize he.key.length + sizeofInt) + (sizeofHashEntry + sizeofInt)

/-- What `getCommand` allocates: the object of a value from the flash cache as well. -/
def getCharge (s t : KvDb) : ℕ :=
  match t.entry s.entries.length with
  | none => 0
  | some he => (objectSize he.val.ptr.length + sizeofInt) + s.cacheAddCharge t

end KvDb

/-! ### The system -/

/-- Where `memUsedCheck` is. -/
inductive CheckPc where
  /-- It does not run. -/
  | idle
  /-- It is called. -/
  | called
  /-- It has read `mem_used`. -/
  | measured (memUsed : ℕ)
  /-- At the call of `LRUCacheEvict`. -/
  | evicting
  /-- Behind the eviction, at the second call of `get_used_memory`. -/
  | evicted
  /-- In the loop on `QueueSize`. -/
  | waiting
  /-- It has returned. -/
  | returned
  deriving DecidableEq, Repr

/-- The server with its account of memory. -/
structure Budget where
  /-- The server. -/
  server : Server
  /-- `used_memory`. -/
  usedMemory : ℤ
  /-- The sizes of the clients' blocks. -/
  blocks : List ℕ := []
  /-- `memUsedCheck`. -/
  check : CheckPc := .idle

/-- Nothing in memory, with `initial` bytes in use. -/
def Budget.start (flashCache : FlashCache) (initial : ℕ) : Budget := { server := .start flashCache, usedMemory := initial }

/-- What happens. -/
inductive BudgetAct where
  /-- A step of the server. -/
  | server (a : ServerAct)
  /-- `chmalloc` of a client. -/
  | malloc (size : ℕ)
  /-- `chfree` of a block of a client. -/
  | free (size : ℕ)
  /-- `memUsedCheck` is called. -/
  | call
  /-- The first call of `get_used_memory`. -/
  | measure
  /-- `LRUCacheSize`, and the comparison. -/
  | count
  /-- An entry is evicted. -/
  | evict
  /-- The second call of `get_used_memory`. -/
  | remeasure
  /-- `QueueSize` is looked at. -/
  | look
  /-- The caller goes on. -/
  | leave

namespace ServerAct

/-- What a step of the server adds to `used_memory`. -/
def charge (s t : Server) : ServerAct → ℤ
  | .set _ _ => s.db.cacheAddCharge t.db
  | .get _ _ => s.db.getCharge t.db
  | .bworker .unlock =>
    match s.bworker with
    | .erased p => -(s.db.sizeAt p : ℤ)
    | _ => 0
  | _ => 0

/-- The clients' blocks after a step: SET puts the object of its value into an entry. -/
def blocks (l : List ℕ) : ServerAct → List ℕ
  | .set _ val => l.erase (objectSize val.length)
  | _ => l

/-- The client has the object of the value that it sets; the worker frees what was not freed
before. -/
def Defined (s : Budget) : ServerAct → Prop
  | .set _ val => objectSize val.length ∈ s.blocks
  | .bworker .unlock => ∀ p, s.server.bworker = .erased p → ∃ he, s.server.db.entry p = some he
  | _ => True

/-- A step of the flush worker or of a writer. -/
def Background : ServerAct → Prop
  | .bworker _ | .writer _ => True
  | _ => False

end ServerAct

/-- **One step**; no sum leaves the range of an `int`. -/
inductive BudgetStep (crc : Bytes → UInt32) (mode : FlashcacheMode) (d : DeadNode) (maxmemory : ℕ) (exceeds : ℕ → Bool) :
    Budget → BudgetAct → Budget → Prop where
  /-- The server takes a step; while `memUsedCheck` runs, in the background only. -/
  | server {s : Budget} {t : Server} {a : ServerAct} (hwho : s.check = .idle ∨ a.Background ∧ s.check ≠ .returned)
      (hdef : a.Defined s) (h : ServerStep crc mode d s.server a t)
      (hint : InInt (s.usedMemory + a.charge s.server t)) :
      BudgetStep crc mode d maxmemory exceeds s (.server a)
        { s with server := t, usedMemory := s.usedMemory + a.charge s.server t, blocks := a.blocks s.blocks }
  /-- A client allocates a block. -/
  | malloc {s : Budget} {size : ℕ} (hpc : s.check = .idle) (hint : InInt (s.usedMemory + (size + sizeofInt : ℕ))) :
      BudgetStep crc mode d maxmemory exceeds s (.malloc size)
        { s with usedMemory := s.usedMemory + (size + sizeofInt : ℕ), blocks := size :: s.blocks }
  /-- A client frees one of its blocks. -/
  | free {s : Budget} {size : ℕ} (hpc : s.check = .idle) (hown : size ∈ s.blocks)
      (hint : InInt (s.usedMemory - size)) :
      BudgetStep crc mode d maxmemory exceeds s (.free size)
        { s with usedMemory := s.usedMemory - size, blocks := s.blocks.erase size }
  /-- `memUsedCheck` is called. -/
  | call {s : Budget} (hpc : s.check = .idle) :
      BudgetStep crc mode d maxmemory exceeds s .call { s with check := .called }
  /-- `mem_used` is read. -/
  | measure {s : Budget} (hpc : s.check = .called) :
      BudgetStep crc mode d maxmemory exceeds s .measure { s with check := .measured (getUsedMemory s.usedMemory) }
  /-- `pool_size` is read, and `mem_used` compared. -/
  | count {s : Budget} {memUsed : ℕ} (hpc : s.check = .measured memUsed) :
      BudgetStep crc mode d maxmemory exceeds s .count
        { s with check := if exceeds memUsed = true ∧ 0 < s.server.db.poolSize then .evicting else .evicted }
  /-- An entry is handed to the worker, unless it was before. -/
  | evict {s : Budget} {db : KvDb} (hpc : s.check = .evicting) (hr : s.server.db.evictOne = .ok db) :
      BudgetStep crc mode d maxmemory exceeds s .evict { s with server := { s.server with db }, check := .evicted }
  /-- `mem_used` is read again: below `maxmemory` the call returns. -/
  | remeasure {s : Budget} (hpc : s.check = .evicted) :
      BudgetStep crc mode d maxmemory exceeds s .remeasure
        { s with check := if getUsedMemory s.usedMemory < maxmemory then .returned else .waiting }
  /-- The call returns when the queue is empty. -/
  | look {s : Budget} (hpc : s.check = .waiting) :
      BudgetStep crc mode d maxmemory exceeds s .look
        { s with check := if s.server.db.memQueue = [] then .returned else .waiting }
  /-- The caller goes on. -/
  | leave {s : Budget} (hpc : s.check = .returned) :
      BudgetStep crc mode d maxmemory exceeds s .leave { s with check := .idle }

variable {crc : Bytes → UInt32} {mode : FlashcacheMode} {d : DeadNode} {maxmemory : ℕ} {exceeds : ℕ → Bool}
  {s t : Budget} {db db' : KvDb} {a : BudgetAct} {p : ℕ} {he : HashEntry}

/-! ### The account covers the entries -/

theorem KvDb.sizeAt_of_entry (h : db.entry p = some he) : db.sizeAt p = he.size := by
  rw [sizeAt, h]
  rfl

/-- One entry is changed or freed. -/
theorem KvDb.entriesSize_set (hp : db.entry p = some he) {o : Option HashEntry} (h : db'.entries = db.entries.set p o) :
    db'.entriesSize + he.size = db.entriesSize + o.elim 0 HashEntry.size := by
  have hlt := KvDb.lt_of_entry hp
  have hsize : ∀ q, db'.sizeAt q = if q = p then o.elim 0 HashEntry.size else db.sizeAt q := by
    intro q
    rw [sizeAt, entry, h, join_set hlt]
    split_ifs <;> rfl
  have htotal := total_update db.sizeAt db'.sizeAt hlt fun q hq => by rw [hsize, if_neg hq]
  rw [hsize p, if_pos rfl, KvDb.sizeAt_of_entry hp] at htotal
  rw [entriesSize, entriesSize, h, List.length_set]
  exact htotal

/-- One entry is added. -/
theorem KvDb.entriesSize_append (h : db'.entries = db.entries ++ [some he]) :
    db'.entry db.entries.length = some he ∧ db'.entriesSize = db.entriesSize + he.size := by
  have hnew : db'.entry db.entries.length = some he := by
    rw [entry, h, List.getElem?_append_right (Nat.le_refl _), Nat.sub_self]
    rfl
  refine ⟨hnew, ?_⟩
  have hold : ∀ q, q < db.entries.length → db'.sizeAt q = db.sizeAt q := by
    intro q hq
    rw [sizeAt, sizeAt, entry, entry, h, List.getElem?_append_left hq]
  rw [entriesSize, h, List.length_append, List.length_singleton, total_succ db.sizeAt db'.sizeAt hold,
    KvDb.sizeAt_of_entry hnew]
  rfl

/-- The entries stay. -/
theorem KvDb.entriesSize_congr (h : db'.entries = db.entries) : db'.entriesSize = db.entriesSize := by
  have hsize : db'.sizeAt = db.sizeAt := by
    funext q
    rw [sizeAt, sizeAt, entry, entry, h]
  rw [entriesSize, entriesSize, h, hsize]

theorem KvDb.entriesSize_setFlash (db : KvDb) (flashCache : FlashCache) :
    ({ db with flashCache } : KvDb).entriesSize = db.entriesSize := entriesSize_congr rfl

/-- An eviction changes no size. -/
theorem KvDb.entriesSize_evictOne (hr : db.evictOne = .ok db') : db'.entriesSize = db.entriesSize := by
  obtain ⟨p, he, -, hp, -, ⟨-, -, hentries⟩ | ⟨-, -, hentries⟩⟩ := evictOne_effect hr
  · have hset := KvDb.entriesSize_set hp hentries
    have hsame : (some { he with val := { he.val with loc := .flushing } }).elim 0 HashEntry.size = he.size := rfl
    omega
  · exact KvDb.entriesSize_congr hentries

/-- The sizes of a list without one of its members. -/
theorem sum_erase {l : List ℕ} {n : ℕ} (h : n ∈ l) : (l.erase n).sum + n = l.sum := by
  rw [(List.perm_cons_erase h).sum_eq, List.sum_cons]
  omega

/-- `cacheAdd` takes no more than it allocates, besides the object of the value. -/
theorem KvDb.entriesSize_cacheAdd {key val : Bytes} (hr : db.cacheAdd key (createObject val) = .ok db') :
    db'.entriesSize ≤ db.entriesSize + objectSize val.length + db.cacheAddCharge db' := by
  unfold cacheAdd at hr
  split at hr
  · cases hr
  · have hentries : db'.entries = db.entries ++ [some ⟨key, createObject val⟩] := by rw [← Except.ok.inj hr]
    obtain ⟨hnew, hsize⟩ := KvDb.entriesSize_append hentries
    rw [hsize, cacheAddCharge, hnew]
    simp only [HashEntry.size, createObject]
    omega
  · next p lru hget =>
    split at hr
    · cases hr
    · next he hp =>
      have hentries : db'.entries = db.entries.set p (some { he with val := createObject val }) := by
        rw [← Except.ok.inj hr]
      have hset := KvDb.entriesSize_set hp hentries
      simp only [Option.elim, HashEntry.size, createObject] at hset
      omega

/-- `getCommand` takes no more than it allocates. -/
theorem KvDb.entriesSize_getCommand {key : Bytes} {env : Environment} {r : Option Bytes}
    (hr : db.getCommand crc mode env key = .ok (r, db')) : db'.entriesSize ≤ db.entriesSize + db.getCharge db' := by
  obtain ⟨heffect, -⟩ := getCommand_effect hr
  cases heffect with
  | used hfind hget hentries => rw [KvDb.entriesSize_congr hentries]; exact Nat.le_add_right _ _
  | replaced hw => cases hw
  | missed hfind hlru hentries => rw [KvDb.entriesSize_congr hentries]; exact Nat.le_add_right _ _
  | added hfind hlru hentries =>
    obtain ⟨hnew, hsize⟩ := KvDb.entriesSize_append hentries
    rw [hsize, getCharge, cacheAddCharge, hnew]
    simp only [HashEntry.size, createObject]
    omega

theorem KvDb.entriesSize_touch (d : DeadNode) (db : KvDb) (key : Bytes) :
    (db.touch d key).entriesSize = db.entriesSize := KvDb.entriesSize_congr (entries_touch d db key)

theorem KvDb.cacheAddCharge_touch (d : DeadNode) (db db' : KvDb) (key : Bytes) :
    (db.touch d key).cacheAddCharge db' = db.cacheAddCharge db' := by
  rw [cacheAddCharge, cacheAddCharge, entries_touch]

theorem KvDb.getCharge_touch (d : DeadNode) (db db' : KvDb) (key : Bytes) :
    (db.touch d key).getCharge db' = db.getCharge db' := by
  rw [getCharge, getCharge, entries_touch, cacheAddCharge_touch]

/-- **What the worker frees** is what it takes from the account. -/
theorem BworkerStep.entriesSize {u v : Server} {a : BworkerAct} (h : BworkerStep crc mode u a v)
    (hdef : a = .unlock → ∀ p, u.bworker = .erased p → ∃ he, u.db.entry p = some he) :
    (v.db.entriesSize : ℤ) = u.db.entriesSize + (ServerAct.bworker a).charge u v := by
  cases h with
  | dequeue => exact (add_zero _).symm
  | read => exact (add_zero _).symm
  | lock => exact (add_zero _).symm
  | insert => exact (add_zero _).symm
  | erase => exact (add_zero _).symm
  | @unlock p hpc =>
    obtain ⟨he, hp⟩ := hdef rfl p hpc
    have hentries : ({ u.db with entries := u.db.entries.set p none } : KvDb).entries = u.db.entries.set p none := rfl
    have hset := KvDb.entriesSize_set hp hentries
    simp only [Option.elim] at hset
    simp only [ServerAct.charge, hpc, KvDb.sizeAt_of_entry hp]
    omega

/-- **The account covers the entries** and the blocks of the clients. -/
def Budget.Covers (s : Budget) : Prop := (s.server.db.entriesSize + s.blocks.sum : ℕ) ≤ s.usedMemory

/-- Every step of the server is charged for what it takes. -/
theorem Budget.Covers.server {v : Server} {a : ServerAct} (h : s.Covers) (hdef : a.Defined s)
    (hstep : ServerStep crc mode d s.server a v) :
    (v.db.entriesSize + (a.blocks s.blocks).sum : ℕ) ≤ s.usedMemory + a.charge s.server v := by
  unfold Budget.Covers at h
  cases hstep with
  | @set db key val hfree hr =>
    have hsum : (s.blocks.erase (objectSize val.length)).sum + objectSize val.length = s.blocks.sum := sum_erase hdef
    have hsize := KvDb.entriesSize_cacheAdd hr
    rw [KvDb.entriesSize_touch, KvDb.cacheAddCharge_touch] at hsize
    simp only [ServerAct.charge, ServerAct.blocks]
    omega
  | get hfree hr =>
    have hsize := KvDb.entriesSize_getCommand hr
    rw [KvDb.entriesSize_touch, KvDb.getCharge_touch] at hsize
    simp only [ServerAct.charge, ServerAct.blocks]
    omega
  | block =>
    simp only [ServerAct.charge, ServerAct.blocks]
    omega
  | evict hr =>
    have hsame := KvDb.entriesSize_evictOne hr
    simp only [ServerAct.charge, ServerAct.blocks]
    omega
  | @bworker v a hb =>
    have hsize := hb.entriesSize fun ha => by
      subst ha
      exact hdef
    simp only [ServerAct.blocks]
    omega
  | @writer p f g hf hw =>
    have hsame := KvDb.entriesSize_setFlash s.server.db (s.server.db.flashCache.store p g)
    simp only [ServerAct.charge, ServerAct.blocks]
    omega

/-- **One step** keeps the entries covered. -/
theorem Budget.Covers.step (h : s.Covers) (hstep : BudgetStep crc mode d maxmemory exceeds s a t) : t.Covers := by
  cases hstep with
  | server hwho hdef hs hint => exact h.server hdef hs
  | malloc hpc hint =>
    unfold Budget.Covers at h ⊢
    simp only [List.sum_cons]
    omega
  | free hpc hown hint =>
    have hsum := sum_erase hown
    unfold Budget.Covers at h ⊢
    simp only
    omega
  | call | measure | count | remeasure | look | leave => exact h
  | evict hpc hr =>
    unfold Budget.Covers at h ⊢
    rw [KvDb.entriesSize_evictOne hr]
    exact h

/-! ### What the wait will bring -/

/-- The entry in the hands of the worker, also after it is erased. -/
def BworkerPc.holding : BworkerPc → Option ℕ
  | .waiting => none
  | .dequeued he | .read he _ | .locked he _ | .inserted he _ | .erased he => some he

/-- **What is freed at least until the queue is empty**: the entry in the hands of the worker
and all entries of the queue but the last one, if there is a queue at all. -/
def Server.remaining (s : Server) (size : ℕ → ℕ) : ℕ :=
  if s.db.memQueue = [] then 0 else s.bworker.holding.elim 0 size + (s.db.memQueue.dropLast.map size).sum

/-- There are entries that could be evicted, or that are being flushed. -/
def Server.Occupied (s : Server) : Prop := s.db.memLRU.list ≠ [] ∨ s.db.memQueue ≠ [] ∨ s.bworker ≠ .waiting

/-- **The second look at the memory finds it below `maxmemory`**, or finds that it will be
when the queue is empty, or there is nothing in memory. -/
def Relieves (maxmemory : ℕ) (s : Budget) : BudgetAct → Prop
  | .remeasure => getUsedMemory s.usedMemory < maxmemory ∨
      s.usedMemory - s.server.remaining s.server.db.sizeAt < maxmemory ∨ ¬ s.server.Occupied
  | _ => True

/-- What is still to be freed brings the memory below `maxmemory`; `size` are the sizes at the
start of the wait. -/
def Budget.Promised (maxmemory : ℕ) (s : Budget) : Prop :=
  ∃ size : ℕ → ℕ, (∀ p he, s.server.db.entry p = some he → he.size = size p) ∧
    s.usedMemory - s.server.remaining size < maxmemory

/-- The worker frees what it was to free. -/
theorem BworkerStep.remaining {u v : Server} {a : BworkerAct} (h : BworkerStep crc mode u a v) {size : ℕ → ℕ}
    (hdef : a = .unlock → ∀ p, u.bworker = .erased p → ∃ he, u.db.entry p = some he)
    (hsize : ∀ p he, u.db.entry p = some he → he.size = size p) :
    (ServerAct.bworker a).charge u v - v.remaining size ≤ -(u.remaining size : ℤ) := by
  cases h with
  | @dequeue p queue hpc hq =>
    simp only [ServerAct.charge, Server.remaining, hpc, hq, BworkerPc.holding]
    cases queue with
    | nil => simp
    | cons q queue => simp
  | read hpc => simp [ServerAct.charge, Server.remaining, hpc, BworkerPc.holding]
  | lock hpc => simp [ServerAct.charge, Server.remaining, hpc, BworkerPc.holding]
  | insert hpc => simp [ServerAct.charge, Server.remaining, hpc, BworkerPc.holding]
  | erase hpc => simp [ServerAct.charge, Server.remaining, hpc, BworkerPc.holding]
  | @unlock p hpc =>
    obtain ⟨he, hp⟩ := hdef rfl p hpc
    simp only [ServerAct.charge, Server.remaining, hpc, BworkerPc.holding, KvDb.sizeAt_of_entry hp, hsize p he hp,
      Option.elim]
    split_ifs <;> omega

/-- The entries that are there after a step of the worker were there before. -/
theorem BworkerStep.entry_mono {u v : Server} {a : BworkerAct} (h : BworkerStep crc mode u a v)
    (hp : v.db.entry p = some he) : u.db.entry p = some he := by
  cases h with
  | dequeue | read | lock | insert | erase => exact hp
  | @unlock q hpc =>
    by_cases hq : q < u.db.entries.length
    · have hset : (u.db.entries.set q none)[p]?.join = some he := hp
      rw [KvDb.join_set hq] at hset
      split_ifs at hset
      exact hset
    · have hsame : u.db.entries.set q none = u.db.entries := List.set_eq_of_length_le (Nat.not_lt.mp hq)
      have hset : (u.db.entries.set q none)[p]?.join = some he := hp
      rwa [hsame] at hset

/-- **The invariant.** -/
structure Budget.Kept (maxmemory : ℕ) (s : Budget) : Prop where
  /-- The account covers the entries. -/
  covers : s.Covers
  /-- While the call waits, either enough will be freed, or there is nothing in memory. -/
  waiting : s.check = .waiting → s.Promised maxmemory ∨ ¬ s.server.Occupied
  /-- Enough is free when it returns. -/
  returned : s.check = .returned → s.server.Occupied → getUsedMemory s.usedMemory < maxmemory

theorem getUsedMemory_lt {usedMemory : ℤ} (h : 0 ≤ usedMemory) (hlt : usedMemory < maxmemory) :
    getUsedMemory usedMemory < maxmemory := by
  unfold getUsedMemory
  omega

/-- A background step while the call waits. -/
theorem Budget.Promised.server {v : Server} {b : ServerAct} {blocks : List ℕ} (h : s.Promised maxmemory)
    (hback : b.Background) (hdef : b.Defined s) (hstep : ServerStep crc mode d s.server b v) :
    Budget.Promised maxmemory { s with server := v, usedMemory := s.usedMemory + b.charge s.server v, blocks } := by
  obtain ⟨size, hsize, hlt⟩ := h
  cases hstep with
  | set | get | block | evict => exact hback.elim
  | bworker hb =>
    have hremaining := hb.remaining (fun ha => by subst ha; exact hdef) hsize
    exact ⟨size, fun p he hp => hsize p he (hb.entry_mono hp), by simp only; omega⟩
  | writer hf hw =>
    refine ⟨size, hsize, ?_⟩
    simp only [ServerAct.charge, add_zero]
    exact hlt

/-- With nothing in memory the worker has nothing to do. -/
theorem Server.not_occupied_step {u v : Server} {b : ServerAct} (h : ¬ u.Occupied) (hback : b.Background)
    (hstep : ServerStep crc mode d u b v) : ¬ v.Occupied := by
  cases hstep with
  | set | get | block | evict => exact hback.elim
  | bworker hb =>
    exfalso
    apply h
    cases hb with
    | dequeue hpc hq => exact .inr (.inl (by rw [hq]; exact List.cons_ne_nil _ _))
    | read hpc => exact .inr (.inr (by rw [hpc]; simp))
    | lock hpc => exact .inr (.inr (by rw [hpc]; simp))
    | insert hpc => exact .inr (.inr (by rw [hpc]; simp))
    | erase hpc => exact .inr (.inr (by rw [hpc]; simp))
    | unlock hpc => exact .inr (.inr (by rw [hpc]; simp))
  | writer hf hw => exact h

/-- **One step** that meets the condition keeps the invariant. -/
theorem Budget.Kept.step (h : s.Kept maxmemory) (hc : Relieves maxmemory s a)
    (hstep : BudgetStep crc mode d maxmemory exceeds s a t) : t.Kept maxmemory := by
  have hcovers := h.covers.step hstep
  cases hstep with
  | @server v b hwho hdef hs hint =>
    refine ⟨hcovers, fun hpc => ?_, fun hpc => ?_⟩
    · obtain hidle | ⟨hback, -⟩ := hwho
      · exact absurd (hidle.symm.trans hpc) (by simp)
      · exact (h.waiting hpc).imp (fun hp => hp.server hback hdef hs) fun hno => Server.not_occupied_step hno hback hs
    · obtain hidle | ⟨-, hreturned⟩ := hwho
      · exact absurd (hidle.symm.trans hpc) (by simp)
      · exact absurd hpc hreturned
  | malloc hpc' | free hpc' =>
    exact ⟨hcovers, fun hpc => absurd (hpc'.symm.trans hpc) (by simp), fun hpc => absurd (hpc'.symm.trans hpc) (by simp)⟩
  | call | measure | evict | leave => exact ⟨hcovers, fun hpc => (by cases hpc), fun hpc => (by cases hpc)⟩
  | count =>
    refine ⟨hcovers, fun hpc => ?_, fun hpc => ?_⟩
    · simp only at hpc
      split_ifs at hpc
    · simp only at hpc
      split_ifs at hpc
  | remeasure =>
    refine ⟨hcovers, fun hpc => ?_, fun hpc _ => ?_⟩
    · simp only at hpc
      split_ifs at hpc with hlt
      obtain hlt' | hpromise | hno := hc
      · exact absurd hlt' hlt
      · exact .inl ⟨s.server.db.sizeAt, fun p he hp => (KvDb.sizeAt_of_entry hp).symm, hpromise⟩
      · exact .inr hno
    · simp only at hpc
      split_ifs at hpc with hlt
      exact hlt
  | look hpc' =>
    refine ⟨hcovers, fun hpc => h.waiting hpc', fun hpc hocc => ?_⟩
    simp only at hpc
    split_ifs at hpc with hempty
    obtain ⟨size, -, hlt⟩ | hno := h.waiting hpc'
    · rw [Server.remaining, if_pos hempty] at hlt
      have hnonneg : 0 ≤ s.usedMemory := le_trans (Int.natCast_nonneg _) h.covers
      exact getUsedMemory_lt hnonneg (by simpa using hlt)
    · exact absurd hocc hno

/-- **`memUsedCheck` restores the budget**: when it has returned and there is anything left in
memory, or being flushed, less than `maxmemory` is in use, in every state reached by steps
of which each second look at the memory finds enough of it about to be freed. -/
theorem memUsedCheck_restores {flashCache : FlashCache} {initial : ℕ}
    (h : Reach (BudgetStep crc mode d maxmemory exceeds) (Relieves maxmemory) (.start flashCache initial) s)
    (hpc : s.check = .returned) (hocc : s.server.Occupied) : getUsedMemory s.usedMemory < maxmemory := by
  have hkept : s.Kept maxmemory := by
    refine h.invariant (P := fun s => s.Kept maxmemory) ⟨?_, fun hpc => (by cases hpc), fun hpc => (by cases hpc)⟩
      fun _ _ _ hs hc hstep => hs.step hc hstep
    simp [Budget.Covers, Budget.start, Server.start, KvDb.entriesSize]
  exact hkept.returned hpc hocc

/-- The comparison with 90% of a `maxmemory` of 20 KiB. -/
def exceeds20 (memUsed : ℕ) : Bool := decide (20480 * 90 < 100 * memUsed)

/-- SET of one key in a server with `initial` bytes in use. -/
def afterSet (initial : ℤ) : Budget where
  server := { db := { memLRU := ({} : LruCache Bytes ℕ).insert [97] 0, entries := [some ⟨[97], createObject [1]⟩]
                      flashCache := .openEmpty ⟨20, 0, 1000⟩ 0 } }
  usedMemory := initial + 34 + 34

theorem reach_afterSet (C : Budget → BudgetAct → Prop) (initial : ℕ) (hC : ∀ s n, C s (.malloc n))
    (hC' : ∀ s a, C s (.server a)) (hint : InInt (initial + 34)) (hint' : InInt (initial + 34 + 34)) :
    Reach (BudgetStep (fun _ => 0) .direct .undefined 20480 exceeds20) C (.start (.openEmpty ⟨20, 0, 1000⟩ 0) initial)
      (afterSet initial) :=
  ((Reach.refl _).step (a := .malloc 30) (hC _ _) (.malloc rfl hint)).step (a := .server (.set [97] [1])) (hC' _ _)
    (.server (.inl rfl) List.mem_cons_self (.set rfl rfl rfl) hint')

/-- Two keys are set, and the first one is evicted. The call evicts the second one and waits; it
returns when the worker has freed the entry of the first one and taken the second one. -/
theorem memUsedCheck_restores_waiting : ∃ s t : Budget,
    Reach (BudgetStep (fun _ => 0) .direct .undefined 20480 exceeds20) (Relieves 20480)
      (.start (.openEmpty ⟨20, 0, 1000⟩ 0) 20354) s ∧
    s.check = .waiting ∧ getUsedMemory s.usedMemory = 20490 ∧
    t.check = .returned ∧ t.server.Occupied ∧ getUsedMemory t.usedMemory < 20480 := by
  have h2 := reach_afterSet (Relieves 20480) 20354 (fun _ _ => trivial) (fun _ _ => trivial) (by decide)
    (by decide)
  have h3 := h2.step (a := .malloc 30) trivial (.malloc rfl (by decide))
  have h4 := h3.step (a := .server (.set [98] [2])) trivial
    (.server (.inl rfl) List.mem_cons_self (.set rfl rfl rfl) (by decide))
  have h5 := h4.step (a := .server .evict) trivial (.server (.inl rfl) trivial (.evict rfl) (by decide))
  have h6 := h5.step (a := .call) trivial (.call rfl)
  have h7 := h6.step (a := .measure) trivial (.measure rfl)
  have h8 := h7.step (a := .count) trivial (.count rfl)
  have h9 := h8.step (a := .evict) trivial (.evict rfl rfl)
  have h10 := h9.step (a := .remeasure) (.inr (.inl (by decide))) (.remeasure rfl)
  have background : ∀ {s : Budget} {b : BworkerAct} {t : Server}, Reach (BudgetStep (fun _ => 0) .direct .undefined 20480
      exceeds20) (Relieves 20480) (.start (.openEmpty ⟨20, 0, 1000⟩ 0) 20354) s → s.check = .waiting →
      BworkerStep (fun _ => 0) .direct s.server b t → ServerAct.Defined s (.bworker b) →
      InInt (s.usedMemory + ServerAct.charge s.server t (.bworker b)) →
      Reach (BudgetStep (fun _ => 0) .direct .undefined 20480 exceeds20) (Relieves 20480)
        (.start (.openEmpty ⟨20, 0, 1000⟩ 0) 20354)
        { s with server := t, usedMemory := s.usedMemory + ServerAct.charge s.server t (.bworker b) } :=
    fun h hpc hs hdef hint => h.step (a := .server (.bworker _)) trivial
      (.server (.inr ⟨trivial, by rw [hpc]; simp⟩) hdef (.bworker hs) hint)
  have h11 := background h10 rfl (.dequeue rfl rfl) trivial (by decide)
  have h12 := background h11 rfl (.read rfl rfl) trivial (by decide)
  have h13 := background h12 rfl (.lock rfl rfl) trivial (by decide)
  have h14 := background h13 rfl (.insert rfl rfl
    (show FlashCache.insert (fun _ => 0) .direct [.moved 99] _ [97] [1] = .ok (0, _) from rfl)) trivial (by decide)
  have h15 := background h14 rfl (.erase rfl rfl) trivial (by decide)
  have h16 := background h15 rfl (.unlock rfl) (by rintro p ⟨⟩; exact ⟨_, rfl⟩) (by decide)
  have h17 := background h16 rfl (.dequeue rfl rfl) trivial (by decide)
  have h18 := h17.step (a := .look) trivial (.look rfl)
  have hused := memUsedCheck_restores h18 rfl (.inr (.inr (by simp)))
  exact ⟨_, _, h10, rfl, rfl, rfl, .inr (.inr (by simp)), hused⟩

/-- The second SET of a server that is nearly full: the worker takes the entry of the first
one out of the queue, and `memUsedCheck` returns before anything is freed. -/
theorem memUsedCheck_early : ∃ s : Budget,
    Reach (BudgetStep (fun _ => 0) .direct .undefined 20480 exceeds20) Always
      (.start (.openEmpty ⟨20, 0, 1000⟩ 0) 20396) s ∧
    s.check = .returned ∧ s.server.bworker = .dequeued 0 ∧ s.server.Occupied ∧ getUsedMemory s.usedMemory = 20498 := by
  have h2 := reach_afterSet Always 20396 (fun _ _ => trivial) (fun _ _ => trivial) (by decide)
    (by decide)
  have h3 := h2.step (a := .malloc 30) trivial (.malloc rfl (by decide))
  have h4 := h3.step (a := .call) trivial (.call rfl)
  have h5 := h4.step (a := .measure) trivial (.measure rfl)
  have h6 := h5.step (a := .count) trivial (.count rfl)
  have h7 := h6.step (a := .evict) trivial (.evict rfl rfl)
  have h8 := h7.step (a := .remeasure) trivial (.remeasure rfl)
  have h9 := h8.step (a := .server (.bworker .dequeue)) trivial
    (.server (.inr ⟨trivial, by decide⟩) trivial (.bworker (.dequeue rfl rfl)) (by decide))
  have h10 := h9.step (a := .look) trivial (.look rfl)
  exact ⟨_, h10, rfl, rfl, .inr (.inr (by simp)), rfl⟩

end EmbeddedKv.Tiers
