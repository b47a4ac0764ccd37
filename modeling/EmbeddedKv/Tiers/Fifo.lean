import EmbeddedKv.Hash.Table
import EmbeddedKv.Library.Runs
import EmbeddedKv.Tiers.KvDb
import EmbeddedKv.Tiers.Memory

/-!
# The memory tier with a hash table and a list

The commands SET and GET, the eviction and the flush in the mode with a FIFO list in
memory (`MODE_MEM_FIFO`): entries are in the hash table `memCache`, and `memList` says in
which order they are evicted.

## The model

Entries have the number of their allocation as address, so that a later one has a greater
address; the list and the queue hold pointers, `none` being `NULL`. `handed` are the
entries that were ever put into `memQueue`; the program does not keep it. A message is
followed by a zero byte and then by memory that may not be read. `hashDelete` is called
with a key instead of a message, so that it takes the string four bytes behind the start
of the key; `beyond` is what memory holds behind the block of the key.

The hash table is the one of `initServer`, with 100 buckets and the mask 100. Whether too
much memory is in use is up to the caller of `memUsedCheck` (`exceeded`). The waiting loops at
the end of `memUsedCheck` and `evictAllCommand` change nothing.

## What is proved

A new entry is never put into the list: `cacheAdd` pushes the `NULL` that `entryFind` has
returned. `fifo_mirror_iff`: the list mirrors the hash table exactly as long as no entry
was added.
-/

namespace EmbeddedKv.Tiers

open EmbeddedKv.Library EmbeddedKv.Flash EmbeddedKv.Store EmbeddedKv.Hash

/-! ### The store -/

/-- `struct kvDb` in the mode with a list. -/
structure FifoDb where
  /-- `memCache`, as `initServer` makes it. -/
  memCache : Kvht KvObject := Kvht.create KvObject 100 100
  /-- `memList`, front first. -/
  memList : List (Option ℕ) := []
  /-- `memQueue`, front first. -/
  memQueue : List ℕ := []
  /-- `flashCache`. -/
  flashCache : FlashCache
  /-- The number of entries allocated so far. -/
  allocated : ℕ := 0
  /-- The entries that were put into `memQueue`. -/
  handed : List ℕ := []

/-- `he->val = val` for the entry at an address. -/
def setVal (t : Kvht KvObject) (addr : ℕ) (val : KvObject) : Kvht KvObject :=
  { t with table := t.table.map fun chain => chain.map fun he => if he.addr = addr then { he with val } else he }

/-- What `ListSize(mq)` returns, an `int`. -/
def listSize (l : List (Option ℕ)) : ℤ := Int.bmod l.length (2 ^ 32)

namespace FifoDb

/-- The entry behind a pointer. -/
def entry (s : FifoDb) (p : ℕ) : Option (Hash.HashEntry KvObject) := s.memCache.entries.find? fun he => decide (he.addr = p)

/-- `cacheAdd(db, key, val)`. -/
def cacheAdd (signed : Bool) (s : FifoDb) (key : Bytes) (val : KvObject) : Except Stop FifoDb :=
  match s.memCache.entryFind signed (key ++ [0]) with
  | .error e => .error e
  | .ok none =>
    match s.memCache.hashAdd signed s.allocated (key ++ [0]) val with
    | .error e => .error e
    -- `he` is still what `entryFind` has returned
    | .ok (_, memCache) => .ok { s with memCache, memList := none :: s.memList, allocated := s.allocated + 1 }
  | .ok (some he) => .ok { s with memCache := setVal s.memCache he.addr val }

/-- `setCommand(c, key, val)`. -/
def setCommand (signed : Bool) (s : FifoDb) (key val : Bytes) : Except Stop FifoDb :=
  s.cacheAdd signed key (createObject val)

/-- `getCommand(c, key)`: the value of the reply, `none` for `+Empty!`, and the store. -/
def getCommand (signed : Bool) (crc : Bytes → UInt32) (mode : FlashcacheMode) (env : Environment) (s : FifoDb)
    (key : Bytes) : Except Stop (Option Bytes × FifoDb) :=
  match s.memCache.entryFind signed (key ++ [0]) with
  | .error e => .error e
  | .ok (some he) => .ok (some he.val.ptr, s)
  | .ok none =>
    match s.flashCache.lookup crc mode env (cString key) with
    | .error e => .error e
    | .ok (none, flashCache) => .ok (none, { s with flashCache })
    | .ok (some val, flashCache) =>
      -- `val_size` is an `int`
      if 2 ^ 31 ≤ val.length then .error .undefined
      else
        match ({ s with flashCache } : FifoDb).cacheAdd signed key (createObject val) with
        | .error e => .error e
        | .ok s => .ok (some val, { s with flashCache := s.flashCache.deleteMetaData (cString key) })

/-- `ListPopBack`, and what `memUsedCheck` and `evictAllCommand` do with the entry. -/
def evictOne (s : FifoDb) : Except Stop FifoDb :=
  match s.memList.getLast? with
  -- the list is empty
  | none => .error .undefined
  -- `he` is `NULL`
  | some none => .error .undefined
  | some (some p) =>
    match s.entry p with
    | none => .error .undefined
    | some he =>
      if he.val.loc = .mem then
        .ok { s with memList := s.memList.dropLast
                     memCache := setVal s.memCache p { he.val with loc := .flushing }
                     memQueue := s.memQueue ++ [p]
                     handed := p :: s.handed }
      else .ok { s with memList := s.memList.dropLast }

/-- `memUsedCheck(c)`. -/
def memUsedCheck (exceeded : Bool) (s : FifoDb) : Except Stop FifoDb :=
  if exceeded ∧ 0 < listSize s.memList then s.evictOne else .ok s

/-- The first loop of `evictAllCommand`. -/
def evictLoop : ℕ → FifoDb → Except Stop FifoDb
  | 0, s => .ok s
  | n + 1, s =>
    match s.evictOne with
    | .error e => .error e
    | .ok s => evictLoop n s

/-- `evictAllCommand()`. -/
def evictAllCommand (s : FifoDb) : Except Stop FifoDb := evictLoop (listSize s.memList).toNat s

/-- One job of `bworkerProcessBackgroundJobs`. -/
def flush (signed : Bool) (crc : Bytes → UInt32) (mode : FlashcacheMode) (writes : List IoResult) (beyond : Bytes)
    (s : FifoDb) : Except Stop FifoDb :=
  match s.memQueue with
  | [] => .error .undefined
  | p :: queue =>
    match s.entry p with
    | none => .error .undefined
    | some he =>
      match s.flashCache.insert crc mode writes he.key.bytes (cString he.val.ptr) with
      | .error e => .error e
      | .ok (_, flashCache) =>
        -- the key is taken for a `struct msg`, whose string is behind its length
        match s.memCache.hashDelete signed ((he.key.memory beyond).drop sizeofInt) with
        | .error e => .error e
        | .ok (_, memCache) => .ok { s with memCache, memQueue := queue, flashCache }

end FifoDb

/-! ### The system -/

/-- What happens to the store. -/
inductive FifoAct where
  /-- SET. -/
  | set (key val : Bytes)
  /-- GET; `env` is what the disk does. -/
  | get (key : Bytes) (env : Environment)
  /-- `memUsedCheck`; too much memory is in use, or not. -/
  | memUsedCheck (exceeded : Bool)
  /-- `evictAllCommand`. -/
  | evictAll
  /-- An entry of the queue is flushed; `writes` are the results of `write`, and `beyond` is
  the memory behind the block of its key. -/
  | flush (writes : List IoResult) (beyond : Bytes)
  /-- The writer thread of a cache file takes a step. -/
  | writer (p : ℕ)

/-- **One step of the store.** -/
inductive FifoStep (signed : Bool) (crc : Bytes → UInt32) (mode : FlashcacheMode) :
    FifoDb → FifoAct → FifoDb → Prop where
  /-- SET is executed. -/
  | set {s s' : FifoDb} {key val : Bytes} (hr : s.setCommand signed key val = .ok s') :
      FifoStep signed crc mode s (.set key val) s'
  /-- GET is executed. -/
  | get {s s' : FifoDb} {key : Bytes} {env : Environment} {r : Option Bytes}
      (hr : s.getCommand signed crc mode env key = .ok (r, s')) : FifoStep signed crc mode s (.get key env) s'
  /-- `memUsedCheck` returns. -/
  | memUsedCheck {s s' : FifoDb} {exceeded : Bool} (hr : s.memUsedCheck exceeded = .ok s') :
      FifoStep signed crc mode s (.memUsedCheck exceeded) s'
  /-- The first loop of `evictAllCommand` ends. -/
  | evictAll {s s' : FifoDb} (hr : s.evictAllCommand = .ok s') : FifoStep signed crc mode s .evictAll s'
  /-- A flush is completed. -/
  | flush {s s' : FifoDb} {writes : List IoResult} {beyond : Bytes}
      (hr : s.flush signed crc mode writes beyond = .ok s') : FifoStep signed crc mode s (.flush writes beyond) s'
  /-- The writer of a cache file takes a step. -/
  | writer {s : FifoDb} {p : ℕ} {f g : WriteableCacheFile} (hf : s.flashCache.deref p = some f)
      (hw : s.flashCache.Writes f g) :
      FifoStep signed crc mode s (.writer p) { s with flashCache := s.flashCache.store p g }

/-- The step adds an entry to memory: SET of a key that is not there, or GET of one that is
only in the flash cache. -/
def FifoAct.Adds (signed : Bool) (crc : Bytes → UInt32) (mode : FlashcacheMode) (s : FifoDb) : FifoAct → Prop
  | .set key _ => s.memCache.entryFind signed (key ++ [0]) = .ok none
  | .get key env => s.memCache.entryFind signed (key ++ [0]) = .ok none ∧
      ∃ val flashCache, s.flashCache.lookup crc mode env (cString key) = .ok (some val, flashCache)
  | _ => False

/-- **The list mirrors the hash table**: it has the entries that were not handed to the
flush, each once, the newest first, and no `NULL`. -/
def FifoDb.Mirror (s : FifoDb) : Prop :=
  ∃ order : List ℕ, s.memList = order.map some ∧ order.Pairwise (· > ·) ∧
    ∀ p, p ∈ order ↔ p ∉ s.handed ∧ ∃ he ∈ s.memCache.entries, he.addr = p

variable {signed : Bool} {crc : Bytes → UInt32} {mode : FlashcacheMode} {s s' : FifoDb} {act : FifoAct}
  {key val : Bytes} {obj : KvObject} {env : Environment}

/-- Where the list mirrors the table, the last of the list is the oldest entry. -/
theorem FifoDb.Mirror.oldest (h : s.Mirror) {q : Option ℕ} (hq : s.memList.getLast? = some q) :
    ∃ p, q = some p ∧ (p ∉ s.handed ∧ ∃ he ∈ s.memCache.entries, he.addr = p) ∧
      ∀ p', p' ∉ s.handed → (∃ he ∈ s.memCache.entries, he.addr = p') → p ≤ p' := by
  obtain ⟨order, hlist, hsorted, hmem⟩ := h
  rw [hlist, List.getLast?_map] at hq
  obtain ⟨p, hp, rfl⟩ := Option.map_eq_some_iff.mp hq
  obtain ⟨front, rfl⟩ := List.getLast?_eq_some_iff.mp hp
  refine ⟨p, rfl, (hmem p).mp (by simp), fun p' hhanded hentry => ?_⟩
  rcases List.mem_append.mp ((hmem p').mpr ⟨hhanded, hentry⟩) with hfront | hlast
  · exact Nat.le_of_lt ((List.pairwise_append.mp hsorted).2.2 p' hfront p (by simp))
  · exact Nat.le_of_eq (List.mem_singleton.mp hlast).symm

/-! ### What the list really holds -/

/-- The list holds one `NULL` for each entry that was added, nothing was ever handed over,
and if nothing was added, the hash table is as it was made. -/
structure FifoDb.Nulls (s : FifoDb) : Prop where
  /-- Nothing but `NULL`. -/
  memList : s.memList = List.replicate s.allocated none
  /-- The queue is empty. -/
  memQueue : s.memQueue = []
  /-- Nothing was put into it. -/
  handed : s.handed = []
  /-- Without an entry the table is new. -/
  memCache : s.allocated = 0 → s.memCache = Kvht.create KvObject 100 100

/-- Nothing is found in a new table. -/
theorem entryFind_create (signed : Bool) (size sizemask : UInt64) (str : Bytes) (he : Hash.HashEntry KvObject) :
    (Kvht.create KvObject size sizemask).entryFind signed str ≠ .ok (some he) := by
  intro hfind
  unfold Kvht.entryFind at hfind
  split at hfind
  · cases hfind
  · split at hfind
    · cases hfind
    · next idx chain hbucket =>
      simp only [Kvht.bucket] at hbucket
      split_ifs at hbucket
      split at hbucket
      · cases hbucket
      · next hchain =>
        cases hbucket
        obtain rfl := List.eq_of_mem_replicate (List.mem_of_getElem? hchain)
        cases hfind

/-- The flash cache does not matter. -/
theorem FifoDb.Nulls.setFlash (h : s.Nulls) (flashCache : FlashCache) : ({ s with flashCache } : FifoDb).Nulls :=
  ⟨h.memList, h.memQueue, h.handed, h.memCache⟩

/-- **`cacheAdd`** of a key that is not there adds an entry and a `NULL`. -/
theorem FifoDb.Nulls.cacheAdd (h : s.Nulls) (hr : s.cacheAdd signed key obj = .ok s') :
    s'.Nulls ∧ (s.memCache.entryFind signed (key ++ [0]) = .ok none → s'.allocated = s.allocated + 1) ∧
      (s.memCache.entryFind signed (key ++ [0]) ≠ .ok none → s'.allocated = s.allocated) := by
  unfold FifoDb.cacheAdd at hr
  split at hr
  · cases hr
  · next hfind =>
    split at hr
    · cases hr
    · cases hr
      refine ⟨⟨?_, h.memQueue, h.handed, fun hzero => absurd hzero (Nat.succ_ne_zero _)⟩, fun _ => rfl,
        fun hne => absurd hfind hne⟩
      rw [h.memList]
      rfl
  · next he hfind =>
    cases hr
    refine ⟨⟨h.memList, h.memQueue, h.handed, fun hzero => ?_⟩, fun heq => ?_, fun _ => rfl⟩
    · rw [h.memCache hzero] at hfind
      exact absurd hfind (entryFind_create _ _ _ _ _)
    · rw [hfind] at heq
      cases heq

/-- **GET** of a key that is only in the flash cache does so as well. -/
theorem FifoDb.Nulls.getCommand (h : s.Nulls) {r : Option Bytes} (hr : s.getCommand signed crc mode env key = .ok (r, s')) :
    s'.Nulls ∧ (FifoAct.Adds signed crc mode s (.get key env) → s'.allocated = s.allocated + 1) ∧
      (¬ FifoAct.Adds signed crc mode s (.get key env) → s'.allocated = s.allocated) := by
  unfold FifoDb.getCommand at hr
  split at hr
  · cases hr
  · next he hfind =>
    cases hr
    refine ⟨h, fun hadds => ?_, fun _ => rfl⟩
    rw [hadds.1] at hfind
    cases hfind
  · next hfind =>
    split at hr
    · cases hr
    · next flashCache hlookup =>
      cases hr
      refine ⟨h.setFlash flashCache, fun hadds => ?_, fun _ => rfl⟩
      obtain ⟨val, flashCache', hsome⟩ := hadds.2
      rw [hsome] at hlookup
      cases hlookup
    · next val flashCache hlookup =>
      split_ifs at hr
      split at hr
      · cases hr
      · next s₁ hadd =>
        cases hr
        obtain ⟨h₁, hnew, -⟩ := (h.setFlash flashCache).cacheAdd hadd
        exact ⟨h₁.setFlash _, fun _ => hnew hfind, fun hno => absurd ⟨hfind, val, flashCache, hlookup⟩ hno⟩

/-- **An eviction does not return**: it takes a `NULL` from the list. -/
theorem FifoDb.Nulls.evictOne (h : s.Nulls) : s.evictOne = .error .undefined := by
  unfold FifoDb.evictOne
  rw [h.memList]
  cases hn : s.allocated with
  | zero => rfl
  | succ n => rw [List.getLast?_replicate, if_neg (Nat.succ_ne_zero n)]

/-- **One step** leaves nothing but `NULL` in the list, and counts the entries added. -/
theorem FifoDb.Nulls.step (h : s.Nulls) (hstep : FifoStep signed crc mode s act s') :
    s'.Nulls ∧ (act.Adds signed crc mode s → s'.allocated = s.allocated + 1) ∧
      (¬ act.Adds signed crc mode s → s'.allocated = s.allocated) := by
  cases hstep with
  | set hr => exact h.cacheAdd hr
  | get hr => exact h.getCommand hr
  | memUsedCheck hr =>
    unfold FifoDb.memUsedCheck at hr
    split_ifs at hr
    · rw [h.evictOne] at hr
      cases hr
    · cases hr
      exact ⟨h, False.elim, fun _ => rfl⟩
  | evictAll hr =>
    unfold FifoDb.evictAllCommand at hr
    cases hn : (listSize s.memList).toNat with
    | zero =>
      rw [hn] at hr
      cases hr
      exact ⟨h, False.elim, fun _ => rfl⟩
    | succ n =>
      rw [hn, FifoDb.evictLoop, h.evictOne] at hr
      cases hr
  | flush hr =>
    unfold FifoDb.flush at hr
    rw [h.memQueue] at hr
    cases hr
  | writer hf hw => exact ⟨h.setFlash _, False.elim, fun _ => rfl⟩

/-- A store of `NULL`s mirrors its hash table exactly if no entry was added. -/
theorem FifoDb.Nulls.mirror_iff (h : s.Nulls) : s.Mirror ↔ s.allocated = 0 := by
  constructor
  · rintro ⟨order, hlist, -⟩
    by_contra hne
    have hnull : none ∈ order.map some := by
      rw [← hlist, h.memList, List.mem_replicate]
      exact ⟨hne, rfl⟩
    obtain ⟨p, -, hp⟩ := List.mem_map.mp hnull
    cases hp
  · intro hzero
    refine ⟨[], ?_, List.Pairwise.nil, fun p => ?_⟩
    · rw [h.memList, hzero]
      rfl
    · rw [h.memCache hzero]
      simp [Kvht.entries, Kvht.create]

/-! ### Runs -/

/-- The runs in which every step meets a condition on it and the state before it. -/
abbrev FifoRun (signed : Bool) (crc : Bytes → UInt32) (mode : FlashcacheMode) (C : FifoDb → FifoAct → Prop)
    (flashCache : FlashCache) : List FifoAct → FifoDb → Prop :=
  Run (FifoStep signed crc mode) (fun _ => C) { flashCache }

/-- Every run leaves nothing but `NULL` in the list. -/
theorem FifoDb.nulls_of_run {C : FifoDb → FifoAct → Prop} {flashCache : FlashCache} {acts : List FifoAct}
    (h : FifoRun signed crc mode C flashCache acts s) : s.Nulls :=
  h.invariant (P := fun _ s => s.Nulls) ⟨rfl, rfl, rfl, fun _ => rfl⟩ fun _ _ _ _ hs _ hstep => (hs.step hstep).1

/-- A run without additions leaves no entry. -/
theorem FifoDb.allocated_of_run {flashCache : FlashCache} {acts : List FifoAct}
    (h : FifoRun signed crc mode (fun s act => ¬ act.Adds signed crc mode s) flashCache acts s) : s.allocated = 0 := by
  induction h with
  | nil => rfl
  | snoc hprev hno hstep ih => exact (((FifoDb.nulls_of_run hprev).step hstep).2.2 hno).trans ih

/-- A run that leaves no entry has none added. -/
theorem FifoDb.run_of_allocated {flashCache : FlashCache} {acts : List FifoAct}
    (h : FifoRun signed crc mode (fun _ _ => True) flashCache acts s) (hzero : s.allocated = 0) :
    FifoRun signed crc mode (fun s act => ¬ act.Adds signed crc mode s) flashCache acts s := by
  induction h with
  | nil => exact .nil _
  | @snoc t u acts act hprev _ hstep ih =>
    obtain ⟨-, hadds, hsame⟩ := (FifoDb.nulls_of_run hprev).step hstep
    have hno : ¬ act.Adds signed crc mode t := by
      intro hadd
      have := hadds hadd
      omega
    exact .snoc (ih ((hsame hno).symm.trans hzero)) hno hstep

/-- **The list mirrors the hash table** in a state that a run has reached exactly if no
step of the run has added an entry. -/
theorem fifo_mirror_iff {flashCache : FlashCache} {acts : List FifoAct}
    (h : FifoRun signed crc mode (fun _ _ => True) flashCache acts s) :
    s.Mirror ↔ FifoRun signed crc mode (fun s act => ¬ act.Adds signed crc mode s) flashCache acts s := by
  rw [(FifoDb.nulls_of_run h).mirror_iff]
  exact ⟨FifoDb.run_of_allocated h, FifoDb.allocated_of_run⟩

@[simp] theorem listSize_nil : listSize [] = 0 := by
  unfold listSize
  exact Int.zero_bmod

/-- With an empty list `evictAllCommand` has nothing to do. -/
theorem FifoDb.evictAllCommand_nil (h : s.memList = []) : s.evictAllCommand = .ok s := by
  rw [FifoDb.evictAllCommand, h, listSize_nil]
  rfl

/-- The memory check and an eviction of everything in an empty store. -/
theorem fifo_mirror_empty : ∃ s : FifoDb, s.Mirror ∧
    FifoRun true (fun _ => 0) .direct (fun _ _ => True) (.openEmpty ⟨100, 10, 1000⟩ 0) [.memUsedCheck true, .evictAll] s := by
  have hrun : FifoRun true (fun _ => 0) .direct (fun _ _ => True) (.openEmpty ⟨100, 10, 1000⟩ 0)
      [.memUsedCheck true, .evictAll] { flashCache := .openEmpty ⟨100, 10, 1000⟩ 0 } :=
    .snoc (.snoc (.nil _) trivial (.memUsedCheck rfl)) trivial (.evictAll (FifoDb.evictAllCommand_nil rfl))
  refine ⟨_, (fifo_mirror_iff hrun).mpr ?_, hrun⟩
  exact .snoc (.snoc (.nil _) id (.memUsedCheck rfl)) id (.evictAll (FifoDb.evictAllCommand_nil rfl))

/-- One SET: the list holds `NULL`, and the eviction that comes next uses it. -/
theorem fifo_set_null : ∃ s : FifoDb,
    FifoRun true (fun _ => 0) .direct (fun _ _ => True) (.openEmpty ⟨100, 10, 1000⟩ 0) [.set [97] [1]] s ∧
      ¬ s.Mirror ∧ s.memUsedCheck true = .error .undefined := by
  have hstep : FifoStep true (fun _ => 0) .direct { flashCache := .openEmpty ⟨100, 10, 1000⟩ 0 } (.set [97] [1]) _ :=
    .set rfl
  have hrun : FifoRun true (fun _ => 0) .direct (fun _ _ => True) (.openEmpty ⟨100, 10, 1000⟩ 0) [.set [97] [1]] _ :=
    .snoc (.nil _) trivial hstep
  refine ⟨_, hrun, fun hmirror => ?_, rfl⟩
  exact absurd ((FifoDb.nulls_of_run hrun).mirror_iff.mp hmirror) (Nat.succ_ne_zero 0)

end EmbeddedKv.Tiers
