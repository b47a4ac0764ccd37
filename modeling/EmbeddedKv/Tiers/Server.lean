import EmbeddedKv.Library.Runs
import EmbeddedKv.Tiers.KvDb

/-!
# The threads of the server

The clients' commands and the flush worker of `bworker.c`, which share the store in the
mode with an LRU cache in memory. The worker takes an entry out of the queue, reads its
key and its value, and only then goes for `bworker_mutex`, under which it inserts into
the flash cache, erases the key from memory and frees the entry.

## The model

A command runs under `bworker_mutex`, so it is one step that finds the mutex free; the
worker has it between `lock` and `unlock`. A GET that goes for `fcache_mutex` after a call
has returned with it locked waits for good, and keeps `bworker_mutex` (`block`). The
eviction in `memUsedCheck` and `evictAllCommand` does not take it: `evict` is the call of
`LRUCacheEvict` with what follows it, at any time, since the size of the list is looked at
before and may have changed. `sem_bworker` counts the entries of the queue, so the worker
waits exactly while the queue is empty.

Using a list node that is gone is undefined; where `DeadNode.noEffect` is given, its
removal in `lru_cache::get` has no effect instead.

## What is proved

An undisturbed flush is `KvDb.flush` (`flush_steps`). `MemEffect` is what a command
does to the memory tier.
-/

namespace EmbeddedKv.Tiers

open EmbeddedKv.Library EmbeddedKv.Flash EmbeddedKv.Store Relation

/-! ### Eviction -/

/-- `LRUCacheEvict` in `memUsedCheck` and `evictAllCommand`, and what follows it. -/
def KvDb.evictOne (s : KvDb) : Except Stop KvDb :=
  match lruCacheEvict s.memLRU with
  | .error e => .error e
  -- `he` is `NULL`
  | .ok (none, _) => .error .undefined
  | .ok (some p, lru) =>
    match s.entry p with
    | none => .error .undefined
    | some he =>
      if he.val.loc = .mem then
        .ok { s with memLRU := lru
                     entries := s.entries.set p (some { he with val := { he.val with loc := .flushing } })
                     memQueue := s.memQueue ++ [p] }
      else .ok { s with memLRU := lru }

theorem KvDb.evictEntry_eq (s : KvDb) :
    s.evictEntry = if lruCacheSize s.memLRU = 0 then .ok s else s.evictOne := rfl

/-! ### The threads -/

/-- Where the flush worker is, in `bworkerProcessBackgroundJobs`. -/
inductive BworkerPc where
  /-- At `sem_wait`. -/
  | waiting
  /-- It has taken `he` out of the queue. -/
  | dequeued (he : ℕ)
  /-- It has read `he->val`; `valueObj` is the string of that object. -/
  | read (he : ℕ) (valueObj : Bytes)
  /-- It has locked `bworker_mutex`. -/
  | locked (he : ℕ) (valueObj : Bytes)
  /-- `flashCacheInsert` has returned. -/
  | inserted (he : ℕ) (valueObj : Bytes)
  /-- `LRUCacheErase` has returned. -/
  | erased (he : ℕ)
  deriving DecidableEq, Repr

/-- The worker has `bworker_mutex`. -/
def BworkerPc.holdsMutex : BworkerPc → Bool
  | .locked _ _ | .inserted _ _ | .erased _ => true
  | _ => false

/-- The entry that the worker has taken out of the queue and not erased yet. -/
def BworkerPc.inHand : BworkerPc → Option ℕ
  | .dequeued he | .read he _ | .locked he _ | .inserted he _ => some he
  | _ => none

/-- The store and its flush worker. -/
structure Server where
  /-- The store. -/
  db : KvDb
  /-- The flush worker. -/
  bworker : BworkerPc := .waiting
  /-- A GET waits for `fcache_mutex`. -/
  blocked : Bool := false

/-- Nothing in memory, and any flash cache. -/
def Server.start (flashCache : FlashCache) : Server := { db := { flashCache } }

/-- What the removal of a list node that is gone does. -/
inductive DeadNode where
  /-- It is undefined. -/
  | undefined
  /-- It has no effect. -/
  | noEffect

/-- The memory tier as `lru_cache::get` of the key finds it. -/
def KvDb.touch (d : DeadNode) (s : KvDb) (key : Bytes) : KvDb :=
  match d with
  | .undefined => s
  | .noEffect => { s with memLRU := s.memLRU.revive (cString key) }

/-- What the flush worker does. -/
inductive BworkerAct where
  /-- `QueueDequeue`. -/
  | dequeue
  /-- `he->key` and `he->val` are read. -/
  | read
  /-- `bworker_mutex` is locked. -/
  | lock
  /-- `flashCacheInsert` of the entry `he`. -/
  | insert (he : ℕ)
  /-- `LRUCacheErase`. -/
  | erase
  /-- The entry is freed and the mutex unlocked. -/
  | unlock
  deriving DecidableEq, Repr

/-- **One step of the flush worker.** -/
inductive BworkerStep (crc : Bytes → UInt32) (mode : FlashcacheMode) : Server → BworkerAct → Server → Prop where
  /-- `QueueDequeue`. -/
  | dequeue {s : Server} {p : ℕ} {queue : List ℕ} (hpc : s.bworker = .waiting) (hq : s.db.memQueue = p :: queue) :
      BworkerStep crc mode s .dequeue { s with db := { s.db with memQueue := queue }, bworker := .dequeued p }
  /-- `he->val` is read. -/
  | read {s : Server} {p : ℕ} {he : HashEntry} (hpc : s.bworker = .dequeued p) (hp : s.db.entry p = some he) :
      BworkerStep crc mode s .read { s with bworker := .read p he.val.ptr }
  /-- The mutex is locked. -/
  | lock {s : Server} {p : ℕ} {valueObj : Bytes} (hpc : s.bworker = .read p valueObj) (hblocked : s.blocked = false) :
      BworkerStep crc mode s .lock { s with bworker := .locked p valueObj }
  /-- `flashCacheInsert` of the key of the entry with the value that was read. What it
  returns is not looked at. -/
  | insert {s : Server} {p : ℕ} {valueObj : Bytes} {he : HashEntry} {writes : List IoResult} {r : Int}
      {flashCache : FlashCache} (hpc : s.bworker = .locked p valueObj) (hp : s.db.entry p = some he)
      (hr : s.db.flashCache.insert crc mode writes (cString he.key) (cString valueObj) = .ok (r, flashCache)) :
      BworkerStep crc mode s (.insert p) { s with db := { s.db with flashCache }, bworker := .inserted p valueObj }
  /-- `LRUCacheErase` of the key of the entry. -/
  | erase {s : Server} {p : ℕ} {valueObj : Bytes} {he : HashEntry} (hpc : s.bworker = .inserted p valueObj)
      (hp : s.db.entry p = some he) :
      BworkerStep crc mode s .erase
        { s with db := { s.db with memLRU := s.db.memLRU.erase (cString he.key) }, bworker := .erased p }
  /-- The entry is freed, and the mutex unlocked. -/
  | unlock {s : Server} {p : ℕ} (hpc : s.bworker = .erased p) :
      BworkerStep crc mode s .unlock { s with db := { s.db with entries := s.db.entries.set p none }, bworker := .waiting }

/-- What happens to the server. -/
inductive ServerAct where
  /-- SET. -/
  | set (key val : Bytes)
  /-- GET; `env` is what the disk does. -/
  | get (key : Bytes) (env : Environment)
  /-- GET waits for `fcache_mutex`. -/
  | block (key : Bytes)
  /-- An entry is evicted from memory. -/
  | evict
  /-- The flush worker takes a step. -/
  | bworker (a : BworkerAct)
  /-- The writer thread of a cache file takes a step. -/
  | writer (p : ℕ)

/-- **One step of the server.** -/
inductive ServerStep (crc : Bytes → UInt32) (mode : FlashcacheMode) (d : DeadNode) :
    Server → ServerAct → Server → Prop where
  /-- SET is executed. -/
  | set {s : Server} {db : KvDb} {key val : Bytes} (hfree : s.bworker.holdsMutex = false)
      (hr : (s.db.touch d key).setCommand key val = .ok db) (hblocked : s.blocked = false) :
      ServerStep crc mode d s (.set key val) { s with db }
  /-- GET is executed. -/
  | get {s : Server} {db : KvDb} {key : Bytes} {env : Environment} {r : Option Bytes}
      (hfree : s.bworker.holdsMutex = false) (hr : (s.db.touch d key).getCommand crc mode env key = .ok (r, db))
      (hblocked : s.blocked = false) : ServerStep crc mode d s (.get key env) { s with db }
  /-- GET finds `fcache_mutex` locked, and has changed nothing. -/
  | block {s : Server} {key : Bytes} {env : Environment} (hfree : s.bworker.holdsMutex = false)
      (hr : (s.db.touch d key).getCommand crc mode env key = .error .blocked) (hblocked : s.blocked = false) :
      ServerStep crc mode d s (.block key) { s with blocked := true }
  /-- An entry is evicted. -/
  | evict {s : Server} {db : KvDb} (hr : s.db.evictOne = .ok db) : ServerStep crc mode d s .evict { s with db }
  /-- The flush worker takes a step. -/
  | bworker {s t : Server} {a : BworkerAct} (h : BworkerStep crc mode s a t) :
      ServerStep crc mode d s (.bworker a) t
  /-- The writer of a cache file takes a step. -/
  | writer {s : Server} {p : ℕ} {f g : WriteableCacheFile} (hf : s.db.flashCache.deref p = some f)
      (hw : s.db.flashCache.Writes f g) :
      ServerStep crc mode d s (.writer p) { s with db := { s.db with flashCache := s.db.flashCache.store p g } }

variable {crc : Bytes → UInt32} {mode : FlashcacheMode} {d : DeadNode} {s s' : KvDb} {key val : Bytes} {p : ℕ}
  {he : HashEntry}

/-- **An undisturbed flush**: six steps of the worker are one `KvDb.flush`. -/
theorem flush_steps {writes : List IoResult} (hr : s.flush crc mode writes = .ok s') :
    ReflTransGen (fun s t => ∃ a, BworkerStep crc mode s a t) ⟨s, .waiting, false⟩ ⟨s', .waiting, false⟩ := by
  unfold KvDb.flush at hr
  cases hq : s.memQueue with
  | nil => simp only [hq] at hr; cases hr
  | cons p queue =>
    simp only [hq] at hr
    cases hp : s.entry p with
    | none => simp only [hp] at hr; cases hr
    | some he =>
      simp only [hp] at hr
      cases hi : s.flashCache.insert crc mode writes (cString he.key) (cString he.val.ptr) with
      | error e => simp only [hi] at hr; cases hr
      | ok q =>
        obtain ⟨r, flashCache⟩ := q
        simp only [hi] at hr
        cases hr
        have h1 : BworkerStep crc mode ⟨s, .waiting, false⟩ .dequeue ⟨{ s with memQueue := queue }, .dequeued p, false⟩ :=
          .dequeue rfl hq
        have h2 : BworkerStep crc mode ⟨{ s with memQueue := queue }, .dequeued p, false⟩ .read
            ⟨{ s with memQueue := queue }, .read p he.val.ptr, false⟩ := .read rfl hp
        have h3 : BworkerStep crc mode ⟨{ s with memQueue := queue }, .read p he.val.ptr, false⟩ .lock
            ⟨{ s with memQueue := queue }, .locked p he.val.ptr, false⟩ := .lock rfl rfl
        have h4 : BworkerStep crc mode ⟨{ s with memQueue := queue }, .locked p he.val.ptr, false⟩ (.insert p)
            ⟨{ s with memQueue := queue, flashCache }, .inserted p he.val.ptr, false⟩ := .insert rfl hp hi
        have h5 : BworkerStep crc mode ⟨{ s with memQueue := queue, flashCache }, .inserted p he.val.ptr, false⟩ .erase
            ⟨{ s with memQueue := queue, flashCache, memLRU := s.memLRU.erase (cString he.key) }, .erased p, false⟩ :=
          .erase rfl hp
        have h6 : BworkerStep crc mode
            ⟨{ s with memQueue := queue, flashCache, memLRU := s.memLRU.erase (cString he.key) }, .erased p, false⟩ .unlock
            ⟨⟨s.memLRU.erase (cString he.key), s.entries.set p none, queue, flashCache⟩, .waiting, false⟩ := .unlock rfl
        exact ((((((ReflTransGen.refl.tail ⟨_, h1⟩).tail ⟨_, h2⟩).tail ⟨_, h3⟩).tail ⟨_, h4⟩).tail
          ⟨_, h5⟩).tail ⟨_, h6⟩)

/-! ### What eviction does -/

/-- **Eviction** takes out a node, and queues its entry unless it waits for the flush
already. -/
theorem KvDb.evictOne_effect (hr : s.evictOne = .ok s') : ∃ p he,
    s.memLRU.evict = .ok (p, s'.memLRU) ∧ s.entry p = some he ∧ s'.flashCache = s.flashCache ∧
      ((he.val.loc = .mem ∧ s'.memQueue = s.memQueue ++ [p] ∧
          s'.entries = s.entries.set p (some { he with val := { he.val with loc := .flushing } })) ∨
        he.val.loc ≠ .mem ∧ s'.memQueue = s.memQueue ∧ s'.entries = s.entries) := by
  unfold KvDb.evictOne KvDb.lruCacheEvict at hr
  by_cases hempty : s.memLRU.empty = true
  · rw [if_pos hempty] at hr
    cases hr
  · rw [if_neg hempty] at hr
    cases hev : s.memLRU.evict with
    | error e => simp only [hev] at hr; cases hr
    | ok q =>
      obtain ⟨p, lru⟩ := q
      simp only [hev] at hr
      cases hp : s.entry p with
      | none => simp only [hp] at hr; cases hr
      | some he =>
        simp only [hp] at hr
        by_cases hloc : he.val.loc = .mem
        · rw [if_pos hloc] at hr
          cases hr
          exact ⟨p, he, rfl, hp, rfl, .inl ⟨hloc, rfl, rfl⟩⟩
        · rw [if_neg hloc] at hr
          cases hr
          exact ⟨p, he, rfl, hp, rfl, .inr ⟨hloc, rfl, rfl⟩⟩

/-! ### What a command does to the memory tier -/

@[simp] theorem KvDb.find_touch (d : DeadNode) (s : KvDb) (key k : Bytes) :
    (s.touch d key).memLRU.find k = s.memLRU.find k := by
  cases d
  · rfl
  · exact LruCache.find_revive _ _ _

@[simp] theorem KvDb.entries_touch (d : DeadNode) (s : KvDb) (key : Bytes) :
    (s.touch d key).entries = s.entries := by
  cases d <;> rfl

@[simp] theorem KvDb.entry_touch (d : DeadNode) (s : KvDb) (key : Bytes) (p : ℕ) :
    (s.touch d key).entry p = s.entry p := by
  rw [KvDb.entry, KvDb.entry, KvDb.entries_touch]

@[simp] theorem KvDb.memQueue_touch (d : DeadNode) (s : KvDb) (key : Bytes) :
    (s.touch d key).memQueue = s.memQueue := by
  cases d <;> rfl

/-- **What a command for a key does to the memory tier**; `w` is the value that SET
writes. -/
inductive MemEffect (s : KvDb) (key : Bytes) (w : Option Bytes) (s' : KvDb) : Prop where
  /-- The entry of the key is used. -/
  | used {p : ℕ} (hfind : s.memLRU.find (cString key) = some p)
      (hget : s.memLRU.get (cString key) = .ok (some p, s'.memLRU)) (hentries : s'.entries = s.entries)
  /-- The entry of the key is used, and gets the new value. -/
  | replaced {p : ℕ} {he : HashEntry} {val : Bytes} (hw : w = some val)
      (hfind : s.memLRU.find (cString key) = some p)
      (hget : s.memLRU.get (cString key) = .ok (some p, s'.memLRU)) (hp : s.entry p = some he)
      (hentries : s'.entries = s.entries.set p (some { he with val := createObject val }))
  /-- The key gets an entry. -/
  | added {val : Bytes} (hfind : s.memLRU.find (cString key) = none)
      (hlru : s'.memLRU = s.memLRU.insert (cString key) s.entries.length)
      (hentries : s'.entries = s.entries ++ [some ⟨key, createObject val⟩])
  /-- The key has no entry, and gets none. -/
  | missed (hfind : s.memLRU.find (cString key) = none) (hlru : s'.memLRU = s.memLRU)
      (hentries : s'.entries = s.entries)

/-- `cacheAdd` gives the key an entry, or its entry a new value. -/
theorem KvDb.cacheAdd_effect (hr : s.cacheAdd key (createObject val) = .ok s') :
    MemEffect s key (some val) s' ∧ s'.memQueue = s.memQueue := by
  unfold KvDb.cacheAdd at hr
  cases hget : s.memLRU.get (cString key) with
  | error e => rw [hget] at hr; cases hr
  | ok q =>
    obtain ⟨v, lru⟩ := q
    have hv := LruCache.get_eq_find hget
    rw [hget] at hr
    cases v with
    | none =>
      have habsent := LruCache.get_absent hv.symm
      rw [hget, Except.ok.injEq, Prod.mk.injEq] at habsent
      obtain ⟨-, rfl⟩ := habsent
      cases hr
      exact ⟨.added hv.symm rfl rfl, rfl⟩
    | some p =>
      simp only at hr
      cases hp : s.entry p with
      | none => simp only [hp] at hr; cases hr
      | some he =>
        simp only [hp] at hr
        cases hr
        exact ⟨.replaced rfl hv.symm hget hp rfl, rfl⟩

/-- **SET.** -/
theorem KvDb.setCommand_effect (hr : s.setCommand key val = .ok s') :
    MemEffect s key (some val) s' ∧ s'.memQueue = s.memQueue := cacheAdd_effect hr

/-- **GET** writes no value: an entry that it adds is of a key that has none. -/
theorem KvDb.getCommand_effect {env : Environment} {r : Option Bytes}
    (hr : s.getCommand crc mode env key = .ok (r, s')) : MemEffect s key none s' ∧ s'.memQueue = s.memQueue := by
  unfold KvDb.getCommand at hr
  cases hget : s.memLRU.get (cString key) with
  | error e => rw [hget] at hr; cases hr
  | ok q =>
    obtain ⟨v, lru⟩ := q
    have hv := LruCache.get_eq_find hget
    rw [hget] at hr
    cases v with
    | some p =>
      simp only at hr
      cases hp : s.entry p with
      | none => simp only [hp] at hr; cases hr
      | some he =>
        simp only [hp] at hr
        cases hr
        exact ⟨.used hv.symm hget rfl, rfl⟩
    | none =>
      have habsent := LruCache.get_absent hv.symm
      rw [hget, Except.ok.injEq, Prod.mk.injEq] at habsent
      obtain ⟨-, rfl⟩ := habsent
      simp only at hr
      cases hl : s.flashCache.lookup crc mode env (cString key) with
      | error e => simp only [hl] at hr; cases hr
      | ok q =>
        obtain ⟨r', flashCache⟩ := q
        simp only [hl] at hr
        cases r' with
        | none =>
          cases hr
          exact ⟨.missed hv.symm rfl rfl, rfl⟩
        | some val =>
          simp only at hr
          split_ifs at hr
          cases hadd : ({ s with flashCache } : KvDb).cacheAdd key (createObject val) with
          | error e => simp only [hadd] at hr; cases hr
          | ok s₁ =>
            simp only [hadd] at hr
            cases hr
            obtain ⟨heffect, hqueue⟩ := cacheAdd_effect hadd
            refine ⟨?_, hqueue⟩
            cases heffect with
            | used hfind hget' hentries => exact absurd (hfind.symm.trans hv.symm) (by simp)
            | replaced hw hfind hget' hp hentries => exact absurd (hfind.symm.trans hv.symm) (by simp)
            | added hfind hlru hentries => exact .added hfind hlru hentries
            | missed hfind hlru hentries => exact .missed hfind hlru hentries

end EmbeddedKv.Tiers
