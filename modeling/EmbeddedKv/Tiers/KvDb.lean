import EmbeddedKv.Store.Cache

/-!
# The memory tier over the flash cache

The commands SET and GET of `command.c`, the eviction of an entry from memory in
`memUsedCheck`, and the flush of evicted entries in `bworker.c`, in the mode with an LRU
cache in memory (`MODE_MEM_LRU`).

## The model

Entries are allocated on a heap and passed around as pointers, like the files of the
flash cache. The strings in messages have a length and end with a zero byte; they reach
the indices through `std::string` constructors that read up to the first zero byte
(`cString`).

Commands and flushes run under `bworker_mutex`, so each of them is one step. The step
`evictFlush` is the eviction of the least recently used entry together with its flush,
whenever the amount of memory in use may call for it.

Left out: the texts of the replies, of which only the value matters here, and the
fields `type`, `lru`, `refcount`, `readcount` and `writecount`, which nothing reads. The
size that `flashCacheLookup` returns goes through an `int`.
-/

namespace EmbeddedKv.Tiers

open EmbeddedKv.Library EmbeddedKv.Flash EmbeddedKv.Store

/-! ### The objects -/

/-- `where`: `KV_LOC_MEM`, `KV_LOC_FLUSHING` or `KV_LOC_FLASH`. -/
inductive KvLoc where
  /-- `KV_LOC_MEM`. -/
  | mem
  /-- `KV_LOC_FLUSHING`. -/
  | flushing
  /-- `KV_LOC_FLASH`. -/
  | flash
  deriving DecidableEq, Repr

/-- `struct kvObject`. -/
structure KvObject where
  /-- `where`. -/
  loc : KvLoc
  /-- `ptr`: the `len` bytes of the message, which a zero byte follows. -/
  ptr : Bytes
  deriving DecidableEq, Repr

/-- `createObject(ptr, len)`. -/
def createObject (bytes : Bytes) : KvObject := ⟨.mem, bytes⟩

/-- `struct hashEntry`. -/
structure HashEntry where
  /-- `key`. -/
  key : Bytes
  /-- `val`. -/
  val : KvObject
  deriving DecidableEq, Repr

/-- The string that a zero-terminated message is read as. -/
def cString (bytes : Bytes) : Bytes := cstr (bytes ++ [0])

@[simp] theorem cString_of_nulFree {s : Bytes} (h : NulFree s) : cString s = s := cstr_terminated h

/-- `struct kvDb`. -/
structure KvDb where
  /-- `memLRU`: keys and pointers to entries. -/
  memLRU : LruCache Bytes ℕ := {}
  /-- The entries behind the pointers; `none` for a freed one. -/
  entries : List (Option HashEntry) := []
  /-- `memQueue`, front first. -/
  memQueue : List ℕ := []
  /-- `flashCache`. -/
  flashCache : FlashCache

namespace KvDb

/-- The entry behind a pointer. -/
def entry (s : KvDb) (p : ℕ) : Option HashEntry := s.entries[p]?.join

/-! ### SET -/

/-- `cacheAdd(db, key, val)`. -/
def cacheAdd (s : KvDb) (key : Bytes) (val : KvObject) : Except Stop KvDb :=
  match s.memLRU.get (cString key) with
  | .error e => .error e
  | .ok (none, lru) =>
    .ok { s with entries := s.entries ++ [some ⟨key, val⟩]
                 memLRU := lru.insert (cString key) s.entries.length }
  | .ok (some p, lru) =>
    match s.entry p with
    | none => .error .undefined
    | some he => .ok { s with entries := s.entries.set p (some { he with val }), memLRU := lru }

/-- `setCommand(c, key, val)`. -/
def setCommand (s : KvDb) (key val : Bytes) : Except Stop KvDb := s.cacheAdd key (createObject val)

/-! ### GET -/

/-- `getCommand(c, key)`: the value of the reply, `none` for `+Empty!`, and the store. -/
def getCommand (crc : Bytes → UInt32) (mode : FlashcacheMode) (env : Environment) (s : KvDb) (key : Bytes) :
    Except Stop (Option Bytes × KvDb) :=
  match s.memLRU.get (cString key) with
  | .error e => .error e
  | .ok (some p, lru) =>
    match s.entry p with
    | none => .error .undefined
    | some he => .ok (some he.val.ptr, { s with memLRU := lru })
  | .ok (none, lru) =>
    match s.flashCache.lookup crc mode env (cString key) with
    | .error e => .error e
    | .ok (none, flashCache) => .ok (none, { s with memLRU := lru, flashCache })
    | .ok (some val, flashCache) =>
      -- `val_size` is an `int`
      if 2 ^ 31 ≤ val.length then .error .undefined
      else
        match ({ s with memLRU := lru, flashCache } : KvDb).cacheAdd key (createObject val) with
        | .error e => .error e
        | .ok s => .ok (some val, { s with flashCache := s.flashCache.deleteMetaData (cString key) })

/-! ### Eviction and flush -/

/-- `LRUCacheSize(mlru)`. -/
def lruCacheSize (c : LruCache Bytes ℕ) : ℕ := if c.empty then 0 else c.size

/-- `LRUCacheEvict(mlru)`. -/
def lruCacheEvict (c : LruCache Bytes ℕ) : Except Stop (Option ℕ × LruCache Bytes ℕ) :=
  if c.empty then .ok (none, c)
  else
    match c.evict with
    | .error e => .error e
    | .ok (p, c) => .ok (some p, c)

/-- What `memUsedCheck` does when too much memory is used: the least recently used
entry is taken out of the list and queued for the flush. -/
def evictEntry (s : KvDb) : Except Stop KvDb :=
  if lruCacheSize s.memLRU = 0 then .ok s
  else
    match lruCacheEvict s.memLRU with
    | .error e => .error e
    | .ok (none, _) => .error .undefined
    | .ok (some p, lru) =>
      match s.entry p with
      | none => .error .undefined
      | some he =>
        if he.val.loc = .mem then
          .ok { s with memLRU := lru
                       entries := s.entries.set p (some { he with val := { he.val with loc := .flushing } })
                       memQueue := s.memQueue ++ [p] }
        else .ok { s with memLRU := lru }

/-- One job of `bworkerProcessBackgroundJobs`: the first entry of the queue goes to the
flash cache and is erased from memory. What `flashCacheInsert` returns is not looked
at. -/
def flush (crc : Bytes → UInt32) (mode : FlashcacheMode) (writes : List IoResult) (s : KvDb) :
    Except Stop KvDb :=
  match s.memQueue with
  | [] => .error .undefined
  | p :: queue =>
    match s.entry p with
    | none => .error .undefined
    | some he =>
      match s.flashCache.insert crc mode writes (cString he.key) (cString he.val.ptr) with
      | .error e => .error e
      | .ok (_, flashCache) =>
        .ok { memLRU := s.memLRU.erase (cString he.key), entries := s.entries.set p none,
              memQueue := queue, flashCache }

/-! ### The heap of entries -/

variable {s : KvDb} {p : ℕ} {he : HashEntry}

/-- An entry is behind an old pointer. -/
theorem lt_of_entry (hp : s.entry p = some he) : p < s.entries.length := by
  by_contra hge
  simp [entry, List.getElem?_eq_none (Nat.not_lt.mp hge)] at hp

/-- A changed entry is found behind its pointer, and the others as before. -/
theorem join_set (hp : p < s.entries.length) (o : Option HashEntry) (q : ℕ) :
    (s.entries.set p o)[q]?.join = if q = p then o else s.entry q := by
  rw [List.getElem?_set]
  by_cases hq : q = p
  · rw [if_pos hq.symm, if_pos (hq ▸ hp), if_pos hq]
    rfl
  · rw [if_neg (Ne.symm hq), if_neg hq]
    rfl

end KvDb

/-! ### The system -/

/-- What happens to the store. -/
inductive KvAct where
  /-- SET. -/
  | set (key val : Bytes)
  /-- GET; `env` is what the disk does. -/
  | get (key : Bytes) (env : Environment)
  /-- The entry of the key is evicted from memory and flushed. -/
  | evictFlush (key : Bytes)
  /-- The writer thread of a cache file takes a step. -/
  | writer (p : ℕ)

/-- **One step of the store.** -/
inductive KvStep (crc : Bytes → UInt32) (mode : FlashcacheMode) : KvDb → KvAct → KvDb → Prop where
  /-- SET is executed. -/
  | set {s s' : KvDb} {key val : Bytes} (hr : s.setCommand key val = .ok s') :
      KvStep crc mode s (.set key val) s'
  /-- GET is executed. -/
  | get {s s' : KvDb} {key : Bytes} {env : Environment} {r : Option Bytes}
      (hr : s.getCommand crc mode env key = .ok (r, s')) : KvStep crc mode s (.get key env) s'
  /-- The least recently used entry, the one of `key`, is evicted and flushed. -/
  | evictFlush {s s₁ s₂ : KvDb} {key : Bytes} {writes : List IoResult}
      (hkey : s.memLRU.list.getLast?.map Prod.snd = some key) (hevict : s.evictEntry = .ok s₁)
      (hflush : s₁.flush crc mode writes = .ok s₂) : KvStep crc mode s (.evictFlush key) s₂
  /-- The writer of a cache file takes a step. -/
  | writer {s : KvDb} {p : ℕ} {f g : WriteableCacheFile} (hf : s.flashCache.deref p = some f)
      (hw : s.flashCache.Writes f g) :
      KvStep crc mode s (.writer p) { s with flashCache := s.flashCache.store p g }

end EmbeddedKv.Tiers
