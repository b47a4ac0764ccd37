import EmbeddedKv.Flash.Writer
import EmbeddedKv.Store.LruCache

/-!
# The flash cache

`Metadata` and `FlashCache` of `flashcache.cc`: an index from keys to addresses, an
index from file ids to cache files, and the file that is being appended to. A full
file is replaced by a new one; `Evict` removes the least recently used file together
with the index entries of its keys.

## The model

Cache files are allocated with `new` and passed around as pointers, so the cache has a
heap of them; a pointer to a deleted file denotes nothing, and using it is undefined.
`fcache_mutex` is not recursive: a call that finds it locked waits (`Stop.blocked`),
and since a call that has returned does not unlock it any more, it waits forever.
The cache directory is the list of the ids of its files.

`CacheStep` is one call, or one step of the writer thread of one of the files. The
call of `Evict` that the writer makes for each buffer is a call like any other; the
writer goes on when `Evict` finds room.

`NewCacheFile` returns unless `Create()` writes behind the array for the name of the
semaphore (`Creatable`): that happens from id 1000 on, for a file that does not exist. The
semaphore of a new file is taken to be empty: no earlier server has left a token in it.

Left out: `dir_` and the paths, the log messages, and `db_`, which nothing uses.

## What is proved

`FlashCache.lookup_iff`: `Lookup` returns exactly if the mutex is free, and in one of three
ways (`Looked`).
-/

namespace EmbeddedKv.Store

open EmbeddedKv.Library EmbeddedKv.Flash Relation

/-! ### The indices -/

/-- `FlashCacheConfig`. -/
structure FlashCacheConfig where
  /-- `cache_file_size`. -/
  cacheFileSize : UInt32
  /-- `write_buffer_size`. -/
  writeBufferSize : UInt32
  /-- `cache_size`. -/
  cacheSize : UInt64
  deriving DecidableEq, Repr

/-- `Metadata`. -/
structure Metadata where
  /-- `cache_file_index_`: file ids and pointers to files. -/
  cacheFileIndex : LruCache UInt32 ℕ := {}
  /-- `block_index_`. -/
  blockIndex : AList (fun _ : Bytes => LBA) := ∅

namespace Metadata

/-- `Insert(cache_id, file)`. -/
def insertFile (m : Metadata) (cacheId : UInt32) (file : ℕ) : Metadata :=
  { m with cacheFileIndex := m.cacheFileIndex.insert cacheId file }

/-- `Insert(key, lba)`: `unordered_map::insert` does nothing for a key that is there. -/
def insert (m : Metadata) (key : Bytes) (lba : LBA) : Metadata :=
  match m.blockIndex.lookup key with
  | some _ => m
  | none => { m with blockIndex := m.blockIndex.insert key lba }

/-- `Lookup(key, lba)`. -/
def lookup (m : Metadata) (key : Bytes) : Option LBA := m.blockIndex.lookup key

/-- `Lookup(cache_id)`. -/
def lookupFile (m : Metadata) (cacheId : UInt32) : Except Stop (Option ℕ × Metadata) :=
  match m.cacheFileIndex.get cacheId with
  | .error e => .error e
  | .ok (file, index) => .ok (file, { m with cacheFileIndex := index })

/-- `Erase(key)`: `block_index_[key]` adds an entry if there is none, and then it is
erased. -/
def erase (m : Metadata) (key : Bytes) : Metadata := { m with blockIndex := m.blockIndex.erase key }

/-- `Evict()`; `cacheid` is `ret->cacheid()`. -/
def evict (m : Metadata) (cacheid : ℕ → Option UInt32) : Except Stop (ℕ × Metadata) :=
  match m.cacheFileIndex.evict with
  | .error e => .error e
  | .ok (ret, index) =>
    match cacheid ret with
    | none => .error .undefined
    | some id => .ok (ret, { m with cacheFileIndex := index.erase id })

/-- `Metadata::Insert` keeps the entry of a key that is there. -/
theorem lookup_insert (m : Metadata) (key : Bytes) (lba : LBA) (k : Bytes) :
    (m.insert key lba).lookup k = if k = key then some ((m.lookup key).getD lba) else m.lookup k := by
  unfold insert lookup
  cases hl : m.blockIndex.lookup key with
  | some lba' =>
    split_ifs with hk
    · rw [hk, hl, Option.getD_some]
    · rfl
  | none =>
    split_ifs with hk
    · rw [hk, AList.lookup_insert, Option.getD_none]
    · rw [AList.lookup_insert_ne hk]

theorem lookup_erase (m : Metadata) (key k : Bytes) :
    (m.erase key).lookup k = if k = key then none else m.lookup k := by
  unfold erase lookup
  split_ifs with hk
  · rw [hk, AList.lookup_erase]
  · rw [AList.lookup_erase_ne hk]

/-- The index of the keys and the index of the files are apart. -/
@[simp] theorem cacheFileIndex_insert (m : Metadata) (key : Bytes) (lba : LBA) :
    (m.insert key lba).cacheFileIndex = m.cacheFileIndex := by
  unfold insert
  split <;> rfl

end Metadata

/-! ### The cache -/

/-- `FlashCache`. -/
structure FlashCache where
  /-- `fcache_mutex` is locked. -/
  fcacheMutex : Bool := false
  /-- `size_`, which the constructor does not initialise. -/
  size : UInt64
  /-- `writer_cache_id_`. -/
  writerCacheId : UInt32 := 0
  /-- `cache_file_`. -/
  cacheFile : ℕ := 0
  /-- `opt_`. -/
  opt : FlashCacheConfig
  /-- `metadata_`. -/
  metadata : Metadata := {}
  /-- The files behind the pointers; `none` for a deleted one. -/
  heap : List (Option WriteableCacheFile) := []
  /-- The ids of the files in the cache directory. -/
  dir : List UInt32 := []

namespace FlashCache

/-- The file behind a pointer. -/
def deref (c : FlashCache) (p : ℕ) : Option WriteableCacheFile := c.heap[p]?.join

/-- The file behind a pointer is changed. -/
def store (c : FlashCache) (p : ℕ) (f : WriteableCacheFile) : FlashCache :=
  { c with heap := c.heap.set p (some f) }

/-- What `NewCacheFile()` makes of the cache. -/
def withNewFile (c : FlashCache) : FlashCache :=
  let f := (WriteableCacheFile.new c.writerCacheId c.opt.cacheFileSize c.opt.writeBufferSize).created
    (decide (c.writerCacheId ∈ c.dir)) 0
  { c with
    heap := c.heap ++ [some f]
    dir := if c.writerCacheId ∈ c.dir then c.dir else c.writerCacheId :: c.dir
    cacheFile := c.heap.length
    metadata := c.metadata.insertFile c.writerCacheId c.heap.length
    writerCacheId := c.writerCacheId + 1 }

/-- `NewCacheFile()`. -/
def newCacheFile (c : FlashCache) : Except Stop FlashCache :=
  match (WriteableCacheFile.new c.writerCacheId c.opt.cacheFileSize c.opt.writeBufferSize).create
      (decide (c.writerCacheId ∈ c.dir)) 0 with
  | .error e => .error e
  | .ok _ => .ok c.withNewFile

/-- **`Create()` of the next file returns**: its id is in the directory, so that it does
nothing, or the name of its semaphore fits. -/
def Creatable (c : FlashCache) : Prop := c.writerCacheId ∉ c.dir → SemNameFits c.writerCacheId

instance (c : FlashCache) : Decidable c.Creatable := inferInstanceAs (Decidable (_ → _))

/-- `FlashCache(opt)` and `Open()` on an empty directory; `size` is what `size_`
happens to be. -/
def openEmpty (opt : FlashCacheConfig) (size : UInt64) : FlashCache := withNewFile { size, opt }

/-- The loop of `Insert`, with room for `fuel` rounds. -/
def insertLoop (crc : Bytes → UInt32) (mode : FlashcacheMode) (writes : List IoResult) (key val : Bytes) :
    ℕ → FlashCache → LBA → Except Stop (Bool × LBA × FlashCache)
  | 0, _, _ => .error .unfinished
  | fuel + 1, c, lba =>
    match c.deref c.cacheFile with
    | none => .error .undefined
    | some f =>
      match f.append crc mode writes key val lba with
      | .error e => .error e
      | .ok (true, lba, f) => .ok (true, lba, c.store c.cacheFile f)
      | .ok (false, lba, f) =>
        if f.eof then
          match (c.store c.cacheFile f).newCacheFile with
          | .error e => .error e
          | .ok c => insertLoop crc mode writes key val fuel c lba
        else .ok (false, lba, c.store c.cacheFile f)

/-- `Insert(key, value)`: the number it returns and the cache. A new file is not at its
end after an `Append`, so the loop has two rounds at most (`insertLoop_fuel`). -/
def insert (crc : Bytes → UInt32) (mode : FlashcacheMode) (writes : List IoResult) (c : FlashCache)
    (key val : Bytes) : Except Stop (Int × FlashCache) :=
  if c.fcacheMutex then .error .blocked
  else
    match insertLoop crc mode writes key val 2 { c with fcacheMutex := true } {} with
    | .error e => .error e
    -- the call returns with the mutex locked
    | .ok (false, _, c) => .ok (-1, c)
    | .ok (true, lba, c) =>
      .ok (0, { c with size := c.size + lba.size.toUInt64, metadata := c.metadata.insert key lba,
                       fcacheMutex := false })

/-- `Lookup(key, size)`: the value, or `none` for `NULL`, and the cache. -/
def lookup (crc : Bytes → UInt32) (mode : FlashcacheMode) (env : Environment) (c : FlashCache)
    (key : Bytes) : Except Stop (Option Bytes × FlashCache) :=
  if c.fcacheMutex then .error .blocked
  else
    let c := { c with fcacheMutex := true }
    match c.metadata.lookup key with
    -- here and where the file is not found the call returns with the mutex locked
    | none => .ok (none, c)
    | some lba =>
      match c.metadata.lookupFile lba.cacheId with
      | .error e => .error e
      | .ok (none, metadata) => .ok (none, { c with metadata })
      | .ok (some p, metadata) =>
        match c.deref p with
        | none => .error .undefined
        | some file =>
          match file.read crc mode env lba with
          | .error e => .error e
          -- whether `Read` succeeded is not looked at; `blk_val` is empty if it did not
          | .ok r => .ok (some ((r.map Prod.snd).getD []), { c with metadata, fcacheMutex := false })

/-- `DeleteMetaData(key)`, which does not lock. -/
def deleteMetaData (c : FlashCache) (key : Bytes) : FlashCache :=
  { c with metadata := c.metadata.erase key }

/-! ### Eviction -/

/-- The number that a `float` holds after a conversion from `n`: 24 significant bits,
halves rounded to even. -/
def toFloat (n : ℕ) : ℕ :=
  let e := n.log2 - 23
  let q := n / 2 ^ e
  let r := n % 2 ^ e
  (if 2 ^ e < 2 * r ∨ 2 ^ e = 2 * r ∧ q % 2 = 1 then q + 1 else q) * 2 ^ e

/-- `size + size_ > opt_.cache_size * 1.0f`: both sides are floats. -/
def overfull (c : FlashCache) (size : UInt64) : Bool :=
  decide (toFloat c.opt.cacheSize.toNat < toFloat (size + c.size).toNat)

/-- The writer is about to fetch the buffer `b`. -/
def Fetches (f : WriteableCacheFile) (b : CacheWriteBuffer) : Prop :=
  f.tid = some .looping ∧ f.bufDoff < f.bufWoff ∧ f.bufs[f.bufDoff]? = some b

/-- One step of the writer of a file; if it is about to fetch a buffer, the call of
`Evict` finds room. Without room it would go for `fcache_mutex`. -/
def Writes (c : FlashCache) (f g : WriteableCacheFile) : Prop :=
  f.WriterStep g ∧ ∀ b, Fetches f b → c.overfull (UInt64.ofNat b.used) = false

/-- The first steps of `WriteableCacheFile::Close`, before `tid.join()`. -/
def startClose (mode : FlashcacheMode) (f : WriteableCacheFile) : WriteableCacheFile :=
  { f with
    eof := true
    bufWoff := match mode with
      | .writeBuffer => f.bufWoff + 1
      | .direct => f.bufWoff
    semWriter := f.semWriter + 1 }

/-- `WriteableCacheFile::Close()`, called with `fcache_mutex` locked. -/
inductive Close (mode : FlashcacheMode) (c : FlashCache) : WriteableCacheFile → WriteableCacheFile → Prop where
  /-- The writer is waited for. -/
  | join {f g : WriteableCacheFile} (htid : f.tid.isSome)
      (hrun : ReflTransGen c.Writes (startClose mode f) g) (hjoin : g.tid = some .finished) :
      Close mode c f { g with tid := none, bufs := [] }
  /-- There is no writer. -/
  | noWriter {f : WriteableCacheFile} (htid : f.tid = none) (hfd : f.fd.isSome) :
      Close mode c f { f with bufs := [] }

/-- One round of the loop of `Evict`. `Delete` returns `filesize_` as an `int`, or 0 if
`unlink` fails; the second `Close`, of the destructor, has nothing to do. -/
inductive EvictRound (mode : FlashcacheMode) (size : UInt64) : FlashCache → FlashCache → Prop where
  /-- The least recently used file is taken out of the indices and deleted. -/
  | round {c : FlashCache} {p : ℕ} {f g : WriteableCacheFile} {metadata : Metadata} (unlinked : Bool)
      (hover : c.overfull size = true) (hlock : c.fcacheMutex = false)
      (hevict : c.metadata.evict (fun p => (c.deref p).map WriteableCacheFile.cacheId) = .ok (p, metadata))
      (hf : c.deref p = some f) (hclose : Close mode c f g) :
      EvictRound mode size c
        { c with
          metadata := g.keyLists.foldl Metadata.erase metadata
          size := if unlinked then c.size - g.filesize.toInt32.toInt64.toUInt64 else c.size
          heap := c.heap.set p none
          dir := if unlinked then c.dir.erase g.cacheId else c.dir }

/-- `Evict(size)`, when it returns. -/
def Evict (mode : FlashcacheMode) (size : UInt64) (c c' : FlashCache) : Prop :=
  ReflTransGen (EvictRound mode size) c c' ∧ c'.overfull size = false

end FlashCache

/-! ### The heap -/

namespace FlashCache

variable {c c' : FlashCache} {p q : ℕ} {f : WriteableCacheFile}

/-- A pointer that denotes a file is an old one. -/
theorem lt_of_deref (hf : c.deref p = some f) : p < c.heap.length := by
  by_contra hge
  simp [deref, List.getElem?_eq_none (Nat.not_lt.mp hge)] at hf

/-- A changed file is found behind its pointer, and the others as before. -/
theorem deref_store (hf : c.deref p = some f) (g : WriteableCacheFile) (q : ℕ) :
    (c.store p g).deref q = if q = p then some g else c.deref q := by
  have hlt := lt_of_deref hf
  rw [deref, store, List.getElem?_set]
  by_cases hq : q = p
  · rw [if_pos hq.symm, if_pos (hq ▸ hlt), if_pos hq]
    rfl
  · rw [if_neg (Ne.symm hq), if_neg hq]
    rfl

/-- A file that is put behind the others is behind a new pointer. -/
theorem join_getElem?_concat (heap : List (Option WriteableCacheFile)) (f : WriteableCacheFile) (q : ℕ) :
    (heap ++ [some f])[q]?.join = if q = heap.length then some f else heap[q]?.join := by
  rcases Nat.lt_trichotomy q heap.length with hlt | rfl | hgt
  · rw [List.getElem?_append_left hlt, if_neg (Nat.ne_of_lt hlt)]
  · simp
  · rw [List.getElem?_append_right (Nat.le_of_lt hgt), if_neg (Nat.ne_of_gt hgt),
      List.getElem?_eq_none (Nat.le_of_lt hgt), List.getElem?_eq_none (by simp; omega)]

/-- `NewCacheFile()` returns exactly if `Create()` does. -/
theorem newCacheFile_eq (c : FlashCache) :
    c.newCacheFile = if c.Creatable then .ok c.withNewFile else .error .undefined := by
  have hiff : (decide (c.writerCacheId ∈ c.dir) = false → SemNameFits (WriteableCacheFile.new c.writerCacheId
      c.opt.cacheFileSize c.opt.writeBufferSize).cacheId) ↔ c.Creatable := by
    rw [Creatable, decide_eq_false_iff_not, WriteableCacheFile.new]
  rw [newCacheFile, WriteableCacheFile.create_eq]
  by_cases hc : c.Creatable
  · rw [if_pos (hiff.mpr hc), if_pos hc]
  · rw [if_neg (mt hiff.mp hc), if_neg hc]

theorem newCacheFile_iff : c.newCacheFile = .ok c' ↔ c.Creatable ∧ c' = c.withNewFile := by
  rw [newCacheFile_eq]
  by_cases hc : c.Creatable
  · simp [hc, eq_comm]
  · simp [hc]

/-- The first file of an empty directory is made. -/
theorem newCacheFile_empty (opt : FlashCacheConfig) (size : UInt64) :
    newCacheFile { size, opt } = .ok (openEmpty opt size) :=
  newCacheFile_iff.mpr ⟨fun _ => (semNameFits_iff 0).mpr (.inl (by decide)), rfl⟩

/-- A new file is behind a new pointer. -/
theorem deref_withNewFile (c : FlashCache) (q : ℕ) : c.withNewFile.deref q =
    if q = c.heap.length then
      some ((WriteableCacheFile.new c.writerCacheId c.opt.cacheFileSize c.opt.writeBufferSize).created
        (decide (c.writerCacheId ∈ c.dir)) 0)
    else c.deref q :=
  join_getElem?_concat c.heap _ q

/-- A file that is stored unchanged. -/
theorem store_self (hf : c.deref p = some f) : c.store p f = c := by
  have hlt := lt_of_deref hf
  have hset : c.heap.set p (some f) = c.heap := by
    rw [deref, List.getElem?_eq_getElem hlt] at hf
    rw [← show c.heap[p] = some f from hf, List.set_getElem_self]
  rw [store, hset]

/-- Of two changes of a file the later one counts. -/
theorem store_store (c : FlashCache) (p : ℕ) (f g : WriteableCacheFile) : (c.store p f).store p g = c.store p g := by
  rw [store, store, store, List.set_set]

/-- What a `Lookup` that returns has done: what it returns, and the cache afterwards. -/
inductive Looked (crc : Bytes → UInt32) (mode : FlashcacheMode) (env : Environment) (c : FlashCache) (key : Bytes) :
    Option Bytes → FlashCache → Prop where
  /-- The key is not in the index, and the mutex stays locked. -/
  | absent (hl : c.metadata.lookup key = none) : Looked crc mode env c key none { c with fcacheMutex := true }
  /-- Its file is not in the index of the files, and the mutex stays locked. -/
  | noFile {lba : LBA} {index : LruCache UInt32 ℕ} (hl : c.metadata.lookup key = some lba)
      (hget : c.metadata.cacheFileIndex.get lba.cacheId = .ok (none, index)) :
      Looked crc mode env c key none
        { c with metadata := { c.metadata with cacheFileIndex := index }, fcacheMutex := true }
  /-- The file is read, and the mutex is given back. -/
  | read {lba : LBA} {index : LruCache UInt32 ℕ} {p : ℕ} {file : WriteableCacheFile} {out : Option (Bytes × Bytes)}
      (hl : c.metadata.lookup key = some lba)
      (hget : c.metadata.cacheFileIndex.get lba.cacheId = .ok (some p, index)) (hf : c.deref p = some file)
      (hread : file.read crc mode env lba = .ok out) :
      Looked crc mode env c key (some ((out.map Prod.snd).getD []))
        { c with metadata := { c.metadata with cacheFileIndex := index }, fcacheMutex := false }

/-- A `Lookup` that returns has gone one of the three ways. -/
theorem Looked.of_lookup {c' : FlashCache} {crc : Bytes → UInt32} {mode : FlashcacheMode} {env : Environment}
    {key : Bytes} {r : Option Bytes} (hr : c.lookup crc mode env key = .ok (r, c')) :
    Looked crc mode env c key r c' := by
  unfold lookup at hr
  split_ifs at hr
  simp only at hr
  cases hl : c.metadata.lookup key with
  | none =>
    rw [hl] at hr
    cases hr
    exact .absent hl
  | some lba =>
    simp only [hl, Metadata.lookupFile] at hr
    cases hget : c.metadata.cacheFileIndex.get lba.cacheId with
    | error e => rw [hget] at hr; cases hr
    | ok q =>
      obtain ⟨v, index⟩ := q
      rw [hget] at hr
      cases v with
      | none =>
        cases hr
        exact .noFile hl hget
      | some p =>
        simp only at hr
        split at hr
        · cases hr
        · next file hf =>
          split at hr
          · cases hr
          · next out hread =>
            cases hr
            exact .read hl hget hf hread

/-- **`Lookup` returns** exactly if the mutex is free, and then it has gone one of the three
ways. -/
theorem lookup_iff {c' : FlashCache} {crc : Bytes → UInt32} {mode : FlashcacheMode} {env : Environment}
    {key : Bytes} {r : Option Bytes} :
    c.lookup crc mode env key = .ok (r, c') ↔ c.fcacheMutex = false ∧ Looked crc mode env c key r c' := by
  constructor
  · refine fun hr => ⟨?_, .of_lookup hr⟩
    by_contra hlocked
    rw [lookup, if_pos (Bool.eq_true_of_not_eq_false hlocked)] at hr
    cases hr
  · rintro ⟨hfree, h⟩
    unfold lookup
    rw [if_neg (by simp [hfree])]
    cases h with
    | absent hl => simp only [hl]
    | noFile hl hget => simp only [hl, Metadata.lookupFile, hget]
    | read hl hget hf hread =>
      simp only [hl, Metadata.lookupFile, hget]
      rw [show ∀ b p, ({ c with fcacheMutex := b } : FlashCache).deref p = c.deref p from fun _ _ => rfl, hf]
      simp only [hread]

/-- What `Lookup` leaves alone. -/
theorem lookup_frame {c' : FlashCache} {crc : Bytes → UInt32} {mode : FlashcacheMode} {env : Environment}
    {key : Bytes} {r : Option Bytes} (hr : c.lookup crc mode env key = .ok (r, c')) :
    c'.opt = c.opt ∧ c'.cacheFile = c.cacheFile ∧ c'.heap = c.heap := by
  cases Looked.of_lookup hr <;> exact ⟨rfl, rfl, rfl⟩

/-- After a file is deleted its pointer denotes nothing. -/
theorem deref_set_none (c : FlashCache) (p q : ℕ) :
    ({ c with heap := c.heap.set p none } : FlashCache).deref q = if q = p then none else c.deref q := by
  rw [deref, List.getElem?_set]
  by_cases hq : q = p
  · rw [if_pos hq.symm, if_pos hq]
    split_ifs <;> rfl
  · rw [if_neg (Ne.symm hq), if_neg hq]
    rfl

end FlashCache

/-! ### The system -/

/-- What happens to the cache. -/
inductive CacheAct where
  /-- `Insert(key, val)`. -/
  | insert (key val : Bytes)
  /-- `Lookup(key)`. -/
  | lookup (key : Bytes)
  /-- `DeleteMetaData(key)`. -/
  | deleteMetaData (key : Bytes)
  /-- `Evict(size)`. -/
  | evict (size : UInt64)
  /-- A step of the writer thread of the file behind a pointer. -/
  | writer (p : ℕ)

/-- **One call that returns, or one step of a writer.** -/
inductive CacheStep (crc : Bytes → UInt32) (mode : FlashcacheMode) : FlashCache → CacheAct → FlashCache → Prop where
  /-- `Insert` returns. -/
  | insert {c c' : FlashCache} {key val : Bytes} {writes : List IoResult} {r : Int}
      (hr : c.insert crc mode writes key val = .ok (r, c')) : CacheStep crc mode c (.insert key val) c'
  /-- `Lookup` returns. -/
  | lookup {c c' : FlashCache} {key : Bytes} {env : Environment} {r : Option Bytes}
      (hr : c.lookup crc mode env key = .ok (r, c')) : CacheStep crc mode c (.lookup key) c'
  /-- `DeleteMetaData` returns. -/
  | deleteMetaData {c : FlashCache} {key : Bytes} :
      CacheStep crc mode c (.deleteMetaData key) (c.deleteMetaData key)
  /-- `Evict` returns. -/
  | evict {c c' : FlashCache} {size : UInt64} (hr : c.Evict mode size c') :
      CacheStep crc mode c (.evict size) c'
  /-- The writer of a file takes a step. -/
  | writer {c : FlashCache} {p : ℕ} {f g : WriteableCacheFile} (hf : c.deref p = some f)
      (hw : c.Writes f g) : CacheStep crc mode c (.writer p) (c.store p g)

end EmbeddedKv.Store
