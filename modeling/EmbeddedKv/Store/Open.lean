import EmbeddedKv.Flash.Repair
import EmbeddedKv.Library.Runs
import EmbeddedKv.Store.Sound

/-!
# Opening a directory, and the files of a cache

`FlashCache::Open` on a directory with the cache files of earlier runs, `Evict` round by
round, and what always holds of the index of the files.

## The model

The directory is the list of its cache files in the order of `readdir`, each with the
number in its name and its bytes. The number goes through `atoi`, and one more than the
largest becomes the next id, as an `int` (`Listing`).

`RoundStep` has the calls of the cache as its steps, but for `Evict`: each round of its
loop is a step, since it gives the mutex back in between. An `Evict` that returns is
some rounds (`CacheStep.rounds`).

## What is proved

The index of the files always leads to files that are there and have the id under which
they are found (`Filed`): files that are recovered keep it so (`Filed.recover`), and so
does every step (`RoundStep.filed`).
-/

namespace EmbeddedKv.Store

open EmbeddedKv.Library EmbeddedKv.Flash WriteableCacheFile Relation

/-! ### Open -/

namespace FlashCache

/-- The body of the loop of `Open()`, for the file with the given id and bytes. -/
def recover (garbage : UInt32 → ℕ → ℕ → UInt8) (c : FlashCache) (entry : UInt32 × Bytes) : Except Stop FlashCache :=
  let f := WriteableCacheFile.opened entry.1 entry.2
  match f.repair (garbage entry.1) with
  | .error e => .error e
  | .ok calls =>
    .ok { c with
      -- `getFilesize()` is an `int`
      size := c.size + f.filesize.toInt32.toInt64.toUInt64
      heap := c.heap ++ [some { f with keyLists := calls.map Prod.fst }]
      metadata := (calls.foldl (fun m call => m.insert call.1 call.2) c.metadata).insertFile entry.1 c.heap.length
      writerCacheId := if c.writerCacheId ≤ entry.1 then entry.1 + 1 else c.writerCacheId }

/-- The loop of `Open()`. -/
def recoverAll (garbage : UInt32 → ℕ → ℕ → UInt8) : FlashCache → List (UInt32 × Bytes) → Except Stop FlashCache
  | c, [] => .ok c
  | c, entry :: files =>
    match c.recover garbage entry with
    | .error e => .error e
    | .ok c => recoverAll garbage c files

/-- `FlashCache(opt)` and `Open()` on a directory with the given files; `size` is what
`size_` happens to be. -/
def openDir (garbage : UInt32 → ℕ → ℕ → UInt8) (opt : FlashCacheConfig) (size : UInt64)
    (files : List (UInt32 × Bytes)) : Except Stop FlashCache :=
  match recoverAll garbage { size, opt, dir := files.map Prod.fst } files with
  | .error e => .error e
  | .ok c => c.newCacheFile

/-- `Open()` recovers the files and makes a new one. -/
theorem openDir_inv {garbage : UInt32 → ℕ → ℕ → UInt8} {opt : FlashCacheConfig} {size : UInt64}
    {files : List (UInt32 × Bytes)} {c : FlashCache} (ho : openDir garbage opt size files = .ok c) :
    ∃ c₁, recoverAll garbage { size, opt, dir := files.map Prod.fst } files = .ok c₁ ∧ c₁.Creatable ∧
      c = c₁.withNewFile := by
  unfold openDir at ho
  cases hr : recoverAll garbage { size, opt, dir := files.map Prod.fst } files with
  | error e => rw [hr] at ho; cases ho
  | ok c₁ =>
    rw [hr] at ho
    obtain ⟨hcreate, rfl⟩ := newCacheFile_iff.mp ho
    exact ⟨c₁, rfl, hcreate, rfl⟩

/-- An empty directory. -/
theorem openDir_nil (garbage : UInt32 → ℕ → ℕ → UInt8) (opt : FlashCacheConfig) (size : UInt64) :
    openDir garbage opt size [] = .ok (openEmpty opt size) := newCacheFile_empty opt size

end FlashCache

/-- **What a directory can hold**: names are distinct, and one more than the number in a
name is an `int`. -/
def Listing (files : List (UInt32 × Bytes)) : Prop :=
  (files.map Prod.fst).Nodup ∧ ∀ entry ∈ files, entry.1.toNat + 1 < 2 ^ 31

instance (files : List (UInt32 × Bytes)) : Decidable (Listing files) :=
  inferInstanceAs (Decidable (_ ∧ _))

/-- Of the addresses given for a key the first is kept, if the key has none. -/
theorem Metadata.foldl_insert (calls : List (Bytes × LBA)) (m : Metadata) :
    (calls.foldl (fun m call => m.insert call.1 call.2) m).cacheFileIndex = m.cacheFileIndex ∧
      ∀ key, (calls.foldl (fun m call => m.insert call.1 call.2) m).lookup key =
        (m.lookup key).or (calls.lookup key) := by
  induction calls generalizing m with
  | nil => exact ⟨rfl, fun key => by simp⟩
  | cons call calls ih =>
    obtain ⟨hindex, hlookup⟩ := ih (m.insert call.1 call.2)
    refine ⟨hindex.trans (cacheFileIndex_insert _ _ _), fun key => ?_⟩
    rw [List.foldl_cons, hlookup, Metadata.lookup_insert, List.lookup_cons]
    by_cases hkey : key = call.1
    · subst hkey
      cases m.lookup call.1 <;> simp
    · rw [if_neg hkey, beq_false_of_ne hkey]

/-- **A file that is found in the directory** gets a new pointer and is put into the
indices. -/
theorem FlashCache.recover_cases {garbage : UInt32 → ℕ → ℕ → UInt8} {c c' : FlashCache} {entry : UInt32 × Bytes}
    (hr : c.recover garbage entry = .ok c') : ∃ calls f,
    (WriteableCacheFile.opened entry.1 entry.2).repair (garbage entry.1) = .ok calls ∧
      f = { WriteableCacheFile.opened entry.1 entry.2 with keyLists := calls.map Prod.fst } ∧
      (∀ q, c'.deref q = if q = c.heap.length then some f else c.deref q) ∧
      c'.metadata.cacheFileIndex = c.metadata.cacheFileIndex.insert entry.1 c.heap.length ∧
      (∀ key, c'.metadata.lookup key = (c.metadata.lookup key).or (calls.lookup key)) ∧
      c'.writerCacheId = (if c.writerCacheId ≤ entry.1 then entry.1 + 1 else c.writerCacheId) ∧
      c'.heap.length = c.heap.length + 1 ∧ c'.dir = c.dir ∧ c'.opt = c.opt ∧ c'.cacheFile = c.cacheFile ∧
      c'.fcacheMutex = c.fcacheMutex := by
  unfold recover at hr
  cases hrep : (WriteableCacheFile.opened entry.1 entry.2).repair (garbage entry.1) with
  | error e => simp only [hrep] at hr; cases hr
  | ok calls =>
    simp only [hrep] at hr
    cases hr
    obtain ⟨hindex, hlookup⟩ := Metadata.foldl_insert calls c.metadata
    exact ⟨calls, _, rfl, rfl, join_getElem?_concat c.heap _, congrArg (LruCache.insert · entry.1 c.heap.length) hindex,
      hlookup, rfl, List.length_append, rfl, rfl, rfl, rfl⟩

/-- Its size is booked, as an `int`. -/
theorem FlashCache.recover_size {garbage : UInt32 → ℕ → ℕ → UInt8} {c c' : FlashCache} {entry : UInt32 × Bytes}
    (hr : c.recover garbage entry = .ok c') :
    c'.size = c.size + (UInt32.ofNat entry.2.length).toInt32.toInt64.toUInt64 := by
  unfold recover at hr
  cases hrep : (WriteableCacheFile.opened entry.1 entry.2).repair (garbage entry.1) with
  | error e => simp only [hrep] at hr; cases hr
  | ok calls =>
    simp only [hrep] at hr
    cases hr
    rfl

/-! ### Rounds -/

/-- What happens to the cache, with the rounds of `Evict` one by one. -/
inductive RoundAct where
  /-- A call that is not `Evict`, or a step of a writer. -/
  | call (a : CacheAct)
  /-- A round of `Evict(size)`. -/
  | round (size : UInt64)

/-- **One call or one round.** -/
inductive RoundStep (crc : Bytes → UInt32) (mode : FlashcacheMode) : FlashCache → RoundAct → FlashCache → Prop where
  /-- A call that is not `Evict`, or a step of a writer. -/
  | call {c c' : FlashCache} {a : CacheAct} (ha : ∀ size, a ≠ .evict size) (hs : CacheStep crc mode c a c') :
      RoundStep crc mode c (.call a) c'
  /-- A round of `Evict`. -/
  | round {c c' : FlashCache} {size : UInt64} (hr : FlashCache.EvictRound mode size c c') :
      RoundStep crc mode c (.round size) c'

variable {crc : Bytes → UInt32} {mode : FlashcacheMode} {c c' : FlashCache} {f g : WriteableCacheFile}
  {key val : Bytes} {p : ℕ} {a : CacheAct} {size : UInt64}

/-- Whatever a cache does is calls and rounds. -/
theorem CacheStep.rounds (hs : CacheStep crc mode c a c') :
    ReflTransGen (fun c c' => ∃ b, RoundStep crc mode c b c') c c' := by
  cases hs with
  | insert hr => exact .single ⟨_, .call (by simp) (.insert hr)⟩
  | lookup hr => exact .single ⟨_, .call (by simp) (.lookup hr)⟩
  | deleteMetaData => exact .single ⟨_, .call (by simp) .deleteMetaData⟩
  | evict hr => exact hr.1.lift id fun _ _ h => ⟨_, .round h⟩
  | writer hf hw => exact .single ⟨_, .call (by simp) (.writer hf hw)⟩

/-! ### The files of the cache -/

/-- **The index of the files** leads to files that are there, under their own ids. -/
structure Filed (c : FlashCache) : Prop where
  /-- It is in order. -/
  linked : c.metadata.cacheFileIndex.Linked
  /-- It names files that are there, by their ids. -/
  indexed : ∀ id p, c.metadata.cacheFileIndex.find id = some p →
    id ∈ c.dir ∧ ∃ f, c.deref p = some f ∧ f.cacheId = id

/-- The same files under the same ids. -/
theorem Filed.congr (h : Filed c) (hlinked : c'.metadata.cacheFileIndex.Linked)
    (hfind : ∀ id, c'.metadata.cacheFileIndex.find id = c.metadata.cacheFileIndex.find id) (hheap : c'.heap = c.heap)
    (hdir : c'.dir = c.dir) : Filed c' := by
  refine ⟨hlinked, fun id p hp => ?_⟩
  rw [hfind] at hp
  obtain ⟨hin, f, hf, hid⟩ := h.indexed id p hp
  refine ⟨by rw [hdir]; exact hin, f, ?_, hid⟩
  rw [FlashCache.deref, hheap]
  exact hf

/-- A file is changed. -/
theorem Filed.store (h : Filed c) (hf : c.deref p = some f) (hid : g.cacheId = f.cacheId) : Filed (c.store p g) := by
  refine ⟨h.linked, fun id q hq => ?_⟩
  obtain ⟨hin, e, he, hcid⟩ := h.indexed id q hq
  refine ⟨hin, ?_⟩
  by_cases hqp : q = p
  · rw [hqp, hf] at he
    obtain rfl := Option.some.inj he
    exact ⟨g, by rw [FlashCache.deref_store hf, if_pos hqp], hid.trans hcid⟩
  · exact ⟨e, by rw [FlashCache.deref_store hf, if_neg hqp]; exact he, hcid⟩

/-- A new file is found under its id, unless there is a file with that id already. -/
theorem find_withNewFile (c : FlashCache) (id : UInt32) : c.withNewFile.metadata.cacheFileIndex.find id =
    if id = c.writerCacheId then some ((c.metadata.cacheFileIndex.find id).getD c.heap.length)
    else c.metadata.cacheFileIndex.find id := by
  show (c.metadata.cacheFileIndex.insert c.writerCacheId c.heap.length).find id = _
  rw [LruCache.find_insert]
  split_ifs with hid
  · rw [hid]
  · rfl

/-- A new file has its id, whether it could be created or not. -/
theorem cacheId_created (cacheId maxSize writeBufferSize : UInt32) (fileExists : Bool) :
    ((WriteableCacheFile.new cacheId maxSize writeBufferSize).created fileExists 0).cacheId = cacheId := by
  rw [created]
  split_ifs <;> rfl

/-- An id in the directory stays there, and the id of the new file is there as well. -/
theorem mem_dir_withNewFile (c : FlashCache) (id : UInt32) :
    id ∈ c.withNewFile.dir ↔ id ∈ c.dir ∨ id = c.writerCacheId := by
  show id ∈ (if c.writerCacheId ∈ c.dir then c.dir else c.writerCacheId :: c.dir) ↔ _
  split_ifs with hin
  · exact ⟨.inl, fun hor => hor.elim (fun h => h) fun heq => heq ▸ hin⟩
  · rw [List.mem_cons, or_comm]

/-- A new file. -/
theorem Filed.withNewFile (h : Filed c) : Filed c.withNewFile := by
  refine ⟨h.linked.insert _ _, fun id p hp => ?_⟩
  rw [mem_dir_withNewFile, FlashCache.deref_withNewFile]
  rw [find_withNewFile] at hp
  have old : c.metadata.cacheFileIndex.find id = some p → (id ∈ c.dir ∨ id = c.writerCacheId) ∧ ∃ f,
      (if p = c.heap.length then some ((WriteableCacheFile.new c.writerCacheId c.opt.cacheFileSize
        c.opt.writeBufferSize).created (decide (c.writerCacheId ∈ c.dir)) 0) else c.deref p) = some f ∧ f.cacheId = id := by
    intro hq
    obtain ⟨hin, f, hf, hid⟩ := h.indexed id p hq
    exact ⟨.inl hin, f, by rw [if_neg (Nat.ne_of_lt (FlashCache.lt_of_deref hf))]; exact hf, hid⟩
  split_ifs at hp with hid
  · cases hfind : c.metadata.cacheFileIndex.find id with
    | some q =>
      rw [hfind, Option.getD_some] at hp
      exact old (hfind.trans hp)
    | none =>
      rw [hfind, Option.getD_none, Option.some.injEq] at hp
      exact ⟨.inr hid, _, if_pos hp.symm, by rw [cacheId_created, hid]⟩
  · exact old hp

/-- A file that is found in the directory, under an id that is not in use. -/
theorem Filed.recover (h : Filed c) {garbage : UInt32 → ℕ → ℕ → UInt8} {entry : UInt32 × Bytes}
    (hdir : entry.1 ∈ c.dir) (hnew : c.metadata.cacheFileIndex.find entry.1 = none)
    (hr : c.recover garbage entry = .ok c') : Filed c' ∧
      (∀ k, c'.metadata.cacheFileIndex.find k =
        if k = entry.1 then some c.heap.length else c.metadata.cacheFileIndex.find k) ∧
      ∀ k q, c.metadata.cacheFileIndex.find k = some q → k ≠ entry.1 ∧ q ≠ c.heap.length := by
  obtain ⟨calls, f, -, rfl, hderef, hindex, -, -, -, hdir', -⟩ := FlashCache.recover_cases hr
  have hfind : ∀ k, c'.metadata.cacheFileIndex.find k =
      if k = entry.1 then some c.heap.length else c.metadata.cacheFileIndex.find k := by
    intro k
    rw [hindex, LruCache.find_insert, hnew, Option.getD_none]
  have old : ∀ k q, c.metadata.cacheFileIndex.find k = some q → k ≠ entry.1 ∧ q ≠ c.heap.length := by
    intro k q hq
    obtain ⟨-, e, he, -⟩ := h.indexed k q hq
    refine ⟨?_, Nat.ne_of_lt (FlashCache.lt_of_deref he)⟩
    rintro rfl
    rw [hnew] at hq
    cases hq
  refine ⟨⟨by rw [hindex]; exact h.linked.insert _ _, fun k q hq => ?_⟩, hfind, old⟩
  rw [hdir', hderef]
  rw [hfind] at hq
  split_ifs at hq with hk
  · rw [if_pos (Option.some.inj hq).symm, hk]
    exact ⟨hdir, _, rfl, rfl⟩
  · rw [if_neg (old k q hq).2]
    exact h.indexed k q hq

/-- The file that gets the record of an `Insert` is in order. -/
theorem Filed.target {c₁ : FlashCache} (h : Filed c) (ht : FlashCache.Target mode c c₁) : Filed c₁ := by
  cases ht with
  | current => exact { h with }
  | rolled hf he hnew =>
    have hlocked : Filed { c with fcacheMutex := true } := { h with }
    exact hlocked.withNewFile

/-- **`Insert`.** -/
theorem Filed.insert (h : Filed c) {writes : List IoResult} {r : Int}
    (hr : c.insert crc mode writes key val = .ok (r, c')) : Filed c' := by
  obtain ⟨c₁, f, g, lba, lba', ok, ht, hf, -, ha, ⟨-, rfl⟩ | ⟨-, rfl⟩⟩ := FlashCache.insert_cases hr
  · have hs := (h.target ht).store hf (append_keys ha).1
    refine hs.congr ?_ (fun id => ?_) rfl rfl
    · rw [FlashCache.booked, Metadata.cacheFileIndex_insert]
      exact hs.linked
    · rw [FlashCache.booked, Metadata.cacheFileIndex_insert]
      rfl
  · exact (h.target ht).store hf (append_keys ha).1

/-- **`Lookup`** changes the order of the files and nothing else. -/
theorem lookup_effect {env : Environment} {r : Option Bytes} (h : c.metadata.cacheFileIndex.Linked)
    (hr : c.lookup crc mode env key = .ok (r, c')) : c'.metadata.cacheFileIndex.Linked ∧
      (∀ id, c'.metadata.cacheFileIndex.find id = c.metadata.cacheFileIndex.find id) ∧
      c'.metadata.blockIndex = c.metadata.blockIndex ∧ c'.dir = c.dir ∧ c'.writerCacheId = c.writerCacheId := by
  cases FlashCache.Looked.of_lookup hr with
  | absent hl => exact ⟨h, fun _ => rfl, rfl, rfl, rfl⟩
  | noFile hl hget => exact ⟨h.of_get hget, LruCache.find_get hget, rfl, rfl, rfl⟩
  | read hl hget hf hread => exact ⟨h.of_get hget, LruCache.find_get hget, rfl, rfl, rfl⟩

/-! ### Eviction -/

/-- `Close` changes neither the id nor the list of the keys. -/
theorem FlashCache.Close.frame (h : FlashCache.Close mode c f g) : g.cacheId = f.cacheId ∧ g.keyLists = f.keyLists := by
  cases h with
  | noWriter htid hfd => exact ⟨rfl, rfl⟩
  | @join g htid hrun hjoin =>
    have hsame : g.cacheId = f.cacheId ∧ g.keyLists = f.keyLists := by
      clear hjoin
      induction hrun with
      | refl => exact ⟨rfl, rfl⟩
      | tail _ hw ih => exact ⟨hw.1.cacheId.trans ih.1, hw.1.keyLists.trans ih.2⟩
    exact hsame

/-- The keys of a file are erased. -/
theorem Metadata.foldl_erase (keys : List Bytes) (m : Metadata) :
    (keys.foldl Metadata.erase m).cacheFileIndex = m.cacheFileIndex ∧
      ∀ key, (keys.foldl Metadata.erase m).lookup key = if key ∈ keys then none else m.lookup key := by
  induction keys generalizing m with
  | nil => exact ⟨rfl, fun key => by simp⟩
  | cons k keys ih =>
    obtain ⟨hindex, hlookup⟩ := ih (m.erase k)
    refine ⟨hindex, fun key => ?_⟩
    rw [List.foldl_cons, hlookup, Metadata.lookup_erase]
    simp only [List.mem_cons]
    split_ifs <;> simp_all

/-- The choice of `Evict` is the file behind the last pointer of the index. -/
theorem evict_of_index {q : ℕ} {index : LruCache UInt32 ℕ}
    (hindex : c.metadata.cacheFileIndex.evict = .ok (q, index)) (hf : c.deref q = some f) :
    c.metadata.evict (fun p => (c.deref p).map WriteableCacheFile.cacheId) =
      .ok (q, { c.metadata with cacheFileIndex := index.erase f.cacheId }) := by
  rw [Metadata.evict, hindex]
  simp only [hf, Option.map_some]

/-- A file is deleted after `Close` has made `g` of it, and its keys are erased. -/
def FlashCache.removed (c : FlashCache) (metadata : Metadata) (p : ℕ) (g : WriteableCacheFile) (unlinked : Bool) :
    FlashCache :=
  { c with
    metadata := g.keyLists.foldl Metadata.erase metadata
    size := if unlinked then c.size - g.filesize.toInt32.toInt64.toUInt64 else c.size
    heap := c.heap.set p none
    dir := if unlinked then c.dir.erase g.cacheId else c.dir }

/-- **The file that was used least recently** leaves the index and the heap, and the
entries of its keys the index of the keys. -/
theorem Filed.removed (h : Filed c) {metadata : Metadata}
    (hevict : c.metadata.evict (fun p => (c.deref p).map WriteableCacheFile.cacheId) = .ok (p, metadata))
    (hf : c.deref p = some f) (hgid : g.cacheId = f.cacheId) (hgkeys : g.keyLists = f.keyLists) (unlinked : Bool) :
    c.metadata.cacheFileIndex.list.getLast?.map Prod.snd = some f.cacheId ∧
      c.metadata.cacheFileIndex.find f.cacheId = some p ∧
      (∀ k, (c.removed metadata p g unlinked).metadata.cacheFileIndex.find k =
        if k = f.cacheId then none else c.metadata.cacheFileIndex.find k) ∧
      (∀ q, (c.removed metadata p g unlinked).deref q = if q = p then none else c.deref q) ∧
      (∀ key, (c.removed metadata p g unlinked).metadata.lookup key =
        if key ∈ f.keyLists then none else c.metadata.lookup key) ∧
      Filed (c.removed metadata p g unlinked) := by
  have hne : c.metadata.cacheFileIndex.list ≠ [] := by
    intro hnil
    rw [Metadata.evict, LruCache.evict, hnil] at hevict
    cases hevict
  obtain ⟨id, q, index, hpop, hlast, hfind, hlinked, herased⟩ := h.linked.evict hne
  obtain ⟨hin, f', hf', hid⟩ := h.indexed id q hfind
  rw [Metadata.evict, hpop] at hevict
  simp only [hf', Option.map_some] at hevict
  cases hevict
  obtain rfl : f = f' := Option.some.inj (hf.symm.trans hf')
  rw [← hid] at hlast hfind hlinked herased
  obtain ⟨hindex, hlookup⟩ := Metadata.foldl_erase g.keyLists { c.metadata with cacheFileIndex := index.erase f.cacheId }
  have hderef := FlashCache.deref_set_none c p
  refine ⟨hlast, hfind, fun k => ?_, hderef, fun key => ?_, ?_, fun k q hq => ?_⟩
  · rw [FlashCache.removed, hindex, herased]
  · rw [FlashCache.removed, hlookup, hgkeys]
    rfl
  · rw [FlashCache.removed, hindex]
    exact hlinked
  · rw [FlashCache.removed, hindex] at hq
    simp only [herased] at hq
    split_ifs at hq with hk
    obtain ⟨hkin, e, he, hcid⟩ := h.indexed k q hq
    have hqp : q ≠ p := by
      rintro rfl
      rw [hf] at he
      exact hk (by rw [← hcid, ← Option.some.inj he])
    refine ⟨?_, e, ?_, hcid⟩
    · show k ∈ if unlinked = true then c.dir.erase g.cacheId else c.dir
      split_ifs
      · rw [hgid]
        exact (List.mem_erase_of_ne hk).mpr hkin
      · exact hkin
    · exact (hderef q).trans ((if_neg hqp).trans he)

/-- **What a round of `Evict` does.** -/
theorem Filed.evictRound (h : Filed c) (hr : FlashCache.EvictRound mode size c c') : ∃ id p f,
    c.metadata.cacheFileIndex.list.getLast?.map Prod.snd = some id ∧
      c.metadata.cacheFileIndex.find id = some p ∧ c.deref p = some f ∧ f.cacheId = id ∧
      (∀ k, c'.metadata.cacheFileIndex.find k = if k = id then none else c.metadata.cacheFileIndex.find k) ∧
      (∀ q, c'.deref q = if q = p then none else c.deref q) ∧
      (∀ key, c'.metadata.lookup key = if key ∈ f.keyLists then none else c.metadata.lookup key) ∧
      c'.cacheFile = c.cacheFile ∧ c'.writerCacheId = c.writerCacheId ∧ Filed c' := by
  cases hr with
  | @round p f g metadata unlinked hover hlock hevict hf hclose =>
    obtain ⟨hgid, hgkeys⟩ := hclose.frame
    obtain ⟨hlast, hfind, hfinds, hderef, hlookup, hfiled⟩ := h.removed hevict hf hgid hgkeys unlinked
    exact ⟨f.cacheId, p, f, hlast, hfind, hf, rfl, hfinds, hderef, hlookup, rfl, rfl, hfiled⟩

/-- **Every step keeps the files in order.** -/
theorem RoundStep.filed {b : RoundAct} (hs : RoundStep crc mode c b c') (h : Filed c) : Filed c' := by
  cases hs with
  | round hr =>
    obtain ⟨-, -, -, -, -, -, -, -, -, -, -, -, hfiled⟩ := h.evictRound hr
    exact hfiled
  | call ha hs =>
    cases hs with
    | insert hr => exact h.insert hr
    | lookup hr =>
      obtain ⟨hlinked, hfind, -, hdir, -⟩ := lookup_effect h.linked hr
      exact h.congr hlinked hfind (FlashCache.lookup_frame hr).2.2 hdir
    | deleteMetaData => exact { h with }
    | evict hr => exact absurd rfl (ha _)
    | writer hf hw => exact h.store hf hw.1.cacheId

end EmbeddedKv.Store
