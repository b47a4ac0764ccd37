import EmbeddedKv.Library.TwoTier
import EmbeddedKv.Store.Mutex
import EmbeddedKv.Store.Refinement
import EmbeddedKv.Tiers.KvDb

/-!
# The store is a map in two tiers

The memory LRU and the flash cache as the two tiers of a map: `Represents` relates a
store to a `TwoTier`, and every step of the store is the step of the tiers.

## What is proved

* `Represents.setCommand`: SET puts the value into the memory tier.
* `Represents.getCommand`: GET obtains the value of the map, and moves the key to the
  memory tier if only the flash tier has it.
* `Represents.evictFlush`: eviction and flush move the key to the flash tier, which keeps
  a value that is there.
-/

namespace EmbeddedKv.Tiers

open EmbeddedKv.Library EmbeddedKv.Flash EmbeddedKv.Store WriteableCacheFile

variable {crc : Bytes → UInt32} {mode : FlashcacheMode} {logs logs' : ℕ → Bytes} {s s' s₁ s₂ : KvDb}
  {t : TwoTier Bytes Bytes} {key val : Bytes} {p : ℕ} {he : HashEntry} {env : Environment}

/-- A key and a value that can be stored. -/
def Storable (key val : Bytes) : Prop := NulFree key ∧ NulFree val ∧ recordSize key val < 2 ^ 31

/-- **The store is the map in two tiers.** -/
structure Represents (crc : Bytes → UInt32) (mode : FlashcacheMode) (logs : ℕ → Bytes) (s : KvDb)
    (t : TwoTier Bytes Bytes) : Prop where
  /-- The index of the entries is in order. -/
  linked : s.memLRU.Linked
  /-- The entry of a key has its value in memory. -/
  mem : ∀ key, match s.memLRU.find key with
    | none => t.mem key = none
    | some p => ∃ val, s.entry p = some ⟨key, createObject val⟩ ∧ t.mem key = some val ∧ Storable key val
  /-- Nothing waits for the flush. -/
  queue : s.memQueue = []
  /-- The logs of the flash cache. -/
  sound : CacheSound mode logs s.flashCache
  /-- The index of the keys leads to the values in flash. -/
  index : Refines crc logs s.flashCache t.flash
  /-- They are small. -/
  small : ∀ key val, t.flash key = some val → recordSize key val < 2 ^ 31

/-- A key that is not in memory. -/
theorem Represents.find_eq_none (h : Represents crc mode logs s t) :
    s.memLRU.find key = none ↔ t.mem key = none := by
  have hkey := h.mem key
  cases hf : s.memLRU.find key with
  | none =>
    rw [hf] at hkey
    exact ⟨fun _ => hkey, fun _ => rfl⟩
  | some p =>
    rw [hf] at hkey
    obtain ⟨val, -, hm, -⟩ := hkey
    simp [hm]

/-- A key that is in memory has its entry. -/
theorem Represents.entry_of_find (h : Represents crc mode logs s t) (hf : s.memLRU.find key = some p) :
    ∃ val, s.entry p = some ⟨key, createObject val⟩ ∧ t.mem key = some val ∧ Storable key val := by
  have hkey := h.mem key
  rw [hf] at hkey
  exact hkey

/-! ### SET -/

/-- **`cacheAdd`** puts the value into the memory tier. -/
theorem Represents.cacheAdd (h : Represents crc mode logs s t) (hst : Storable key val) :
    ∃ s', s.cacheAdd key (createObject val) = .ok s' ∧ s'.flashCache = s.flashCache ∧
      Represents crc mode logs s' (t.step (.set key val)) := by
  obtain ⟨lru, hget, hlinked, hfind⟩ := h.linked.get key
  have hother : ∀ {k}, k ≠ key → (t.step (.set key val)).mem k = t.mem k := fun hk => Function.update_of_ne hk _ _
  have hself : (t.step (.set key val)).mem key = some val := Function.update_self ..
  unfold KvDb.cacheAdd
  rw [cString_of_nulFree hst.1, hget]
  cases hf : s.memLRU.find key with
  | none =>
    refine ⟨_, rfl, rfl, hlinked.insert _ _, fun k => ?_, h.queue, h.sound, h.index, h.small⟩
    have hnew : (lru.insert key s.entries.length).find k =
        if k = key then some s.entries.length else s.memLRU.find k := by
      rw [LruCache.find_insert, hfind, hfind, hf, Option.getD_none]
    simp only [hnew]
    by_cases hk : k = key
    · subst hk
      rw [if_pos rfl]
      refine ⟨val, ?_, hself, hst⟩
      simp [KvDb.entry]
    · rw [if_neg hk, hother hk]
      cases hfk : s.memLRU.find k with
      | none => exact h.find_eq_none.mp hfk
      | some q =>
        obtain ⟨v, hv, hrest⟩ := h.entry_of_find hfk
        refine ⟨v, ?_, hrest⟩
        rw [KvDb.entry, List.getElem?_append_left (KvDb.lt_of_entry hv)]
        exact hv
  | some p =>
    obtain ⟨old, hold, -, -⟩ := h.entry_of_find hf
    simp only [hold]
    refine ⟨_, rfl, rfl, hlinked, fun k => ?_, h.queue, h.sound, h.index, h.small⟩
    simp only [hfind, KvDb.entry, KvDb.join_set (KvDb.lt_of_entry hold)]
    by_cases hk : k = key
    · subst hk
      rw [hf]
      exact ⟨val, if_pos rfl, hself, hst⟩
    · rw [hother hk]
      cases hfk : s.memLRU.find k with
      | none => exact h.find_eq_none.mp hfk
      | some q =>
        obtain ⟨v, hv, hrest⟩ := h.entry_of_find hfk
        -- another key has another entry
        have hqp : q ≠ p := by
          rintro rfl
          exact hk (congrArg HashEntry.key (Option.some.inj (hv.symm.trans hold)))
        exact ⟨v, by simp only [if_neg hqp]; exact hv, hrest⟩

/-- **SET** puts the value into the memory tier. -/
theorem Represents.setCommand (h : Represents crc mode logs s t) (hst : Storable key val) :
    ∃ s', s.setCommand key val = .ok s' ∧ s'.flashCache = s.flashCache ∧
      Represents crc mode logs s' (t.step (.set key val)) := h.cacheAdd hst

/-! ### GET -/

/-- **The disk gives the record of the key back**, if it is needed: the reads succeed,
and in write-buffer mode the record can be read. -/
def ReadSucceeds (mode : FlashcacheMode) (env : Environment) (s : KvDb) (key : Bytes) : Prop :=
  s.memLRU.find key = none → ∀ lba, s.flashCache.metadata.lookup key = some lba →
    Enough env.preads lba.size.toNat ∧
      (mode = .writeBuffer → ∀ p f, s.flashCache.metadata.cacheFileIndex.find lba.cacheId = some p →
        s.flashCache.deref p = some f → f.Readable mode lba)

/-- A node is moved to the front of the list. -/
theorem Represents.touch (h : Represents crc mode logs s t) {lru : LruCache Bytes ℕ} (hlinked : lru.Linked)
    (hfind : ∀ k, lru.find k = s.memLRU.find k) : Represents crc mode logs { s with memLRU := lru } t :=
  ⟨hlinked, fun k => by simp only [hfind]; exact h.mem k, h.queue, h.sound, h.index, h.small⟩

/-- **GET of a key in memory** needs nothing of the flash cache. -/
theorem Represents.getCommand_mem (h : Represents crc mode logs s t) (hk : NulFree key)
    (hf : s.memLRU.find key = some p) (env : Environment) :
    ∃ s', s.getCommand crc mode env key = .ok (t.value key, s') ∧
      Represents crc mode logs s' (t.step (.get key)) ∧ s'.flashCache = s.flashCache := by
  obtain ⟨lru, hget, hlinked, hfind⟩ := h.linked.get key
  obtain ⟨val, hentry, hm, -⟩ := h.entry_of_find hf
  have hvalue : t.value key = some val := by rw [TwoTier.value, hm, Option.some_or]
  have hstay : t.step (.get key) = t := by rw [TwoTier.step, TwoTier.promote, hm]
  unfold KvDb.getCommand
  rw [cString_of_nulFree hk, hget, hf]
  simp only [hentry, hvalue, hstay]
  exact ⟨_, rfl, h.touch hlinked hfind, rfl⟩

/-- **GET** obtains the value of the map, and moves the key to the memory tier if only
the flash tier has it; the mutex of the flash cache stays free if there is a value. -/
theorem Represents.getCommand (h : Represents crc mode logs s t) (hfree : s.flashCache.fcacheMutex = false)
    (hk : NulFree key) (hread : ReadSucceeds mode env s key) :
    ∃ s', s.getCommand crc mode env key = .ok (t.value key, s') ∧
      Represents crc mode logs s' (t.step (.get key)) ∧
      (t.value key ≠ none → s'.flashCache.fcacheMutex = false) := by
  cases hf : s.memLRU.find key with
  | some p =>
    obtain ⟨s', hget, hrep, hcache⟩ := h.getCommand_mem hk hf env
    exact ⟨s', hget, hrep, fun _ => by rw [hcache, hfree]⟩
  | none =>
    have hm := h.find_eq_none.mp hf
    obtain ⟨lru, hget, hlinked, hfind⟩ := h.linked.get key
    have htouched := h.touch hlinked hfind
    unfold KvDb.getCommand
    rw [cString_of_nulFree hk, hget, hf]
    cases hl : s.flashCache.metadata.lookup key with
    | none =>
      have hfl := h.index.eq_none hl
      have hvalue : t.value key = none := by rw [TwoTier.value, hm, hfl]; rfl
      have hstay : t.step (.get key) = t := by rw [TwoTier.step, TwoTier.promote, hm, hfl]
      simp only [FlashCache.lookup_absent hfree hl, hvalue, hstay]
      exact ⟨_, rfl, { htouched with sound := { h.sound with }, index := h.index }, fun hne => absurd rfl hne⟩
    | some lba =>
      obtain ⟨val, hfl, hst⟩ := h.index.stores hl
      obtain ⟨hio, hbuf⟩ := hread hf lba hl
      obtain ⟨c', hlook, hfree'⟩ := h.sound.lookup_stored hfree hl hst hio hbuf
      obtain ⟨hsound, hgrow, hblock⟩ := h.sound.lookup hlook
      have hsmall := h.small key val hfl
      have hval : ¬ 2 ^ 31 ≤ val.length := by unfold recordSize at hsmall; omega
      have hmoved : Represents crc mode logs { s with memLRU := lru, flashCache := c' } t :=
        { htouched with sound := hsound, index := h.index.of_blockIndex hblock hgrow }
      obtain ⟨s', hadd, hcache, hrep⟩ := hmoved.cacheAdd ⟨hk, hst.2.2.1, hsmall⟩
      have hcache' : s'.flashCache = c' := hcache
      obtain ⟨hdel, hindex⟩ := hrep.sound.deleteMetaData_refines hrep.index key
      have hvalue : t.value key = some val := by rw [TwoTier.value, hm, hfl]; rfl
      have hstep : t.step (.get key) =
          ⟨Function.update t.mem key (some val), Function.update t.flash key none⟩ := by
        rw [TwoTier.step, TwoTier.promote, hm, hfl]
      simp only [hlook, if_neg hval, hadd, hvalue, hstep]
      refine ⟨_, rfl, ⟨hrep.linked, hrep.mem, hrep.queue, hdel, hindex, fun k v hv => ?_⟩, fun _ => ?_⟩
      · by_cases hkey : k = key
        · simp [hkey] at hv
        · have hold : Function.update t.flash key none k = some v := hv
          rw [Function.update_of_ne hkey] at hold
          exact h.small k v hold
      · show s'.flashCache.fcacheMutex = false
        rw [hcache', hfree']

/-! ### Eviction and flush -/

/-- **Eviction and flush** move the key to the flash tier, which keeps a value that is
there, and leave the mutex of the flash cache free. -/
theorem Represents.evictFlush (h : Represents crc mode logs s t) {writes : List IoResult}
    (hfit : ∀ val, t.mem key = some val → Fits mode s.flashCache key val)
    (hkey : s.memLRU.list.getLast?.map Prod.snd = some key) (hevict : s.evictEntry = .ok s₁)
    (hflush : s₁.flush crc mode writes = .ok s₂) :
    s₂.flashCache.fcacheMutex = false ∧ ∃ logs', Represents crc mode logs' s₂ (t.step (.flush key)) := by
  have hne : s.memLRU.list ≠ [] := by
    intro hnil
    rw [hnil] at hkey
    cases hkey
  obtain ⟨k, p, lru, hpop, hlast, hfind, hlinked, hrest⟩ := h.linked.evict hne
  obtain rfl : key = k := Option.some.inj (hkey.symm.trans hlast)
  obtain ⟨val, hentry, hm, hk, hv, hsmall⟩ := h.entry_of_find hfind
  -- the entry is queued
  have hnonempty : s.memLRU.empty = false := LruCache.empty_of_find hfind
  have hsize : KvDb.lruCacheSize s.memLRU ≠ 0 := by
    rw [KvDb.lruCacheSize, hnonempty, if_neg Bool.false_ne_true]
    exact mt List.length_eq_zero_iff.mp hne
  have hlru : KvDb.lruCacheEvict s.memLRU = .ok (some p, lru) := by
    rw [KvDb.lruCacheEvict, hnonempty, if_neg Bool.false_ne_true, hpop]
  have hlt := KvDb.lt_of_entry hentry
  unfold KvDb.evictEntry at hevict
  rw [if_neg hsize, hlru] at hevict
  simp only [hentry, createObject, if_true, h.queue, List.nil_append] at hevict
  cases hevict
  -- it is the one that is flushed
  have hqueued : (s.entries.set p (some ⟨key, ⟨.flushing, val⟩⟩))[p]?.join = some ⟨key, ⟨.flushing, val⟩⟩ := by
    rw [KvDb.join_set hlt, if_pos rfl]
  unfold KvDb.flush at hflush
  simp only [KvDb.entry, hqueued, cString_of_nulFree hk, cString_of_nulFree hv] at hflush
  cases hins : s.flashCache.insert crc mode writes key val with
  | error e => rw [hins] at hflush; cases hflush
  | ok q =>
    obtain ⟨r, c'⟩ := q
    rw [hins] at hflush
    cases hflush
    obtain ⟨logs', hsound, hindex⟩ := h.sound.insert_refines h.index (hfit val hm) hk hv hins
    refine ⟨(h.sound.insert (hfit val hm) hins).1, logs', ?_⟩
    rw [show t.step (.flush key) = ⟨Function.update t.mem key none, MapEvent.keep t.flash (.put key val)⟩ by
      rw [TwoTier.step, TwoTier.flush, hm]]
    refine ⟨hlinked, fun k => ?_, rfl, hsound, hindex, fun k v hkv => ?_⟩
    · simp only [hrest, KvDb.entry, List.set_set, KvDb.join_set hlt]
      by_cases hkk : k = key
      · rw [if_pos hkk, hkk]
        exact Function.update_self ..
      · rw [if_neg hkk, Function.update_of_ne hkk]
        cases hfk : s.memLRU.find k with
        | none => exact h.find_eq_none.mp hfk
        | some q =>
          obtain ⟨v, hv', hrest'⟩ := h.entry_of_find hfk
          have hqp : q ≠ p := by
            rintro rfl
            exact hkk (congrArg HashEntry.key (Option.some.inj (hv'.symm.trans hentry)))
          exact ⟨v, by simp only [if_neg hqp]; exact hv', hrest'⟩
    · have hflash : Function.update t.flash key (some ((t.flash key).getD val)) k = some v := hkv
      by_cases hkk : k = key
      · subst hkk
        rw [Function.update_self, Option.some.injEq] at hflash
        cases hold : t.flash k with
        | none =>
          rw [hold, Option.getD_none] at hflash
          exact hflash ▸ hsmall
        | some w =>
          rw [hold, Option.getD_some] at hflash
          exact h.small k v (hold.trans (congrArg some hflash))
      · rw [Function.update_of_ne hkk] at hflash
        exact h.small k v hflash

/-- The writer of a cache file changes nothing. -/
theorem Represents.writer (h : Represents crc mode logs s t) {f g : WriteableCacheFile}
    (hf : s.flashCache.deref p = some f) (hw : f.WriterStep g) :
    Represents crc mode logs { s with flashCache := s.flashCache.store p g } t := by
  obtain ⟨hsound, hgrow⟩ := h.sound.writer hf hw
  exact { h with sound := hsound, index := h.index.of_blockIndex rfl hgrow }

/-- A store over a flash cache opened on an empty directory is empty. -/
theorem represents_openEmpty (crc : Bytes → UInt32) (mode : FlashcacheMode) (opt : FlashCacheConfig)
    (size : UInt64) (hc : mode = .writeBuffer → 0 < opt.writeBufferSize.toNat) :
    ∃ logs, Represents crc mode logs { flashCache := .openEmpty opt size } .empty := by
  obtain ⟨logs, hsound, hindex⟩ := openEmpty_refines crc mode opt size hc
  refine ⟨logs, LruCache.linked_empty, fun key => ?_, rfl, hsound, hindex, fun key val hv => (by cases hv)⟩
  simp only [LruCache.find_empty]
  rfl

end EmbeddedKv.Tiers
