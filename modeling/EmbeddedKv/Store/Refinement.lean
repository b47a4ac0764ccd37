import EmbeddedKv.Library.History
import EmbeddedKv.Library.Runs
import EmbeddedKv.Store.Sound

/-!
# The flash cache refines a map

The index of the keys together with the logs is a map from keys to values.

## What is proved

`Refines` relates a cache to a map: an entry of the index is the place of a record of
that key, with the value the map has, in one of the logs. Every call refines the
operation of a map in which a key that is there keeps its value (`CacheStep.refines`),
since this is what `Metadata::Insert` does, and `CacheSound.lookup_stored` says that
`Lookup` returns the value of the map.
-/

namespace EmbeddedKv.Store

open EmbeddedKv.Library EmbeddedKv.Flash WriteableCacheFile

variable {crc : Bytes → UInt32} {mode : FlashcacheMode} {f g : WriteableCacheFile} {key val : Bytes}
  {lba : LBA} {logs logs' : ℕ → Bytes} {c c' : FlashCache} {p : ℕ} {m : Bytes → Option Bytes}

/-- **The record of a key and a value** is at an address. -/
def Stores (crc : Bytes → UInt32) (logs : ℕ → Bytes) (c : FlashCache) (lba : LBA) (key val : Bytes) : Prop :=
  (∃ p, c.metadata.cacheFileIndex.find lba.cacheId = some p ∧ At (logs p) lba (image crc key val)) ∧
    NulFree key ∧ NulFree val ∧ recordSize key val < 2 ^ 32

/-- **The index of the keys refines a map**: an entry is the place of the value. -/
def Refines (crc : Bytes → UInt32) (logs : ℕ → Bytes) (c : FlashCache) (m : Bytes → Option Bytes) : Prop :=
  ∀ key, match c.metadata.lookup key with
    | none => m key = none
    | some lba => ∃ val, m key = some val ∧ Stores crc logs c lba key val

/-- What is stored stays where it is. -/
theorem Stores.grow (h : Stores crc logs c lba key val) (hg : Grows logs logs' c c') :
    Stores crc logs' c' lba key val := by
  obtain ⟨⟨p, hp, hat⟩, hrest⟩ := h
  obtain ⟨hp', more, hmore⟩ := hg _ p hp
  refine ⟨⟨p, hp', ?_⟩, hrest⟩
  rw [← hmore]
  exact hat.append (length_image_pos crc key val) more

/-- An entry leads to the value of the map. -/
theorem Refines.stores (h : Refines crc logs c m) (hl : c.metadata.lookup key = some lba) :
    ∃ val, m key = some val ∧ Stores crc logs c lba key val := by
  have hkey := h key
  rw [hl] at hkey
  exact hkey

/-- Without an entry the map has no value. -/
theorem Refines.eq_none (h : Refines crc logs c m) (hl : c.metadata.lookup key = none) : m key = none := by
  have hkey := h key
  rw [hl] at hkey
  exact hkey

/-! ### The calls -/

/-- A cache with the same index of the keys refines the same map. -/
theorem Refines.of_blockIndex (h : Refines crc logs c m)
    (hblock : c'.metadata.blockIndex = c.metadata.blockIndex) (hg : Grows logs logs' c c') :
    Refines crc logs' c' m := by
  intro key
  have hkey := h key
  rw [show c'.metadata.lookup key = c.metadata.lookup key by rw [Metadata.lookup, Metadata.lookup, hblock]]
  cases hl : c.metadata.lookup key with
  | none =>
    rw [hl] at hkey
    exact hkey
  | some lba =>
    rw [hl] at hkey
    obtain ⟨val, hval, hs⟩ := hkey
    exact ⟨val, hval, hs.grow hg⟩

/-- **`Insert`** keeps the value of a key that is there. -/
theorem CacheSound.insert_refines (h : CacheSound mode logs c) (hm : Refines crc logs c m)
    (hfit : Fits mode c key val) (hk : NulFree key) (hv : NulFree val) {writes : List IoResult} {r : Int}
    (hr : c.insert crc mode writes key val = .ok (r, c')) :
    ∃ logs', CacheSound mode logs' c' ∧ Refines crc logs' c' (MapEvent.keep m (.put key val)) := by
  obtain ⟨-, logs', hs, hgrow, hsmall, lba, hblock, hat⟩ := h.insert hfit hr
  refine ⟨logs', hs, fun k => ?_⟩
  have hlookup : c'.metadata.lookup k =
      if k = key then some ((c.metadata.lookup key).getD lba) else c.metadata.lookup k := by
    rw [← Metadata.lookup_insert, Metadata.lookup, Metadata.lookup, hblock]
  rw [hlookup, MapEvent.keep]
  by_cases heq : k = key
  · subst heq
    rw [if_pos rfl, Function.update_self]
    cases hl : c.metadata.lookup k with
    | none =>
      rw [hm.eq_none hl, Option.getD_none, Option.getD_none]
      exact ⟨val, rfl, hat, hk, hv, hsmall⟩
    | some lba' =>
      obtain ⟨val', hval, hst⟩ := hm.stores hl
      rw [hval, Option.getD_some, Option.getD_some]
      exact ⟨val', rfl, hst.grow hgrow⟩
  · rw [if_neg heq, Function.update_of_ne heq]
    cases hl : c.metadata.lookup k with
    | none => exact hm.eq_none hl
    | some lba' =>
      obtain ⟨val', hval, hst⟩ := hm.stores hl
      exact ⟨val', hval, hst.grow hgrow⟩

/-- **`Lookup`** changes the order of the files and nothing else. -/
theorem CacheSound.lookup (h : CacheSound mode logs c) {env : Environment} {r : Option Bytes}
    (hr : c.lookup crc mode env key = .ok (r, c')) :
    CacheSound mode logs c' ∧ Grows logs logs c c' ∧ c'.metadata.blockIndex = c.metadata.blockIndex := by
  -- whatever happens, the index finds the same files
  have same : ∀ {id : UInt32} {v : Option ℕ} {index : LruCache UInt32 ℕ} (b : Bool),
      c.metadata.cacheFileIndex.get id = .ok (v, index) → CacheSound mode logs
          { c with metadata := { c.metadata with cacheFileIndex := index }, fcacheMutex := b } ∧
        Grows logs logs c { c with metadata := { c.metadata with cacheFileIndex := index }, fcacheMutex := b } := by
    intro id v index b hget
    have hfind := LruCache.find_get hget
    refine ⟨⟨h.linked.of_get hget, fun id q hq => ?_, ?_, h.files, h.room⟩, fun id q hq => ⟨?_, List.prefix_refl _⟩⟩
    · exact h.indexed id q ((hfind id).symm.trans hq)
    · obtain ⟨f, hf, hcur⟩ := h.current
      exact ⟨f, hf, (hfind _).trans hcur⟩
    · exact (hfind id).trans hq
  cases FlashCache.Looked.of_lookup hr with
  | absent hl => exact ⟨{ h with }, fun id p hp => ⟨hp, List.prefix_refl _⟩, rfl⟩
  | noFile hl hget => exact ⟨(same true hget).1, (same true hget).2, rfl⟩
  | read hl hget hf hread => exact ⟨(same false hget).1, (same false hget).2, rfl⟩

/-- **`Lookup` returns what `Read` finds**, and gives the mutex back. -/
theorem FlashCache.lookup_read (hfree : c.fcacheMutex = false) (hlinked : c.metadata.cacheFileIndex.Linked)
    (hl : c.metadata.lookup key = some lba) (hp : c.metadata.cacheFileIndex.find lba.cacheId = some p)
    (hf : c.deref p = some f) {env : Environment} (hread : f.read crc mode env lba = .ok (some (key, val))) :
    ∃ c', c.lookup crc mode env key = .ok (some val, c') ∧ c'.fcacheMutex = false := by
  obtain ⟨index, hget, -, -⟩ := hlinked.get lba.cacheId
  rw [hp] at hget
  exact ⟨_, FlashCache.lookup_iff.mpr ⟨hfree, .read hl hget hf hread⟩, rfl⟩

/-- **`Lookup` of a stored value** returns it, and gives the mutex back. -/
theorem CacheSound.lookup_stored (h : CacheSound mode logs c) (hfree : c.fcacheMutex = false)
    (hl : c.metadata.lookup key = some lba) (hs : Stores crc logs c lba key val) {env : Environment}
    (hio : Enough env.preads lba.size.toNat)
    (hbuf : mode = .writeBuffer → ∀ p f, c.metadata.cacheFileIndex.find lba.cacheId = some p →
      c.deref p = some f → f.Readable mode lba) :
    ∃ c', c.lookup crc mode env key = .ok (some val, c') ∧ c'.fcacheMutex = false := by
  obtain ⟨⟨p, hp, hat⟩, hk, hv, hsmall⟩ := hs
  obtain ⟨-, f, hf, -⟩ := h.indexed _ p hp
  have hread := (h.files p f hf).read hat hk hv hsmall hio fun hm => hbuf hm p f hp hf
  exact FlashCache.lookup_read hfree h.linked hl hp hf hread

/-- `Lookup` of a key that is not there does not find it, and keeps the mutex. -/
theorem FlashCache.lookup_absent (hfree : c.fcacheMutex = false) (hl : c.metadata.lookup key = none)
    (crc : Bytes → UInt32) (mode : FlashcacheMode) (env : Environment) :
    c.lookup crc mode env key = .ok (none, { c with fcacheMutex := true }) :=
  FlashCache.lookup_iff.mpr ⟨hfree, .absent hl⟩

/-- `DeleteMetaData` deletes the key. -/
theorem CacheSound.deleteMetaData_refines (h : CacheSound mode logs c) (hm : Refines crc logs c m)
    (key : Bytes) : CacheSound mode logs (c.deleteMetaData key) ∧
      Refines crc logs (c.deleteMetaData key) (MapEvent.keep m (.del key)) := by
  refine ⟨{ h with }, fun k => ?_⟩
  rw [show (c.deleteMetaData key).metadata.lookup k = _ from Metadata.lookup_erase _ _ _, MapEvent.keep]
  by_cases heq : k = key
  · rw [if_pos heq, heq, Function.update_self]
  · rw [if_neg heq, Function.update_of_ne heq]
    exact hm k

/-- The writer of a file keeps the logs. -/
theorem CacheSound.writer (h : CacheSound mode logs c) (hf : c.deref p = some f) (hw : f.WriterStep g) :
    CacheSound mode logs (c.store p g) ∧ Grows logs logs c (c.store p g) := by
  have hg : FileSound mode g (logs p ++ []) := by
    rw [List.append_nil]
    exact (h.files p f hf).writer hw
  have hboth := h.store hf hg hw.cacheId
  rwa [List.append_nil, Function.update_eq_self] at hboth

/-! ### The simulation -/

/-- The operation on the map, if the call is one. -/
def CacheAct.event : CacheAct → Option (MapEvent Bytes Bytes)
  | .insert key val => some (.put key val)
  | .deleteMetaData key => some (.del key)
  | _ => none

/-- **The calls considered**: strings without zero bytes for which there is a place,
and no file is evicted. -/
def CacheAct.Admissible (mode : FlashcacheMode) (c : FlashCache) : CacheAct → Prop
  | .insert key val => NulFree key ∧ NulFree val ∧ Fits mode c key val
  | .evict _ => False
  | _ => True

/-- **The simulation**: every call refines the operation on the map that keeps the
value of a key that is there. -/
theorem CacheStep.refines {a : CacheAct} (hs : CacheStep crc mode c a c') (ha : a.Admissible mode c)
    {acts : List CacheAct} (h : CacheSound mode logs c)
    (hm : Refines crc logs c (kept (acts.filterMap CacheAct.event))) :
    ∃ logs', CacheSound mode logs' c' ∧
      Refines crc logs' c' (kept ((acts ++ [a]).filterMap CacheAct.event)) := by
  cases hs with
  | @insert c' key val writes r hr =>
    obtain ⟨hk, hv, hfit⟩ := ha
    have hsnoc : (acts ++ [CacheAct.insert key val]).filterMap CacheAct.event =
        acts.filterMap CacheAct.event ++ [.put key val] := by
      rw [List.filterMap_append]; rfl
    rw [hsnoc, kept_snoc]
    exact h.insert_refines hm hfit hk hv hr
  | @lookup c' key env r hr =>
    obtain ⟨hs, hgrow, hblock⟩ := h.lookup hr
    have hsame : (acts ++ [CacheAct.lookup key]).filterMap CacheAct.event = acts.filterMap CacheAct.event := by
      rw [List.filterMap_append]; exact List.append_nil _
    rw [hsame]
    exact ⟨logs, hs, hm.of_blockIndex hblock hgrow⟩
  | @deleteMetaData key =>
    have hsnoc : (acts ++ [CacheAct.deleteMetaData key]).filterMap CacheAct.event =
        acts.filterMap CacheAct.event ++ [.del key] := by
      rw [List.filterMap_append]; rfl
    rw [hsnoc, kept_snoc]
    exact ⟨logs, h.deleteMetaData_refines hm key⟩
  | evict hr => cases ha
  | @writer p f g hf hw =>
    obtain ⟨hs, hgrow⟩ := h.writer hf hw.1
    have hsame : (acts ++ [CacheAct.writer p]).filterMap CacheAct.event = acts.filterMap CacheAct.event := by
      rw [List.filterMap_append]; exact List.append_nil _
    rw [hsame]
    exact ⟨logs, hs, hm.of_blockIndex rfl hgrow⟩

/-- A cache opened on an empty directory is the empty map. -/
theorem openEmpty_refines (crc : Bytes → UInt32) (mode : FlashcacheMode) (opt : FlashCacheConfig)
    (size : UInt64) (hc : mode = .writeBuffer → 0 < opt.writeBufferSize.toNat) :
    ∃ logs, CacheSound mode logs (FlashCache.openEmpty opt size) ∧
      Refines crc logs (FlashCache.openEmpty opt size) fun _ => none := by
  have hfind : ∀ id, (FlashCache.openEmpty opt size).metadata.cacheFileIndex.find id =
      if id = 0 then some 0 else none := by
    intro id
    show (LruCache.insert {} (0 : UInt32) (0 : ℕ)).find id = _
    rw [LruCache.find_insert, LruCache.find_empty, LruCache.find_empty, Option.getD_none]
  have hderef : ∀ p, (FlashCache.openEmpty opt size).deref p =
      if p = 0 then some (fresh 0 opt.cacheFileSize opt.writeBufferSize) else none := by
    intro p
    rw [FlashCache.openEmpty, FlashCache.deref_withNewFile]
    rfl
  refine ⟨fun _ => [], ⟨LruCache.linked_empty.insert _ _, fun id p hp => ?_, ?_, fun p f hf => ?_, hc⟩,
    fun key => ?_⟩
  · rw [hfind] at hp
    split_ifs at hp with hid
    obtain rfl := Option.some.inj hp
    refine ⟨by rw [hid]; exact List.mem_cons_self, _, by rw [hderef]; exact if_pos rfl, hid.symm⟩
  · exact ⟨_, by rw [hderef]; exact if_pos rfl, by rw [hfind]; exact if_pos rfl⟩
  · rw [hderef] at hf
    split_ifs at hf
    obtain rfl := Option.some.inj hf
    exact fileSound_fresh mode _ _ hc
  · rw [show (FlashCache.openEmpty opt size).metadata.lookup key = none from AList.lookup_empty key]

end EmbeddedKv.Store
