import EmbeddedKv.Library.Listing
import EmbeddedKv.Store.Ids
import EmbeddedKv.Store.Latest
import Mathlib.Data.List.GetD

/-!
# Restart

What `Open` makes of the files that a cache in direct mode leaves behind after `Close`.

## The model

`FlashCache::Close` (`CloseAll`) closes the files in the order of their last use; the
directory may list them in any order (`Lists`). What `Open` builds does not depend on the
options of the new cache, which may be others.

## What is proved

`Close` returns (`Settled.closeAll`), and the files hold what the history put there
(`Layout`, `run_settled`), deleted records and later records of a key that was there
included. `Open` gives to the index the first record of a key in the file that is listed
first, so a `Lookup` after a restart finds what it found before, for every order of the
files, exactly if in every file the first record of a key has the value that `Lookup`
finds, and there are fewer than 1000 files (`restart_lookup`): for the next one `Create()`
does not return.
-/

namespace EmbeddedKv.Store

open EmbeddedKv.Library EmbeddedKv.Flash WriteableCacheFile Relation

/-! ### What the files hold -/

/-- The records in the files of a cache: those of the full files, in the order of their
ids, and those of the current one. -/
structure Layout where
  /-- The full files. -/
  full : List (List (Bytes × Bytes)) := []
  /-- The current file. -/
  current : List (Bytes × Bytes) := []

namespace Layout

/-- The files in the order of their ids. -/
def files (l : Layout) : List (List (Bytes × Bytes)) := l.full ++ [l.current]

/-- The current file has reached its maximal size, and has a record. -/
def AtEnd (maxSize : UInt32) (l : Layout) : Prop := l.current ≠ [] ∧ maxSize.toNat ≤ imagesSize l.current

instance (maxSize : UInt32) (l : Layout) : Decidable (l.AtEnd maxSize) := inferInstanceAs (Decidable (_ ∧ _))

/-- A new file. -/
def roll (l : Layout) : Layout := ⟨l.files, []⟩

/-- A record in the current file. -/
def add (l : Layout) (r : Bytes × Bytes) : Layout := { l with current := l.current ++ [r] }

/-- What an operation on the map does to the files. -/
def step (maxSize : UInt32) (l : Layout) : MapEvent Bytes Bytes → Layout
  | .put key val => if l.AtEnd maxSize then l.roll.add (key, val) else l.add (key, val)
  | .del _ => l

/-- The files after a history. -/
def after (maxSize : UInt32) (es : List (MapEvent Bytes Bytes)) : Layout := es.foldl (step maxSize) {}

/-- **Files that `Open` can read**: the sizes fit into 32 bits. -/
def Bounded (l : Layout) : Prop := ∀ recs ∈ l.files, imagesSize recs < 2 ^ 32

instance (l : Layout) : Decidable l.Bounded := inferInstanceAs (Decidable (∀ recs ∈ l.files, _))

variable {maxSize : UInt32} {l : Layout} {es : List (MapEvent Bytes Bytes)} {key val : Bytes}

theorem after_snoc (es : List (MapEvent Bytes Bytes)) (e : MapEvent Bytes Bytes) :
    after maxSize (es ++ [e]) = (after maxSize es).step maxSize e := by
  rw [after, List.foldl_append]
  rfl

/-- A record is added to the last file. -/
theorem mem_add {r r' : Bytes × Bytes} :
    (∃ recs ∈ (l.add r).files, r' ∈ recs) ↔ (∃ recs ∈ l.files, r' ∈ recs) ∨ r' = r := by
  simp only [add, files, List.mem_append, List.mem_singleton, or_and_right, exists_or, exists_eq_left, or_assoc]

theorem mem_roll {r' : Bytes × Bytes} : (∃ recs ∈ l.roll.files, r' ∈ recs) ↔ ∃ recs ∈ l.files, r' ∈ recs := by
  simp only [roll, files, List.mem_append, List.mem_singleton, or_and_right, exists_or, exists_eq_left,
    List.not_mem_nil, or_false]

/-- **What was put is in the files**, and nothing else. -/
theorem mem_after : (∃ recs ∈ (after maxSize es).files, (key, val) ∈ recs) ↔ .put key val ∈ es := by
  induction es using List.reverseRecOn with
  | nil => simp [after, files]
  | append_singleton es e ih =>
    rw [after_snoc, List.mem_append, List.mem_singleton]
    cases e with
    | del k => simp [step, ih]
    | put k v =>
      rw [step]
      split_ifs
      · rw [mem_add, mem_roll, ih]
        simp
      · rw [mem_add, ih]
        simp

/-- Files grow, so that with fewer records they can be read as well. -/
theorem Bounded.of_add {r : Bytes × Bytes} (h : (l.add r).Bounded) : l.Bounded := by
  intro recs hin
  rw [files, List.mem_append, List.mem_singleton] at hin
  rcases hin with hin | rfl
  · exact h recs (List.mem_append_left _ hin)
  · have := h (l.current ++ [r]) (List.mem_append_right _ (List.mem_singleton.mpr rfl))
    rw [imagesSize_append] at this
    omega

theorem Bounded.of_roll (h : l.roll.Bounded) : l.Bounded := fun recs hin => h recs (List.mem_append_left _ hin)

theorem Bounded.of_step {e : MapEvent Bytes Bytes} (h : (l.step maxSize e).Bounded) : l.Bounded := by
  cases e with
  | del k => exact h
  | put k v =>
    rw [step] at h
    split_ifs at h
    · exact h.of_add.of_roll
    · exact h.of_add

end Layout

/-! ### The cache and its files -/

variable {crc : Bytes → UInt32} {opt : FlashCacheConfig} {size : UInt64} {acts : List CacheAct} {l : Layout}
  {es : List (MapEvent Bytes Bytes)} {key val : Bytes} {c c' c₁ : FlashCache} {f g : WriteableCacheFile}

/-- **The files of the cache**: the ids, and the pointers, are the numbers from 0 on. -/
structure Laid (crc : Bytes → UInt32) (l : Layout) (c : FlashCache) : Prop where
  /-- The directory. -/
  dir : c.dir = ((List.range l.files.length).map UInt32.ofNat).reverse
  /-- The pointers. -/
  heap : c.heap.length = l.files.length
  /-- The next id. -/
  next : c.writerCacheId = UInt32.ofNat l.files.length
  /-- `Create()` returns for ids below 1000 only. -/
  few : l.files.length ≤ 1000
  /-- The current file is the last one. -/
  cacheFile : c.cacheFile = l.full.length
  /-- What the files hold. -/
  file : ∀ i recs, l.files[i]? = some recs → ∃ f, c.deref i = some f ∧ f.cacheId = UInt32.ofNat i ∧
    f.fd = some (images crc recs) ∧ f.filesize = UInt32.ofNat (imagesSize recs) ∧ f.bufWoff = 0
  /-- Whether the current one is at its end. -/
  atEnd : ∀ f, c.deref c.cacheFile = some f →
    f.maxSize = c.opt.cacheFileSize ∧ (f.eof = true ↔ l.AtEnd c.opt.cacheFileSize)

/-- The empty directory. -/
theorem laid_openEmpty (crc : Bytes → UInt32) (opt : FlashCacheConfig) (size : UInt64) :
    Laid crc {} (.openEmpty opt size) := by
  have hderef : ∀ p, (FlashCache.openEmpty opt size).deref p =
      if p = 0 then some (fresh 0 opt.cacheFileSize opt.writeBufferSize) else none := by
    intro p
    rw [FlashCache.openEmpty, FlashCache.deref_withNewFile]
    rfl
  refine ⟨rfl, rfl, rfl, by decide, rfl, fun i recs hi => ?_, fun f hf => ?_⟩
  · cases i with
    | zero =>
      obtain rfl := Option.some.inj hi
      exact ⟨_, (hderef 0).trans (if_pos rfl), rfl, rfl, rfl, rfl⟩
    | succ i => cases hi
  · obtain rfl := Option.some.inj (((hderef 0).trans (if_pos rfl)).symm.trans hf)
    exact ⟨rfl, by simp [fresh, created, WriteableCacheFile.new, Layout.AtEnd]⟩

/-- The ids of the files are the numbers below the next one. -/
theorem Laid.mem_dir (h : Laid crc l c) {id : UInt32} : id ∈ c.dir ↔ id.toNat < l.files.length := by
  have hfew := h.few
  rw [h.dir, List.mem_reverse, List.mem_map]
  constructor
  · rintro ⟨i, hi, rfl⟩
    rw [List.mem_range] at hi
    rwa [UInt32.toNat_ofNat', Nat.mod_eq_of_lt (by omega)]
  · exact fun hlt => ⟨id.toNat, List.mem_range.mpr hlt, UInt32.ofNat_toNat⟩

/-- The next id is new. -/
theorem Laid.fresh (h : Laid crc l c) : c.writerCacheId ∉ c.dir := by
  have hfew := h.few
  rw [h.mem_dir, h.next, UInt32.toNat_ofNat', Nat.mod_eq_of_lt (by omega)]
  exact Nat.lt_irrefl _

/-- A new file. -/
theorem Laid.withNewFile (h : Laid crc l c) (hcreate : c.Creatable) : Laid crc l.roll c.withNewFile := by
  have hfresh := h.fresh
  have hfew : l.files.length < 1000 := by
    have hfits := hcreate hfresh
    have hle := h.few
    rw [h.next, semNameFits_iff, UInt32.toNat_ofNat', Nat.mod_eq_of_lt (by omega)] at hfits
    omega
  have hderef := c.deref_withNewFile
  rw [decide_eq_false hfresh] at hderef
  have hfiles : l.roll.files = l.files ++ [[]] := rfl
  have hlength : l.roll.files.length = l.files.length + 1 := List.length_append
  refine ⟨?_, ?_, ?_, by omega, h.heap, fun i recs hi => ?_, fun f hf => ?_⟩
  · show (if c.writerCacheId ∈ c.dir then c.dir else c.writerCacheId :: c.dir) = _
    rw [if_neg hfresh, hlength, List.range_succ, List.map_append, List.reverse_append, h.dir, h.next]
    rfl
  · rw [hlength, ← h.heap]
    exact List.length_append
  · rw [hlength, UInt32.ofNat_add, ← h.next]
    rfl
  · rw [hderef, h.heap]
    rw [hfiles, List.getElem?_append] at hi
    split_ifs at hi with hlt
    · rw [if_neg (Nat.ne_of_lt hlt)]
      exact h.file i recs hi
    · obtain ⟨hi0, rfl⟩ : i = l.files.length ∧ recs = [] := by
        rw [List.getElem?_singleton] at hi
        split_ifs at hi with h0
        exact ⟨by omega, (Option.some.inj hi).symm⟩
      rw [if_pos hi0, hi0]
      exact ⟨_, rfl, h.next, rfl, rfl, rfl⟩
  · rw [hderef, show c.withNewFile.cacheFile = c.heap.length from rfl, if_pos rfl] at hf
    obtain rfl := Option.some.inj hf
    exact ⟨rfl, by simp [created, WriteableCacheFile.new, Layout.AtEnd, Layout.roll]⟩

/-- A record in the current file. -/
theorem Laid.append (h : Laid crc l c) (hf : c.deref c.cacheFile = some f) (he : f.eof = false)
    (hsize : imagesSize (l.current ++ [(key, val)]) < 2 ^ 32) {writes : List IoResult} {ok : Bool} {lba lba' : LBA}
    (ha : f.append crc .direct writes key val lba = .ok (ok, lba', g)) :
    ok = true ∧ Laid crc (l.add (key, val)) (c.store c.cacheFile g) := by
  have hlast : l.files[l.full.length]? = some l.current := by
    rw [Layout.files, List.getElem?_append_right (Nat.le_refl _), Nat.sub_self]
    rfl
  obtain ⟨e, he', hid, hfd, hfilesize, hwoff⟩ := h.file _ _ hlast
  rw [← h.cacheFile] at he' hid
  obtain rfl := Option.some.inj (hf.symm.trans he')
  rw [WriteableCacheFile.append] at ha
  obtain ⟨-, heq⟩ := appendDirect_ok he hfd ha
  cases heq
  have hfiles : (l.add (key, val)).files = l.full ++ [l.current ++ [(key, val)]] := rfl
  have hlength : (l.add (key, val)).files.length = l.files.length := by
    rw [hfiles, Layout.files, List.length_append, List.length_append]
    rfl
  have hmore : imagesSize (l.current ++ [(key, val)]) = imagesSize l.current + recordSize key val := by
    rw [imagesSize_append, imagesSize_cons, imagesSize_nil]
    rfl
  have hnew : f.filesize + CacheRecord.calcSize key val = UInt32.ofNat (imagesSize (l.current ++ [(key, val)])) := by
    rw [hmore, UInt32.ofNat_add, hfilesize]
    rfl
  refine ⟨rfl, ?_, ?_, ?_, hlength ▸ h.few, h.cacheFile, fun i recs hi => ?_, fun e he => ?_⟩
  · rw [hlength]
    exact h.dir
  · rw [hlength, ← h.heap]
    exact List.length_set
  · rw [hlength]
    exact h.next
  · rw [FlashCache.deref_store hf, h.cacheFile]
    rw [hfiles, List.getElem?_append] at hi
    split_ifs at hi with hlt
    · rw [if_neg (Nat.ne_of_lt hlt)]
      apply h.file i recs
      rw [Layout.files, List.getElem?_append_left hlt]
      exact hi
    · obtain ⟨rfl, rfl⟩ : i = l.full.length ∧ recs = l.current ++ [(key, val)] := by
        rw [List.getElem?_singleton] at hi
        split_ifs at hi with h0
        exact ⟨by omega, (Option.some.inj hi).symm⟩
      refine ⟨_, if_pos rfl, by rw [← h.cacheFile]; exact hid, ?_, hnew, hwoff⟩
      rw [images_append, images, images, List.flatMap_singleton]
  · rw [show (c.store c.cacheFile _).cacheFile = c.cacheFile from rfl, FlashCache.deref_store hf, if_pos rfl] at he
    obtain rfl := Option.some.inj he
    obtain ⟨hmax, -⟩ := h.atEnd f hf
    have hend : decide (f.maxSize ≤ f.filesize + CacheRecord.calcSize key val) = true ↔
        c.opt.cacheFileSize.toNat ≤ imagesSize (l.current ++ [(key, val)]) := by
      rw [decide_eq_true_iff, hnew, hmax, UInt32.le_iff_toNat_le, UInt32.toNat_ofNat', Nat.mod_eq_of_lt hsize]
    exact ⟨hmax, hend.trans ⟨fun hle => ⟨by simp [Layout.add], hle⟩, And.right⟩⟩

/-- **`Insert`** puts the record into the last file, or into a new one. -/
theorem Laid.insert (h : Laid crc l c) (hb : (l.step c.opt.cacheFileSize (.put key val)).Bounded)
    {writes : List IoResult} {r : Int} (hr : c.insert crc .direct writes key val = .ok (r, c')) :
    Laid crc (l.step c.opt.cacheFileSize (.put key val)) c' := by
  obtain ⟨c₁, f, g, lba, lba', ok, ht, hf, he, ha, hstate⟩ := FlashCache.insert_cases hr
  have hlocked : Laid crc l { c with fcacheMutex := true } := { h with }
  -- the file that gets the record is the last one of some layout
  obtain ⟨l₁, h₁, hstep⟩ : ∃ l₁, Laid crc l₁ c₁ ∧ l.step c.opt.cacheFileSize (.put key val) = l₁.add (key, val) := by
    cases ht with
    | current =>
      have hnot : ¬ l.AtEnd c.opt.cacheFileSize := fun hend =>
        Bool.false_ne_true (he.symm.trans ((h.atEnd f hf).2.mpr hend))
      exact ⟨l, hlocked, if_neg hnot⟩
    | rolled hf₀ he₀ _ hcreate => exact ⟨l.roll, hlocked.withNewFile hcreate, if_pos ((h.atEnd _ hf₀).2.mp he₀)⟩
  rw [hstep] at hb ⊢
  have hsize := hb (l₁.add (key, val)).current (List.mem_append_right _ (List.mem_singleton.mpr rfl))
  obtain ⟨rfl, hlaid⟩ := h₁.append hf he hsize ha
  obtain ⟨-, rfl⟩ | ⟨hok, -⟩ := hstate
  · exact { hlaid with }
  · cases hok

/-- The calls considered: `Insert` of strings without zero bytes, and `DeleteMetaData`. -/
def CacheAct.Updates : CacheAct → Prop
  | .insert key val => NulFree key ∧ NulFree val
  | .deleteMetaData _ => True
  | .writer _ => True
  | _ => False

instance : DecidablePred CacheAct.Updates
  | .insert key val => inferInstanceAs (Decidable (NulFree key ∧ NulFree val))
  | .lookup _ => .isFalse id
  | .deleteMetaData _ => .isTrue trivial
  | .evict _ => .isFalse id
  | .writer _ => .isTrue trivial

/-- What holds after calls with the given history. -/
structure Settled (crc : Bytes → UInt32) (opt : FlashCacheConfig) (es : List (MapEvent Bytes Bytes)) (c : FlashCache) :
    Prop where
  /-- The options do not change. -/
  same : c.opt = opt
  /-- The files hold the records. -/
  laid : Laid crc (.after opt.cacheFileSize es) c
  /-- The index leads to the value that is kept. -/
  map : ∃ logs, CacheSound .direct logs c ∧ Refines crc logs c (kept es)
  /-- The mutex is free. -/
  free : c.fcacheMutex = false
  /-- The records hold no zero byte. -/
  nulFree : ∀ key val, .put key val ∈ es → NulFree key ∧ NulFree val

/-- There is a place for the next record. -/
theorem Settled.fits (h : Settled crc opt es c) (hb : (Layout.after opt.cacheFileSize es).Bounded) (key val : Bytes) :
    Fits .direct c key val := by
  refine ⟨by simp, fun f hf => ⟨fun he => ?_, by simp⟩⟩
  obtain ⟨e, he', -, hfd, -⟩ := h.laid.file (Layout.after opt.cacheFileSize es).full.length _
    List.getElem?_concat_length
  rw [← h.laid.cacheFile] at he'
  obtain rfl := Option.some.inj (hf.symm.trans he')
  rw [contents, if_pos (show f.closed .direct = true from rfl), hfd, Option.getD_some, length_images]
  exact hb _ (List.mem_append_right _ (List.mem_singleton.mpr rfl))

/-- **`Insert`**, as long as the files can be read. -/
theorem Settled.insert (h : Settled crc opt es c) (hk : NulFree key) (hv : NulFree val)
    (hb : (Layout.after opt.cacheFileSize (es ++ [.put key val])).Bounded) {writes : List IoResult} {r : Int}
    (hr : c.insert crc .direct writes key val = .ok (r, c')) : Settled crc opt (es ++ [.put key val]) c' := by
  rw [Layout.after_snoc] at hb
  have hfit := h.fits hb.of_step key val
  obtain ⟨hopt, hlaid, ⟨logs, hsound, hrefines⟩, hfree, hnul⟩ := h
  refine ⟨?_, ?_, ?_, (hsound.insert hfit hr).1, fun k v hin => ?_⟩
  · obtain ⟨c₁, f, g, lba, lba', ok, ht, -, -, -, ⟨-, rfl⟩ | ⟨-, rfl⟩⟩ := FlashCache.insert_cases hr
    all_goals cases ht <;> exact hopt
  · rw [Layout.after_snoc]
    rw [← hopt] at hb hlaid ⊢
    exact hlaid.insert hb hr
  · rw [kept_snoc]
    exact hsound.insert_refines hrefines hfit hk hv hr
  · rcases List.mem_append.mp hin with hin | hin
    · exact hnul k v hin
    · obtain ⟨rfl, rfl⟩ := MapEvent.put.inj (List.mem_singleton.mp hin)
      exact ⟨hk, hv⟩

/-- **`DeleteMetaData`** leaves the files alone. -/
theorem Settled.deleteMetaData (h : Settled crc opt es c) (key : Bytes) :
    Settled crc opt (es ++ [.del key]) (c.deleteMetaData key) := by
  obtain ⟨hopt, hlaid, ⟨logs, hsound, hrefines⟩, hfree, hnul⟩ := h
  refine ⟨hopt, ?_, ⟨logs, ?_⟩, hfree, fun k v hin => ?_⟩
  · rw [Layout.after_snoc]
    exact { hlaid with }
  · rw [kept_snoc]
    exact hsound.deleteMetaData_refines hrefines key
  · rcases List.mem_append.mp hin with hin | hin
    · exact hnul k v hin
    · cases List.mem_singleton.mp hin

/-- **`Lookup`** that gives the mutex back leaves the files and the index of the keys alone. -/
theorem Settled.lookup (h : Settled crc opt es c) {env : Environment}
    (hr : c.lookup crc .direct env key = .ok (some val, c')) : Settled crc opt es c' := by
  obtain ⟨logs, hsound, hrefines⟩ := h.map
  obtain ⟨hsound', hgrow, hblock⟩ := hsound.lookup hr
  have hmap : ∃ logs, CacheSound .direct logs c' ∧ Refines crc logs c' (kept es) :=
    ⟨logs, hsound', hrefines.of_blockIndex hblock hgrow⟩
  cases FlashCache.Looked.of_lookup hr with
  | read => exact ⟨h.same, { h.laid with }, hmap, rfl, h.nulFree⟩

theorem CacheAct.filterMap_event_snoc (acts : List CacheAct) (a : CacheAct) :
    (acts ++ [a]).filterMap CacheAct.event = acts.filterMap CacheAct.event ++ a.event.toList := by
  rw [List.filterMap_append, List.filterMap_cons]
  cases a.event <;> rfl

/-- **One call**, as long as the files can be read. -/
theorem Settled.step {a : CacheAct} (h : Settled crc opt es c) (ha : a.Updates) (hs : CacheStep crc .direct c a c')
    (hb : (Layout.after opt.cacheFileSize (es ++ a.event.toList)).Bounded) :
    Settled crc opt (es ++ a.event.toList) c' := by
  cases hs with
  | insert hr => exact h.insert ha.1 ha.2 hb hr
  | lookup hr => cases ha
  | deleteMetaData => exact h.deleteMetaData _
  | evict hr => cases ha
  | @writer p f g hf hw =>
    -- in direct mode the writer sleeps
    obtain ⟨logs, hsound, -⟩ := h.map
    obtain ⟨-, -, -, htid, hsem⟩ := (hsound.files p f hf).direct rfl
    cases hw.1 <;> simp_all

/-- **What a history leaves**, if `Open` can read the files. -/
theorem run_settled (h : Run (CacheStep crc .direct) (fun _ _ a => a.Updates) (.openEmpty opt size) acts c)
    (hb : (Layout.after opt.cacheFileSize (acts.filterMap CacheAct.event)).Bounded) :
    Settled crc opt (acts.filterMap CacheAct.event) c := by
  refine h.invariant (P := fun acts c => (Layout.after opt.cacheFileSize (acts.filterMap CacheAct.event)).Bounded →
    Settled crc opt (acts.filterMap CacheAct.event) c) (fun _ => ?_) (fun acts c a c' ih ha hs hb => ?_) hb
  · exact ⟨rfl, laid_openEmpty crc opt size, openEmpty_refines crc .direct opt size (by simp), rfl,
      fun key val hin => by cases hin⟩
  · rw [CacheAct.filterMap_event_snoc] at hb ⊢
    refine (ih ?_).step ha hs hb
    cases hev : a.event with
    | none =>
      rw [hev, Option.toList_none, List.append_nil] at hb
      exact hb
    | some e =>
      rw [hev, Option.toList_some, Layout.after_snoc] at hb
      exact hb.of_step

/-! ### Close -/

/-- `FlashCache::Close()` in direct mode. The keys of the files stay in the map of
`cache_file_index_`. -/
inductive CloseAll : FlashCache → FlashCache → Prop where
  /-- No file is left in the list. -/
  | done {c : FlashCache} (hsize : c.metadata.cacheFileIndex.size = 0) : CloseAll c c
  /-- The file that was used least recently is taken out of the list and closed. -/
  | next {c c' : FlashCache} {index : LruCache UInt32 ℕ} {p : ℕ} {f g : WriteableCacheFile}
      (hsize : 0 < c.metadata.cacheFileIndex.size) (hevict : c.metadata.cacheFileIndex.evict = .ok (p, index))
      (hf : c.deref p = some f) (hclose : FlashCache.Close .direct c f g)
      (hrest : CloseAll
        (({ c with metadata := { c.metadata with cacheFileIndex := index } } : FlashCache).store p g) c') :
      CloseAll c c'

/-- What `readdir` and the files show: the ids in some order, and the bytes of the files. -/
def FlashCache.Lists (c : FlashCache) (files : List (UInt32 × Bytes)) : Prop :=
  (files.map Prod.fst).Perm c.dir ∧
    ∀ entry ∈ files, ∃ p f, c.deref p = some f ∧ f.cacheId = entry.1 ∧ f.fd = some entry.2

/-- A file that has nothing to write. -/
def Quiet (f : WriteableCacheFile) : Prop := f.bufs = [] ∧ ∀ src left, f.tid ≠ some (.writing src left)

/-- Its writer writes nothing. -/
theorem Quiet.writer (h : Quiet f) (hw : f.WriterStep g) : Quiet g ∧ g.cacheId = f.cacheId ∧ g.fd = f.fd := by
  obtain ⟨hbufs, hpc⟩ := h
  cases hw <;> simp_all [Quiet]

/-- `Close` writes nothing. -/
theorem Quiet.close (h : Quiet f) (hc : FlashCache.Close .direct c f g) : g.cacheId = f.cacheId ∧ g.fd = f.fd ∧
    Quiet g := by
  cases hc with
  | noWriter htid hfd => exact ⟨rfl, rfl, rfl, h.2⟩
  | @join g htid hrun hjoin =>
    have hstart : Quiet (FlashCache.startClose .direct f) := h
    have hsame : Quiet g ∧ g.cacheId = f.cacheId ∧ g.fd = f.fd := by
      clear hjoin
      induction hrun with
      | refl => exact ⟨hstart, rfl, rfl⟩
      | tail _ hw ih =>
        obtain ⟨hquiet, hid, hfd⟩ := ih
        obtain ⟨hquiet', hid', hfd'⟩ := hquiet.writer hw.1
        exact ⟨hquiet', hid'.trans hid, hfd'.trans hfd⟩
    exact ⟨hsame.2.1, hsame.2.2, rfl, by simp⟩

/-- An open file in direct mode: its writer sleeps, or it is closed already. -/
def Closable (f : WriteableCacheFile) : Prop :=
  f.fd.isSome ∧ f.bufs = [] ∧ f.bufWoff = 0 ∧ (f.tid = some .waiting ∨ f.tid = none)

theorem Closable.quiet (h : Closable f) : Quiet f := by
  obtain ⟨-, hbufs, -, htid⟩ := h
  refine ⟨hbufs, fun src left heq => ?_⟩
  rcases htid with htid | htid
  · rw [htid] at heq
    cases heq
  · rw [htid] at heq
    cases heq

/-- `Close` returns. -/
theorem Closable.close (h : Closable f) (c : FlashCache) : ∃ g, FlashCache.Close .direct c f g ∧ Closable g := by
  obtain ⟨hfd, hbufs, hwoff, htid | htid⟩ := h
  · have hdone : ¬ f.bufDoff < f.bufWoff := by
      rw [hwoff]
      exact Nat.not_lt_zero _
    exact ⟨_, FlashCache.close_direct htid hdone hbufs, hfd, rfl, hwoff, .inr rfl⟩
  · exact ⟨_, .noWriter htid hfd, hfd, rfl, hwoff, .inr htid⟩

/-- **`Close` of the cache returns.** -/
theorem closeAll_returns {stale : UInt32 → Prop} (h : c.metadata.cacheFileIndex.LinkedBut stale)
    (hfiles : ∀ id p, c.metadata.cacheFileIndex.find id = some p → ∃ f, c.deref p = some f ∧ Closable f) :
    ∃ c', CloseAll c c' := by
  generalize hn : c.metadata.cacheFileIndex.size = n
  induction n generalizing c stale with
  | zero => exact ⟨c, .done hn⟩
  | succ n ih =>
    have hne : c.metadata.cacheFileIndex.list ≠ [] := by
      intro hnil
      rw [LruCache.size, hnil] at hn
      cases hn
    obtain ⟨id, p, index, hevict, -, hfind, -, hindex, hlinked⟩ := h.evict hne
    obtain ⟨f, hf, hclosable⟩ := hfiles id p hfind
    obtain ⟨g, hclose, hg⟩ := hclosable.close c
    have hf' : ({ c with metadata := { c.metadata with cacheFileIndex := index } } : FlashCache).deref p = some f := hf
    obtain ⟨c', hrest⟩ := @ih
      (({ c with metadata := { c.metadata with cacheFileIndex := index } } : FlashCache).store p g) _ hlinked
      (fun k q hq => by
        rw [FlashCache.deref_store hf']
        split_ifs
        · exact ⟨g, rfl, hg⟩
        · apply hfiles k q
          rw [← hq, hindex]
          rfl)
      (by
        show index.list.length = n
        rw [hindex, List.length_dropLast]
        rw [LruCache.size] at hn
        omega)
    exact ⟨c', .next (by omega) hevict hf hclose hrest⟩

/-- **`Close` of the cache** leaves the ids and the bytes of the files alone. -/
theorem CloseAll.frame (hc : CloseAll c c') (h : ∀ p f, c.deref p = some f → Quiet f) : c'.dir = c.dir ∧
    ∀ p, (c'.deref p).map (fun f => (f.cacheId, f.fd)) = (c.deref p).map fun f => (f.cacheId, f.fd) := by
  induction hc with
  | done hsize => exact ⟨rfl, fun _ => rfl⟩
  | @next c c' index p f g hsize hevict hf hclose hrest ih =>
    obtain ⟨hid, hfd, hg⟩ := (h p f hf).close hclose
    have hderef := FlashCache.deref_store
      (show ({ c with metadata := { c.metadata with cacheFileIndex := index } } : FlashCache).deref p = some f from hf) g
    obtain ⟨hdir, hfiles⟩ := ih fun q e he => by
      rw [hderef] at he
      split_ifs at he
      · rw [← Option.some.inj he]
        exact hg
      · exact h q e he
    refine ⟨hdir, fun q => ?_⟩
    rw [hfiles, hderef]
    split_ifs with hq
    · rw [hq, hf, Option.map_some, Option.map_some, hid, hfd]
    · rfl

/-- The ids of the files and their records. -/
def Layout.entries (l : Layout) : List (UInt32 × List (Bytes × Bytes)) :=
  (List.range l.files.length).map fun i => (UInt32.ofNat i, l.files.getD i [])

/-- The same with their bytes. -/
def onDisk (crc : Bytes → UInt32) (es : List (UInt32 × List (Bytes × Bytes))) : List (UInt32 × Bytes) :=
  es.map fun e => (e.1, images crc e.2)

theorem Layout.mem_entries {id : UInt32} {recs : List (Bytes × Bytes)} :
    (id, recs) ∈ l.entries ↔ ∃ i, l.files[i]? = some recs ∧ id = UInt32.ofNat i := by
  rw [Layout.entries, List.mem_map]
  constructor
  · rintro ⟨i, hi, heq⟩
    obtain ⟨rfl, rfl⟩ := Prod.mk.inj heq
    rw [List.mem_range] at hi
    exact ⟨i, by rw [List.getElem?_eq_getElem hi, List.getD_eq_getElem _ _ hi], rfl⟩
  · rintro ⟨i, hi, rfl⟩
    obtain ⟨hlt, hget⟩ := List.getElem?_eq_some_iff.mp hi
    exact ⟨i, List.mem_range.mpr hlt, by rw [List.getD_eq_getElem _ _ hlt, hget]⟩

theorem Layout.map_fst_entries (l : Layout) :
    l.entries.map Prod.fst = (List.range l.files.length).map UInt32.ofNat := by
  rw [Layout.entries, List.map_map]
  rfl

theorem Layout.snd_mem_files {e : UInt32 × List (Bytes × Bytes)} (he : e ∈ l.entries) : e.2 ∈ l.files := by
  obtain ⟨i, hi, -⟩ := Layout.mem_entries.mp he
  exact List.mem_of_getElem? hi

theorem Layout.exists_entry {recs : List (Bytes × Bytes)} (h : recs ∈ l.files) : ∃ id, (id, recs) ∈ l.entries := by
  obtain ⟨i, hi, rfl⟩ := List.getElem_of_mem h
  exact ⟨UInt32.ofNat i, Layout.mem_entries.mpr ⟨i, List.getElem?_eq_getElem hi, rfl⟩⟩

/-- The ids are distinct. -/
theorem Laid.nodup_ids (h : Laid crc l c) : (l.entries.map Prod.fst).Nodup := by
  rw [l.map_fst_entries]
  refine List.Nodup.map_on (fun i hi j hj hij => ?_) List.nodup_range
  rw [List.mem_range] at hi hj
  have hlen := h.few
  have hnat := congrArg UInt32.toNat hij
  rwa [UInt32.toNat_ofNat', UInt32.toNat_ofNat', Nat.mod_eq_of_lt (by omega), Nat.mod_eq_of_lt (by omega)] at hnat

/-- **What a directory may list**: the files in any order. -/
theorem Laid.lists_iff (h : Laid crc l c) (hdir : c₁.dir = c.dir)
    (hfiles : ∀ p, (c₁.deref p).map (fun f => (f.cacheId, f.fd)) = (c.deref p).map fun f => (f.cacheId, f.fd))
    (files : List (UInt32 × Bytes)) : c₁.Lists files ↔ ∃ es, es.Perm l.entries ∧ files = onDisk crc es := by
  constructor
  · rintro ⟨hperm, hbytes⟩
    have hentry : ∀ entry ∈ files, (entry.1, l.files.getD entry.1.toNat []) ∈ l.entries ∧
        entry.2 = images crc (l.files.getD entry.1.toNat []) := by
      intro entry hin
      obtain ⟨p, e, he, hid, hfd⟩ := hbytes entry hin
      have hsame := hfiles p
      rw [he, Option.map_some, hid, hfd] at hsame
      obtain ⟨f, hf, heq⟩ := Option.map_eq_some_iff.mp hsame.symm
      have hlt : p < l.files.length := by
        rw [← h.heap]
        exact FlashCache.lt_of_deref hf
      obtain ⟨f', hf', hcid, hfd', -⟩ := h.file p _ (List.getElem?_eq_getElem hlt)
      obtain rfl := Option.some.inj (hf.symm.trans hf')
      obtain ⟨hid₁, hfd₁⟩ := Prod.mk.inj heq
      have hnat : entry.1.toNat = p := by
        rw [← hid₁, hcid, UInt32.toNat_ofNat', Nat.mod_eq_of_lt (by have := h.few; omega)]
      rw [hnat, List.getD_eq_getElem _ _ hlt]
      exact ⟨Layout.mem_entries.mpr ⟨p, List.getElem?_eq_getElem hlt, by rw [← hid₁, hcid]⟩,
        Option.some.inj (hfd₁.symm.trans hfd')⟩
    refine ⟨files.map fun entry => (entry.1, l.files.getD entry.1.toNat []), ?_, ?_⟩
    · have hsame : l.entries = (l.entries.map Prod.fst).map fun id => (id, l.files.getD id.toNat []) := by
        rw [l.map_fst_entries, List.map_map, Layout.entries]
        apply List.map_congr_left
        intro i hi
        rw [List.mem_range] at hi
        rw [Function.comp_apply, UInt32.toNat_ofNat', Nat.mod_eq_of_lt (by have := h.few; omega)]
      rw [hsame, l.map_fst_entries]
      have hall := hperm.map fun id => (id, l.files.getD id.toNat [])
      rw [List.map_map, hdir, h.dir] at hall
      exact hall.trans ((List.reverse_perm _).map _)
    · rw [onDisk, List.map_map]
      refine (List.map_id files).symm.trans (List.map_congr_left fun entry hin => ?_)
      exact Prod.ext rfl (hentry entry hin).2
  · rintro ⟨es, hperm, rfl⟩
    refine ⟨?_, fun entry hin => ?_⟩
    · have hfst : (onDisk crc es).map Prod.fst = es.map Prod.fst := by
        rw [onDisk, List.map_map]
        rfl
      rw [hfst, hdir, h.dir]
      have hall := hperm.map Prod.fst
      rw [l.map_fst_entries] at hall
      exact hall.trans (List.reverse_perm _).symm
    · obtain ⟨⟨id, recs⟩, he, rfl⟩ := List.mem_map.mp hin
      obtain ⟨i, hi, rfl⟩ := Layout.mem_entries.mp (hperm.subset he)
      obtain ⟨f, hf, hid, hfd, -⟩ := h.file i recs hi
      have hsame := hfiles i
      rw [hf, Option.map_some, hid, hfd] at hsame
      obtain ⟨e, he, heq⟩ := Option.map_eq_some_iff.mp hsame
      obtain ⟨hid₁, hfd₁⟩ := Prod.mk.inj heq
      exact ⟨i, e, he, hid₁, hfd₁⟩

/-! ### The index after Open -/

/-- **The record of a log that is found under a key** is the first one, and it is where
its address says. -/
theorem lookup_located (id : UInt32) {start : ℕ} {file : Bytes} {recs : List (Bytes × Bytes)}
    (hfile : file.drop start = images crc recs) (hsize : start + imagesSize recs < 2 ^ 32) (key : Bytes) :
    match (located id start recs).lookup key with
    | none => recs.lookup key = none
    | some lba => ∃ val, recs.lookup key = some val ∧ lba.cacheId = id ∧ At file lba (image crc key val) := by
  induction recs generalizing start with
  | nil => rfl
  | cons r recs ih =>
    obtain ⟨k, v⟩ := r
    rw [imagesSize_cons] at hsize
    have hcons : file.drop start = image crc k v ++ images crc recs := hfile
    rw [located, List.lookup_cons, List.lookup_cons]
    by_cases hkey : key = k
    · subst hkey
      rw [beq_self_eq_true]
      have hstart : (UInt32.ofNat start).toNat = start := by
        rw [UInt32.toNat_ofNat', Nat.mod_eq_of_lt (by omega)]
      have hcalc : (CacheRecord.calcSize key v).toNat = recordSize key v :=
        CacheRecord.toNat_calcSize_of_lt (by dsimp only at hsize; omega)
      refine ⟨v, rfl, rfl, hcalc.trans (length_image crc key v).symm, ?_⟩
      show (file.drop (UInt32.ofNat start).toNat).take _ = _
      rw [hstart, hcons, List.take_left']
      rfl
    · rw [beq_false_of_ne hkey]
      refine ih ?_ (by omega)
      rw [← List.drop_drop, hcons, List.drop_left' (length_image crc k v)]

/-- **What is known of a cache in the loop of `Open`**, after the given files. -/
structure Recovered (crc : Bytes → UInt32) (es : List (UInt32 × List (Bytes × Bytes))) (c : FlashCache) : Prop where
  /-- The mutex is free. -/
  free : c.fcacheMutex = false
  /-- The index of the files is in order. -/
  linked : c.metadata.cacheFileIndex.Linked
  /-- The index of the keys has the first records. -/
  entry : ∀ key, c.metadata.lookup key = (es.flatMap fun e => located e.1 0 e.2).lookup key
  /-- The files are there. -/
  file : ∀ e ∈ es, ∃ p f, c.metadata.cacheFileIndex.find e.1 = some p ∧ c.deref p = some f ∧
    f.fd = some (images crc e.2) ∧ f.bufs = []

/-- One more file. -/
theorem Recovered.recover {es : List (UInt32 × List (Bytes × Bytes))} (h : Recovered crc es c)
    {e : UInt32 × List (Bytes × Bytes)} (hsize : imagesSize e.2 < 2 ^ 32)
    (hnew : c.metadata.cacheFileIndex.find e.1 = none) (garbage : UInt32 → ℕ → ℕ → UInt8) :
    ∃ c', c.recover garbage (e.1, images crc e.2) = .ok c' ∧ Recovered crc (es ++ [e]) c' ∧
      ∀ id, id ≠ e.1 → c'.metadata.cacheFileIndex.find id = c.metadata.cacheFileIndex.find id := by
  have hrepair : (WriteableCacheFile.opened e.1 (images crc e.2)).repair (garbage e.1) = .ok (located e.1 0 e.2) :=
    repair_images hsize
  obtain ⟨c', hc'⟩ : ∃ c', c.recover garbage (e.1, images crc e.2) = .ok c' := by
    unfold FlashCache.recover
    simp only [hrepair]
    exact ⟨_, rfl⟩
  obtain ⟨calls, f, hcalls, hf, hderef, hindex, hlookup, -, -, -, -, -, hmutex⟩ := FlashCache.recover_cases hc'
  obtain rfl := Except.ok.inj (hrepair.symm.trans hcalls)
  have hfind : ∀ id, c'.metadata.cacheFileIndex.find id =
      if id = e.1 then some c.heap.length else c.metadata.cacheFileIndex.find id := by
    intro id
    rw [hindex, LruCache.find_insert, hnew, Option.getD_none]
  refine ⟨c', hc', ⟨hmutex.trans h.free, ?_, fun key => ?_, fun d hd => ?_⟩, fun id hid => ?_⟩
  · rw [hindex]
    exact h.linked.insert _ _
  · rw [hlookup, h.entry, List.flatMap_append, List.lookup_append, List.flatMap_singleton]
  · by_cases hid : d.1 = e.1
    · rcases List.mem_append.mp hd with hd | hd
      · obtain ⟨p, -, hp, -⟩ := h.file d hd
        rw [hid, hnew] at hp
        cases hp
      · rw [List.mem_singleton.mp hd]
        refine ⟨c.heap.length, f, (hfind e.1).trans (if_pos rfl), (hderef _).trans (if_pos rfl), ?_⟩
        rw [hf]
        exact ⟨rfl, rfl⟩
    · have hin : d ∈ es := by
        rcases List.mem_append.mp hd with hd | hd
        · exact hd
        · exact absurd (congrArg Prod.fst (List.mem_singleton.mp hd)) hid
      obtain ⟨p, f', hp, hf', hfd⟩ := h.file d hin
      refine ⟨p, f', ?_, ?_, hfd⟩
      · rw [hfind, if_neg hid]
        exact hp
      · rw [hderef, if_neg (Nat.ne_of_lt (FlashCache.lt_of_deref hf'))]
        exact hf'
  · rw [hfind, if_neg hid]

/-- All the files. -/
theorem Recovered.recoverAll {done es : List (UInt32 × List (Bytes × Bytes))} (h : Recovered crc done c)
    (hsize : ∀ e ∈ es, imagesSize e.2 < 2 ^ 32) (hnodup : (es.map Prod.fst).Nodup)
    (hnew : ∀ e ∈ es, c.metadata.cacheFileIndex.find e.1 = none) (garbage : UInt32 → ℕ → ℕ → UInt8) :
    ∃ c', FlashCache.recoverAll garbage c (onDisk crc es) = .ok c' ∧ Recovered crc (done ++ es) c' := by
  induction es generalizing c done with
  | nil =>
    rw [List.append_nil]
    exact ⟨c, rfl, h⟩
  | cons e es ih =>
    rw [List.map_cons, List.nodup_cons] at hnodup
    obtain ⟨c₁, hc₁, h₁, hfind⟩ := h.recover (hsize e List.mem_cons_self) (hnew e List.mem_cons_self) garbage
    have hnew₁ : ∀ d ∈ es, c₁.metadata.cacheFileIndex.find d.1 = none := by
      intro d hd
      have hne : d.1 ≠ e.1 := fun heq => hnodup.1 (heq ▸ List.mem_map_of_mem hd)
      rw [hfind _ hne]
      exact hnew d (List.mem_cons_of_mem _ hd)
    obtain ⟨c', hc', h'⟩ := ih h₁ (fun d hd => hsize d (List.mem_cons_of_mem _ hd)) hnodup.2 hnew₁
    refine ⟨c', ?_, by rwa [List.append_assoc] at h'⟩
    rw [onDisk, List.map_cons, FlashCache.recoverAll, hc₁]
    exact hc'

/-- The new file of `Open`. -/
theorem Recovered.withNewFile {es : List (UInt32 × List (Bytes × Bytes))} (h : Recovered crc es c) :
    Recovered crc es c.withNewFile := by
  refine ⟨h.free, h.linked.insert _ _, h.entry, fun e he => ?_⟩
  obtain ⟨p, f, hp, hf, hfd⟩ := h.file e he
  refine ⟨p, f, ?_, ?_, hfd⟩
  · rw [find_withNewFile, hp]
    split_ifs <;> rfl
  · rw [FlashCache.deref_withNewFile, if_neg (Nat.ne_of_lt (FlashCache.lt_of_deref hf))]
    exact hf

/-- **The scan of `Open`** on the files. -/
theorem recoverAll_recovered (crc : Bytes → UInt32) {es : List (UInt32 × List (Bytes × Bytes))}
    (hsize : ∀ e ∈ es, imagesSize e.2 < 2 ^ 32) (hnodup : (es.map Prod.fst).Nodup)
    (garbage : UInt32 → ℕ → ℕ → UInt8) (opt : FlashCacheConfig) (size : UInt64) : ∃ c,
      FlashCache.recoverAll garbage { size, opt, dir := (onDisk crc es).map Prod.fst } (onDisk crc es) = .ok c ∧
        Recovered crc es c := by
  have hstart : Recovered crc [] { size, opt, dir := (onDisk crc es).map Prod.fst } :=
    ⟨rfl, LruCache.linked_empty, fun key => AList.lookup_empty key, by simp⟩
  exact hstart.recoverAll hsize hnodup (fun e _ => LruCache.find_empty e.1) garbage

/-! ### Lookups -/

/-- **`Lookup` returns `r`**, provided that the disk can be read. -/
def FlashCache.Finds (crc : Bytes → UInt32) (c : FlashCache) (key : Bytes) (r : Option Bytes) : Prop :=
  ∀ env, (∀ lba, c.metadata.lookup key = some lba → Enough env.preads lba.size.toNat) →
    ∃ c', c.lookup crc .direct env key = .ok (r, c')

/-- It returns one thing only. -/
theorem FlashCache.Finds.unique {r r' : Option Bytes} (h : c.Finds crc key r) (h' : c.Finds crc key r') : r = r' := by
  have hio : ∀ lba, c.metadata.lookup key = some lba → Enough
      (List.replicate ((c.metadata.lookup key).elim 0 fun lba => lba.size.toNat) (.moved 0)) lba.size.toNat := by
    intro lba hl
    rw [hl]
    exact enough_replicate _
  obtain ⟨c₁, h₁⟩ := h ⟨[], _, false, []⟩ hio
  obtain ⟨c₂, h₂⟩ := h' ⟨[], _, false, []⟩ hio
  exact congrArg Prod.fst (Except.ok.inj (h₁.symm.trans h₂))

/-- Before `Close` it finds what is kept. -/
theorem Settled.finds (h : Settled crc opt es c) (key : Bytes) : c.Finds crc key (kept es key) := by
  obtain ⟨logs, hsound, hrefines⟩ := h.map
  intro env hio
  cases hl : c.metadata.lookup key with
  | none =>
    rw [hrefines.eq_none hl]
    exact ⟨_, FlashCache.lookup_absent h.free hl crc .direct env⟩
  | some lba =>
    obtain ⟨val, hval, hst⟩ := hrefines.stores hl
    rw [hval]
    obtain ⟨c', hlook, -⟩ := hsound.lookup_stored h.free hl hst (hio lba hl) (by simp)
    exact ⟨c', hlook⟩

/-- The first record of a key in the files, one after the other. -/
theorem lookup_flatMap_located (crc : Bytes → UInt32) {ds : List (UInt32 × List (Bytes × Bytes))}
    (hsize : ∀ e ∈ ds, imagesSize e.2 < 2 ^ 32) (key : Bytes) :
    match (ds.flatMap fun e => located e.1 0 e.2).lookup key with
    | none => (ds.flatMap Prod.snd).lookup key = none
    | some lba => ∃ e ∈ ds, ∃ val, (ds.flatMap Prod.snd).lookup key = some val ∧ (key, val) ∈ e.2 ∧
        lba.cacheId = e.1 ∧ At (images crc e.2) lba (image crc key val) := by
  induction ds with
  | nil => rfl
  | cons e ds ih =>
    have hfile : (images crc e.2).drop 0 = images crc e.2 := rfl
    have hone := lookup_located e.1 hfile (by rw [Nat.zero_add]; exact hsize e List.mem_cons_self) key
    have hrest := ih fun d hd => hsize d (List.mem_cons_of_mem _ hd)
    rw [List.flatMap_cons, List.flatMap_cons, List.lookup_append, List.lookup_append]
    cases hl : (located e.1 0 e.2).lookup key with
    | some lba =>
      rw [hl] at hone
      obtain ⟨val, hval, hid, hat⟩ := hone
      rw [hval]
      exact ⟨e, List.mem_cons_self, val, rfl, mem_of_lookup hval, hid, hat⟩
    | none =>
      rw [hl] at hone
      rw [hone, Option.none_or, Option.none_or]
      cases hl' : (ds.flatMap fun e => located e.1 0 e.2).lookup key with
      | none =>
        rw [hl'] at hrest
        exact hrest
      | some lba =>
        rw [hl'] at hrest
        obtain ⟨d, hd, hrest⟩ := hrest
        exact ⟨d, List.mem_cons_of_mem _ hd, hrest⟩

/-- After `Open` it finds the first record. -/
theorem Recovered.finds {ds : List (UInt32 × List (Bytes × Bytes))} (h : Recovered crc ds c)
    (hsize : ∀ e ∈ ds, imagesSize e.2 < 2 ^ 32) (hnul : ∀ e ∈ ds, ∀ r ∈ e.2, NulFree r.1 ∧ NulFree r.2) (key : Bytes) :
    c.Finds crc key ((ds.flatMap Prod.snd).lookup key) := by
  intro env hio
  have hkey := lookup_flatMap_located crc hsize key
  rw [← h.entry] at hkey
  cases hl : c.metadata.lookup key with
  | none =>
    rw [hl] at hkey
    rw [hkey]
    exact ⟨_, FlashCache.lookup_absent h.free hl crc .direct env⟩
  | some lba =>
    rw [hl] at hkey
    obtain ⟨e, he, val, hval, hin, hid, hat⟩ := hkey
    obtain ⟨p, f, hp, hf, hfd, hbufs⟩ := h.file e he
    obtain ⟨hk, hv⟩ := hnul e he _ hin
    have hle := hat.le (length_image_pos crc key val)
    have hbound := hsize e he
    rw [length_images] at hle
    have hholds : f.Holds (images crc e.2) :=
      ⟨⟨_, hfd, List.prefix_refl _⟩, by rw [hbufs]; exact Cut.nil _ _⟩
    have hread : f.read crc .direct env lba = .ok (some (key, val)) := by
      apply read_closed_of_le rfl hholds hat hk hv (by rw [length_image] at hle; omega) (hio lba hl)
      rw [contents, if_pos (show f.closed .direct = true from rfl), hfd, Option.getD_some, hat.1, length_images]
      exact hle
    rw [← hid] at hp
    obtain ⟨c', hlook, -⟩ := FlashCache.lookup_read h.free h.linked hl hp hf hread
    rw [hval]
    exact ⟨c', hlook⟩

/-- Before `Close` every file is open, and has nothing to write. -/
theorem Settled.closable (h : Settled crc opt es c) {p : ℕ} (hf : c.deref p = some f) : Closable f := by
  obtain ⟨logs, hsound, -⟩ := h.map
  obtain ⟨hfd, hbufs, -, htid, -⟩ := (hsound.files p f hf).direct rfl
  have hlt : p < (Layout.after opt.cacheFileSize es).files.length := by
    rw [← h.laid.heap]
    exact FlashCache.lt_of_deref hf
  obtain ⟨e, he, -, -, -, hwoff⟩ := h.laid.file p _ (List.getElem?_eq_getElem hlt)
  obtain rfl := Option.some.inj (hf.symm.trans he)
  exact ⟨by rw [hfd]; rfl, hbufs, hwoff, .inl htid⟩

/-- `Close` returns. -/
theorem Settled.closeAll (h : Settled crc opt es c) : ∃ c₁, CloseAll c c₁ := by
  obtain ⟨logs, hsound, -⟩ := h.map
  apply closeAll_returns (LruCache.linked_iff.mp hsound.linked)
  intro id p hp
  obtain ⟨-, f, hf, -⟩ := hsound.indexed id p hp
  exact ⟨f, hf, h.closable hf⟩

/-- After it the directory lists the files in some order. -/
theorem Settled.lists_iff (h : Settled crc opt es c) (hclose : CloseAll c c₁) (files : List (UInt32 × Bytes)) :
    c₁.Lists files ↔ ∃ ds, ds.Perm (Layout.after opt.cacheFileSize es).entries ∧ files = onDisk crc ds := by
  obtain ⟨hdir, hfiles⟩ := hclose.frame fun p f hf => (h.closable hf).quiet
  exact h.laid.lists_iff hdir hfiles files

/-- **After a restart** the first record of a key counts, in the order of the list. The
file that is made then gets the number of the files as its id. -/
theorem Settled.scan (h : Settled crc opt es c) (hb : (Layout.after opt.cacheFileSize es).Bounded)
    {ds : List (UInt32 × List (Bytes × Bytes))} (hperm : ds.Perm (Layout.after opt.cacheFileSize es).entries)
    (garbage : UInt32 → ℕ → ℕ → UInt8) (opt' : FlashCacheConfig) (size' : UInt64) : ∃ c₂ : FlashCache,
      FlashCache.openDir garbage opt' size' (onDisk crc ds) = c₂.newCacheFile ∧
        (c₂.Creatable ↔ (Layout.after opt.cacheFileSize es).files.length < 1000) ∧
        ∀ key, c₂.withNewFile.Finds crc key ((ds.flatMap Prod.snd).lookup key) := by
  have hfew := h.laid.few
  have hfiles : ∀ e ∈ ds, e.2 ∈ (Layout.after opt.cacheFileSize es).files := fun e he =>
    Layout.snd_mem_files (hperm.subset he)
  have hsize : ∀ e ∈ ds, imagesSize e.2 < 2 ^ 32 := fun e he => hb _ (hfiles e he)
  have hnodup : (ds.map Prod.fst).Nodup := (hperm.map Prod.fst).nodup_iff.mpr h.laid.nodup_ids
  have hfst : (onDisk crc ds).map Prod.fst = ds.map Prod.fst := by
    rw [onDisk, List.map_map]
    rfl
  have hids : ∀ id, id ∈ (onDisk crc ds).map Prod.fst ↔ id.toNat < (Layout.after opt.cacheFileSize es).files.length := by
    intro id
    rw [hfst, (hperm.map Prod.fst).mem_iff, Layout.map_fst_entries, ← h.laid.mem_dir, h.laid.dir, List.mem_reverse]
  obtain ⟨c₂, hc₂, hrec⟩ := recoverAll_recovered crc hsize hnodup garbage opt' size'
  have hlisting : Listing (onDisk crc ds) := by
    refine ⟨hfst ▸ hnodup, fun entry hentry => ?_⟩
    have := (hids entry.1).mp (List.mem_map_of_mem hentry)
    omega
  obtain ⟨hdir, habove, -, hnew⟩ := hlisting.scan hc₂
  -- the next id is the number of the files
  have hle : c₂.writerCacheId.toNat ≤ (Layout.after opt.cacheFileSize es).files.length := by
    rw [(recoverAll_ids hc₂).2.2.1]
    exact nextId_le (by omega) (fun id hid => (hids id).mp hid) (Nat.zero_le _)
  have hge : (Layout.after opt.cacheFileSize es).files.length ≤ c₂.writerCacheId.toNat := by
    by_contra hlt
    have hin := (hids c₂.writerCacheId).mpr (by omega)
    rw [← hdir] at hin
    exact UInt32.lt_irrefl _ (habove _ hin)
  refine ⟨c₂, by rw [FlashCache.openDir, hc₂], ?_, ?_⟩
  · rw [hnew.creatable_iff (by omega)]
    omega
  · refine hrec.withNewFile.finds hsize fun e he r hr => ?_
    apply h.nulFree
    exact Layout.mem_after.mp ⟨e.2, hfiles e he, hr⟩

/-- `Open` returns, if there are fewer than 1000 files. -/
theorem Settled.openDir (h : Settled crc opt es c) (hb : (Layout.after opt.cacheFileSize es).Bounded)
    (hfew : (Layout.after opt.cacheFileSize es).files.length < 1000) {ds : List (UInt32 × List (Bytes × Bytes))}
    (hperm : ds.Perm (Layout.after opt.cacheFileSize es).entries) (garbage : UInt32 → ℕ → ℕ → UInt8)
    (opt' : FlashCacheConfig) (size' : UInt64) : ∃ c₂,
      FlashCache.openDir garbage opt' size' (onDisk crc ds) = .ok c₂ ∧
        ∀ key, c₂.Finds crc key ((ds.flatMap Prod.snd).lookup key) := by
  obtain ⟨c₂, hopen, hcreate, hfinds⟩ := h.scan hb hperm garbage opt' size'
  exact ⟨c₂.withNewFile, hopen.trans (FlashCache.newCacheFile_iff.mpr ⟨hcreate.mpr hfew, rfl⟩), hfinds⟩

/-- **Restart preserves the store** exactly if there are fewer than 1000 files and in every
one the first record of a key has the value that `Lookup` finds: after any calls of
`Insert` and `DeleteMetaData` and `Close`, and for every order in which the files are
listed, `Open` returns, and every `Lookup` returns what it would have returned before
`Close`. -/
theorem restart_lookup (h : Run (CacheStep crc .direct) (fun _ _ a => a.Updates) (.openEmpty opt size) acts c)
    (hb : (Layout.after opt.cacheFileSize (acts.filterMap CacheAct.event)).Bounded) (hclose : CloseAll c c₁) :
    (∀ files, c₁.Lists files → ∀ garbage opt' size', ∃ c₂, FlashCache.openDir garbage opt' size' files = .ok c₂ ∧
        ∀ key r, c.Finds crc key r ↔ c₂.Finds crc key r) ↔
      (Layout.after opt.cacheFileSize (acts.filterMap CacheAct.event)).files.length < 1000 ∧
        ∀ recs ∈ (Layout.after opt.cacheFileSize (acts.filterMap CacheAct.event)).files, ∀ r ∈ recs,
          recs.lookup r.1 = kept (acts.filterMap CacheAct.event) r.1 := by
  have hs := run_settled h hb
  have hlists := hs.lists_iff hclose
  have hput : ∀ key val, kept (acts.filterMap CacheAct.event) key = some val →
      ∃ e ∈ (Layout.after opt.cacheFileSize (acts.filterMap CacheAct.event)).entries, (key, val) ∈ e.2 := by
    intro key val hval
    obtain ⟨recs, hrecs, hin⟩ := Layout.mem_after.mpr (put_mem_of_kept hval)
    obtain ⟨id, he⟩ := Layout.exists_entry hrecs
    exact ⟨_, he, hin⟩
  constructor
  · intro hall
    have hfew : (Layout.after opt.cacheFileSize (acts.filterMap CacheAct.event)).files.length < 1000 := by
      obtain ⟨c₂, hc₂, -⟩ := hall _ ((hlists _).mpr ⟨_, .refl _, rfl⟩) (fun _ _ _ => 0) opt size
      obtain ⟨c₃, hopen, hcreate, -⟩ := hs.scan hb (.refl _) (fun _ _ _ => 0) opt size
      exact hcreate.mp (FlashCache.newCacheFile_iff.mp (hopen.symm.trans hc₂)).1
    refine ⟨hfew, fun recs hrecs r hr => ?_⟩
    obtain ⟨id, he⟩ := Layout.exists_entry hrecs
    refine (lookup_any_order hput).mp (fun ds hperm key => ?_) _ he r hr
    obtain ⟨c₂, hc₂, hsame⟩ := hall _ ((hlists _).mpr ⟨ds, hperm, rfl⟩) (fun _ _ _ => 0) opt size
    obtain ⟨c₂', hc₂', hfinds⟩ := hs.openDir hb hfew hperm (fun _ _ _ => 0) opt size
    obtain rfl := Except.ok.inj (hc₂.symm.trans hc₂')
    exact (hfinds key).unique ((hsame key _).mp (hs.finds key))
  · rintro ⟨hfew, hcond⟩ files hlist garbage opt' size'
    obtain ⟨ds, hperm, rfl⟩ := (hlists files).mp hlist
    obtain ⟨c₂, hc₂, hfinds⟩ := hs.openDir hb hfew hperm garbage opt' size'
    refine ⟨c₂, hc₂, fun key r => ?_⟩
    have hafter := hfinds key
    rw [(lookup_any_order hput).mpr (fun e he => hcond e.2 (Layout.snd_mem_files he)) ds hperm key] at hafter
    constructor
    · intro hr
      rw [hr.unique (hs.finds key)]
      exact hafter
    · intro hr
      rw [hr.unique hafter]
      exact hs.finds key

/-- Two files, a key that is in both with one value, and a deletion of a key that is not
there. -/
theorem restart_lookup_two_files : ∃ c c₁ : FlashCache, c.cacheFile = 1 ∧
    CloseAll c c₁ ∧ ∀ files, c₁.Lists files → ∀ garbage opt' size', ∃ c₂,
      FlashCache.openDir garbage opt' size' files = .ok c₂ ∧
        ∀ key r, c.Finds (fun _ => 0) key r ↔ c₂.Finds (fun _ => 0) key r := by
  have h0 := Run.nil (R := CacheStep (fun _ => 0) .direct) (C := fun _ _ a => a.Updates) (.openEmpty ⟨20, 0, 1000⟩ 0)
  have h1 := h0.snoc (a := .insert [97] [1]) (by decide) (.insert
    (show FlashCache.insert (fun _ => 0) .direct [.moved 99] _ [97] [1] = .ok (0, _) from rfl))
  have h2 := h1.snoc (a := .insert [98] [2]) (by decide) (.insert
    (show FlashCache.insert (fun _ => 0) .direct [.moved 99] _ [98] [2] = .ok (0, _) from rfl))
  have h3 := h2.snoc (a := .insert [97] [1]) (by decide) (.insert
    (show FlashCache.insert (fun _ => 0) .direct [.moved 99] _ [97] [1] = .ok (0, _) from rfl))
  have h4 := h3.snoc (a := .deleteMetaData [99]) (by decide) .deleteMetaData
  obtain ⟨c, h, hfile⟩ : ∃ c, Run (CacheStep (fun _ => 0) .direct) (fun _ _ a => a.Updates)
      (.openEmpty ⟨20, 0, 1000⟩ 0)
      [.insert [97] [1], .insert [98] [2], .insert [97] [1], .deleteMetaData [99]] c ∧ c.cacheFile = 1 :=
    ⟨_, h4, rfl⟩
  obtain ⟨c₁, hclose⟩ := (run_settled h (by decide)).closeAll
  exact ⟨c, c₁, hfile, hclose, (restart_lookup h (by decide) hclose).mpr ⟨by decide, by decide⟩⟩

/-- A key is inserted, deleted and inserted again with another value, in the next file.
After a restart the deleted value is found, or the other one, as the files are listed. -/
theorem restart_revives : ∃ c c₁ c₂ c₃ : FlashCache, ∃ f₀ f₁ : UInt32 × Bytes,
    Run (CacheStep (fun _ => 0) .direct) (fun _ _ a => a.Updates) (.openEmpty ⟨18, 0, 1000⟩ 0)
      [.insert [97] [1], .deleteMetaData [97], .insert [97] [2]] c ∧
    CloseAll c c₁ ∧ c₁.Lists [f₀, f₁] ∧ c₁.Lists [f₁, f₀] ∧
    FlashCache.openDir (fun _ _ _ => 0) ⟨18, 0, 1000⟩ 0 [f₀, f₁] = .ok c₂ ∧
    FlashCache.openDir (fun _ _ _ => 0) ⟨18, 0, 1000⟩ 0 [f₁, f₀] = .ok c₃ ∧
    c.Finds (fun _ => 0) [97] (some [2]) ∧ c₂.Finds (fun _ => 0) [97] (some [1]) ∧
      c₃.Finds (fun _ => 0) [97] (some [2]) := by
  have h0 := Run.nil (R := CacheStep (fun _ => 0) .direct) (C := fun _ _ a => a.Updates) (.openEmpty ⟨18, 0, 1000⟩ 0)
  have h1 := h0.snoc (a := .insert [97] [1]) (by decide) (.insert
    (show FlashCache.insert (fun _ => 0) .direct [.moved 99] _ [97] [1] = .ok (0, _) from rfl))
  have h2 := h1.snoc (a := .deleteMetaData [97]) (by decide) .deleteMetaData
  have h3 := h2.snoc (a := .insert [97] [2]) (by decide) (.insert
    (show FlashCache.insert (fun _ => 0) .direct [.moved 99] _ [97] [2] = .ok (0, _) from rfl))
  have hb : (Layout.after 18 [.put [97] [1], .del [97], .put [97] [2]]).Bounded := by decide
  obtain ⟨c, h, hs⟩ : ∃ c, Run (CacheStep (fun _ => 0) .direct) (fun _ _ a => a.Updates) (.openEmpty ⟨18, 0, 1000⟩ 0)
      [.insert [97] [1], .deleteMetaData [97], .insert [97] [2]] c ∧
      Settled (fun _ => 0) ⟨18, 0, 1000⟩ [.put [97] [1], .del [97], .put [97] [2]] c := ⟨_, h3, run_settled h3 hb⟩
  obtain ⟨c₁, hclose⟩ := hs.closeAll
  have hfirst : [((0 : UInt32), [(([97] : Bytes), ([1] : Bytes))]), (1, [([97], [2])])].Perm
      (Layout.after 18 [.put [97] [1], .del [97], .put [97] [2]]).entries := .refl _
  have hsecond := (List.Perm.swap _ _ []).trans hfirst
  obtain ⟨c₂, hc₂, hfinds₂⟩ := hs.openDir hb (by decide) hfirst (fun _ _ _ => 0) ⟨18, 0, 1000⟩ 0
  obtain ⟨c₃, hc₃, hfinds₃⟩ := hs.openDir hb (by decide) hsecond (fun _ _ _ => 0) ⟨18, 0, 1000⟩ 0
  exact ⟨c, c₁, c₂, c₃, _, _, h, hclose, (hs.lists_iff hclose _).mpr ⟨_, hfirst, rfl⟩,
    (hs.lists_iff hclose _).mpr ⟨_, hsecond, rfl⟩, hc₂, hc₃, hs.finds [97], hfinds₂ [97], hfinds₃ [97]⟩

end EmbeddedKv.Store
