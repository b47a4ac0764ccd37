import EmbeddedKv.Store.Refinement

/-!
# Integrity of the flash cache

What a `Lookup` in direct mode returns was inserted under exactly this key
(`lookup_integrity`), in every run of `Insert`, `Lookup` and `DeleteMetaData` in which
every call gets the mutex.

The offsets stay below `2 ^ 32` since a file that is not at its end is shorter than
`cache_file_size` (`Filling`).
-/

namespace EmbeddedKv.Store

open EmbeddedKv.Library EmbeddedKv.Flash WriteableCacheFile

variable {crc : Bytes → UInt32} {opt : FlashCacheConfig} {size : UInt64} {acts : List CacheAct}
  {f g : WriteableCacheFile} {key val : Bytes} {lba : LBA} {logs : ℕ → Bytes} {c c' : FlashCache}

/-! ### The length of the current file -/

/-- A file of maximal size `M` in direct mode: `filesize_` counts its bytes, and until
its end there are less than `M`. -/
def Filling (M : UInt32) (f : WriteableCacheFile) : Prop :=
  f.maxSize = M ∧ ∀ d, f.fd = some d →
    f.filesize = UInt32.ofNat d.length ∧ (f.eof = false → d = [] ∨ d.length < M.toNat)

/-- A new file. -/
theorem filling_new (id M writeBufferSize : UInt32) (fileExists : Bool) :
    Filling M ((WriteableCacheFile.new id M writeBufferSize).created fileExists 0) := by
  cases fileExists with
  | true => exact ⟨rfl, fun d hd => by cases hd⟩
  | false =>
    refine ⟨rfl, fun d hd => ?_⟩
    obtain rfl := Option.some.inj hd
    exact ⟨rfl, fun _ => .inl rfl⟩

/-- An `Append` of a record that fits behind the maximal size. -/
theorem Filling.append {M : UInt32} (h : Filling M f) (hfit : M.toNat + recordSize key val < 2 ^ 32)
    {writes : List IoResult} {ok : Bool} {lba' : LBA}
    (hr : f.append crc .direct writes key val lba = .ok (ok, lba', g)) : Filling M g := by
  rw [WriteableCacheFile.append] at hr
  rcases appendDirect_inv hr with ⟨-, -, rfl⟩ | ⟨he, -, -, d, hd, rfl⟩
  · exact h
  obtain ⟨hM, hfile⟩ := h
  obtain ⟨hcount, hlen⟩ := hfile d hd
  refine ⟨hM, fun d' hde => ?_⟩
  obtain rfl : d ++ image crc key val = d' := Option.some.inj hde
  have hd' : (d ++ image crc key val).length = d.length + recordSize key val := by
    rw [List.length_append, length_image]
  have hnew : f.filesize + CacheRecord.calcSize key val = UInt32.ofNat (d ++ image crc key val).length := by
    rw [hd', UInt32.ofNat_add, ← hcount]
    rfl
  refine ⟨hnew, fun hopen => .inr ?_⟩
  -- there was no wrap-around, so the comparison with the maximal size is the right one
  have hlt : (d ++ image crc key val).length < 2 ^ 32 := by
    rcases hlen he with rfl | hlen
    · rw [hd', List.length_nil]; omega
    · omega
  have hnot : ¬ f.maxSize ≤ f.filesize + CacheRecord.calcSize key val := by simpa using hopen
  rw [hnew, hM, UInt32.le_iff_toNat_le, UInt32.toNat_ofNat', Nat.mod_eq_of_lt hlt] at hnot
  omega

/-- The current file is shorter than `cache_file_size` until its end. -/
def Short (opt : FlashCacheConfig) (c : FlashCache) : Prop :=
  c.opt = opt ∧ ∀ f, c.deref c.cacheFile = some f → Filling opt.cacheFileSize f

/-! ### Runs -/

/-- **The calls considered**: strings without zero bytes, records that fit behind the
maximal size of a file, and no eviction. -/
def CacheAct.InBounds (opt : FlashCacheConfig) : CacheAct → Prop
  | .insert key val =>
    NulFree key ∧ NulFree val ∧ opt.cacheFileSize.toNat + recordSize key val < 2 ^ 32
  | .evict _ => False
  | _ => True

/-- One call that gets the mutex. -/
def LockedStep (crc : Bytes → UInt32) (mode : FlashcacheMode) (c : FlashCache) (a : CacheAct)
    (c' : FlashCache) : Prop := CacheStep crc mode { c with fcacheMutex := false } a c'

/-- There is a place for a record within bounds. -/
theorem CacheSound.fits (h : CacheSound .direct logs c) (hshort : Short opt c)
    (hsize : opt.cacheFileSize.toNat + recordSize key val < 2 ^ 32) : Fits .direct c key val := by
  refine ⟨by simp, fun f hf => ⟨fun he => ?_, by simp⟩⟩
  have hfile := h.files _ f hf
  rw [hfile.contents_eq he]
  obtain ⟨-, hlen⟩ := (hshort.2 f hf).2 _ (hfile.direct rfl).1
  rcases hlen he with hnil | hlt
  · rw [hnil]; decide
  · omega

/-- Every call keeps the current file short. -/
theorem CacheStep.short {a : CacheAct} (hs : CacheStep crc .direct c a c') (ha : a.InBounds opt)
    (h : CacheSound .direct logs c) (hshort : Short opt c) : Short opt c' := by
  cases hs with
  | @insert c' key val writes r hr =>
    obtain ⟨c₁, f, g, lba, lba', ok, ht, hf, -, happ, hstate⟩ := FlashCache.insert_cases hr
    have htarget : Short opt c₁ := by
      cases ht with
      | current => exact hshort
      | rolled _ _ _ =>
        refine ⟨hshort.1, fun e he => ?_⟩
        rw [FlashCache.deref_withNewFile] at he
        have hnew : some _ = some e := (if_pos rfl).symm.trans he
        rw [← Option.some.inj hnew]
        show Filling opt.cacheFileSize ((WriteableCacheFile.new c.writerCacheId c.opt.cacheFileSize _).created _ 0)
        rw [hshort.1]
        exact filling_new _ _ _ _
    have hgf := (htarget.2 f hf).append ha.2.2 happ
    have hstore : Short opt (c₁.store c₁.cacheFile g) := by
      refine ⟨htarget.1, fun e he => ?_⟩
      have hsame : some g = some e := by
        rw [← he]
        exact (FlashCache.deref_store hf g c₁.cacheFile).trans (if_pos rfl) |>.symm
      rw [← Option.some.inj hsame]
      exact hgf
    obtain ⟨-, rfl⟩ | ⟨-, rfl⟩ := hstate
    · exact hstore
    · exact hstore
  | @lookup c' key env r hr =>
    obtain ⟨hopt, hcur, hheap⟩ := FlashCache.lookup_frame hr
    refine ⟨hopt.trans hshort.1, fun f hf => hshort.2 f ?_⟩
    rwa [FlashCache.deref, hheap, hcur] at hf
  | deleteMetaData => exact hshort
  | evict hr => cases ha
  | @writer p f g hf hw =>
    -- in direct mode the writer sleeps
    obtain ⟨-, -, -, htid, hsem⟩ := (h.files p f hf).direct rfl
    cases hw.1 <;> simp_all

/-- **Integrity**: in every state reached by calls within bounds, for every entry of
the index of the keys, its file is in the index of the files, the record at the
address is read back, its key is the key of the entry, and `Lookup` returns its value,
which was inserted under this key. -/
theorem lookup_integrity
    (h : Run (LockedStep crc .direct) (fun _ _ a => a.InBounds opt) (.openEmpty opt size) acts c)
    (key : Bytes) (hl : c.metadata.lookup key = some lba) :
    ∃ p f val, c.metadata.cacheFileIndex.find lba.cacheId = some p ∧ c.deref p = some f ∧
      .insert key val ∈ acts ∧
      ∀ env, Enough env.preads lba.size.toNat →
        f.read crc .direct env lba = .ok (some (key, val)) ∧
        ∃ c', { c with fcacheMutex := false }.lookup crc .direct env key = .ok (some val, c') := by
  obtain ⟨logs, hs, hm, -⟩ : ∃ logs, CacheSound .direct logs c ∧
      Refines crc logs c (kept (acts.filterMap CacheAct.event)) ∧ Short opt c := by
    refine h.invariant (P := fun acts c => ∃ logs, CacheSound .direct logs c ∧
      Refines crc logs c (kept (acts.filterMap CacheAct.event)) ∧ Short opt c) ?_ ?_
    · obtain ⟨logs, hs, hm⟩ := openEmpty_refines crc .direct opt size (by simp)
      refine ⟨logs, hs, hm, rfl, fun f hf => ?_⟩
      obtain rfl := Option.some.inj hf
      exact filling_new 0 opt.cacheFileSize opt.writeBufferSize false
    · rintro acts c a c' ⟨logs, hs, hm, hshort⟩ ha hstep
      have hs' : CacheSound .direct logs { c with fcacheMutex := false } := { hs with }
      have hadm : a.Admissible .direct { c with fcacheMutex := false } := by
        cases a with
        | insert key val => exact ⟨ha.1, ha.2.1, hs'.fits hshort ha.2.2⟩
        | lookup key => trivial
        | deleteMetaData key => trivial
        | evict size => exact ha
        | writer p => trivial
      obtain ⟨logs', hnew, hmap⟩ := hstep.refines hadm hs' hm
      exact ⟨logs', hnew, hmap, hstep.short ha hs' hshort⟩
  obtain ⟨val, hval, hst⟩ := hm.stores hl
  obtain ⟨⟨p, hp, hat⟩, hk, hv, hsmall⟩ := id hst
  obtain ⟨-, f, hf, -⟩ := hs.indexed _ p hp
  have hin : .insert key val ∈ acts := by
    obtain ⟨a, ha, hev⟩ := List.mem_filterMap.mp (put_mem_of_kept hval)
    cases a with
    | insert k v =>
      obtain ⟨rfl, rfl⟩ := MapEvent.put.inj (Option.some.inj hev)
      exact ha
    | deleteMetaData k => cases hev
    | lookup k => cases hev
    | evict n => cases hev
    | writer p => cases hev
  refine ⟨p, f, val, hp, hf, hin, fun env hio => ⟨(hs.files p f hf).read hat hk hv hsmall hio (by simp), ?_⟩⟩
  have hs' : CacheSound .direct logs { c with fcacheMutex := false } := { hs with }
  obtain ⟨c', hlook, -⟩ := hs'.lookup_stored rfl hl hst hio (by simp)
  exact ⟨c', hlook⟩

/-- Three records over two files, the last of which is looked up, with a key inserted
twice and another one deleted. -/
theorem lookup_integrity_rollover : ∃ (c : FlashCache) (p : ℕ) (f : WriteableCacheFile) (val : Bytes),
    c.metadata.lookup [97] = some ⟨0, 0, 18⟩ ∧ c.metadata.lookup [98] = none ∧ c.cacheFile = 1 ∧
      c.deref p = some f ∧ ∀ env, Enough env.preads 18 →
        f.read (fun _ => 0) .direct env ⟨0, 0, 18⟩ = .ok (some ([97], val)) ∧
        ∃ c', { c with fcacheMutex := false }.lookup (fun _ => 0) .direct env [97] = .ok (some val, c') := by
  have h0 := Run.nil (R := LockedStep (fun _ => 0) .direct) (C := fun _ _ a => a.InBounds ⟨20, 0, 1000⟩)
    (.openEmpty ⟨20, 0, 1000⟩ 0)
  have h1 := h0.snoc (a := CacheAct.insert [97] [1]) ⟨by decide, by decide, by decide⟩ (CacheStep.insert
    (show FlashCache.insert (fun _ => 0) .direct [.moved 99] _ [97] [1] = .ok (0, _) from rfl))
  have h2 := h1.snoc (a := CacheAct.insert [98] [2]) ⟨by decide, by decide, by decide⟩ (CacheStep.insert
    (show FlashCache.insert (fun _ => 0) .direct [.moved 99] _ [98] [2] = .ok (0, _) from rfl))
  have h3 := h2.snoc (a := CacheAct.deleteMetaData [98]) trivial CacheStep.deleteMetaData
  have h4 := h3.snoc (a := CacheAct.insert [97] [3]) ⟨by decide, by decide, by decide⟩ (CacheStep.insert
    (show FlashCache.insert (fun _ => 0) .direct [.moved 99] _ [97] [3] = .ok (0, _) from rfl))
  obtain ⟨p, f, val, -, hf, -, hread⟩ := lookup_integrity h4 [97] rfl
  exact ⟨_, p, f, val, rfl, rfl, rfl, hf, hread⟩

end EmbeddedKv.Store
