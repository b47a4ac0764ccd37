import EmbeddedKv.Flash.Ledger
import EmbeddedKv.Store.Insert

/-!
# The logs of the flash cache

The invariant of the flash cache while no file is evicted, in both modes.

## What is proved

Every cache file has a log (`FileSound`): in direct mode its bytes, in write-buffer
mode the bytes put into its buffers. `CacheSound` says so of all files, and that the
index of the files is right. `CacheSound.insert`: an `Insert` that returns has put its
record behind one of the logs, and the address it books leads there.
-/

namespace EmbeddedKv.Store

open EmbeddedKv.Library EmbeddedKv.Flash WriteableCacheFile

/-! ### Files -/

variable {crc : Bytes → UInt32} {mode : FlashcacheMode} {f g : WriteableCacheFile} {log key val : Bytes}
  {lba : LBA}

/-- **The log of a cache file.** -/
structure FileSound (mode : FlashcacheMode) (f : WriteableCacheFile) (log : Bytes) : Prop where
  /-- `disk_woff_` is its length, modulo `2 ^ 32`. -/
  booked : f.diskWoff = UInt32.ofNat log.length
  /-- In direct mode the file has all of it, and the writer sleeps. -/
  direct : mode = .direct →
    f.fd = some log ∧ f.bufs = [] ∧ f.filesize = f.diskWoff ∧ f.tid = some .waiting ∧ f.semWriter = 0
  /-- In write-buffer mode the file is consistent with it. -/
  buffered : mode = .writeBuffer → f.Consistent log

theorem fileSound_fresh (mode : FlashcacheMode) (cacheId maxSize : UInt32) {writeBufferSize : UInt32}
    (hc : mode = .writeBuffer → 0 < writeBufferSize.toNat) :
    FileSound mode (fresh cacheId maxSize writeBufferSize) [] where
  booked := rfl
  direct _ := ⟨rfl, rfl, rfl, rfl, rfl⟩
  buffered hm := consistent_created _ _ _ 0 (hc hm)

/-- Until the end of the file, what `Read` looks at is the log. -/
theorem FileSound.contents_eq (h : FileSound mode f log) (he : f.eof = false) : f.contents mode = log := by
  cases mode with
  | direct =>
    obtain ⟨hfd, -⟩ := h.direct rfl
    rw [contents, if_pos (show f.closed .direct = true from rfl), hfd]
    rfl
  | writeBuffer =>
    have hcons := h.buffered rfl
    rw [contents, closed, he, Bool.false_and, if_neg Bool.false_ne_true, hcons.cut.flatMap_data,
      List.take_of_length_le (hcons.shaped he).room]

/-- **`Append`** refuses at the end of the file, and only then, and otherwise puts the
record behind the log. -/
theorem FileSound.append (h : FileSound mode f log) (hsize : mode = .writeBuffer → recordSize key val < 2 ^ 32)
    {writes : List IoResult} {ok : Bool} {lba' : LBA} (hr : f.append crc mode writes key val lba = .ok (ok, lba', g)) :
    (f.eof = true ∧ ok = false ∧ lba' = lba ∧ g = f) ∨
      f.eof = false ∧ ok = true ∧ recordSize key val < 2 ^ 32 ∧ FileSound mode g (log ++ image crc key val) ∧
        lba' = ⟨f.cacheId, f.diskWoff, CacheRecord.calcSize key val⟩ ∧ g.cacheId = f.cacheId := by
  have hbooked : f.diskWoff + CacheRecord.calcSize key val = UInt32.ofNat (log ++ image crc key val).length := by
    rw [h.booked, List.length_append, UInt32.ofNat_add, length_image]
    rfl
  cases mode with
  | direct =>
    rw [WriteableCacheFile.append] at hr
    cases he : f.eof with
    | true =>
      rw [appendDirect_of_eof he] at hr
      cases hr
      exact .inl ⟨rfl, rfl, rfl, rfl⟩
    | false =>
      obtain ⟨hfd, hbufs, hfile, htid, hsem⟩ := h.direct rfl
      obtain ⟨hint, heq⟩ := appendDirect_ok he hfd hr
      cases heq
      refine .inr ⟨rfl, rfl, by omega, ⟨hbooked, fun _ => ⟨rfl, hbufs, ?_, htid, hsem⟩, by simp⟩, rfl, rfl⟩
      show f.filesize + _ = f.diskWoff + _
      rw [hfile]
  | writeBuffer =>
    have hcons := h.buffered rfl
    obtain ⟨f₁, hb, rfl⟩ := append_buffered hr
    rcases hcons.appendBuffered_cases hb with
      ⟨he, rfl, rfl⟩ | ⟨he, bufs, woff, more, hs, ⟨rfl, rfl, rfl, rfl⟩ | ⟨-, hbig, -⟩⟩
    · rw [appendBuffered_of_eof he] at hb
      cases hb
      exact .inl ⟨he, rfl, rfl, rfl⟩
    · have hgrow := (hcons.grow he hs (f.keyLists ++ [key]) (f.diskWoff + CacheRecord.calcSize key val)
        (decide (f.maxSize ≤ f.diskWoff + CacheRecord.calcSize key val))).dispatched
      rw [if_pos rfl]
      refine .inr ⟨he, rfl, hsize rfl, ⟨?_, by simp, fun _ => hgrow⟩, rfl, cacheId_dispatched _⟩
      rw [(dispatched_frame _).2.1]
      exact hbooked
    · exact absurd (hsize rfl) (Nat.not_lt.mpr hbig)

/-- **`Read`** returns a record of the log, in write-buffer mode as far as it can be
read. -/
theorem FileSound.read (h : FileSound mode f log) (hat : At log lba (image crc key val)) (hk : NulFree key)
    (hv : NulFree val) (hsize : recordSize key val < 2 ^ 32) {env : Environment}
    (hio : Enough env.preads lba.size.toNat) (hbuf : mode = .writeBuffer → f.Readable mode lba) :
    f.read crc mode env lba = .ok (some (key, val)) := by
  cases mode with
  | direct =>
    obtain ⟨hfd, hbufs, -⟩ := h.direct rfl
    have hholds : f.Holds log := ⟨⟨log, hfd, List.prefix_refl _⟩, by rw [hbufs]; exact Cut.nil _ _⟩
    apply read_closed_of_le rfl hholds hat hk hv hsize hio
    have hle := hat.le (length_image_pos crc key val)
    rw [contents, if_pos (show f.closed .direct = true from rfl), hfd, hat.1]
    exact hle
  | writeBuffer => exact (read_iff (h.buffered rfl).holds hat hk hv hsize hio).mpr (hbuf rfl)

/-- The writer keeps the log; in direct mode it sleeps. -/
theorem FileSound.writer (h : FileSound mode f log) (hw : f.WriterStep g) : FileSound mode g log := by
  cases mode with
  | direct =>
    obtain ⟨-, -, -, htid, hsem⟩ := h.direct rfl
    cases hw <;> simp_all
  | writeBuffer =>
    exact ⟨hw.frame.2.2.1.trans h.booked, by simp, fun _ => hw.consistent (h.buffered rfl)⟩

/-! ### The cache -/

/-- **Every file has its log**, and the index has it under its id. -/
structure CacheSound (mode : FlashcacheMode) (logs : ℕ → Bytes) (c : FlashCache) : Prop where
  /-- The index of the files is in order. -/
  linked : c.metadata.cacheFileIndex.Linked
  /-- It names files that are there, by their ids. -/
  indexed : ∀ id p, c.metadata.cacheFileIndex.find id = some p →
    id ∈ c.dir ∧ ∃ f, c.deref p = some f ∧ f.cacheId = id
  /-- The current file is among them. -/
  current : ∃ f, c.deref c.cacheFile = some f ∧ c.metadata.cacheFileIndex.find f.cacheId = some c.cacheFile
  /-- Every file has its log. -/
  files : ∀ p f, c.deref p = some f → FileSound mode f (logs p)
  /-- Buffers have room. -/
  room : mode = .writeBuffer → 0 < c.opt.writeBufferSize.toNat

/-- Logs grow, and files stay in the index. -/
def Grows (logs logs' : ℕ → Bytes) (c c' : FlashCache) : Prop :=
  ∀ id p, c.metadata.cacheFileIndex.find id = some p →
    c'.metadata.cacheFileIndex.find id = some p ∧ logs p <+: logs' p

variable {logs logs' : ℕ → Bytes} {c c' : FlashCache} {p : ℕ}

/-- A file is changed, and its log grows. -/
theorem CacheSound.store (h : CacheSound mode logs c) (hf : c.deref p = some f) {more : Bytes}
    (hg : FileSound mode g (logs p ++ more)) (hid : g.cacheId = f.cacheId) :
    CacheSound mode (Function.update logs p (logs p ++ more)) (c.store p g) ∧
      Grows logs (Function.update logs p (logs p ++ more)) c (c.store p g) := by
  have hderef := fun q => FlashCache.deref_store hf g q
  refine ⟨⟨h.linked, fun id q hq => ?_, ?_, fun q e he => ?_, h.room⟩, fun id q hq => ⟨hq, ?_⟩⟩
  · obtain ⟨hdir, e, he, hcid⟩ := h.indexed id q hq
    refine ⟨hdir, ?_⟩
    by_cases hqp : q = p
    · subst hqp
      obtain rfl := Option.some.inj (hf.symm.trans he)
      exact ⟨g, by rw [hderef, if_pos rfl], hid.trans hcid⟩
    · exact ⟨e, by rw [hderef, if_neg hqp]; exact he, hcid⟩
  · obtain ⟨e, he, hcur⟩ := h.current
    show ∃ f, (c.store p g).deref c.cacheFile = some f ∧ c.metadata.cacheFileIndex.find f.cacheId = some c.cacheFile
    by_cases hqp : c.cacheFile = p
    · rw [hqp, hf] at he
      obtain rfl := Option.some.inj he
      exact ⟨g, by rw [hderef, if_pos hqp], by rw [hid]; exact hcur⟩
    · exact ⟨e, by rw [hderef, if_neg hqp]; exact he, hcur⟩
  · rw [hderef] at he
    by_cases hqp : q = p
    · rw [if_pos hqp] at he
      obtain rfl := Option.some.inj he
      rw [hqp, Function.update_self]
      exact hg
    · rw [if_neg hqp] at he
      rw [Function.update_of_ne hqp]
      exact h.files q e he
  · by_cases hqp : q = p
    · rw [hqp, Function.update_self]
      exact List.prefix_append _ _
    · exact Function.update_of_ne hqp (logs p ++ more) logs ▸ List.prefix_refl _

/-- A new file, under an id that is not in use. -/
theorem CacheSound.withNewFile (h : CacheSound mode logs c) (hid : c.writerCacheId ∉ c.dir) :
    CacheSound mode (Function.update logs c.heap.length []) c.withNewFile ∧
      Grows logs (Function.update logs c.heap.length []) c c.withNewFile := by
  have hderef := c.deref_withNewFile
  rw [decide_eq_false hid] at hderef
  have hnone : c.metadata.cacheFileIndex.find c.writerCacheId = none := by
    by_contra hne
    obtain ⟨q, hq⟩ := Option.ne_none_iff_exists'.mp hne
    exact hid (h.indexed _ q hq).1
  have hfind : ∀ id, c.withNewFile.metadata.cacheFileIndex.find id =
      if id = c.writerCacheId then some c.heap.length else c.metadata.cacheFileIndex.find id := by
    intro id
    show (c.metadata.cacheFileIndex.insert c.writerCacheId c.heap.length).find id = _
    rw [LruCache.find_insert, hnone, Option.getD_none]
  have hold : ∀ {q e}, c.deref q = some e → q ≠ c.heap.length := fun he =>
    Nat.ne_of_lt (FlashCache.lt_of_deref he)
  refine ⟨⟨h.linked.insert _ _, fun id q hq => ?_, ?_, fun q e he => ?_, h.room⟩, fun id q hq => ?_⟩
  · rw [hfind] at hq
    rw [show c.withNewFile.dir = c.writerCacheId :: c.dir from if_neg hid, hderef]
    by_cases heq : id = c.writerCacheId
    · rw [if_pos heq, Option.some.injEq] at hq
      rw [if_pos hq.symm]
      exact ⟨by rw [heq]; exact List.mem_cons_self, _, rfl, heq.symm⟩
    · rw [if_neg heq] at hq
      obtain ⟨hdir, e, he, hcid⟩ := h.indexed id q hq
      rw [if_neg (hold he)]
      exact ⟨List.mem_cons_of_mem _ hdir, e, he, hcid⟩
  · refine ⟨_, by rw [hderef]; exact if_pos rfl, ?_⟩
    rw [hfind]
    exact if_pos rfl
  · rw [hderef] at he
    by_cases hq : q = c.heap.length
    · rw [if_pos hq, Option.some.injEq] at he
      rw [hq, Function.update_self, ← he]
      exact fileSound_fresh mode _ _ h.room
    · rw [if_neg hq] at he
      rw [Function.update_of_ne hq]
      exact h.files q e he
  · obtain ⟨hdir, e, he, -⟩ := h.indexed id q hq
    have hne : id ≠ c.writerCacheId := fun heq => hid (heq ▸ hdir)
    rw [hfind, if_neg hne, Function.update_of_ne (hold he)]
    exact ⟨hq, List.prefix_refl _⟩

/-! ### Insertion -/

/-- **There is a place for the record**: its offset in the file that gets it fits into
32 bits, and so does its size; if a new file is needed, its id is not in use. In direct
mode the size is checked by the conversion to `int`, and without an open file the call
does not return. -/
def Fits (mode : FlashcacheMode) (c : FlashCache) (key val : Bytes) : Prop :=
  (mode = .writeBuffer → recordSize key val < 2 ^ 32) ∧ ∀ f, c.deref c.cacheFile = some f →
    (f.eof = false → (f.contents mode).length < 2 ^ 32) ∧
      (f.eof = true → mode = .writeBuffer → c.writerCacheId ∉ c.dir)

instance (mode : FlashcacheMode) (c : FlashCache) (key val : Bytes) : Decidable (Fits mode c key val) :=
  match hf : c.deref c.cacheFile with
  | none => decidable_of_iff (mode = .writeBuffer → recordSize key val < 2 ^ 32)
      ⟨fun h => ⟨h, fun f hf' => by rw [hf] at hf'; cases hf'⟩, And.left⟩
  | some f => decidable_of_iff ((mode = .writeBuffer → recordSize key val < 2 ^ 32) ∧
        (f.eof = false → (f.contents mode).length < 2 ^ 32) ∧
        (f.eof = true → mode = .writeBuffer → c.writerCacheId ∉ c.dir))
      ⟨fun h => ⟨h.1, fun g hg => by rw [hf] at hg; cases hg; exact h.2⟩, fun h => ⟨h.1, h.2 f hf⟩⟩

theorem Grows.trans {logs₁ logs₂ logs₃ : ℕ → Bytes} {c₁ c₂ c₃ : FlashCache} (h : Grows logs₁ logs₂ c₁ c₂)
    (h' : Grows logs₂ logs₃ c₂ c₃) : Grows logs₁ logs₃ c₁ c₃ := by
  intro id p hp
  obtain ⟨hp₂, hpre⟩ := h id p hp
  obtain ⟨hp₃, hpre'⟩ := h' id p hp₂
  exact ⟨hp₃, hpre.trans hpre'⟩

/-- The file that gets the record of an `Insert` is in order, and its end is within
32 bits. -/
theorem CacheSound.target {c₁ : FlashCache} (h : CacheSound mode logs c) (hfit : Fits mode c key val)
    (ht : FlashCache.Target mode c c₁) : ∃ logs₁, CacheSound mode logs₁ c₁ ∧ Grows logs logs₁ c c₁ ∧
      c₁.metadata.blockIndex = c.metadata.blockIndex ∧
      ∀ f, c₁.deref c₁.cacheFile = some f → f.eof = false → (f.contents mode).length < 2 ^ 32 := by
  cases ht with
  | current =>
    exact ⟨logs, { h with }, fun id p hp => ⟨hp, List.prefix_refl _⟩, rfl, fun f hf he => (hfit.2 f hf).1 he⟩
  | @rolled f hf he hnew =>
    have hfresh : c.writerCacheId ∉ c.dir := by
      cases mode with
      | direct => exact hnew rfl
      | writeBuffer => exact (hfit.2 f hf).2 he rfl
    have hlocked : CacheSound mode logs { c with fcacheMutex := true } := { h with }
    obtain ⟨hs, hgrow⟩ := hlocked.withNewFile hfresh
    refine ⟨_, hs, hgrow, rfl, fun e he heof => ?_⟩
    have hlog : Function.update logs c.heap.length [] c.heap.length = [] := Function.update_self _ _ _
    rw [(hs.files _ e he).contents_eq heof]
    show (Function.update logs c.heap.length [] c.heap.length).length < 2 ^ 32
    rw [hlog]
    exact Nat.two_pow_pos 32

/-- **`Insert`** returns 0; the record is in one of the logs, and its address in the
index if its key was not there. -/
theorem CacheSound.insert (h : CacheSound mode logs c) (hfit : Fits mode c key val) {writes : List IoResult}
    {r : Int} (hr : c.insert crc mode writes key val = .ok (r, c')) :
    c'.fcacheMutex = false ∧ ∃ logs', CacheSound mode logs' c' ∧ Grows logs logs' c c' ∧
      recordSize key val < 2 ^ 32 ∧ ∃ lba, c'.metadata.blockIndex = (c.metadata.insert key lba).blockIndex ∧
        ∃ p, c'.metadata.cacheFileIndex.find lba.cacheId = some p ∧ At (logs' p) lba (image crc key val) := by
  obtain ⟨c₁, f, g, lba, lba', ok, ht, hf, heof, ha, hstate⟩ := FlashCache.insert_cases hr
  obtain ⟨logs₁, h₁, hgrow₁, hblock, hoff⟩ := h.target hfit ht
  have hfile := h₁.files _ f hf
  rcases hfile.append hfit.1 ha with ⟨hend, -⟩ | ⟨-, rfl, hsmall, hg, rfl, hid⟩
  · exact absurd (heof.symm.trans hend) Bool.false_ne_true
  obtain ⟨-, rfl⟩ | ⟨hok, -⟩ := hstate
  · obtain ⟨hs, hgrow⟩ := h₁.store hf hg hid
    have hindex := Metadata.cacheFileIndex_insert c₁.metadata key ⟨f.cacheId, f.diskWoff, CacheRecord.calcSize key val⟩
    have hboth : Grows logs _ c (c₁.store c₁.cacheFile g) := hgrow₁.trans hgrow
    refine ⟨rfl, _, ⟨?_, ?_, ?_, hs.files, hs.room⟩, ?_, hsmall, ⟨f.cacheId, f.diskWoff, CacheRecord.calcSize key val⟩,
      ?_, ?_⟩
    · rw [FlashCache.booked, hindex]
      exact hs.linked
    · rw [FlashCache.booked, hindex]
      exact hs.indexed
    · rw [FlashCache.booked, hindex]
      exact hs.current
    · rw [Grows, FlashCache.booked, hindex]
      exact hboth
    · unfold FlashCache.booked Metadata.insert
      rw [hblock]
      cases c.metadata.blockIndex.lookup key with
      | none => rfl
      | some _ => exact hblock
    · obtain ⟨e, he, hcur⟩ := h₁.current
      obtain rfl := Option.some.inj (hf.symm.trans he)
      rw [FlashCache.booked, hindex]
      refine ⟨c₁.cacheFile, hcur, ?_⟩
      rw [Function.update_self]
      apply At.last
      · have hlt := hoff f hf heof
        rw [hfile.contents_eq heof] at hlt
        rw [hfile.booked, UInt32.toNat_ofNat', Nat.mod_eq_of_lt hlt]
      · rw [CacheRecord.toNat_calcSize_of_lt hsmall, length_image]
  · cases hok

end EmbeddedKv.Store
