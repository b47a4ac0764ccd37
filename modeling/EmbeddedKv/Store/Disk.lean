import EmbeddedKv.Store.Capacity
import EmbeddedKv.Store.Evicting

/-!
# The bytes in the cache directory

Whether the files in the directory stay within `cache_size`, in both modes, in the
system of `Store.Evicting`. A file whose `unlink` fails stays in the directory.

## What is proved

`reach_diskBytes_le`: the bound holds in every run whose steps are `Measured`. In
write-buffer mode `Evict` keeps it: `size_` counts what has been put into the buffers and
is at least what the files have and are to get, so that a buffer for which there is room
fits. In direct mode nobody calls `Evict`, and the bound holds as long as the records
fit by themselves; `direct_exceeds` are two that do not.
-/

namespace EmbeddedKv.Store

open EmbeddedKv.Library EmbeddedKv.Flash WriteableCacheFile Relation

/-! ### The bytes of the files -/

/-- The bytes of a file. -/
def fileBytes (f : WriteableCacheFile) : ℕ := (f.fd.getD []).length

/-- The bytes of a file, and those that the writer has found room for and not written yet. -/
def claimedBytes (f : WriteableCacheFile) : ℕ :=
  fileBytes f + match f.tid with
    | some (.writing _ left) => left
    | _ => 0

/-- A total over the files of the cache. -/
def FlashCache.total (m : WriteableCacheFile → ℕ) (c : FlashCache) : ℕ :=
  ∑ p ∈ Finset.range c.heap.length, (c.deref p).elim 0 m

/-- **The bytes in the cache directory.** -/
def Evicting.diskBytes (s : Evicting) : ℕ := s.cache.total fileBytes + (s.leftover.map List.length).sum

/-- **The condition.** In direct mode the record fits by itself. In write-buffer mode it
is of less than `2 ^ 32` bytes, `size_` is not about to wrap, and the test of `Evict`,
in floats, finds a buffer too big that is. -/
def EvictAct.Measured (mode : FlashcacheMode) (s : Evicting) : EvictAct → Prop
  | .insert key val =>
    match mode with
    | .direct => s.diskBytes + recordSize key val ≤ s.cache.opt.cacheSize.toNat
    | .writeBuffer => recordSize key val < 2 ^ 32 ∧ s.cache.size.toNat + 2 ^ 32 ≤ 2 ^ 64
  | .writer p => ∀ f b, s.cache.deref p = some f → FlashCache.Fetches f b → s.cache.Exceeds b.used →
    s.cache.overfull (UInt64.ofNat b.used) = true
  | .remove _ => s.cache.size.toNat + 2 ^ 32 ≤ 2 ^ 64
  | .test _ | .lock _ => True

variable {crc : Bytes → UInt32} {mode : FlashcacheMode} {opt : FlashCacheConfig} {f g : WriteableCacheFile}
  {log key val : Bytes} {lba lba' : LBA} {c c' : FlashCache} {m : WriteableCacheFile → ℕ} {n p : ℕ} {s t : Evicting}

theorem deref_congr {q : ℕ} (hheap : c'.heap = c.heap) : c'.deref q = c.deref q := by
  rw [FlashCache.deref, hheap, FlashCache.deref]

/-- The total is one over the heap. -/
theorem total_congr (hheap : c'.heap = c.heap) : c'.total m = c.total m := by
  rw [FlashCache.total, FlashCache.total, hheap]
  exact Finset.sum_congr rfl fun q _ => by rw [deref_congr hheap]

/-- One file is changed. -/
theorem total_store (hf : c.deref p = some f) (g : WriteableCacheFile) :
    (c.store p g).total m + m f = c.total m + m g := by
  have hderef := FlashCache.deref_store hf g
  have hsum := total_update (fun q => (c.deref q).elim 0 m) (fun q => ((c.store p g).deref q).elim 0 m)
    (FlashCache.lt_of_deref hf) fun q hq => by rw [hderef, if_neg hq]
  simp only [hderef p, if_pos, hf, Option.elim_some] at hsum
  rw [FlashCache.total, FlashCache.total, show (c.store p g).heap.length = c.heap.length from List.length_set]
  exact hsum

/-- One file is added. -/
theorem total_withNewFile (c : FlashCache) : c.withNewFile.total m = c.total m +
    m ((WriteableCacheFile.new c.writerCacheId c.opt.cacheFileSize c.opt.writeBufferSize).created
      (decide (c.writerCacheId ∈ c.dir)) 0) := by
  have hderef := c.deref_withNewFile
  have hlen : c.withNewFile.heap.length = c.heap.length + 1 := List.length_append
  rw [FlashCache.total, hlen, total_succ (fun q => (c.deref q).elim 0 m) (fun q => (c.withNewFile.deref q).elim 0 m)
    fun q hq => by rw [hderef, if_neg (Nat.ne_of_lt hq)], hderef, if_pos rfl]
  rfl

/-- One file is deleted. -/
theorem total_removed (hf : c.deref p = some f) (metadata : Metadata) (g : WriteableCacheFile) (unlinked : Bool) :
    (c.removed metadata p g unlinked).total m + m f = c.total m := by
  have hderef : ∀ q, (c.removed metadata p g unlinked).deref q = if q = p then none else c.deref q :=
    c.deref_set_none p
  have hsum := total_update (fun q => (c.deref q).elim 0 m)
    (fun q => ((c.removed metadata p g unlinked).deref q).elim 0 m)
    (FlashCache.lt_of_deref hf) fun q hq => by rw [hderef, if_neg hq]
  simp only [hderef p, if_pos, hf, Option.elim_some, Option.elim_none, Nat.add_zero] at hsum
  rw [FlashCache.total, FlashCache.total,
    show (c.removed metadata p g unlinked).heap.length = c.heap.length from List.length_set]
  exact hsum

/-! ### One file in write-buffer mode -/

/-- Between two rounds of its loop the writer has written what it found room for. -/
theorem claimedBytes_of_between (hpc : ∀ src left, f.tid ≠ some (.writing src left)) : claimedBytes f = fileBytes f := by
  rw [claimedBytes]
  split
  · next left heq => exact absurd heq (hpc _ left)
  · rfl

/-- **What a file may come to have on disk**: at most `n` bytes. -/
inductive Meter (f : WriteableCacheFile) (n : ℕ) : Prop where
  /-- The file is consistent with what was put into its buffers. -/
  | log {log : Bytes} (h : f.Consistent log) (hn : log.length = n)
  /-- Its id was in use, so there is neither a file nor a writer. -/
  | unopened (htid : f.tid = none) (hfd : f.fd = none)
  /-- Buffers have no room, so nothing is put into them. -/
  | noRoom (hzero : f.writeBufferSize.toNat = 0) (hbufs : f.bufs = []) (hwoff : f.eof = false → f.bufWoff = 0)
      (hfd : f.fd.getD [] = []) (hsize : f.filesize = 0) (hpc : ∀ src left, f.tid ≠ some (.writing src left))

/-- A new file. -/
theorem meter_new (cacheId maxSize writeBufferSize : UInt32) (fileExists : Bool) :
    Meter ((WriteableCacheFile.new cacheId maxSize writeBufferSize).created fileExists 0) 0 := by
  cases fileExists with
  | true => exact .unopened rfl rfl
  | false =>
    rcases Nat.eq_zero_or_pos writeBufferSize.toNat with hzero | hpos
    · exact .noRoom hzero rfl (fun _ => rfl) rfl rfl (by simp [created, WriteableCacheFile.new])
    · exact .log (consistent_created cacheId maxSize writeBufferSize 0 hpos) rfl

/-- **`Append`** puts no more into the buffers than it books, and writes nothing. -/
theorem Meter.append (h : Meter f n) (hsmall : recordSize key val < 2 ^ 32) (he : f.eof = false)
    {writes : List IoResult} {ok : Bool} (hr : f.append crc .writeBuffer writes key val lba = .ok (ok, lba', g)) :
    ∃ k, Meter g (n + k) ∧ k ≤ if ok then recordSize key val else 0 := by
  obtain ⟨htid, hfd, -⟩ := append_buffered_frame hr
  cases h with
  | unopened hnone hunopened =>
    exact ⟨0, .unopened (htid.trans hnone) (hfd.trans hunopened), Nat.zero_le _⟩
  | noRoom hzero hbufs hwoff _ _ _ =>
    have hshape : Shaped 0 f.bufs f.bufWoff [] := by
      rw [hbufs, hwoff he]
      exact Shaped.nil 0
    rw [WriteableCacheFile.append, appendBuffered_of_zero hzero hshape he hsmall] at hr
    cases hr
  | @log log h hn =>
    obtain ⟨f₁, hb, rfl⟩ := append_buffered hr
    rcases h.appendBuffered_cases hb with
      ⟨hend, -⟩ | ⟨-, bufs, woff, more, hs, ⟨rfl, rfl, -, rfl⟩ | ⟨-, hbig, -⟩⟩
    · exact absurd (he.symm.trans hend) Bool.false_ne_true
    · refine ⟨recordSize key val, .log (h.grow he hs _ _ _).dispatched ?_, by simp⟩
      rw [List.length_append, length_image, hn]
    · exact absurd hsmall (Nat.not_lt.mpr hbig)

/-- **A step of the writer** claims nothing but the buffer that it fetches. -/
theorem Meter.writer (h : Meter f n) (hw : f.WriterStep g) :
    Meter g n ∧ (claimedBytes g = claimedBytes f ∨ ∃ b, FlashCache.Fetches f b) := by
  cases h with
  | unopened hnone _ => cases hw <;> simp_all
  | noRoom hzero hbufs hwoff hfd hsize hpc =>
    cases hw with
    | fetch hat hlt hb => rw [hbufs] at hb; cases hb
    | write hat => exact absurd hat (hpc _ _)
    | eintr hat => exact absurd hat (hpc _ _)
    | advance hat => exact absurd hat (hpc _ _)
    | pop hat hne => exact absurd hbufs hne
    | semWait hat hsem =>
      exact ⟨.noRoom hzero hbufs hwoff hfd hsize (by simp), .inl (by simp [claimedBytes, fileBytes, hat])⟩
    | leave hat hge =>
      exact ⟨.noRoom hzero hbufs hwoff hfd hsize (by simp), .inl (by simp [claimedBytes, fileBytes, hat])⟩
    | again hat heof =>
      exact ⟨.noRoom hzero hbufs hwoff hfd hsize (by simp), .inl (by simp [claimedBytes, fileBytes, hat])⟩
    | exit hat heof =>
      exact ⟨.noRoom hzero hbufs hwoff hfd hsize (by simp), .inl (by simp [claimedBytes, fileBytes, hat])⟩
    | finish hat hnil =>
      exact ⟨.noRoom hzero hbufs hwoff hfd hsize (by simp), .inl (by simp [claimedBytes, fileBytes, hat])⟩
  | @log log h hn =>
    refine ⟨.log (hw.consistent h) hn, ?_⟩
    cases hw with
    | fetch hat hlt hb => exact .inr ⟨_, hat, hlt, hb⟩
    | @write b src left k file hat hleft hk hb hfd =>
      obtain ⟨-, b', hb', hsum, -⟩ := h.within src left hat
      obtain rfl : b = b' := Option.some.inj (hb.symm.trans hb')
      have hlen : ((b.data.drop src).take k).length = k := by
        rw [CacheWriteBuffer.used] at hsum
        rw [List.length_take, List.length_drop]
        omega
      left
      simp only [claimedBytes, fileBytes, hat, hfd, Option.getD_some, List.length_append, hlen]
      omega
    | eintr hat hleft => exact .inl rfl
    | pop hat hne => exact .inl rfl
    | advance hat hb => exact .inl (by simp [claimedBytes, fileBytes, hat])
    | semWait hat hsem => exact .inl (by simp [claimedBytes, fileBytes, hat])
    | leave hat hge => exact .inl (by simp [claimedBytes, fileBytes, hat])
    | again hat heof => exact .inl (by simp [claimedBytes, fileBytes, hat])
    | exit hat heof => exact .inl (by simp [claimedBytes, fileBytes, hat])
    | finish hat hnil => exact .inl (by simp [claimedBytes, fileBytes, hat])

/-- What is in the file, or about to be, was put into the buffers. -/
theorem Meter.claimed_le (h : Meter f n) : claimedBytes f ≤ n := by
  cases h with
  | unopened htid hfd => simp [claimedBytes, fileBytes, htid, hfd]
  | noRoom _ _ _ hfd _ hpc =>
    rw [claimedBytes_of_between hpc, fileBytes, hfd]
    exact Nat.zero_le _
  | @log log h hn =>
    rw [← hn]
    by_cases hpc : ∀ src left, f.tid ≠ some (.writing src left)
    · rw [claimedBytes_of_between hpc, fileBytes, h.between hpc, Option.getD_some]
      exact List.length_take_le' _ _
    · push Not at hpc
      obtain ⟨src, left, hpc⟩ := hpc
      obtain ⟨-, b, hb, hsum, hfd⟩ := h.within src left hpc
      have hused := h.used_le hb
      have hin := List.length_take_le (f.bufDoff * f.writeBufferSize.toNat) log
      have hsrc := List.length_take_le src b.data
      simp only [claimedBytes, fileBytes, hfd, hpc, Option.getD_some, List.length_append, List.length_take] at *
      omega

/-- The first statements of `Close`. -/
theorem Meter.startClose (h : Meter f n) (htid : f.tid.isSome) : Meter (FlashCache.startClose .writeBuffer f) n := by
  cases h with
  | log h hn => exact .log { h.setEof.moveOn rfl with } hn
  | unopened hnone _ => rw [hnone] at htid; cases htid
  | noRoom hzero hbufs hwoff hfd hsize hpc => exact .noRoom hzero hbufs (fun he => by cases he) hfd hsize hpc

/-- A file whose writer has been joined has on disk what `filesize_` counts, modulo
`2 ^ 32`. -/
theorem Meter.filesize (h : Meter f n) (hjoin : f.tid = some .finished ∨ f.tid = none ∧ f.fd.isSome) :
    f.filesize = UInt32.ofNat (fileBytes f) ∧ fileBytes f ≤ n ∧ claimedBytes f = fileBytes f := by
  have hpc : ∀ src left, f.tid ≠ some (.writing src left) := by
    intro src left hat
    rcases hjoin with hfin | ⟨hnone, -⟩
    · cases hat.symm.trans hfin
    · cases hat.symm.trans hnone
  refine and_assoc.mp ⟨?_, claimedBytes_of_between hpc⟩
  cases h with
  | @log log h hn =>
    have hdisk : fileBytes f = (log.take (f.bufDoff * f.writeBufferSize.toNat)).length := by
      rw [fileBytes, h.between hpc, Option.getD_some]
    rw [hdisk, ← hn]
    exact ⟨h.filesize, List.length_take_le' _ _⟩
  | unopened hnone hfd =>
    rcases hjoin with hfin | ⟨-, hopen⟩
    · cases hnone.symm.trans hfin
    · rw [hfd] at hopen
      cases hopen
  | noRoom _ _ _ hfd hsize _ =>
    rw [fileBytes, hfd, hsize]
    exact ⟨rfl, Nat.zero_le _⟩

/-! ### One file in direct mode -/

/-- The writer of the file, if there is one, has nothing to do. -/
def Sleeping (f : WriteableCacheFile) : Prop := f.tid = none ∨ f.tid = some .waiting ∧ f.semWriter = 0

theorem sleeping_new (cacheId maxSize writeBufferSize : UInt32) (fileExists : Bool) :
    Sleeping ((WriteableCacheFile.new cacheId maxSize writeBufferSize).created fileExists 0) := by
  cases fileExists
  · exact .inr ⟨rfl, rfl⟩
  · exact .inl rfl

theorem Sleeping.not_step (h : Sleeping f) : ¬ f.WriterStep g := by
  intro hw
  rcases h with hnone | ⟨hwait, hzero⟩ <;> cases hw <;> simp_all

/-- **`Append`** in direct mode writes the record. -/
theorem Sleeping.append (h : Sleeping f) (he : f.eof = false) {writes : List IoResult} {ok : Bool}
    (hr : f.append crc .direct writes key val lba = .ok (ok, lba', g)) :
    Sleeping g ∧ fileBytes g = fileBytes f + recordSize key val := by
  rw [WriteableCacheFile.append] at hr
  rcases appendDirect_inv hr with ⟨hend, -⟩ | ⟨-, -, -, file, hfd, rfl⟩
  · exact absurd (he.symm.trans hend) Bool.false_ne_true
  exact ⟨h, by simp only [fileBytes, hfd, Option.getD_some, List.length_append, length_image]⟩

/-! ### The cache -/

/-- If `size_` does not wrap, `Evict` takes no more from it than the file has on disk. -/
theorem le_sub_int {a : UInt64} {d : ℕ} (hd : d ≤ a.toNat) (ha : a.toNat + 2 ^ 32 ≤ 2 ^ 64) :
    a.toNat - d ≤ (a - (UInt32.ofNat d).toInt32.toInt64.toUInt64).toNat := by
  have hint := toNat_int (UInt32.ofNat d)
  have hmod : (UInt32.ofNat d).toNat = d % 2 ^ 32 := UInt32.toNat_ofNat'
  rw [hmod] at hint
  rw [UInt64.toNat_sub, hint]
  split_ifs <;> omega

/-- **The files are metered**: `most p` bounds what the file behind `p` may come to have. -/
def Metered (most : ℕ → ℕ) (c : FlashCache) : Prop := ∀ p f, c.deref p = some f → Meter f (most p)

/-- The sum of the bounds. -/
def FlashCache.bound (c : FlashCache) (most : ℕ → ℕ) : ℕ := ∑ p ∈ Finset.range c.heap.length, most p

/-- One file is changed, and its bound with it. -/
theorem Metered.store {most : ℕ → ℕ} (h : Metered most c) (hf : c.deref p = some f) {k : ℕ} (hg : Meter g k) :
    Metered (Function.update most p k) (c.store p g) ∧
      (c.store p g).bound (Function.update most p k) + most p = c.bound most + k := by
  have hderef := FlashCache.deref_store hf g
  constructor
  · intro q e he
    rw [hderef] at he
    by_cases hq : q = p
    · rw [if_pos hq] at he
      obtain rfl := Option.some.inj he
      rw [hq, Function.update_self]
      exact hg
    · rw [if_neg hq] at he
      rw [Function.update_of_ne hq]
      exact h q e he
  · have hsum := total_update most (Function.update most p k) (FlashCache.lt_of_deref hf) fun q hq =>
      Function.update_of_ne hq _ _
    rw [Function.update_self] at hsum
    rw [FlashCache.bound, show (c.store p g).heap.length = c.heap.length from List.length_set]
    exact hsum

/-- The files have no more than what bounds them. -/
theorem Metered.total_le {most : ℕ → ℕ} (h : Metered most c) : c.total claimedBytes ≤ c.bound most := by
  apply Finset.sum_le_sum
  intro q _
  cases hf : c.deref q with
  | none => exact Nat.zero_le _
  | some f => exact (h q f hf).claimed_le

/-- The file that gets the record of an `Insert`, if it is new, has nothing. -/
theorem Metered.target {most : ℕ → ℕ} (h : Metered most c) {c₁ : FlashCache} (ht : FlashCache.Target .writeBuffer c c₁) :
    ∃ most₁, Metered most₁ c₁ ∧ c₁.bound most₁ = c.bound most ∧ c₁.total claimedBytes = c.total claimedBytes ∧
      c₁.size = c.size := by
  cases ht with
  | current => exact ⟨most, h, rfl, rfl, rfl⟩
  | rolled hfull he hnew =>
    have hderef := ({ c with fcacheMutex := true } : FlashCache).deref_withNewFile
    refine ⟨Function.update most c.heap.length 0, fun q e hq => ?_, ?_, ?_, rfl⟩
    · rw [hderef] at hq
      split_ifs at hq with hlast
      · obtain rfl := Option.some.inj hq
        rw [hlast, Function.update_self]
        exact meter_new _ _ _ _
      · rw [Function.update_of_ne hlast]
        exact h q e hq
    · have hlen : ({ c with fcacheMutex := true } : FlashCache).withNewFile.heap.length = c.heap.length + 1 :=
        List.length_append
      rw [FlashCache.bound, hlen, total_succ most _ fun q hq => Function.update_of_ne (Nat.ne_of_lt hq) _ _,
        Function.update_self]
      rfl
    · have hzero : ∀ b : Bool, claimedBytes ((WriteableCacheFile.new c.writerCacheId c.opt.cacheFileSize
          c.opt.writeBufferSize).created b 0) = 0 := fun b => Nat.le_zero.mp (meter_new _ _ _ b).claimed_le
      rw [total_withNewFile]
      exact congrArg (_ + ·) (hzero _)

/-! ### Direct mode -/

/-- **The invariant in direct mode**: no writer has anything to do, and the files fit. -/
structure Evicting.Plain (opt : FlashCacheConfig) (s : Evicting) : Prop where
  /-- The options are not changed. -/
  opt_eq : s.cache.opt = opt
  /-- Nobody evicts. -/
  idle : s.waiting = [] ∧ s.closing = none
  /-- All writers sleep. -/
  files : ∀ p f, s.cache.deref p = some f → Sleeping f
  /-- The bound. -/
  fits : s.diskBytes ≤ opt.cacheSize.toNat

/-- A new file of a direct-mode cache sleeps and is empty. -/
theorem sleeping_target (hfiles : ∀ p f, c.deref p = some f → Sleeping f) {c₁ : FlashCache}
    (ht : FlashCache.Target .direct c c₁) :
    (∀ p f, c₁.deref p = some f → Sleeping f) ∧ c₁.total fileBytes = c.total fileBytes := by
  cases ht with
  | current => exact ⟨hfiles, rfl⟩
  | rolled hfull he hnew =>
    constructor
    · intro p e hp
      rw [FlashCache.deref_withNewFile] at hp
      split_ifs at hp
      · obtain rfl := Option.some.inj hp
        exact sleeping_new _ _ _ _
      · exact hfiles p e hp
    · have hzero : ∀ b : Bool, fileBytes ((WriteableCacheFile.new c.writerCacheId c.opt.cacheFileSize
          c.opt.writeBufferSize).created b 0) = 0 := by
        rintro (_ | _) <;> rfl
      rw [total_withNewFile]
      exact congrArg (_ + ·) (hzero _)

/-- In direct mode only `Insert` does something. -/
theorem EvictStep.plain {a : EvictAct} (hs : EvictStep crc .direct s a t) (h : s.Plain opt)
    (hc : a.Measured .direct s) : t.Plain opt := by
  obtain ⟨hopt, ⟨hwaiting, hclosing⟩, hfiles, hfits⟩ := h
  cases hs with
  | writer hidle hfree hf hw => exact absurd hw.1 (hfiles _ _ hf).not_step
  | test hidle hfree hf hb hover =>
    rcases hfiles _ _ hf with hnone | ⟨hwait, -⟩
    · cases hnone.symm.trans hb.1
    · cases hwait.symm.trans hb.1
  | lock hin => rw [hwaiting] at hin; cases hin
  | remove unlinked hbusy => cases hclosing.symm.trans hbusy
  | @insert c' key val writes r hr =>
    obtain ⟨c₁, f, g, lba, lba', ok, ht, hf, heof, ha, hstate⟩ := FlashCache.insert_cases hr
    obtain ⟨hfiles₁, htotal⟩ := sleeping_target hfiles ht
    obtain ⟨hg, hgrow⟩ := (hfiles₁ _ f hf).append heof ha
    have hsum := total_store (m := fileBytes) hf g
    have hheap : c'.heap = (c₁.store c₁.cacheFile g).heap := by
      rcases hstate with ⟨-, rfl⟩ | ⟨-, rfl⟩ <;> rfl
    have hnew := total_congr (m := fileBytes) hheap
    refine ⟨(FlashCache.insert_opt hr).trans hopt, ⟨hwaiting, hclosing⟩, fun p e he => ?_, ?_⟩
    · replace he : c'.deref p = some e := he
      rw [deref_congr hheap, FlashCache.deref_store hf] at he
      split_ifs at he
      · obtain rfl := Option.some.inj he
        exact hg
      · exact hfiles₁ p e he
    · have hroom : s.diskBytes + recordSize key val ≤ s.cache.opt.cacheSize.toNat := hc
      rw [hopt] at hroom
      rw [Evicting.diskBytes] at hroom ⊢
      show c'.total fileBytes + (s.leftover.map List.length).sum ≤ _
      omega

/-! ### Write-buffer mode -/

/-- **The invariant in write-buffer mode**, with `left` bytes of files that are left over:
`size_` counts what has been put into the buffers, and what the writers have found room
for fits. -/
structure Booked (opt : FlashCacheConfig) (c : FlashCache) (left : ℕ) : Prop where
  /-- The options are not changed. -/
  opt_eq : c.opt = opt
  /-- What the files may come to have, and what is left of deleted ones, is in the books. -/
  files : ∃ most, Metered most c ∧ c.bound most + left ≤ c.size.toNat
  /-- The bound. -/
  fits : c.total claimedBytes + left ≤ opt.cacheSize.toNat

variable {left : ℕ}

/-- The invariant is one of the heap and the books. -/
theorem Booked.congr (h : Booked opt c left) (hheap : c'.heap = c.heap) (hopt : c'.opt = c.opt) (hsize : c'.size = c.size) :
    Booked opt c' left := by
  obtain ⟨most, hmost, hbound⟩ := h.files
  refine ⟨hopt.trans h.opt_eq, ⟨most, fun p f hf => hmost p f ((deref_congr hheap).symm.trans hf), ?_⟩, ?_⟩
  · rw [FlashCache.bound, hheap, hsize]
    exact hbound
  · rw [total_congr hheap]
    exact h.fits

/-- **`Insert`** books what it puts into the buffers. -/
theorem Booked.insert (h : Booked opt c left) (hsmall : recordSize key val < 2 ^ 32)
    (hwrap : c.size.toNat + 2 ^ 32 ≤ 2 ^ 64) {writes : List IoResult} {r : Int}
    (hr : c.insert crc .writeBuffer writes key val = .ok (r, c')) : Booked opt c' left := by
  obtain ⟨hopt, ⟨most, hmost, hbound⟩, hfits⟩ := h
  obtain ⟨c₁, f, g, lba, lba', ok, ht, hf, heof, ha, hstate⟩ := FlashCache.insert_cases hr
  obtain ⟨most₁, hmost₁, hbound₁, htotal, hsize⟩ := hmost.target ht
  obtain ⟨k, hg, hk⟩ := (hmost₁ _ f hf).append hsmall heof ha
  obtain ⟨htid, hfd, hlba⟩ := append_buffered_frame ha
  have hclaimed : claimedBytes g = claimedBytes f := by
    simp only [claimedBytes, fileBytes, htid, hfd]
  have hsum := total_store (m := claimedBytes) hf g
  obtain ⟨hmost₂, hbound₂⟩ := hmost₁.store hf hg
  have hheap : c'.heap = (c₁.store c₁.cacheFile g).heap := by
    rcases hstate with ⟨-, rfl⟩ | ⟨-, rfl⟩ <;> rfl
  have hbooked : c.size.toNat + k ≤ c'.size.toNat := by
    rcases hstate with ⟨rfl, rfl⟩ | ⟨rfl, rfl⟩
    · show _ ≤ (c₁.size + lba'.size.toUInt64).toNat
      rw [if_pos rfl] at hk
      rw [hsize, hlba rfl, UInt64.toNat_add, UInt32.toNat_toUInt64, CacheRecord.toNat_calcSize_of_lt hsmall,
        Nat.mod_eq_of_lt (by omega)]
      omega
    · rw [if_neg Bool.false_ne_true] at hk
      show _ ≤ c₁.size.toNat
      rw [hsize]
      omega
  refine ⟨(FlashCache.insert_opt hr).trans hopt, ⟨_, fun q e he => hmost₂ q e ((deref_congr hheap).symm.trans he), ?_⟩, ?_⟩
  · rw [FlashCache.bound] at hbound₂ ⊢
    rw [hheap]
    omega
  · rw [total_congr hheap]
    omega

/-- **A writer** finds room only for what fits. -/
theorem Booked.writer (h : Booked opt c left) (hf : c.deref p = some f) (hw : c.Writes f g)
    (hroom : ∀ b, FlashCache.Fetches f b → c.Exceeds b.used → c.overfull (UInt64.ofNat b.used) = true) :
    Booked opt (c.store p g) left := by
  obtain ⟨hopt, ⟨most, hmost, hbound⟩, hfits⟩ := h
  obtain ⟨hg, hcases⟩ := (hmost p f hf).writer hw.1
  obtain ⟨hmost', hbound'⟩ := hmost.store hf hg
  have hsum := total_store (m := claimedBytes) hf g
  have hbooks : (c.store p g).bound (Function.update most p (most p)) + left ≤ c.size.toNat := by omega
  refine ⟨hopt, ⟨_, hmost', hbooks⟩, ?_⟩
  rcases hcases with hsame | ⟨b, hb⟩
  · omega
  · -- what the files may come to have is in `size_`, which fits with the buffer once more
    have hle := hmost'.total_le
    have hfree := hw.2 b hb
    have hnot : ¬ c.Exceeds b.used := fun hover => by
      rw [hroom b hb hover] at hfree
      cases hfree
    rw [FlashCache.Exceeds, hopt] at hnot
    omega

/-- **`Close`** starts. -/
theorem Booked.startClose (h : Booked opt c left) (hf : c.deref p = some f) :
    Booked opt (c.store p (if f.tid.isSome then FlashCache.startClose .writeBuffer f else f)) left := by
  obtain ⟨hopt, ⟨most, hmost, hbound⟩, hfits⟩ := h
  have hg : Meter (if f.tid.isSome then FlashCache.startClose .writeBuffer f else f) (most p) := by
    split_ifs with htid
    · exact (hmost p f hf).startClose htid
    · exact hmost p f hf
  have hclaimed : claimedBytes (if f.tid.isSome then FlashCache.startClose .writeBuffer f else f) = claimedBytes f := by
    split_ifs <;> rfl
  obtain ⟨hmost', hbound'⟩ := hmost.store hf hg
  have hsum := total_store (m := claimedBytes) hf (if f.tid.isSome then FlashCache.startClose .writeBuffer f else f)
  refine ⟨hopt, ⟨_, hmost', ?_⟩, ?_⟩
  · show _ + left ≤ c.size.toNat
    omega
  · omega

/-- **A file is removed**: no more is taken from `size_` than the file has on disk. -/
theorem Booked.removed (h : Booked opt c left) (hf : c.deref p = some f)
    (hjoin : f.tid = some .finished ∨ f.tid = none ∧ f.fd.isSome) (hwrap : c.size.toNat + 2 ^ 32 ≤ 2 ^ 64)
    (metadata : Metadata) (hg : g.filesize = f.filesize) (unlinked : Bool) :
    Booked opt (c.removed metadata p g unlinked) (left + if unlinked then 0 else fileBytes f) := by
  obtain ⟨hopt, ⟨most, hmost, hbound⟩, hfits⟩ := h
  obtain ⟨hsize, hle, hclaimed⟩ := (hmost p f hf).filesize hjoin
  have hin := FlashCache.lt_of_deref hf
  have hsum := total_removed (m := claimedBytes) hf metadata g unlinked
  have hbounds := total_update most (Function.update most p 0) hin fun q hq => Function.update_of_ne hq _ _
  rw [Function.update_self] at hbounds
  have hone := le_total most hin
  have hlen : (c.removed metadata p g unlinked).heap.length = c.heap.length := List.length_set
  have hderef : ∀ q, (c.removed metadata p g unlinked).deref q = if q = p then none else c.deref q := c.deref_set_none p
  have hmost' : Metered (Function.update most p 0) (c.removed metadata p g unlinked) := by
    intro q e he
    rw [hderef] at he
    split_ifs at he with hq
    rw [Function.update_of_ne hq]
    exact hmost q e he
  rw [FlashCache.bound] at hbound
  refine ⟨hopt, ⟨_, hmost', ?_⟩, ?_⟩
  · rw [FlashCache.bound, hlen]
    cases unlinked with
    | true =>
      have hsub := le_sub_int (d := fileBytes f) (a := c.size) (by omega) hwrap
      show _ ≤ (c.size - g.filesize.toInt32.toInt64.toUInt64).toNat
      rw [hg, hsize, if_pos rfl]
      omega
    | false =>
      show _ ≤ c.size.toNat
      rw [if_neg Bool.false_ne_true]
      omega
  · cases unlinked with
    | true => rw [if_pos rfl]; omega
    | false => rw [if_neg Bool.false_ne_true]; omega

/-! ### Runs -/

/-- The bytes of the files whose `unlink` failed. -/
def Evicting.leftBytes (s : Evicting) : ℕ := (s.leftover.map List.length).sum

/-- Every step that meets the condition keeps the invariant. -/
theorem EvictStep.booked {a : EvictAct} (hs : EvictStep crc .writeBuffer s a t) (h : Booked opt s.cache s.leftBytes)
    (hc : a.Measured .writeBuffer s) : Booked opt t.cache t.leftBytes := by
  cases hs with
  | insert hr => exact h.insert hc.1 hc.2 hr
  | writer hidle hfree hf hw => exact h.writer hf hw (hc _ · hf)
  | test hidle hfree hf hb hover => exact h
  | @lock p q f metadata hin hlock hevict hf =>
    have hlocked : Booked opt { s.cache with fcacheMutex := true, metadata } s.leftBytes := h.congr rfl rfl rfl
    exact hlocked.startClose hf
  | @remove p q f unlinked hclosing hf hjoin =>
    have hremoved := h.removed (g := { f with tid := none, bufs := [] }) hf hjoin hc s.cache.metadata rfl unlinked
    have hleft : s.leftBytes + (if unlinked then 0 else fileBytes f) =
        ((if unlinked then s.leftover else f.fd.getD [] :: s.leftover).map List.length).sum := by
      cases unlinked with
      | true => rfl
      | false => exact Nat.add_comm _ _
    rw [hleft] at hremoved
    exact hremoved.congr rfl rfl rfl

/-- **The capacity bounds the directory** in every run from `Open()` on an empty one whose
steps meet the condition. -/
theorem reach_diskBytes_le {size : UInt64}
    (h : Reach (EvictStep crc mode) (fun s a => a.Measured mode s) { cache := .openEmpty opt size } s) :
    s.diskBytes ≤ opt.cacheSize.toNat := by
  have hderef : ∀ {p f}, (FlashCache.openEmpty opt size).deref p = some f → p = 0 ∧
      f = fresh 0 opt.cacheFileSize opt.writeBufferSize := by
    intro p f hf
    rw [FlashCache.openEmpty, FlashCache.deref_withNewFile] at hf
    split_ifs at hf with hp
    · exact ⟨hp, (Option.some.inj hf).symm⟩
    · cases hf
  have hempty : ∀ m : WriteableCacheFile → ℕ, m (fresh 0 opt.cacheFileSize opt.writeBufferSize) = 0 →
      (FlashCache.openEmpty opt size).total m = 0 := by
    intro m hm
    rw [FlashCache.openEmpty, total_withNewFile]
    exact (Nat.zero_add _).trans hm
  cases mode with
  | direct =>
    have hinv : s.Plain opt := h.invariant
      ⟨rfl, ⟨rfl, rfl⟩, fun p f hf => (hderef hf).2 ▸ sleeping_new 0 _ _ false, by
        rw [Evicting.diskBytes, hempty fileBytes rfl]
        exact Nat.zero_le _⟩
      fun _ _ _ hi hc hs => hs.plain hi hc
    exact hinv.fits
  | writeBuffer =>
    have hinv : Booked opt s.cache s.leftBytes := h.invariant
      ⟨rfl, ⟨fun _ => 0, fun p f hf => (hderef hf).2 ▸ meter_new 0 _ _ false, by
        rw [FlashCache.bound, Finset.sum_const_zero]
        exact Nat.zero_le _⟩, by
        rw [hempty claimedBytes rfl]
        exact Nat.zero_le _⟩
      fun _ _ _ hi hc hs => hs.booked hi hc
    have hle : s.cache.total fileBytes ≤ s.cache.total claimedBytes := by
      apply Finset.sum_le_sum
      intro q _
      cases s.cache.deref q with
      | none => exact Nat.le_refl _
      | some f => exact Nat.le_add_right _ _
    exact (Nat.add_le_add_right hle _).trans hinv.fits

/-- A record of 18 bytes is in the buffers, in a cache with room for 40, and its writer is
about to fetch it. -/
theorem reach_measured_fetch : ∃ c f b,
    Reach (EvictStep (fun _ => 0) .writeBuffer) (fun s a => a.Measured .writeBuffer s)
      { cache := .openEmpty ⟨18, 32, 40⟩ 0 } { cache := c } ∧
    c.opt.cacheSize = 40 ∧ c.size = 18 ∧ c.deref 0 = some f ∧ FlashCache.Fetches f b ∧ b.used = 18 ∧ f.fd = some [] := by
  have h0 := Reach.refl (R := EvictStep (fun _ => 0) .writeBuffer) (C := fun s a => a.Measured .writeBuffer s)
    { cache := .openEmpty ⟨18, 32, 40⟩ 0 }
  have h1 := h0.step (a := .insert [97] [1]) ⟨by decide, show 0 + 2 ^ 32 ≤ 2 ^ 64 by decide⟩
    (.insert (show FlashCache.insert (fun _ => 0) .writeBuffer [] _ [97] [1] = .ok (0, _) from rfl))
  have h2 := h1.step (a := .writer 0) (fun f b hf hb => by cases hf; cases hb.1)
    (.writer List.not_mem_nil (fun _ => by simp) rfl ⟨.semWait rfl Nat.one_pos, fun b hb => nomatch hb.1⟩)
  exact ⟨_, _, _, h2, rfl, rfl, rfl, ⟨rfl, of_decide_eq_true rfl, rfl⟩, rfl, rfl⟩

/-- The writer brings it to the file. -/
theorem reach_diskBytes_le_written : ∃ s : Evicting, ∃ f, s.cache.deref 0 = some f ∧ fileBytes f = 18 ∧
    s.diskBytes ≤ 40 := by
  obtain ⟨c, f, b, h, hopt, hsize, hf, hb, hused, hfd⟩ := reach_measured_fetch
  have hroom : c.overfull (UInt64.ofNat b.used) = false := by
    rw [FlashCache.overfull, hopt, hsize, hused]
    decide
  have hfits : ¬ c.Exceeds b.used := by
    rw [FlashCache.Exceeds, hopt, hsize, hused]
    decide
  have hne : b.used ≠ 0 := by rw [hused]; exact (Nat.succ_ne_zero 17)
  have hself := fun g => (FlashCache.deref_store hf g 0).trans (if_pos rfl)
  have h1 := h.step (a := .writer 0)
    (fun f' b' hf' hb' hover => by
      cases hf.symm.trans hf'
      cases hb.2.2.symm.trans hb'.2.2
      exact absurd hover hfits)
    (.writer List.not_mem_nil (fun _ => by simp) hf
      ⟨.fetch hb.1 hb.2.1 hb.2.2, fun b' hb' => by cases hb.2.2.symm.trans hb'.2.2; exact hroom⟩)
  have h2 := h1.step (a := .writer 0)
    (fun f' b' hf' hb' => by cases (hself _).symm.trans hf'; cases hb'.1)
    (.writer List.not_mem_nil (fun _ => by simp) (hself _)
      ⟨.write (n := b.used) rfl hne (Nat.le_refl _) hb.2.2 hfd, fun b' hb' => by cases hb'.1⟩)
  refine ⟨_, _, (FlashCache.deref_store (hself _) _ 0).trans (if_pos rfl), ?_, reach_diskBytes_le h2⟩
  show ([] ++ (b.data.drop 0).take b.used).length = 18
  rw [CacheWriteBuffer.used] at hused
  simp [CacheWriteBuffer.used, hused]

/-- The record by itself is no larger than the capacity. -/
def EvictAct.Single (s : Evicting) : EvictAct → Prop
  | .insert key val => recordSize key val ≤ s.cache.opt.cacheSize.toNat
  | .writer _ | .test _ | .lock _ | .remove _ => True

/-- Two records of 18 bytes, in direct mode, in a cache with room for 30. -/
theorem direct_exceeds : ∃ s : Evicting,
    Reach (EvictStep (fun _ => 0) .direct) (fun s a => a.Single s) { cache := .openEmpty ⟨100, 32, 30⟩ 0 } s ∧
      s.diskBytes = 36 := by
  have h0 := Reach.refl (R := EvictStep (fun _ => 0) .direct) (C := fun s a => a.Single s)
    { cache := .openEmpty ⟨100, 32, 30⟩ 0 }
  have h1 := h0.step (a := .insert [97] [1]) (show recordSize [97] [1] ≤ 30 by decide)
    (.insert (show FlashCache.insert (fun _ => 0) .direct [.moved 17] _ [97] [1] = .ok (0, _) from rfl))
  have h2 := h1.step (a := .insert [98] [2]) (show recordSize [98] [2] ≤ 30 by decide)
    (.insert (show FlashCache.insert (fun _ => 0) .direct [.moved 17] _ [98] [2] = .ok (0, _) from rfl))
  exact ⟨_, h2, rfl⟩

end EmbeddedKv.Store
