import EmbeddedKv.Store.Tally

/-!
# The capacity of the flash cache

When the writers of a cache in write-buffer mode evict files, with the test of the
capacity in exact arithmetic.

## The model

`Write()` calls `Evict` for each buffer. The test of its loop comes before the lock, so
the writer that finds no room waits for the mutex first (`test`), and removes a file
when it gets it (`remove`), whatever has happened in between; then it tests again. A
removal is one step: while a writer has the mutex and joins another one, the others can
do nothing that depends on it. A writer that waits for the mutex cannot be joined.

`size_` is zero at the start, and counted in 64 bits.

## What is proved

`Insert` books the bytes of a record in `size_`, and `Evict(used)` adds the bytes of the
buffer to `size_` once more. So a file is removed although everything fits when the room
left is less than the buffer (`flush_evicts_early`). As long as no writer tests at such
a moment or while another one waits, nothing is lost and the numbers fit (`Accounted`),
`size_` is the number of bytes that the files hold (`reach_balanced`), and no file is
removed unless they are more than `cache_size` (`reach_removal_over`).
-/

namespace EmbeddedKv.Store

open EmbeddedKv.Library EmbeddedKv.Flash WriteableCacheFile Relation

namespace FlashCache

/-! ### The test and the removal -/

/-- `size + size_ > opt_.cache_size`, in exact arithmetic. -/
def Exceeds (c : FlashCache) (n : ℕ) : Prop := c.opt.cacheSize.toNat < n + c.size.toNat

instance (c : FlashCache) (n : ℕ) : Decidable (c.Exceeds n) := inferInstanceAs (Decidable (_ < _))

/-- One step of the writer of a file; if it is about to fetch a buffer, it finds room. -/
def WritesExactly (c : FlashCache) (f g : WriteableCacheFile) : Prop :=
  f.WriterStep g ∧ ∀ b, Fetches f b → ¬ c.Exceeds b.used

/-- `WriteableCacheFile::Close()` in write-buffer mode, called with `fcache_mutex` locked. -/
inductive ClosesExactly (c : FlashCache) : WriteableCacheFile → WriteableCacheFile → Prop where
  /-- The writer is waited for. -/
  | join {f g : WriteableCacheFile} (htid : f.tid.isSome)
      (hrun : ReflTransGen c.WritesExactly (startClose .writeBuffer f) g) (hjoin : g.tid = some .finished) :
      ClosesExactly c f { g with tid := none, bufs := [] }
  /-- There is no writer. -/
  | noWriter {f : WriteableCacheFile} (htid : f.tid = none) (hfd : f.fd.isSome) :
      ClosesExactly c f { f with bufs := [] }

end FlashCache

/-! ### The system -/

/-- A cache in write-buffer mode, and the files whose writers have found no room and wait
for the mutex. -/
structure Flushing where
  /-- The cache. -/
  cache : FlashCache
  /-- The pointers to these files. -/
  waiting : List ℕ := []

/-- What happens to it. -/
inductive FlushAct where
  /-- `Insert(key, val)`. -/
  | insert (key val : Bytes)
  /-- A step of the writer of a file. -/
  | writer (p : ℕ)
  /-- The writer of a file finds no room for its buffer. -/
  | test (p : ℕ)
  /-- It gets the mutex and removes a file; `unlink` succeeds or not. -/
  | remove (p : ℕ) (unlinked : Bool)

/-- **One call of `Insert`, or one step of a writer.** -/
inductive FlushStep (crc : Bytes → UInt32) : Flushing → FlushAct → Flushing → Prop where
  /-- `Insert` returns. -/
  | insert {s : Flushing} {c' : FlashCache} {key val : Bytes} {writes : List IoResult} {r : Int}
      (hr : s.cache.insert crc .writeBuffer writes key val = .ok (r, c')) :
      FlushStep crc s (.insert key val) { s with cache := c' }
  /-- The writer of a file takes a step. -/
  | writer {s : Flushing} {p : ℕ} {f g : WriteableCacheFile} (hidle : p ∉ s.waiting) (hf : s.cache.deref p = some f)
      (hw : s.cache.WritesExactly f g) : FlushStep crc s (.writer p) { s with cache := s.cache.store p g }
  /-- The writer of a file finds no room for its buffer, and goes for the mutex. -/
  | test {s : Flushing} {p : ℕ} {f : WriteableCacheFile} {b : CacheWriteBuffer} (hidle : p ∉ s.waiting)
      (hf : s.cache.deref p = some f) (hb : FlashCache.Fetches f b) (hover : s.cache.Exceeds b.used) :
      FlushStep crc s (.test p) { s with waiting := p :: s.waiting }
  /-- The least recently used file is taken out of the indices and deleted. -/
  | remove {s : Flushing} {p q : ℕ} {f g : WriteableCacheFile} {metadata : Metadata} (unlinked : Bool)
      (hin : p ∈ s.waiting) (hlock : s.cache.fcacheMutex = false)
      (hevict : s.cache.metadata.evict (fun p => (s.cache.deref p).map WriteableCacheFile.cacheId) = .ok (q, metadata))
      (hfree : q ∉ s.waiting) (hf : s.cache.deref q = some f) (hclose : s.cache.ClosesExactly f g) :
      FlushStep crc s (.remove p unlinked)
        { cache := s.cache.removed metadata q g unlinked, waiting := s.waiting.erase p }

/-- `Open()` on an empty directory. -/
def Flushing.start (opt : FlashCacheConfig) : Flushing := { cache := .openEmpty opt 0 }

/-- **The steps after which the books are right.** Records and their sum fit into the
counters, and ids of new files are not in use; no writer leaves its loop before it has
written all; no writer tests while another one waits, or while what is held fits and
would not fit with the buffer once more; and what `Delete` returns is what was held. -/
def FlushAct.Accounted (s : Flushing) : FlushAct → Prop
  | .insert key val => recordSize key val < 2 ^ 32 ∧ s.cache.held + recordSize key val < 2 ^ 64 ∧
    ∀ f, s.cache.deref s.cache.cacheFile = some f → f.eof = true → s.cache.writerCacheId ∉ s.cache.dir
  | .writer p => ∀ f, s.cache.deref p = some f → f.tid = some .returned → f.eof = true → f.unwritten = 0
  | .test p => s.waiting = [] ∧ ∀ f b, s.cache.deref p = some f → FlashCache.Fetches f b →
    s.cache.held ≤ s.cache.opt.cacheSize.toNat → s.cache.held + b.used ≤ s.cache.opt.cacheSize.toNat
  | .remove _ unlinked => unlinked = true ∧
    ∀ q metadata, s.cache.metadata.evict (fun p => (s.cache.deref p).map WriteableCacheFile.cacheId) = .ok (q, metadata) →
      ∀ f, s.cache.deref q = some f → f.held < 2 ^ 31 ∧ (f.tid = some .returned → f.unwritten = 0)

variable {crc : Bytes → UInt32} {opt : FlashCacheConfig} {f g : WriteableCacheFile} {log key val : Bytes} {c c' : FlashCache}
  {p : ℕ} {logs : ℕ → Bytes} {s t : Flushing}

/-! ### Close -/

/-- The first steps of `Close` lead the writer over all that it has not written. -/
theorem startClose_covered (h : f.Consistent log) (hk : f.Kept log) (hret : f.tid = some .returned → f.unwritten = 0) :
    (FlashCache.startClose .writeBuffer f).Consistent log ∧ (FlashCache.startClose .writeBuffer f).Covered log := by
  constructor
  · exact { h.setEof.moveOn rfl with }
  · refine ⟨fun _ => ?_, fun _ hstop => ?_⟩
    · have hlt := Nat.lt_mul_div_succ log.length h.pos
      rw [Nat.mul_comm] at hlt
      exact (Nat.le_of_lt hlt).trans (Nat.mul_le_mul_right _ (Nat.succ_le_succ h.le_woff))
    · rcases hstop with hpc | hleft
      · have hrest := h.rest_eq hk
        have hpc' : f.tid = some .returned := hpc
        have hzero := hret hpc'
        rw [unwritten, hpc', hrest] at hzero
        simp only at hzero
        show log.length ≤ f.bufDoff * f.writeBufferSize.toNat
        omega
      · exact hk hleft

/-- The writer that is joined brings all that the file holds to disk. -/
theorem joined_filesize (hrun : ReflTransGen WriterStep (FlashCache.startClose .writeBuffer f) g)
    (hjoin : g.tid = some .finished) (h : f.Consistent log) (hk : f.Kept log)
    (hret : f.tid = some .returned → f.unwritten = 0) :
    g.filesize = UInt32.ofNat log.length ∧ g.cacheId = f.cacheId ∧ g.keyLists = f.keyLists := by
  obtain ⟨hstart, hcov⟩ := startClose_covered h hk hret
  have hend : g.Consistent log ∧ g.Covered log ∧ g.cacheId = f.cacheId ∧ g.keyLists = f.keyLists := by
    clear hjoin
    induction hrun with
    | refl => exact ⟨hstart, hcov, rfl, rfl⟩
    | tail _ hw ih =>
      obtain ⟨hcons, hcov, hid, hkeys⟩ := ih
      exact ⟨hw.consistent hcons, hw.covered hcov, hw.cacheId.trans hid, hw.keyLists.trans hkeys⟩
  obtain ⟨hcons, hcov, hid, hkeys⟩ := hend
  have hleft : g.Left := .inr hjoin
  refine ⟨?_, hid, hkeys⟩
  rw [hcons.filesize, List.take_of_length_le (hcov.doff (hcons.eof_of_left hleft) hleft.stopping)]

/-- **`Close`** leaves a file with all its bytes on disk. -/
theorem FlashCache.ClosesExactly.filesize (hc : c.ClosesExactly f g) (h : f.Consistent log) (hk : f.Kept log)
    (htid : f.tid.isSome) (hret : f.tid = some .returned → f.unwritten = 0) :
    g.filesize = UInt32.ofNat log.length ∧ g.cacheId = f.cacheId ∧ g.keyLists = f.keyLists := by
  cases hc with
  | noWriter hnone hfd =>
    rw [hnone] at htid
    cases htid
  | @join g _ hrun hjoin =>
    have hsteps : ReflTransGen WriterStep (FlashCache.startClose .writeBuffer f) g := hrun.lift id fun _ _ hw => hw.1
    obtain ⟨hsize, hid, hkeys⟩ := joined_filesize hsteps hjoin h hk hret
    exact ⟨hsize, hid, hkeys⟩

/-! ### What the files hold -/

/-- **A file that has or holds all of its log**, and whose writer has not been joined. -/
structure Whole (f : WriteableCacheFile) (log : Bytes) : Prop where
  /-- It has its log. -/
  sound : FileSound .writeBuffer f log
  /-- It has lost nothing. -/
  kept : f.Kept log
  /-- The writer has been started. -/
  started : f.tid.isSome

/-- **All files are whole**, and in the index. -/
structure Intact (logs : ℕ → Bytes) (c : FlashCache) : Prop where
  /-- Buffers have room. -/
  room : 0 < c.opt.writeBufferSize.toNat
  /-- The index of the files is in order. -/
  filed : Filed c
  /-- Every file is in it. -/
  indexed : ∀ p f, c.deref p = some f → c.metadata.cacheFileIndex.find f.cacheId = some p
  /-- Every file is whole. -/
  files : ∀ p f, c.deref p = some f → Whole f (logs p)

/-- A whole file holds its log. -/
theorem Whole.held_eq (h : Whole f log) : f.held = log.length := (h.sound.buffered rfl).held_eq h.kept

theorem whole_fresh (cacheId maxSize : UInt32) {writeBufferSize : UInt32} (hc : 0 < writeBufferSize.toNat) :
    Whole (fresh cacheId maxSize writeBufferSize) [] :=
  ⟨fileSound_fresh .writeBuffer _ _ fun _ => hc, kept_fresh _ _ _, rfl⟩

/-- **`Append`** before the end of the file. -/
theorem Whole.append (h : Whole f log) (he : f.eof = false) (hsmall : recordSize key val < 2 ^ 32)
    {writes : List IoResult} {lba lba' : LBA} {ok : Bool}
    (hr : f.append crc .writeBuffer writes key val lba = .ok (ok, lba', g)) :
    ok = true ∧ Whole g (log ++ image crc key val) ∧ recordSize key val < 2 ^ 32 ∧
      lba'.size = CacheRecord.calcSize key val := by
  rcases h.sound.append (fun _ => hsmall) hr with ⟨hend, -⟩ | ⟨-, hok, -, hg, rfl, -⟩
  · exact absurd (he.symm.trans hend) Bool.false_ne_true
  · obtain ⟨htid, -⟩ := append_buffered_frame hr
    refine ⟨hok, ⟨hg, fun hl => ?_, by rw [htid]; exact h.started⟩, hsmall, rfl⟩
    rw [Left, htid] at hl
    exact absurd (he.symm.trans ((h.sound.buffered rfl).eof_of_left hl)) Bool.false_ne_true

/-! ### The books -/

/-- **The books are right**: all files are whole, and `size_` is what they hold. -/
structure Balanced (c : FlashCache) : Prop where
  /-- The files and their logs. -/
  intact : ∃ logs, Intact logs c
  /-- The total. -/
  size : c.size.toNat = c.held

theorem Balanced.reconciled (h : Balanced c) : Reconciled Whole c := by
  obtain ⟨logs, hlogs⟩ := h.intact
  exact ⟨logs, ⟨hlogs.filed, hlogs.indexed, hlogs.files⟩, h.size⟩

theorem Balanced.room (h : Balanced c) : 0 < c.opt.writeBufferSize.toNat := by
  obtain ⟨logs, hlogs⟩ := h.intact
  exact hlogs.room

theorem Reconciled.balanced (h : Reconciled Whole c) (hc : 0 < c.opt.writeBufferSize.toNat) : Balanced c := by
  obtain ⟨logs, hlogs, hsize⟩ := h
  exact ⟨⟨logs, hc, hlogs.filed, hlogs.indexed, hlogs.files⟩, hsize⟩

/-- **`Insert`** books the bytes that it puts into the buffers. -/
theorem Balanced.insert (h : Balanced c) {writes : List IoResult} {r : Int}
    (hsmall : recordSize key val < 2 ^ 32) (hsum : c.held + recordSize key val < 2 ^ 64)
    (hfresh : ∀ f, c.deref c.cacheFile = some f → f.eof = true → c.writerCacheId ∉ c.dir)
    (hr : c.insert crc .writeBuffer writes key val = .ok (r, c')) :
    Balanced c' ∧ c'.held = c.held + recordSize key val := by
  obtain ⟨hnew, hheld⟩ := h.reconciled.insert (fun _ _ hw => hw.held_eq) (whole_fresh _ _ h.room)
    (fun hw he ha => hw.append he hsmall ha) hfresh hsum hr
  refine ⟨hnew.balanced ?_, hheld⟩
  rw [FlashCache.insert_opt hr]
  exact h.room

/-- **A writer** brings bytes from the buffers to the file. -/
theorem Balanced.writer (h : Balanced c) (hf : c.deref p = some f) (hw : f.WriterStep g)
    (hexit : f.tid = some .returned → f.eof = true → f.unwritten = 0) :
    Balanced (c.store p g) ∧ (c.store p g).held = c.held := by
  obtain ⟨hnew, hheld⟩ := h.reconciled.store (fun _ _ hw => hw.held_eq) hf
    (fun log hwhole => ⟨hwhole.sound.writer hw, hw.kept (hwhole.sound.buffered rfl) hwhole.kept hexit, hw.tid_isSome⟩)
    hw.cacheId
  exact ⟨hnew.balanced h.room, hheld⟩

/-- **A removed file** takes what it held out of the books. -/
theorem Balanced.removed (h : Balanced c) {metadata : Metadata}
    (hevict : c.metadata.evict (fun p => (c.deref p).map WriteableCacheFile.cacheId) = .ok (p, metadata))
    (hf : c.deref p = some f) (hclose : c.ClosesExactly f g) (hint : f.held < 2 ^ 31)
    (hret : f.tid = some .returned → f.unwritten = 0) : Balanced (c.removed metadata p g true) := by
  obtain ⟨logs, hlogs⟩ := h.intact
  have hw := hlogs.files p f hf
  have hclosed : ∀ {log}, Whole f log → g.filesize = UInt32.ofNat log.length ∧ g.cacheId = f.cacheId ∧
      g.keyLists = f.keyLists := fun hw => hclose.filesize (hw.sound.buffered rfl) hw.kept hw.started hret
  obtain ⟨-, hgid, hgkeys⟩ := hclosed hw
  exact (h.reconciled.removed (fun _ _ hw => hw.held_eq) hevict hf hgid hgkeys (fun _ hw => (hclosed hw).1) hint).balanced
    h.room

/-! ### Runs -/

/-- **The invariant of the system**: the books are right, at most one writer waits, and
while it does more is held than there is room for. -/
structure Flushing.Invariant (opt : FlashCacheConfig) (s : Flushing) : Prop where
  /-- The options are not changed. -/
  opt_eq : s.cache.opt = opt
  /-- The books are right. -/
  balanced : Balanced s.cache
  /-- At most one writer waits. -/
  single : s.waiting.length ≤ 1
  /-- It has reason to. -/
  exceeds : s.waiting ≠ [] → opt.cacheSize.toNat < s.cache.held

theorem Flushing.invariant_start (hc : 0 < opt.writeBufferSize.toNat) : (Flushing.start opt).Invariant opt := by
  have hempty : Tallied Whole (fun _ => []) { size := 0, opt } :=
    ⟨⟨LruCache.linked_empty, fun _ _ hp => nomatch hp⟩, fun _ _ hf => (nomatch hf), fun _ _ hf => (nomatch hf)⟩
  obtain ⟨hnew, hheld⟩ := hempty.withNewFile (fun _ _ hw => hw.held_eq) List.not_mem_nil (whole_fresh _ _ hc)
  exact ⟨rfl, Reconciled.balanced ⟨_, hnew, hheld.symm⟩ hc, Nat.zero_le _, fun hne => absurd rfl hne⟩

/-- Every step after which the books are right keeps the invariant. -/
theorem FlushStep.invariant {a : FlushAct} (hs : FlushStep crc s a t) (ha : a.Accounted s) (h : s.Invariant opt) :
    t.Invariant opt := by
  cases hs with
  | insert hr =>
    obtain ⟨hsmall, hsum, hfresh⟩ := ha
    obtain ⟨hb, hheld⟩ := h.balanced.insert hsmall hsum hfresh hr
    refine ⟨?_, hb, h.single, fun hne => ?_⟩
    · exact (FlashCache.insert_opt hr).trans h.opt_eq
    · show _ < FlashCache.held _
      rw [hheld]
      exact Nat.lt_add_right _ (h.exceeds hne)
  | writer hidle hf hw =>
    obtain ⟨hb, hheld⟩ := h.balanced.writer hf hw.1 (ha _ hf)
    refine ⟨h.opt_eq, hb, h.single, fun hne => ?_⟩
    show _ < FlashCache.held _
    rw [hheld]
    exact h.exceeds hne
  | @test p f b hidle hf hb hover =>
    obtain ⟨hnone, hwindow⟩ := ha
    refine ⟨h.opt_eq, h.balanced, ?_, fun _ => ?_⟩
    · rw [hnone]
      exact Nat.le_refl 1
    · rw [FlashCache.Exceeds, h.balanced.size] at hover
      rw [← h.opt_eq]
      by_contra hfits
      have hroom := hwindow f b hf hb (Nat.not_lt.mp hfits)
      omega
  | @remove p q f g metadata unlinked hin hlock hevict hfree hf hclose =>
    obtain ⟨rfl, hvictim⟩ := ha
    obtain ⟨hint, hret⟩ := hvictim q metadata hevict f hf
    have hwaiting : s.waiting = [p] := by
      have hone := List.length_eq_one_iff.mp (Nat.le_antisymm h.single (List.length_pos_of_mem hin))
      obtain ⟨q, hq⟩ := hone
      rw [hq, List.mem_singleton] at hin
      rw [hq, hin]
    have hnobody : s.waiting.erase p = [] := by rw [hwaiting, List.erase_cons_head]
    refine ⟨h.opt_eq, h.balanced.removed hevict hf hclose hint hret, ?_, fun hne => absurd hnobody hne⟩
    show (s.waiting.erase p).length ≤ 1
    rw [hnobody]
    exact Nat.zero_le 1

/-- **`size_` is what the files hold** after every run whose steps meet the condition. -/
theorem reach_balanced (hc : 0 < opt.writeBufferSize.toNat)
    (h : Reach (FlushStep crc) (fun s a => a.Accounted s) (.start opt) s) :
    s.cache.size.toNat = s.cache.held := by
  have hinv : s.Invariant opt :=
    h.invariant (Flushing.invariant_start hc) fun s a t hs ha hstep => hstep.invariant ha hs
  exact hinv.balanced.size

/-- Without capacity no `Insert` returns and no writer wakes up. -/
theorem reach_eq_start (hc : opt.writeBufferSize.toNat = 0)
    (h : Reach (FlushStep crc) (fun s a => a.Accounted s) (.start opt) s) : s = .start opt := by
  have hfile : ∀ {p f}, (Flushing.start opt).cache.deref p = some f → f = fresh 0 opt.cacheFileSize opt.writeBufferSize := by
    intro p f hf
    rw [Flushing.start, FlashCache.openEmpty, FlashCache.deref_withNewFile] at hf
    split_ifs at hf
    · exact (Option.some.inj hf).symm
    · cases hf
  apply h.invariant (P := fun s => s = .start opt) rfl
  intro s a t hs ha hstep
  subst hs
  cases hstep with
  | insert hr =>
    obtain ⟨c₁, f, g, lba, lba', ok, ht, hf, heof, happ, -⟩ := FlashCache.insert_cases hr
    cases ht with
    | rolled hfull he hnew =>
      rw [hfile hfull] at he
      cases he
    | current =>
      rw [hfile hf, WriteableCacheFile.append, appendBuffered_of_zero hc (Shaped.nil 0) rfl ha.1] at happ
      cases happ
  | writer hidle hf hw =>
    rw [hfile hf] at hw
    obtain ⟨hstep, -⟩ := hw
    cases hstep <;> simp_all [fresh, created, new]
  | test hidle hf hb hover =>
    rw [hfile hf] at hb
    cases hb.1
  | remove unlinked hin hlock hevict hfree hf hclose => cases hin

/-- **No file is removed while everything fits**: in every run whose steps meet the
condition, when the writer that waits removes a file, more bytes are held than
`cache_size`. -/
theorem reach_removal_over (h : Reach (FlushStep crc) (fun s a => a.Accounted s) (.start opt) s) {unlinked : Bool}
    (hs : FlushStep crc s (.remove p unlinked) t) : opt.cacheSize.toNat < s.cache.held := by
  rcases Nat.eq_zero_or_pos opt.writeBufferSize.toNat with hzero | hc
  · rw [reach_eq_start hzero h] at hs
    cases hs with
    | remove unlinked hin hlock hevict hfree hf hclose => cases hin
  · have hinv : s.Invariant opt :=
      h.invariant (Flushing.invariant_start hc) fun s a t hs ha hstep => hstep.invariant ha hs
    cases hs with
    | remove unlinked hin hlock hevict hfree hf hclose => exact hinv.exceeds (List.ne_nil_of_mem hin)

/-- A writer that writes while nothing else happens. -/
theorem reach_writes (h : Reach (FlushStep crc) (fun s a => a.Accounted s) (.start opt) s) (hidle : p ∉ s.waiting)
    (hf : s.cache.deref p = some f) (hrun : ReflTransGen (fun f g => s.cache.WritesExactly f g ∧
      (f.tid = some .returned → f.eof = true → f.unwritten = 0)) f g) :
    Reach (FlushStep crc) (fun s a => a.Accounted s) (.start opt) { s with cache := s.cache.store p g } := by
  induction hrun with
  | refl =>
    rw [FlashCache.store_self hf]
    exact h
  | @tail e g _ hw ih =>
    have he : (s.cache.store p e).deref p = some e := (FlashCache.deref_store hf e p).trans (if_pos rfl)
    have hexit : FlushAct.Accounted { s with cache := s.cache.store p e } (.writer p) := by
      intro e' he' hpc heof
      obtain rfl := Option.some.inj (he.symm.trans he')
      exact hw.2 hpc heof
    have hstep := ih.step hexit (.writer hidle he hw.1)
    rw [FlashCache.store_store] at hstep
    exact hstep

/-- The writer of a full file with a single buffer brings it to the file, if there is
room for it, and finishes. -/
theorem writes_single {b : CacheWriteBuffer} {file : Bytes} (hpc : f.tid = some .waiting) (hsem : 0 < f.semWriter)
    (heof : f.eof = true) (hdoff : f.bufDoff = 0) (hwoff : f.bufWoff = 1) (hbufs : f.bufs = [b]) (hne : b.used ≠ 0)
    (hfd : f.fd = some file) (hroom : ¬ c.Exceeds b.used) :
    ReflTransGen (fun f g => c.WritesExactly f g ∧ (f.tid = some .returned → f.eof = true → f.unwritten = 0)) f
      { f with
        fd := some (file ++ b.data)
        filesize := f.filesize + UInt32.ofNat b.used
        bufs := []
        bufDoff := 1
        isWriterRunning := false
        semWriter := f.semWriter - 1
        tid := some .finished } := by
  obtain ⟨cacheId, maxSize, writeBufferSize, filesize, fd, keyLists, eof, diskWoff, bufs, bufWoff, bufDoff, running,
    sem, tid⟩ := f
  simp only at hpc hsem heof hdoff hwoff hbufs hfd
  subst hpc heof hdoff hwoff hbufs hfd
  have hall : (b.data.drop 0).take b.used = b.data := List.take_length
  refine .head ⟨⟨.semWait rfl hsem, fun b hb => nomatch hb.1⟩, fun hpc => nomatch hpc⟩ ?_
  refine .head ⟨⟨.fetch rfl Nat.zero_lt_one rfl, fun e he => ?_⟩, fun hpc => nomatch hpc⟩ ?_
  · obtain rfl := Option.some.inj he.2.2
    exact hroom
  refine .head ⟨⟨.write (n := b.used) rfl hne (Nat.le_refl _) rfl rfl, fun b hb => nomatch hb.1⟩, fun hpc => nomatch hpc⟩ ?_
  simp only [hall, Nat.zero_add, Nat.sub_self]
  refine .head ⟨⟨.advance rfl rfl, fun b hb => nomatch hb.1⟩, fun hpc => nomatch hpc⟩ ?_
  refine .head ⟨⟨.leave rfl (Nat.lt_irrefl _), fun b hb => absurd hb.2.1 (Nat.lt_irrefl _)⟩, fun hpc => nomatch hpc⟩ ?_
  refine .head ⟨⟨.exit rfl rfl, fun b hb => nomatch hb.1⟩, fun _ _ => rfl⟩ ?_
  refine .head ⟨⟨.pop rfl (List.cons_ne_nil _ _), fun b hb => nomatch hb.1⟩, fun hpc => nomatch hpc⟩ ?_
  exact .single ⟨⟨.finish rfl rfl, fun b hb => nomatch hb.1⟩, fun hpc => nomatch hpc⟩

/-- The writer that waits removes the file that was used least recently, if the writer of
that one has finished. -/
theorem remove_finished (crc : Bytes → UInt32) {q : ℕ} {index : LruCache UInt32 ℕ} (hlock : c.fcacheMutex = false)
    (hindex : c.metadata.cacheFileIndex.evict = .ok (q, index)) (hne : q ≠ p) (hf : c.deref q = some f)
    (hfin : f.tid = some .finished) : ∃ t, FlushStep crc { cache := c, waiting := [p] } (.remove p true) t := by
  have hevict := evict_of_index hindex hf
  have hstarted : f.tid.isSome := by rw [hfin]; rfl
  exact ⟨_, .remove true (List.mem_singleton_self p) hlock hevict (List.not_mem_cons_of_ne_of_not_mem hne List.not_mem_nil)
    hf (.join hstarted .refl hfin)⟩

/-- A file is full and written, and the writer of the next one, with a record of one
byte more, is about to fetch its buffer. -/
theorem reach_second_file {n : UInt64} (hn : 36 ≤ n.toNat) : ∃ c f₀ f b, ∃ index : LruCache UInt32 ℕ,
    Reach (FlushStep fun _ => 0) (fun s a => a.Accounted s) (.start ⟨18, 32, n⟩) { cache := c } ∧
      c.opt.cacheSize = n ∧ c.size = 37 ∧ c.fcacheMutex = false ∧
      c.metadata.cacheFileIndex.evict = .ok (0, index) ∧ c.deref 0 = some f₀ ∧ f₀.tid = some .finished ∧
      c.deref 1 = some f ∧ FlashCache.Fetches f b ∧ b.used = 19 := by
  have h0 := Reach.refl (R := FlushStep fun _ => 0) (C := fun s a => a.Accounted s) (.start ⟨18, 32, n⟩)
  have h1 := h0.step (a := .insert [97] [1])
    ⟨by decide, of_decide_eq_true rfl, fun f hf he => by cases hf; cases he⟩
    (.insert (show FlashCache.insert (fun _ => 0) .writeBuffer [] _ [97] [1] = .ok (0, _) from rfl))
  have h2 := reach_writes h1 (p := 0) List.not_mem_nil rfl
    (writes_single rfl Nat.one_pos rfl rfl rfl rfl (of_decide_eq_true rfl) rfl (Nat.not_lt.mpr hn))
  have h3 := h2.step (a := .insert [98] [2, 3])
    ⟨by decide, of_decide_eq_true rfl, fun f hf he => of_decide_eq_true rfl⟩
    (.insert (FlashCache.insert_of_target rfl (.rolled rfl rfl (by simp) fun _ => (semNameFits_iff 1).mpr (by decide))
      rfl (show append (fun _ => 0) .writeBuffer [] _ [98] [2, 3] {} = .ok (true, _, _) from rfl)))
  obtain ⟨c, f₀, f, b, index, h, hopt, hsize, hlock, hindex, hf₀, hfin, hf, hpc, hsem, hlt, hb, hused⟩ :
      ∃ c f₀ f b, ∃ index : LruCache UInt32 ℕ,
        Reach (FlushStep fun _ => 0) (fun s a => a.Accounted s) (.start ⟨18, 32, n⟩) { cache := c } ∧
          c.opt.cacheSize = n ∧ c.size = 37 ∧ c.fcacheMutex = false ∧
          c.metadata.cacheFileIndex.evict = .ok (0, index) ∧ c.deref 0 = some f₀ ∧ f₀.tid = some .finished ∧
          c.deref 1 = some f ∧ f.tid = some .waiting ∧ 0 < f.semWriter ∧ f.bufDoff < f.bufWoff ∧
          f.bufs[f.bufDoff]? = some b ∧ b.used = 19 :=
    ⟨_, _, _, _, _, h3, rfl, rfl, rfl, rfl, rfl, rfl, rfl, rfl, Nat.one_pos, Nat.one_pos, rfl, rfl⟩
  have h4 := reach_writes h (p := 1) List.not_mem_nil hf
    (.single ⟨⟨.semWait hpc hsem, fun b hb => by cases hpc.symm.trans hb.1⟩, fun hret => by cases hpc.symm.trans hret⟩)
  refine ⟨_, f₀, { f with semWriter := f.semWriter - 1, tid := some .looping }, b, index, h4, hopt, hsize, hlock, hindex,
    ?_, hfin, ?_, ⟨rfl, hlt, hb⟩, hused⟩
  · rw [FlashCache.deref_store hf, if_neg (by decide)]
    exact hf₀
  · rw [FlashCache.deref_store hf, if_pos rfl]

/-- A record of 18 bytes and one of 19, in a cache with room for 36: when the second one
is written, the file of the first one is removed. -/
theorem reach_removal_over_second : ∃ s t : Flushing,
    FlushStep (fun _ => 0) s (.remove 1 true) t ∧ s.cache.size = 37 ∧ 36 < s.cache.held := by
  obtain ⟨c, f₀, f, b, index, h, hopt, hsize, hlock, hindex, hf₀, hfin, hf, hb, hused⟩ :=
    reach_second_file (n := 36) (Nat.le_refl 36)
  have htotal : c.held = 37 := by
    rw [← reach_balanced (by decide) h, hsize]
    rfl
  have hover : c.Exceeds b.used := by
    rw [FlashCache.Exceeds, hopt, hused, hsize]
    decide
  have h' := h.step (a := .test 1)
    ⟨rfl, fun f b hf hb hfit => absurd hfit (by rw [htotal, hopt]; decide)⟩
    (.test List.not_mem_nil hf hb hover)
  obtain ⟨t, hs⟩ := remove_finished (fun _ => 0) hlock hindex Nat.zero_ne_one hf₀ hfin
  exact ⟨_, t, hs, hsize, reach_removal_over h' hs⟩

/-- In a cache with room for 40 bytes, where both records fit, it is removed as well. -/
theorem flush_evicts_early : ∃ s t : Flushing,
    Reach (FlushStep fun _ => 0) Always (.start ⟨18, 32, 40⟩) s ∧ FlushStep (fun _ => 0) s (.remove 1 true) t ∧
      s.cache.held = 37 := by
  obtain ⟨c, f₀, f, b, index, h, hopt, hsize, hlock, hindex, hf₀, hfin, hf, hb, hused⟩ :=
    reach_second_file (n := 40) (by decide)
  have hover : c.Exceeds b.used := by
    rw [FlashCache.Exceeds, hopt, hused, hsize]
    decide
  have h' := (h.mono fun _ _ _ => trivial).step (C := Always) (a := .test 1) trivial (.test List.not_mem_nil hf hb hover)
  obtain ⟨t, hs⟩ := remove_finished (fun _ => 0) hlock hindex Nat.zero_ne_one hf₀ hfin
  refine ⟨_, t, h', hs, ?_⟩
  show c.held = 37
  rw [← reach_balanced (by decide) h, hsize]
  rfl

end EmbeddedKv.Store
