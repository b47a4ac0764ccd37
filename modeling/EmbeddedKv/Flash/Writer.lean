import EmbeddedKv.Flash.Reading
import EmbeddedKv.Library.Runs

/-!
# The writer thread of a cache file

A file in write-buffer mode has two parties: the thread that calls `Append` and
`Close`, and the writer thread, which runs `writerJobs` and brings the buffers to
the file.

## The model

`WriterStep` is one step of the writer thread; a single `write` may be short, write
nothing or be interrupted. After any other error the process exits, so there is no
step. An index `buf_doff_` behind the last buffer is an access out of range
(`Overrun`), and there is no step from it either. The call of `Evict` in `Write()`
concerns other files.

`FileStep` interleaves the writer's steps with the calls on the file, whose history
is kept. An `Append` is one step, or two with `DispatchBuffer` as the second one;
`Close` is the three steps before it waits for the writer.

## What is proved

`Consistent` is the invariant of the file and its log: the buffers are the log cut
into chunks, `buf_woff_` points to its end, and the file has the first `buf_doff_`
chunks and what the writer has written of the next one. Every step of the writer
(`WriterStep.consistent`), every `Append` and every step of `Close` keeps it.
-/

namespace EmbeddedKv.Flash

open EmbeddedKv.Library CacheWriteBuffer

namespace WriteableCacheFile

/-! ### The writer's steps -/

/-- One step of the writer thread. -/
inductive WriterStep : WriteableCacheFile → WriteableCacheFile → Prop where
  /-- `sem_wait` comes back. -/
  | semWait {f : WriteableCacheFile} (hpc : f.tid = some .waiting) (hsem : 0 < f.semWriter) :
      WriterStep f { f with semWriter := f.semWriter - 1, tid := some .looping }
  /-- `buf_doff_ < buf_woff_`: the buffer, `src` and `left` are fetched. -/
  | fetch {f : WriteableCacheFile} {b : CacheWriteBuffer} (hpc : f.tid = some .looping)
      (hlt : f.bufDoff < f.bufWoff) (hb : f.bufs[f.bufDoff]? = some b) :
      WriterStep f { f with tid := some (.writing 0 b.used) }
  /-- One `write`, of `n` bytes. -/
  | write {f : WriteableCacheFile} {b : CacheWriteBuffer} {src left n : ℕ} {file : Bytes}
      (hpc : f.tid = some (.writing src left)) (hleft : left ≠ 0) (hn : n ≤ left)
      (hb : f.bufs[f.bufDoff]? = some b) (hfd : f.fd = some file) :
      WriterStep f { f with fd := some (file ++ (b.data.drop src).take n)
                            tid := some (.writing (src + n) (left - n)) }
  /-- One `write` that is interrupted. -/
  | eintr {f : WriteableCacheFile} {src left : ℕ} (hpc : f.tid = some (.writing src left))
      (hleft : left ≠ 0) : WriterStep f f
  /-- `left == 0`: `filesize_` and `buf_doff_` are moved on. -/
  | advance {f : WriteableCacheFile} {b : CacheWriteBuffer} {src : ℕ}
      (hpc : f.tid = some (.writing src 0)) (hb : f.bufs[f.bufDoff]? = some b) :
      WriterStep f { f with filesize := f.filesize + UInt32.ofNat b.used
                            bufDoff := f.bufDoff + 1, tid := some .looping }
  /-- `buf_doff_ >= buf_woff_`: `Write()` returns. -/
  | leave {f : WriteableCacheFile} (hpc : f.tid = some .looping) (hge : ¬ f.bufDoff < f.bufWoff) :
      WriterStep f { f with isWriterRunning := false, tid := some .returned }
  /-- `eof_` is not set: `Write()` is called again. -/
  | again {f : WriteableCacheFile} (hpc : f.tid = some .returned) (heof : f.eof = false) :
      WriterStep f { f with tid := some .waiting }
  /-- `eof_` is set: the loop of `writerJobs` is left. -/
  | exit {f : WriteableCacheFile} (hpc : f.tid = some .returned) (heof : f.eof = true) :
      WriterStep f { f with tid := some .clearing }
  /-- `ClearBuffers` drops the last buffer. -/
  | pop {f : WriteableCacheFile} (hpc : f.tid = some .clearing) (hne : f.bufs ≠ []) :
      WriterStep f { f with bufs := f.bufs.dropLast }
  /-- No buffer is left, and `writerJobs` returns. -/
  | finish {f : WriteableCacheFile} (hpc : f.tid = some .clearing) (hnil : f.bufs = []) :
      WriterStep f { f with tid := some .finished }

/-- The writer is about to access `bufs_[buf_doff_]` behind the last buffer. -/
def Overrun (f : WriteableCacheFile) : Prop :=
  f.tid = some .looping ∧ f.bufDoff < f.bufWoff ∧ f.bufs.length ≤ f.bufDoff

instance (f : WriteableCacheFile) : Decidable f.Overrun := inferInstanceAs (Decidable (_ ∧ _ ∧ _))

/-- The writer has left the loop of `writerJobs`. -/
def Left (f : WriteableCacheFile) : Prop := f.tid = some .clearing ∨ f.tid = some .finished

/-! ### The invariant -/

/-- **The invariant of a file in write-buffer mode**, for the bytes that were put into
its buffers so far. -/
structure Consistent (f : WriteableCacheFile) (log : Bytes) : Prop where
  /-- Buffers have room. -/
  pos : 0 < f.writeBufferSize.toNat
  /-- The buffers are the log cut into chunks. -/
  cut : Cut f.writeBufferSize.toNat f.bufs log
  /-- No buffer is dropped before the writer has left its loop. -/
  room : f.Left ∨ log.length ≤ f.bufs.length * f.writeBufferSize.toNat
  /-- The writer leaves its loop at the end of the file only. -/
  eof_of_left : f.Left → f.eof = true
  /-- Until the end of the file `buf_woff_` is the buffer the log ends in. -/
  woff : f.eof = false → f.bufWoff = log.length / f.writeBufferSize.toNat
  /-- Afterwards it may only have been moved on. -/
  le_woff : log.length / f.writeBufferSize.toNat ≤ f.bufWoff
  /-- The writer is not ahead of `buf_woff_`. -/
  doff_le : f.bufDoff ≤ f.bufWoff
  /-- `filesize_` counts the bytes of the buffers that are written, modulo `2 ^ 32`. -/
  filesize : f.filesize = UInt32.ofNat (log.take (f.bufDoff * f.writeBufferSize.toNat)).length
  /-- Between two rounds of the loop the file has those bytes. -/
  between : (∀ src left, f.tid ≠ some (.writing src left)) →
    f.fd = some (log.take (f.bufDoff * f.writeBufferSize.toNat))
  /-- Within a round it also has the first `src` bytes of the next buffer. -/
  within : ∀ src left, f.tid = some (.writing src left) → f.bufDoff < f.bufWoff ∧
    ∃ b, f.bufs[f.bufDoff]? = some b ∧ src + left = b.used ∧
      f.fd = some (log.take (f.bufDoff * f.writeBufferSize.toNat) ++ b.data.take src)

variable {f g : WriteableCacheFile} {log : Bytes}

/-- A new file is consistent with the empty log. -/
theorem consistent_created (cacheId maxSize writeBufferSize : UInt32) (tokens : ℕ) (hc : 0 < writeBufferSize.toNat) :
    ((new cacheId maxSize writeBufferSize).created false tokens).Consistent [] where
  pos := hc
  cut := Cut.nil _ _
  room := .inr (Nat.zero_le _)
  eof_of_left h := by rcases h with h | h <;> simp [created, new] at h
  woff _ := by simp [created, new]
  le_woff := by simp [created, new]
  doff_le := Nat.le_refl _
  filesize := by simp [created, new]
  between _ := by simp [created, new]
  within src left h := by simp [created, new] at h

/-- Buffer `i` of a consistent file. -/
theorem Consistent.data (h : f.Consistent log) {i : ℕ} {b : CacheWriteBuffer} (hb : f.bufs[i]? = some b) :
    b.data = (log.drop (i * f.writeBufferSize.toNat)).take f.writeBufferSize.toNat :=
  (h.cut.getElem? hb).2

/-- It holds no more than the rest of the log. -/
theorem Consistent.used_le (h : f.Consistent log) {i : ℕ} {b : CacheWriteBuffer} (hb : f.bufs[i]? = some b) :
    b.used ≤ log.length - i * f.writeBufferSize.toNat := by
  rw [CacheWriteBuffer.used, h.data hb, List.length_take, List.length_drop]
  exact Nat.min_le_right _ _

/-- The buffers written so far and the next one are the log up to there. -/
theorem Consistent.take_succ (h : f.Consistent log) {i : ℕ} {b : CacheWriteBuffer}
    (hb : f.bufs[i]? = some b) : log.take ((i + 1) * f.writeBufferSize.toNat) =
      log.take (i * f.writeBufferSize.toNat) ++ b.data := by
  rw [h.data hb, Nat.succ_mul, List.take_add]

/-- The writer at a place between two rounds. -/
theorem Consistent.moveTo (h : f.Consistent log) {pc : WriterPc} (hfrom : ∀ src left, f.tid ≠ some (.writing src left))
    (hto : ∀ src left, pc ≠ .writing src left)
    (hstay : f.Left → pc = .clearing ∨ pc = .finished)
    (heof : pc = .clearing ∨ pc = .finished → f.eof = true) (sem : ℕ) (running : Bool) :
    Consistent { f with tid := some pc, semWriter := sem, isWriterRunning := running } log := by
  have hleft : Left { f with tid := some pc, semWriter := sem, isWriterRunning := running } ↔
      pc = .clearing ∨ pc = .finished := by
    simp only [Left, Option.some.injEq]
  exact { h with
    room := by
      rw [hleft]
      exact h.room.imp_left hstay
    eof_of_left := fun hl => heof (hleft.mp hl)
    between := fun _ => h.between hfrom
    within := fun src left heq => absurd (Option.some.inj heq) (hto src left) }

/-- **The writer keeps the invariant.** -/
theorem WriterStep.consistent (hs : WriterStep f g) (h : f.Consistent log) : g.Consistent log := by
  cases hs with
  | semWait hpc hsem =>
    exact h.moveTo (by simp [hpc]) (by simp) (by simp [Left, hpc]) (by simp) _ _
  | @fetch b hpc hlt hb =>
    have hfd := h.between (by simp [hpc])
    have hroom := h.room.resolve_left (by simp [Left, hpc])
    exact { h with
      room := .inr hroom
      eof_of_left := by simp [Left]
      between := fun hne => absurd rfl (hne 0 b.used)
      within := by
        intro src left heq
        simp only [Option.some.injEq, WriterPc.writing.injEq] at heq
        obtain ⟨rfl, rfl⟩ := heq
        exact ⟨hlt, b, hb, Nat.zero_add _, by simpa using hfd⟩ }
  | @write b src left n file hpc hleft hn hb hfd =>
    obtain ⟨hlt, b', hb', hsum, hfile⟩ := h.within src left hpc
    obtain rfl : b = b' := Option.some.inj (hb.symm.trans hb')
    have hroom := h.room.resolve_left (by simp [Left, hpc])
    rw [hfd, Option.some.injEq] at hfile
    exact { h with
      room := .inr hroom
      eof_of_left := by simp [Left]
      between := fun hne => absurd rfl (hne (src + n) (left - n))
      within := by
        intro src' left' heq
        simp only [Option.some.injEq, WriterPc.writing.injEq] at heq
        obtain ⟨rfl, rfl⟩ := heq
        refine ⟨hlt, b, hb, by omega, ?_⟩
        rw [hfile, List.append_assoc, ← List.take_add] }
  | eintr hpc hleft => exact h
  | @advance b src hpc hb =>
    obtain ⟨hlt, b', hb', hsum, hfile⟩ := h.within src 0 hpc
    obtain rfl : b = b' := Option.some.inj (hb.symm.trans hb')
    have hroom := h.room.resolve_left (by simp [Left, hpc])
    have hsucc := h.take_succ hb
    have hall : b.data.take src = b.data :=
      List.take_of_length_le (by rw [CacheWriteBuffer.used] at hsum; omega)
    exact { h with
      room := .inr hroom
      eof_of_left := by simp [Left]
      doff_le := hlt
      filesize := by
        simp only
        rw [hsucc, List.length_append, UInt32.ofNat_add, ← h.filesize]
        rfl
      between := fun _ => by
        simp only
        rw [hsucc, hfile, hall]
      within := by simp }
  | leave hpc hge =>
    exact h.moveTo (by simp [hpc]) (by simp) (by simp [Left, hpc]) (by simp) _ _
  | again hpc heof =>
    exact h.moveTo (by simp [hpc]) (by simp) (by simp [Left, hpc]) (by simp) _ _
  | exit hpc heof =>
    exact h.moveTo (by simp [hpc]) (by simp) (by simp) (fun _ => heof) _ _
  | pop hpc hne =>
    exact { h with
      cut := by
        show Cut f.writeBufferSize.toNat f.bufs.dropLast log
        rw [List.dropLast_eq_take]
        exact h.cut.take _
      room := .inl (.inl hpc)
      eof_of_left := fun _ => h.eof_of_left (.inl hpc)
      within := fun src left heq => by rw [hpc] at heq; simp at heq }
  | finish hpc hnil =>
    exact h.moveTo (by simp [hpc]) (by simp) (by simp) (fun _ => h.eof_of_left (.inl hpc)) _ _

/-- What the writer leaves alone. -/
theorem WriterStep.frame (hs : WriterStep f g) :
    g.eof = f.eof ∧ g.writeBufferSize = f.writeBufferSize ∧ g.diskWoff = f.diskWoff ∧
      g.bufWoff = f.bufWoff := by
  cases hs <;> exact ⟨rfl, rfl, rfl, rfl⟩

theorem WriterStep.cacheId (hs : WriterStep f g) : g.cacheId = f.cacheId := by
  cases hs <;> rfl

theorem WriterStep.keyLists (hs : WriterStep f g) : g.keyLists = f.keyLists := by
  cases hs <;> rfl

/-! ### Appending -/

/-- Until the end of the file the buffers have the shape `Append` relies on. -/
theorem Consistent.shaped (h : f.Consistent log) (he : f.eof = false) :
    Shaped f.writeBufferSize.toNat f.bufs f.bufWoff log where
  toCut := h.cut
  room := h.room.resolve_left fun hl => by simp [h.eof_of_left hl] at he
  woff := h.woff he

/-- More bytes in the buffers: what the writer has done stays as it is. -/
theorem Consistent.grow (h : f.Consistent log) (he : f.eof = false) {bufs : List CacheWriteBuffer}
    {woff : ℕ} {more : Bytes} (hs : Shaped f.writeBufferSize.toNat bufs woff (log ++ more))
    (keyLists : List Bytes) (diskWoff : UInt32) (eof : Bool) :
    Consistent { f with bufs, bufWoff := woff, keyLists, diskWoff, eof } (log ++ more) := by
  have hleft : ¬ f.Left := fun hl => by simp [h.eof_of_left hl] at he
  have hdone : f.bufDoff * f.writeBufferSize.toNat ≤ log.length := by
    have := h.doff_le
    rw [h.woff he] at this
    exact (Nat.le_div_iff_mul_le h.pos).mp this
  have htake : (log ++ more).take (f.bufDoff * f.writeBufferSize.toNat) =
      log.take (f.bufDoff * f.writeBufferSize.toNat) := List.take_append_of_le_length hdone
  have hwoff : f.bufWoff ≤ woff := by
    rw [h.woff he, hs.woff]
    exact Nat.div_le_div_right (by simp)
  refine ⟨h.pos, hs.toCut, .inr hs.room, fun hl => absurd hl hleft, fun _ => hs.woff, Nat.le_of_eq hs.woff.symm,
    h.doff_le.trans hwoff, ?_, fun hne => ?_, fun src left heq => ?_⟩
  · show f.filesize = _
    rw [htake]
    exact h.filesize
  · show f.fd = _
    rw [htake]
    exact h.between hne
  · -- the buffer being written is full, so it gets nothing more
    obtain ⟨hlt, b, hb, hsum, hfile⟩ := h.within src left heq
    have hfull : (f.bufDoff + 1) * f.writeBufferSize.toNat ≤ log.length := by
      have : f.bufDoff + 1 ≤ f.bufWoff := hlt
      rw [h.woff he] at this
      exact (Nat.le_div_iff_mul_le h.pos).mp this
    have hin : f.bufDoff < bufs.length :=
      Nat.lt_of_lt_of_le hlt (hwoff.trans hs.woff_le)
    refine ⟨Nat.lt_of_lt_of_le hlt hwoff, bufs[f.bufDoff], List.getElem?_eq_getElem hin, ?_⟩
    have hdata : (bufs[f.bufDoff]).data = b.data := by
      rw [(hs.toCut.getElem? (List.getElem?_eq_getElem hin)).2, h.data hb,
        List.drop_append_of_le_length hdone, List.take_append_of_le_length]
      rw [List.length_drop]
      rw [Nat.succ_mul] at hfull
      omega
    rw [CacheWriteBuffer.used, hdata, htake]
    exact ⟨hsum, hfile⟩

variable {crc : Bytes → UInt32} {key val : Bytes}

/-- **`Append` in write-buffer mode, before `DispatchBuffer`**, until the end of the
file: it returns; the buffers it adds are needed for the booked size of the record,
and suffice for it; the record goes behind the log as far as the buffers reach, and
the call succeeds exactly when that is all of it. -/
theorem appendBuffered_shaped (hpos : 0 < f.writeBufferSize.toNat)
    (hold : Shaped f.writeBufferSize.toNat f.bufs f.bufWoff log) (he : f.eof = false) (crc : Bytes → UInt32)
    (key val : Bytes) (lba : LBA) :
    ∃ bufs woff, log.length + (CacheRecord.calcSize key val).toNat ≤ bufs.length * f.writeBufferSize.toNat ∧
      (bufs.length = f.bufs.length ∨ bufs.length * f.writeBufferSize.toNat <
        log.length + (CacheRecord.calcSize key val).toNat + f.writeBufferSize.toNat) ∧
      Shaped f.writeBufferSize.toNat bufs woff
        ((log ++ image crc key val).take (bufs.length * f.writeBufferSize.toNat)) ∧
      ((log.length + recordSize key val ≤ bufs.length * f.writeBufferSize.toNat ∧
          f.appendBuffered crc key val lba =
            .ok (true, ⟨f.cacheId, f.diskWoff, CacheRecord.calcSize key val⟩,
              { f with bufs, bufWoff := woff, keyLists := f.keyLists ++ [key]
                       diskWoff := f.diskWoff + CacheRecord.calcSize key val
                       eof := decide (f.maxSize ≤ f.diskWoff + CacheRecord.calcSize key val) })) ∨
        bufs.length * f.writeBufferSize.toNat < log.length + recordSize key val ∧
          f.appendBuffered crc key val lba =
            .ok (false, ⟨f.cacheId, f.diskWoff, CacheRecord.calcSize key val⟩,
              { f with bufs, bufWoff := woff })) := by
  obtain ⟨k, hk, hshape, hroom, hmin⟩ :=
    expandBuffer_shaped hpos hold (CacheRecord.calcSize key val).toNat
  obtain ⟨hser, hlen, hok⟩ := CacheRecord.serialize_shaped hpos hshape (CacheRecord.new crc key val)
  rw [List.length_append, List.length_replicate] at hser hlen hok
  have hbytes : (CacheRecord.new crc key val).bytes.length = recordSize key val := length_image crc key val
  unfold WriteableCacheFile.appendBuffered
  rw [if_neg (by simp [he])]
  simp only [hk]
  generalize (CacheRecord.new crc key val).serialize
    (f.bufs ++ List.replicate k (CacheWriteBuffer.new f.writeBufferSize.toNat)) f.bufWoff = r at hser hlen hok
  obtain ⟨ok, bufs, woff⟩ := r
  simp only at hser hlen hok
  rw [← hlen] at hser hok hroom hmin
  refine ⟨bufs, woff, hroom, ?_, hser, ?_⟩
  · exact hmin.imp_left fun hz => by rw [hlen, hz]; rfl
  cases ok with
  | true => exact .inl ⟨by rw [← hbytes]; exact hok.mp rfl, rfl⟩
  | false =>
    have hout := mt hok.mpr (by simp)
    rw [hbytes] at hout
    exact .inr ⟨Nat.not_le.mp hout, rfl⟩

/-- Whatever goes into the buffers goes behind the log; a record of less than `2 ^ 32`
bytes does so as a whole. -/
theorem Consistent.appendBuffered (h : f.Consistent log) (he : f.eof = false) (crc : Bytes → UInt32)
    (key val : Bytes) (lba : LBA) :
    ∃ bufs woff more, Shaped f.writeBufferSize.toNat bufs woff (log ++ more) ∧
      ((more = image crc key val ∧ f.appendBuffered crc key val lba =
          .ok (true, ⟨f.cacheId, f.diskWoff, CacheRecord.calcSize key val⟩,
            { f with bufs, bufWoff := woff, keyLists := f.keyLists ++ [key]
                     diskWoff := f.diskWoff + CacheRecord.calcSize key val
                     eof := decide (f.maxSize ≤ f.diskWoff + CacheRecord.calcSize key val) })) ∨
        2 ^ 32 ≤ recordSize key val ∧ f.appendBuffered crc key val lba =
          .ok (false, ⟨f.cacheId, f.diskWoff, CacheRecord.calcSize key val⟩,
            { f with bufs, bufWoff := woff })) := by
  obtain ⟨bufs, woff, hroom, -, hshape, ⟨hfit, hr⟩ | ⟨hout, hr⟩⟩ :=
    appendBuffered_shaped h.pos (h.shaped he) he crc key val lba
  · rw [List.take_of_length_le (by rw [List.length_append, length_image]; exact hfit)] at hshape
    exact ⟨bufs, woff, _, hshape, .inl ⟨rfl, hr⟩⟩
  · rw [List.take_append, List.take_of_length_le (by omega)] at hshape
    refine ⟨bufs, woff, _, hshape, .inr ⟨?_, hr⟩⟩
    by_contra hlt
    rw [CacheRecord.toNat_calcSize_of_lt (Nat.not_le.mp hlt)] at hroom
    omega

/-- Without capacity `Append` does not return before the end of the file. -/
theorem appendBuffered_of_zero (hzero : f.writeBufferSize.toNat = 0) (hold : Shaped 0 f.bufs f.bufWoff log)
    (he : f.eof = false) (hsmall : recordSize key val < 2 ^ 32) (lba : LBA) :
    f.appendBuffered crc key val lba = .error .unfinished := by
  have hsize : 0 < (CacheRecord.calcSize key val).toNat := by
    rw [CacheRecord.toNat_calcSize_of_lt hsmall]
    exact recordSize_pos key val
  unfold WriteableCacheFile.appendBuffered
  rw [if_neg (by simp [he]), hzero]
  simp only [expandBuffer_zero hold hsize]

/-- After the end of the file `Append` does nothing. -/
theorem appendBuffered_of_eof (he : f.eof = true) (lba : LBA) :
    f.appendBuffered crc key val lba = .ok (false, lba, f) := by
  unfold WriteableCacheFile.appendBuffered
  rw [if_pos he]

/-- **What `Append` has done before `DispatchBuffer`**, whatever the buffers are: at the
end of the file nothing, and otherwise it books the record exactly if it succeeds. -/
theorem appendBuffered_inv {lba lba' : LBA} {ok : Bool} (hr : f.appendBuffered crc key val lba = .ok (ok, lba', g)) :
    (f.eof = true ∧ ok = false ∧ g = f) ∨
      f.eof = false ∧ lba' = ⟨f.cacheId, f.diskWoff, CacheRecord.calcSize key val⟩ ∧ ∃ bufs woff,
        (ok = true ∧ g = { f with bufs, bufWoff := woff, keyLists := f.keyLists ++ [key]
                                  diskWoff := f.diskWoff + CacheRecord.calcSize key val
                                  eof := decide (f.maxSize ≤ f.diskWoff + CacheRecord.calcSize key val) }) ∨
          ok = false ∧ g = { f with bufs, bufWoff := woff } := by
  unfold WriteableCacheFile.appendBuffered at hr
  simp only at hr
  split_ifs at hr with heof
  · cases hr
    exact .inl ⟨heof, rfl, rfl⟩
  refine .inr ⟨by simpa using heof, ?_⟩
  cases hx : expandBuffer f.bufs f.bufWoff f.writeBufferSize.toNat (CacheRecord.calcSize key val).toNat with
  | error e => rw [hx] at hr; cases hr
  | ok bufs =>
    rw [hx] at hr
    simp only at hr
    split_ifs at hr with hok
    · cases hr
      exact ⟨rfl, _, _, .inl ⟨rfl, rfl⟩⟩
    · cases hr
      exact ⟨rfl, _, _, .inr ⟨rfl, rfl⟩⟩

/-- **`DispatchBuffer`** has nothing to do while the writer is awake, or before a
buffer is full; otherwise it wakes the writer, at the end of the file after having
moved `buf_woff_` on. -/
theorem dispatched_cases (f : WriteableCacheFile) :
    (f.dispatched = f ∧ (f.isWriterRunning = true ∨ f.eof = false ∧ f.bufDoff = f.bufWoff)) ∨
      (f.isWriterRunning = false ∧ f.eof = false ∧ f.bufDoff ≠ f.bufWoff ∧
        f.dispatched = { f with semWriter := f.semWriter + 1, isWriterRunning := true }) ∨
      (f.isWriterRunning = false ∧ f.eof = true ∧
        f.dispatched =
          { f with bufWoff := f.bufWoff + 1, semWriter := f.semWriter + 1, isWriterRunning := true }) := by
  unfold WriteableCacheFile.dispatched
  by_cases hrun : f.isWriterRunning = true
  · exact .inl ⟨if_pos hrun, .inl hrun⟩
  rw [if_neg hrun]
  have hrun' : f.isWriterRunning = false := by simpa using hrun
  by_cases hidle : f.eof = false ∧ f.bufDoff = f.bufWoff
  · exact .inl ⟨if_pos hidle, .inr hidle⟩
  rw [if_neg hidle]
  cases he : f.eof with
  | true => exact .inr (.inr ⟨hrun', rfl, by simp [wakeWriter, he]⟩)
  | false => exact .inr (.inl ⟨hrun', rfl, fun heq => hidle ⟨he, heq⟩, by simp [wakeWriter, he]⟩)

/-- `eof_` may be set at any time. -/
theorem Consistent.setEof (h : f.Consistent log) : Consistent { f with eof := true } log :=
  { h with eof_of_left := fun _ => rfl, woff := fun he => by cases he }

/-- At the end of the file `buf_woff_` may be moved on. -/
theorem Consistent.moveOn (h : f.Consistent log) (he : f.eof = true) :
    Consistent { f with bufWoff := f.bufWoff + 1 } log :=
  { h with
    woff := fun hf => by simp [he] at hf
    le_woff := h.le_woff.trans (Nat.le_succ _)
    doff_le := h.doff_le.trans (Nat.le_succ _)
    within := fun src left hpc => by
      obtain ⟨hlt, hb⟩ := h.within src left hpc
      exact ⟨Nat.lt_succ_of_lt hlt, hb⟩ }

/-- `DispatchBuffer` keeps the invariant: it moves `buf_woff_` on only at the end of
the file. -/
theorem Consistent.dispatched (h : f.Consistent log) : f.dispatched.Consistent log := by
  rcases f.dispatched_cases with ⟨heq, -⟩ | ⟨-, -, -, heq⟩ | ⟨-, he, heq⟩
  · rw [heq]
    exact h
  · rw [heq]
    exact { h with }
  · rw [heq]
    exact { h.moveOn he with }

/-- A consistent file has a semaphore. -/
theorem Consistent.dispatchBuffer (h : f.Consistent log) : f.dispatchBuffer = .ok f.dispatched := by
  apply dispatchBuffer_of_fd
  intro hnone
  by_cases hpc : ∃ src left, f.tid = some (.writing src left)
  · obtain ⟨src, left, hpc⟩ := hpc
    obtain ⟨-, b, -, -, hfd⟩ := h.within src left hpc
    cases hnone.symm.trans hfd
  · exact absurd (hnone.symm.trans (h.between fun src left hw => hpc ⟨src, left, hw⟩)) (by simp)

/-- What `DispatchBuffer` leaves alone. -/
theorem dispatched_frame (f : WriteableCacheFile) : f.dispatched.eof = f.eof ∧
    f.dispatched.diskWoff = f.diskWoff ∧ f.dispatched.bufs = f.bufs ∧
    f.dispatched.tid = f.tid ∧ f.dispatched.bufDoff = f.bufDoff := by
  rcases f.dispatched_cases with ⟨heq, -⟩ | ⟨-, -, -, heq⟩ | ⟨-, -, heq⟩ <;> rw [heq] <;> simp

@[simp] theorem cacheId_dispatched (f : WriteableCacheFile) : f.dispatched.cacheId = f.cacheId := by
  rcases f.dispatched_cases with ⟨heq, -⟩ | ⟨-, -, -, heq⟩ | ⟨-, -, heq⟩ <;> rw [heq]

@[simp] theorem keyLists_dispatched (f : WriteableCacheFile) : f.dispatched.keyLists = f.keyLists := by
  rcases f.dispatched_cases with ⟨heq, -⟩ | ⟨-, -, -, heq⟩ | ⟨-, -, heq⟩ <;> rw [heq]

/-- What a call of `Append` in write-buffer mode has done before `DispatchBuffer`. -/
theorem Consistent.appendBuffered_cases (h : f.Consistent log) {lba lba' : LBA} {ok : Bool}
    (hr : f.appendBuffered crc key val lba = .ok (ok, lba', g)) :
    (f.eof = true ∧ ok = false ∧ g = f) ∨
      f.eof = false ∧ ∃ bufs woff more, Shaped f.writeBufferSize.toNat bufs woff (log ++ more) ∧
        ((ok = true ∧ more = image crc key val ∧
            lba' = ⟨f.cacheId, f.diskWoff, CacheRecord.calcSize key val⟩ ∧
            g = { f with bufs, bufWoff := woff, keyLists := f.keyLists ++ [key]
                         diskWoff := f.diskWoff + CacheRecord.calcSize key val
                         eof := decide (f.maxSize ≤ f.diskWoff + CacheRecord.calcSize key val) }) ∨
          (ok = false ∧ 2 ^ 32 ≤ recordSize key val ∧ g = { f with bufs, bufWoff := woff })) := by
  cases he : f.eof with
  | true =>
    rw [appendBuffered_of_eof he] at hr
    cases hr
    exact .inl ⟨rfl, rfl, rfl⟩
  | false =>
    obtain ⟨bufs, woff, more, hs, ⟨hm, hok⟩ | ⟨hbig, hok⟩⟩ := h.appendBuffered he crc key val lba
    · rw [hok] at hr
      cases hr
      exact .inr ⟨rfl, bufs, woff, more, hs, .inl ⟨rfl, hm, rfl, rfl⟩⟩
    · rw [hok] at hr
      cases hr
      exact .inr ⟨rfl, bufs, woff, more, hs, .inr ⟨rfl, hbig, by rw [he]⟩⟩

end WriteableCacheFile

/-! ### The two parties -/

/-- A successful `Append`. -/
structure Appended where
  /-- The address it returned. -/
  lba : LBA
  /-- The key. -/
  key : Bytes
  /-- The value. -/
  val : Bytes
  deriving DecidableEq, Repr

/-- How far `Close` is. -/
inductive CloseStage where
  /-- Not called. -/
  | notCalled
  /-- After `eof_ = true`. -/
  | eofSet
  /-- After `buf_woff_++`. -/
  | woffMoved
  /-- After `sem_post`, in `tid.join()`. -/
  | posted
  deriving DecidableEq, Repr

/-- A file in write-buffer mode and the calls made on it. -/
structure FileState where
  /-- The file object. -/
  file : WriteableCacheFile
  /-- The successful calls of `Append`, in order. -/
  appended : List Appended := []
  /-- The last of them has not called `DispatchBuffer` yet. -/
  dispatching : Bool := false
  /-- The call of `Close`. -/
  closing : CloseStage := .notCalled

/-- What happens to the file. -/
inductive FileAct where
  /-- `Append(key, val)`, with its `DispatchBuffer`. -/
  | append (key val : Bytes)
  /-- `Append(key, val)` up to its `DispatchBuffer`. -/
  | body (key val : Bytes)
  /-- The `DispatchBuffer` that is due. -/
  | dispatch
  /-- The next step of `Close`. -/
  | close
  /-- A step of the writer thread. -/
  | writer

/-- **One step of the two parties.** -/
inductive FileStep (crc : Bytes → UInt32) : FileState → FileAct → FileState → Prop where
  /-- An `Append` that succeeds. -/
  | append {s : FileState} {key val : Bytes} {lba : LBA} {f g : WriteableCacheFile}
      (hidle : s.dispatching = false)
      (hr : s.file.appendBuffered crc key val {} = .ok (true, lba, f)) (hd : f.dispatchBuffer = .ok g) :
      FileStep crc s (.append key val)
        { s with file := g, appended := s.appended ++ [⟨lba, key, val⟩] }
  /-- An `Append` that returns `false`. -/
  | refuse {s : FileState} {key val : Bytes} {lba : LBA} {f : WriteableCacheFile}
      (hidle : s.dispatching = false)
      (hr : s.file.appendBuffered crc key val {} = .ok (false, lba, f)) :
      FileStep crc s (.append key val) { s with file := f }
  /-- The first part of an `Append` that succeeds. -/
  | body {s : FileState} {key val : Bytes} {lba : LBA} {f : WriteableCacheFile}
      (hidle : s.dispatching = false)
      (hr : s.file.appendBuffered crc key val {} = .ok (true, lba, f)) :
      FileStep crc s (.body key val)
        { s with file := f, appended := s.appended ++ [⟨lba, key, val⟩], dispatching := true }
  /-- The second part. -/
  | dispatch {s : FileState} {f : WriteableCacheFile} (hdue : s.dispatching = true)
      (hd : s.file.dispatchBuffer = .ok f) : FileStep crc s .dispatch { s with file := f, dispatching := false }
  /-- `Close`: `eof_ = true`. -/
  | closeEof {s : FileState} (hstage : s.closing = .notCalled) :
      FileStep crc s .close { s with file := { s.file with eof := true }, closing := .eofSet }
  /-- `Close`: `buf_woff_++`. -/
  | closeWoff {s : FileState} (hstage : s.closing = .eofSet) :
      FileStep crc s .close
        { s with file := { s.file with bufWoff := s.file.bufWoff + 1 }, closing := .woffMoved }
  /-- `Close`: `sem_post`. -/
  | closePost {s : FileState} (hstage : s.closing = .woffMoved) :
      FileStep crc s .close
        { s with file := { s.file with semWriter := s.file.semWriter + 1 }, closing := .posted }
  /-- A step of the writer. -/
  | writer {s : FileState} {f : WriteableCacheFile} (h : s.file.WriterStep f) :
      FileStep crc s .writer { s with file := f }

namespace FileState

/-- A new file, whatever tokens `Create()` has found in `sem_writer_<id>`. -/
def init (cacheId maxSize writeBufferSize : UInt32) (tokens : ℕ) : FileState :=
  { file := (WriteableCacheFile.new cacheId maxSize writeBufferSize).created false tokens }

/-- **The log**: the records of the successful calls in a row. -/
def log (crc : Bytes → UInt32) (s : FileState) : Bytes := s.appended.flatMap fun r => image crc r.key r.val

/-- One record more. -/
theorem log_snoc (crc : Bytes → UInt32) (s : FileState) (r : Appended) (f : WriteableCacheFile) (d : Bool)
    (c : CloseStage) : log crc ⟨f, s.appended ++ [r], d, c⟩ = s.log crc ++ image crc r.key r.val := by
  simp only [log, List.flatMap_append, List.flatMap_singleton]

end FileState

/-- The invariant of both parties: the file is consistent with the bytes put into its
buffers, and `Close` has set `eof_`. -/
structure FileState.Invariant (s : FileState) (log : Bytes) : Prop where
  /-- The file. -/
  file : s.file.Consistent log
  /-- The first step of `Close`. -/
  closing : s.closing ≠ .notCalled → s.file.eof = true

theorem FileState.invariant_init (cacheId maxSize : UInt32) {writeBufferSize : UInt32}
    (tokens : ℕ) (hc : 0 < writeBufferSize.toNat) : (init cacheId maxSize writeBufferSize tokens).Invariant [] where
  file := WriteableCacheFile.consistent_created _ _ _ tokens hc
  closing h := absurd rfl h

/-- The record appended, if there is one, is of less than `2 ^ 32` bytes. -/
def FileAct.Small : FileAct → Prop
  | .append key val | .body key val => recordSize key val < 2 ^ 32
  | _ => True

instance : DecidablePred FileAct.Small
  | .append _ _ => Nat.decLt _ _
  | .body _ _ => Nat.decLt _ _
  | .dispatch => .isTrue trivial
  | .close => .isTrue trivial
  | .writer => .isTrue trivial

variable {crc : Bytes → UInt32} {s t : FileState} {a : FileAct} {log : Bytes}

/-- **Every step keeps the invariant**; what goes into the buffers are the records
appended, as long as they are small. -/
theorem FileStep.invariant (hs : FileStep crc s a t) (h : s.Invariant log) :
    ∃ more, t.Invariant (log ++ more) ∧ (a.Small → t.log crc = s.log crc ++ more) := by
  obtain ⟨hf, hcl⟩ := h
  have same : ∀ {u : FileState}, u.Invariant log → u.appended = s.appended →
      ∃ more, u.Invariant (log ++ more) ∧ (a.Small → u.log crc = s.log crc ++ more) := by
    intro u hu happ
    refine ⟨[], by rwa [List.append_nil], fun _ => ?_⟩
    rw [FileState.log, happ, List.append_nil]
    rfl
  have open_of_eof : s.file.eof = false → s.closing = .notCalled := by
    intro he
    by_contra hne
    simp [hcl hne] at he
  cases hs with
  | append hidle hr hd =>
    obtain rfl := WriteableCacheFile.eq_dispatched hd
    rcases hf.appendBuffered_cases hr with ⟨-, hok, -⟩ | ⟨he, bufs, woff, more, hs, ⟨-, hm, -, rfl⟩ | ⟨hok, -, -⟩⟩
    · cases hok
    · refine ⟨more, ⟨(hf.grow he hs _ _ _).dispatched, fun hne => absurd (open_of_eof he) hne⟩, fun _ => ?_⟩
      rw [FileState.log_snoc, hm]
    · cases hok
  | refuse hidle hr =>
    rcases hf.appendBuffered_cases hr with ⟨-, -, rfl⟩ | ⟨he, bufs, woff, more, hs, ⟨hok, -⟩ | ⟨-, hbig, rfl⟩⟩
    · exact same ⟨hf, hcl⟩ rfl
    · cases hok
    · exact ⟨more, ⟨hf.grow he hs _ _ _, hcl⟩, fun hsmall => absurd hbig (Nat.not_le.mpr hsmall)⟩
  | body hidle hr =>
    rcases hf.appendBuffered_cases hr with ⟨-, hok, -⟩ | ⟨he, bufs, woff, more, hs, ⟨-, hm, -, rfl⟩ | ⟨hok, -, -⟩⟩
    · cases hok
    · refine ⟨more, ⟨hf.grow he hs _ _ _, fun hne => absurd (open_of_eof he) hne⟩, fun _ => ?_⟩
      rw [FileState.log_snoc, hm]
    · cases hok
  | dispatch hdue hd =>
    obtain rfl := WriteableCacheFile.eq_dispatched hd
    refine same ⟨hf.dispatched, fun hne => ?_⟩ rfl
    exact (s.file.dispatched_frame).1.trans (hcl hne)
  | closeEof hstage => exact same ⟨hf.setEof, fun _ => rfl⟩ rfl
  | closeWoff hstage =>
    have he := hcl (by rw [hstage]; simp)
    exact same ⟨hf.moveOn he, fun _ => he⟩ rfl
  | closePost hstage => exact same ⟨{ hf with }, fun _ => hcl (by rw [hstage]; simp)⟩ rfl
  | writer hw =>
    exact same ⟨hw.consistent hf, fun hne => by rw [hw.frame.1]; exact hcl hne⟩ rfl

end EmbeddedKv.Flash
