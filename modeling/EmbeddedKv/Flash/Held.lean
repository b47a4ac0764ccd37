import EmbeddedKv.Flash.Handover

/-!
# The bytes that a file holds

The bytes of the records of a file in write-buffer mode, in the file or still in its
buffers, each counted once (`held`). As long as the writer has dropped no buffer that it
had not written (`Kept`), they are as many as were put into the buffers
(`Consistent.held_eq`), whatever the writer does. The size of a file at its end is known
before the writer has finished (`WriterStep.flushed`).
-/

namespace EmbeddedKv.Flash

open EmbeddedKv.Library WriteableCacheFile

namespace WriteableCacheFile

variable {crc : Bytes → UInt32} {f g : WriteableCacheFile} {log key val : Bytes} {lba lba' : LBA}

/-- The bytes in the buffers that are not in the file: those from `buf_doff_` on, less the
ones that the writer has written of the first. -/
def unwritten (f : WriteableCacheFile) : ℕ :=
  ((f.bufs.drop f.bufDoff).flatMap CacheWriteBuffer.data).length -
    match f.tid with
    | some (.writing src _) => src
    | _ => 0

/-- **The bytes of the records of a file**, in the file or in the buffers. -/
def held (f : WriteableCacheFile) : ℕ := (f.fd.getD []).length + f.unwritten

/-- No buffer is lost: when the writer has left its loop, the file has the log. -/
def Kept (f : WriteableCacheFile) (log : Bytes) : Prop :=
  f.Left → log.length ≤ f.bufDoff * f.writeBufferSize.toNat

/-- The buffers from `buf_doff_` on hold the rest of the log. -/
theorem Consistent.rest_eq (h : f.Consistent log) (hk : f.Kept log) :
    ((f.bufs.drop f.bufDoff).flatMap CacheWriteBuffer.data).length =
      log.length - f.bufDoff * f.writeBufferSize.toNat := by
  rw [(h.cut.drop f.bufDoff).flatMap_data, List.length_take, List.length_drop, List.length_drop, Nat.sub_mul]
  rcases h.room with hleft | hroom
  · have hall := hk hleft
    omega
  · omega

/-- **A file holds what was put into it.** -/
theorem Consistent.held_eq (h : f.Consistent log) (hk : f.Kept log) : f.held = log.length := by
  have hrest := h.rest_eq hk
  by_cases hpc : ∀ src left, f.tid ≠ some (.writing src left)
  · have hzero : f.unwritten = log.length - f.bufDoff * f.writeBufferSize.toNat := by
      rw [unwritten, hrest]
      split
      · next src left heq => exact absurd heq (hpc src left)
      · rfl
    rw [held, hzero, h.between hpc, Option.getD_some, List.length_take]
    omega
  · push Not at hpc
    obtain ⟨src, left, hpc⟩ := hpc
    obtain ⟨-, b, hb, hsum, hfd⟩ := h.within src left hpc
    have hused := h.used_le hb
    have hsrc : (b.data.take src).length = src := by
      rw [List.length_take, Nat.min_eq_left]
      rw [← CacheWriteBuffer.used, ← hsum]
      exact Nat.le_add_right _ _
    have hless : f.unwritten = log.length - f.bufDoff * f.writeBufferSize.toNat - src := by
      rw [unwritten, hrest, hpc]
    rw [held, hless, hfd, Option.getD_some, List.length_append, hsrc, List.length_take]
    omega

/-- A new file holds nothing. -/
theorem kept_fresh (cacheId maxSize writeBufferSize : UInt32) : Kept (fresh cacheId maxSize writeBufferSize) [] :=
  fun _ => Nat.zero_le _

/-- The writer loses nothing if it does not leave its loop too early. -/
theorem WriterStep.kept (hs : f.WriterStep g) (h : f.Consistent log) (hk : f.Kept log)
    (hexit : f.tid = some .returned → f.eof = true → f.unwritten = 0) : g.Kept log := by
  cases hs with
  | exit hpc heof =>
    intro _
    have hrest := h.rest_eq hk
    have hzero := hexit hpc heof
    rw [unwritten, hpc, hrest] at hzero
    simp only at hzero
    show log.length ≤ f.bufDoff * f.writeBufferSize.toNat
    omega
  | pop hpc hne => exact fun _ => hk (.inl hpc)
  | finish hpc hnil => exact fun _ => hk (.inl hpc)
  | eintr hpc hleft => exact hk
  | semWait hpc hsem => exact fun hl => by simp [Left] at hl
  | fetch hpc hlt hb => exact fun hl => by simp [Left] at hl
  | write hpc hleft hn hb hfd => exact fun hl => by simp [Left] at hl
  | advance hpc hb => exact fun hl => by simp [Left] at hl
  | leave hpc hge => exact fun hl => by simp [Left] at hl
  | again hpc heof => exact fun hl => by simp [Left] at hl

theorem WriterStep.tid_isSome (hs : f.WriterStep g) : g.tid.isSome := by
  cases hs with
  | eintr hpc hleft => rw [hpc]; rfl
  | pop hpc hne =>
    show f.tid.isSome
    rw [hpc]
    rfl
  | _ => rfl

/-! ### The size of a finished file -/

/-- The bytes in the buffers that the writer has yet to count. -/
def pending (f : WriteableCacheFile) : ℕ :=
  match f.tid with
  | some .waiting | some .looping =>
    (((f.bufs.drop f.bufDoff).take (f.bufWoff - f.bufDoff)).map CacheWriteBuffer.used).sum
  -- the buffer that is being written counts in any case
  | some (.writing _ _) =>
    (((f.bufs.drop f.bufDoff).take (max 1 (f.bufWoff - f.bufDoff))).map CacheWriteBuffer.used).sum
  | _ => 0

/-- `filesize_`, once they are counted. -/
def flushed (f : WriteableCacheFile) : UInt32 := f.filesize + UInt32.ofNat f.pending

/-- **At the end of the file the writer only counts what is pending.** -/
theorem WriterStep.flushed (hs : f.WriterStep g) (heof : f.eof = true) : g.flushed = f.flushed := by
  cases hs with
  | eintr hpc hleft => rfl
  | semWait hpc hsem => simp [WriteableCacheFile.flushed, pending, hpc]
  | fetch hpc hlt hb =>
    have hmax : max 1 (f.bufWoff - f.bufDoff) = f.bufWoff - f.bufDoff := by omega
    simp only [WriteableCacheFile.flushed, pending, hpc, hmax]
  | write hpc hleft hn hb hfd => simp only [WriteableCacheFile.flushed, pending, hpc]
  | @advance b src hpc hb =>
    have hhead : f.bufs.drop f.bufDoff = b :: f.bufs.drop (f.bufDoff + 1) := by
      obtain ⟨hlt, rfl⟩ := List.getElem?_eq_some_iff.mp hb
      exact List.drop_eq_getElem_cons hlt
    have hmax : max 1 (f.bufWoff - f.bufDoff) = f.bufWoff - (f.bufDoff + 1) + 1 := by omega
    simp only [WriteableCacheFile.flushed, pending, hpc, hhead, hmax, List.take_succ_cons, List.map_cons, List.sum_cons,
      UInt32.ofNat_add, UInt32.add_assoc]
  | leave hpc hge =>
    have hzero : f.bufWoff - f.bufDoff = 0 := by omega
    simp only [WriteableCacheFile.flushed, pending, hpc, hzero, List.take_zero, List.map_nil, List.sum_nil]
  | again hpc hopen => cases heof.symm.trans hopen
  | exit hpc _ => simp only [WriteableCacheFile.flushed, pending, hpc]
  | pop hpc hne => simp only [WriteableCacheFile.flushed, pending, hpc]
  | finish hpc hnil => simp only [WriteableCacheFile.flushed, pending, hpc]

end WriteableCacheFile

end EmbeddedKv.Flash
