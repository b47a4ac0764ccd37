import EmbeddedKv.Flash.Handover

/-!
# Waking the writer

`DispatchBuffer` tests `is_writer_running`, posts the semaphore and sets the flag; the
writer takes the token, goes through its loop and resets the flag. Nothing makes the
two sequences atomic.

## The model

`WakeStep` is one statement of `DispatchBuffer`, of `Close` or of the writer, whose
steps are those of `WriterStep`, except that the test that ends its loop and the reset
of the flag are two. An `Append` ends where its `DispatchBuffer` starts. `Close` is
called under `fcache_mutex`, as `Append` is, so neither starts during a
`DispatchBuffer`.

## What is proved

`wakeUp_kept`: a set flag means a writer that works or can take a token, if the writer
does not reset the flag between the two statements that post the semaphore and set it,
and does not find `eof_` set while it is being woken (`Orderly`). It is about a semaphore
that starts at 0: a token that an earlier server has left in `sem_writer_<id>` lets the
writer run behind the back of `DispatchBuffer` (`wakeUp_lost_stale`). With the flag set and
no token left no later `Append` wakes the writer: `wakeUp_lost` is such a run.
-/

namespace EmbeddedKv.Flash

open EmbeddedKv.Library WriteableCacheFile

/-! ### The statements -/

/-- Where the thread that appends is in `DispatchBuffer`. -/
inductive DispatchPc where
  /-- Not in a call. -/
  | idle
  /-- At the test of `is_writer_running`. -/
  | entered
  /-- At the test of `eof_` and the offsets. -/
  | notRunning
  /-- At `buf_woff_++`. -/
  | atEof
  /-- At `sem_post`. -/
  | ready
  /-- At `is_writer_running = true`. -/
  | posted
  deriving DecidableEq, Repr

/-- A file and the two threads at it. -/
structure WakeState where
  /-- The file object. -/
  file : WriteableCacheFile
  /-- The thread that appends. -/
  pc : DispatchPc := .idle
  /-- The writer has found `buf_doff_ >= buf_woff_` and has not reset the flag. -/
  leaving : Bool := false
  /-- The call of `Close`. -/
  closing : CloseStage := .notCalled

/-- What happens. -/
inductive WakeAct where
  /-- `Append(key, val)` up to its `DispatchBuffer`. -/
  | append (key val : Bytes)
  /-- The next statement of `DispatchBuffer`. -/
  | dispatch
  /-- The next statement of `Close`. -/
  | close
  /-- The next step of the writer, up to the end of its loop. -/
  | writer
  /-- `is_writer_running = false`. -/
  | reset

/-- **One statement of one of the threads.** -/
inductive WakeStep (crc : Bytes → UInt32) : WakeState → WakeAct → WakeState → Prop where
  /-- An `Append` that gets to its `DispatchBuffer`. -/
  | append {s : WakeState} {key val : Bytes} {lba : LBA} {f : WriteableCacheFile} (hidle : s.pc = .idle)
      (hr : s.file.appendBuffered crc key val {} = .ok (true, lba, f)) :
      WakeStep crc s (.append key val) { s with file := f, pc := .entered }
  /-- An `Append` that returns `false`. -/
  | refuse {s : WakeState} {key val : Bytes} {lba : LBA} {f : WriteableCacheFile} (hidle : s.pc = .idle)
      (hr : s.file.appendBuffered crc key val {} = .ok (false, lba, f)) :
      WakeStep crc s (.append key val) { s with file := f }
  /-- The writer is running: return. -/
  | running {s : WakeState} (hpc : s.pc = .entered) (hrun : s.file.isWriterRunning = true) :
      WakeStep crc s .dispatch { s with pc := .idle }
  /-- The writer is not running. -/
  | notRunning {s : WakeState} (hpc : s.pc = .entered) (hrun : s.file.isWriterRunning = false) :
      WakeStep crc s .dispatch { s with pc := .notRunning }
  /-- No buffer is full: return. -/
  | noneFull {s : WakeState} (hpc : s.pc = .notRunning)
      (hnone : s.file.eof = false ∧ s.file.bufDoff = s.file.bufWoff) :
      WakeStep crc s .dispatch { s with pc := .idle }
  /-- A buffer is full, or it is the end of the file. -/
  | due {s : WakeState} (hpc : s.pc = .notRunning)
      (hdue : ¬ (s.file.eof = false ∧ s.file.bufDoff = s.file.bufWoff)) :
      WakeStep crc s .dispatch { s with pc := if s.file.eof then .atEof else .ready }
  /-- `buf_woff_++`. -/
  | moveOn {s : WakeState} (hpc : s.pc = .atEof) :
      WakeStep crc s .dispatch { s with file := { s.file with bufWoff := s.file.bufWoff + 1 }, pc := .ready }
  /-- `sem_post`. -/
  | post {s : WakeState} (hpc : s.pc = .ready) :
      WakeStep crc s .dispatch { s with file := { s.file with semWriter := s.file.semWriter + 1 }, pc := .posted }
  /-- `is_writer_running = true`. -/
  | setRunning {s : WakeState} (hpc : s.pc = .posted) :
      WakeStep crc s .dispatch { s with file := { s.file with isWriterRunning := true }, pc := .idle }
  /-- `Close`: `eof_ = true`. -/
  | closeEof {s : WakeState} (hidle : s.pc = .idle) (hstage : s.closing = .notCalled) :
      WakeStep crc s .close { s with file := { s.file with eof := true }, closing := .eofSet }
  /-- `Close`: `buf_woff_++`. -/
  | closeWoff {s : WakeState} (hidle : s.pc = .idle) (hstage : s.closing = .eofSet) :
      WakeStep crc s .close
        { s with file := { s.file with bufWoff := s.file.bufWoff + 1 }, closing := .woffMoved }
  /-- `Close`: `sem_post`. -/
  | closePost {s : WakeState} (hidle : s.pc = .idle) (hstage : s.closing = .woffMoved) :
      WakeStep crc s .close
        { s with file := { s.file with semWriter := s.file.semWriter + 1 }, closing := .posted }
  /-- A step of the writer that does not return from `Write()`. -/
  | writer {s : WakeState} {g : WriteableCacheFile} (hstay : s.leaving = false) (hw : s.file.WriterStep g)
      (hin : g.tid ≠ some .returned) : WakeStep crc s .writer { s with file := g }
  /-- `buf_doff_ >= buf_woff_`. -/
  | leave {s : WakeState} (hstay : s.leaving = false) (hpc : s.file.tid = some .looping)
      (hge : ¬ s.file.bufDoff < s.file.bufWoff) : WakeStep crc s .writer { s with leaving := true }
  /-- `is_writer_running = false`, and `Write()` returns. -/
  | reset {s : WakeState} (hleave : s.leaving = true) :
      WakeStep crc s .reset
        { s with file := { s.file with isWriterRunning := false, tid := some .returned }, leaving := false }

/-- A new file, with the tokens that `Create()` has found in `sem_writer_<id>`. -/
def WakeState.init (cacheId maxSize writeBufferSize : UInt32) (tokens : ℕ) : WakeState :=
  { file := (WriteableCacheFile.new cacheId maxSize writeBufferSize).created false tokens }

namespace WriteableCacheFile

/-- The writer is inside `Write()`, behind `sem_wait`. -/
def InWrite (f : WriteableCacheFile) : Prop :=
  f.tid = some .looping ∨ ∃ src left, f.tid = some (.writing src left)

/-- The writer is at `sem_wait`, or it comes back there. -/
def AtWait (f : WriteableCacheFile) : Prop := f.tid = some .waiting ∨ f.tid = some .returned ∧ f.eof = false

/-- The writer can take a token. -/
def CanTake (f : WriteableCacheFile) : Prop := 0 < f.semWriter ∧ f.AtWait

/-- **Somebody is there to write the buffers.** -/
def Served (f : WriteableCacheFile) : Prop := f.CanTake ∨ f.InWrite

end WriteableCacheFile

/-! ### The condition -/

/-- The writer's own steps. -/
def WakeAct.ByWriter : WakeAct → Prop
  | .writer | .reset => True
  | .append _ _ | .dispatch | .close => False

/-- **The condition**: the flag is not reset between `sem_post` and
`is_writer_running = true`; and `eof_` is not set, by `Append` or `Close`, in front of a
writer that has left `Write()` and is being woken, or will be. -/
def WakeAct.Orderly (s : WakeState) : WakeAct → Prop
  | .append key val => s.file.Fills key val → s.file.tid ≠ some .returned
  | .close => s.file.isWriterRunning = true → s.file.tid ≠ some .returned
  | .reset => s.pc ≠ .posted ∧ (s.pc = .entered → s.file.eof = false)
  | .dispatch | .writer => True

/-! ### One step -/

variable {crc : Bytes → UInt32} {s t : WakeState} {a : WakeAct}

namespace WriteableCacheFile

variable {f g : WriteableCacheFile}

/-- The writer was woken: it has the token, or the token is there. -/
def Woken (f : WriteableCacheFile) : Prop := f.semWriter = 1 ∧ f.AtWait ∨ f.semWriter = 0 ∧ f.InWrite

/-- The writer waits, and there is no token. -/
def Asleep (f : WriteableCacheFile) : Prop := f.semWriter = 0 ∧ f.AtWait

theorem Woken.served (h : f.Woken) : f.Served := by
  rcases h with ⟨hsem, hat⟩ | ⟨-, hin⟩
  · exact .inl ⟨by rw [hsem]; exact Nat.one_pos, hat⟩
  · exact .inr hin

/-- The writer stays where it is, and if it is to come back it does so. -/
theorem AtWait.keep (h : f.AtWait) (htid : g.tid = f.tid) (heof : f.tid = some .returned → g.eof = false) :
    g.AtWait := by
  rcases h with hpc | ⟨hpc, -⟩
  · exact .inl (htid.trans hpc)
  · exact .inr ⟨htid.trans hpc, heof hpc⟩

theorem InWrite.keep (h : f.InWrite) (htid : g.tid = f.tid) : g.InWrite := by
  rwa [InWrite, htid]

theorem Woken.keep (h : f.Woken) (htid : g.tid = f.tid) (hsem : g.semWriter = f.semWriter)
    (heof : f.tid = some .returned → g.eof = false) : g.Woken := by
  rcases h with ⟨hone, hat⟩ | ⟨hzero, hin⟩
  · exact .inl ⟨hsem.trans hone, hat.keep htid heof⟩
  · exact .inr ⟨hsem.trans hzero, hin.keep htid⟩

theorem Served.keep (h : f.Served) (htid : g.tid = f.tid) (hsem : f.semWriter ≤ g.semWriter)
    (heof : f.tid = some .returned → g.eof = false) : g.Served := by
  rcases h with ⟨hpos, hat⟩ | hin
  · exact .inl ⟨Nat.lt_of_lt_of_le hpos hsem, hat.keep htid heof⟩
  · exact .inr (hin.keep htid)

/-- A writer at its semaphore is not in its loop. -/
theorem AtWait.not_inWrite (h : f.AtWait) : ¬ f.InWrite := by
  rintro (hpc | ⟨src, left, hpc⟩) <;> rcases h with hat | ⟨hat, -⟩ <;> rw [hpc] at hat <;> cases hat

/-- What a step of the writer that stays in `Write()`, or comes back to it, does to the token. -/
theorem WriterStep.token (hs : f.WriterStep g) (hin : g.tid ≠ some .returned) :
    (f.InWrite ∧ g.InWrite ∧ g.semWriter = f.semWriter) ∨
      (f.AtWait ∧ 0 < f.semWriter ∧ g.InWrite ∧ g.semWriter + 1 = f.semWriter) ∨
      (f.AtWait ∧ g.AtWait ∧ g.semWriter = f.semWriter) ∨ (¬ f.AtWait ∧ ¬ f.InWrite) := by
  cases hs with
  | semWait hpc hsem => exact .inr (.inl ⟨.inl hpc, hsem, .inl rfl, Nat.sub_add_cancel hsem⟩)
  | fetch hpc hlt hb => exact .inl ⟨.inl hpc, .inr ⟨_, _, rfl⟩, rfl⟩
  | write hpc hleft hn hb hfd => exact .inl ⟨.inr ⟨_, _, hpc⟩, .inr ⟨_, _, rfl⟩, rfl⟩
  | eintr hpc hleft => exact .inl ⟨.inr ⟨_, _, hpc⟩, .inr ⟨_, _, hpc⟩, rfl⟩
  | advance hpc hb => exact .inl ⟨.inr ⟨_, _, hpc⟩, .inl rfl, rfl⟩
  | leave hpc hge => exact absurd rfl hin
  | again hpc heof => exact .inr (.inr (.inl ⟨.inr ⟨hpc, heof⟩, .inl rfl, rfl⟩))
  | exit hpc heof => exact .inr (.inr (.inr ⟨by simp [AtWait, hpc, heof], by simp [InWrite, hpc]⟩))
  | pop hpc hne => exact .inr (.inr (.inr ⟨by simp [AtWait, hpc], by simp [InWrite, hpc]⟩))
  | finish hpc hnil => exact .inr (.inr (.inr ⟨by simp [AtWait, hpc], by simp [InWrite, hpc]⟩))

theorem WriterStep.served (hs : f.WriterStep g) (hin : g.tid ≠ some .returned) (h : f.Served) : g.Served := by
  rcases hs.token hin with ⟨-, hg, -⟩ | ⟨-, -, hg, -⟩ | ⟨hf, hg, hsem⟩ | ⟨hat, hno⟩
  · exact .inr hg
  · exact .inr hg
  · rcases h with ⟨hpos, -⟩ | hw
    · exact .inl ⟨hsem ▸ hpos, hg⟩
    · exact absurd hw hf.not_inWrite
  · exact absurd h (not_or.mpr ⟨fun hc => hat hc.2, hno⟩)

/-- A woken writer takes its token once. -/
theorem WriterStep.woken (hs : f.WriterStep g) (hin : g.tid ≠ some .returned) (h : f.Woken) : g.Woken := by
  rcases hs.token hin with ⟨hf, hg, hsem⟩ | ⟨hf, hpos, hg, hsem⟩ | ⟨hf, hg, hsem⟩ | ⟨hat, hno⟩
  · rcases h with ⟨-, hat⟩ | ⟨hzero, -⟩
    · exact absurd hf hat.not_inWrite
    · exact .inr ⟨hsem.trans hzero, hg⟩
  · rcases h with ⟨hone, -⟩ | ⟨-, hw⟩
    · exact .inr ⟨by omega, hg⟩
    · exact absurd hw hf.not_inWrite
  · rcases h with ⟨hone, -⟩ | ⟨-, hw⟩
    · exact .inl ⟨hsem.trans hone, hg⟩
    · exact absurd hw hf.not_inWrite
  · exact absurd h (not_or.mpr ⟨fun hc => hat hc.2, fun hc => hno hc.2⟩)

/-- Without a token the writer stays asleep. -/
theorem WriterStep.asleep (hs : f.WriterStep g) (hin : g.tid ≠ some .returned) (h : f.Asleep) : g.Asleep := by
  obtain ⟨hzero, hat⟩ := h
  rcases hs.token hin with ⟨hf, -⟩ | ⟨-, hpos, -⟩ | ⟨-, hg, hsem⟩ | ⟨hno, -⟩
  · exact absurd hf hat.not_inWrite
  · omega
  · exact ⟨hsem.trans hzero, hg⟩
  · exact absurd hat hno

/-- The writer resets the flag at the end of `Write()` only. -/
theorem WriterStep.isWriterRunning (hs : f.WriterStep g) (hin : g.tid ≠ some .returned) :
    g.isWriterRunning = f.isWriterRunning := by
  cases hs with
  | leave hpc hge => exact absurd rfl hin
  | _ => rfl

/-- What `Append` leaves alone before its `DispatchBuffer`; it succeeds before the end of
the file only, and may reach it. -/
theorem appendBuffered_wake {key val : Bytes} {lba lba' : LBA} {ok : Bool}
    (hr : f.appendBuffered crc key val lba = .ok (ok, lba', g)) :
    g.tid = f.tid ∧ g.semWriter = f.semWriter ∧ g.isWriterRunning = f.isWriterRunning ∧
      (ok = false → g.eof = f.eof) ∧ (ok = true → f.eof = false ∧ (g.eof = true → f.Fills key val)) := by
  rcases appendBuffered_inv hr with ⟨-, rfl, rfl⟩ | ⟨hopen, -, bufs, woff, ⟨rfl, rfl⟩ | ⟨rfl, rfl⟩⟩
  · simp
  · exact ⟨rfl, rfl, rfl, by simp, fun _ => ⟨hopen, fun h => ⟨hopen, of_decide_eq_true h⟩⟩⟩
  · exact ⟨rfl, rfl, rfl, by simp, by simp⟩

end WriteableCacheFile

/-- **The phases** that the flag, the token and the two threads go through. -/
inductive WakeState.Phase (s : WakeState) : Prop where
  /-- The writer waits, and the flag is not set. -/
  | asleep (hearly : s.closing = .notCalled) (hrun : s.file.isWriterRunning = false) (hpc : s.pc ≠ .posted)
      (h : s.file.Asleep)
  /-- The semaphore is posted; the flag is still to be set. -/
  | posted (hearly : s.closing = .notCalled) (hrun : s.file.isWriterRunning = false) (hpc : s.pc = .posted)
      (h : s.file.Woken)
  /-- The flag is set. -/
  | running (hearly : s.closing = .notCalled) (hrun : s.file.isWriterRunning = true)
      (hpc : s.pc = .idle ∨ s.pc = .entered) (h : s.file.Woken)
  /-- It is the end of the file, and nobody calls `DispatchBuffer` any more. -/
  | ended (hrun : s.file.isWriterRunning = false) (hpc : s.pc = .idle) (heof : s.file.eof = true)
  /-- The same, with the flag set since before the end. -/
  | closing (hrun : s.file.isWriterRunning = true) (hpc : s.pc = .idle) (heof : s.file.eof = true)
      (h : s.file.Served)

/-- **The invariant.** -/
structure WakeState.Invariant (s : WakeState) : Prop where
  /-- The writer that is about to reset the flag is in its loop. -/
  leaving : s.leaving = true → s.file.tid = some .looping
  /-- The phase. -/
  phase : s.Phase

theorem WakeState.invariant_init (cacheId maxSize writeBufferSize : UInt32) :
    (init cacheId maxSize writeBufferSize 0).Invariant where
  leaving h := by cases h
  phase := .asleep rfl rfl (by simp [init]) ⟨rfl, .inl rfl⟩

/-- With the flag set and no call of `DispatchBuffer` in progress the writer is served. -/
theorem WakeState.Phase.served (h : s.Phase) (hset : s.file.isWriterRunning = true) : s.file.Served := by
  cases h with
  | asleep _ hrun _ _ => rw [hset] at hrun; cases hrun
  | posted _ hrun _ _ => rw [hset] at hrun; cases hrun
  | running _ _ _ h => exact h.served
  | ended hrun _ _ => rw [hset] at hrun; cases hrun
  | closing _ _ _ h => exact h

/-- Behind its first test and before `sem_post` `DispatchBuffer` has the writer asleep. -/
theorem WakeState.Phase.of_pc (h : s.Phase) (hidle : s.pc ≠ .idle) (hentered : s.pc ≠ .entered)
    (hposted : s.pc ≠ .posted) :
    s.closing = .notCalled ∧ s.file.isWriterRunning = false ∧ s.file.Asleep := by
  cases h with
  | asleep hearly hrun _ h => exact ⟨hearly, hrun, h⟩
  | posted _ _ hpc _ => exact absurd hpc hposted
  | running _ _ hpc _ => exact absurd hpc (not_or.mpr ⟨hidle, hentered⟩)
  | ended _ hpc _ => exact absurd hpc hidle
  | closing _ hpc _ _ => exact absurd hpc hidle

/-- `Append` before the end of the file, with no call of `DispatchBuffer` in progress. -/
theorem WakeState.Phase.append (h : s.Phase) (hidle : s.pc = .idle) (hopen : s.file.eof = false)
    {f : WriteableCacheFile} (htid : f.tid = s.file.tid) (hsem : f.semWriter = s.file.semWriter)
    (hrun : f.isWriterRunning = s.file.isWriterRunning) (heof : s.file.tid = some .returned → f.eof = false)
    {pc : DispatchPc} (hpc : pc = .idle ∨ pc = .entered) : WakeState.Phase { s with file := f, pc } := by
  cases h with
  | asleep hearly hfalse _ h =>
    refine .asleep hearly (hrun.trans hfalse) ?_ ⟨hsem.trans h.1, h.2.keep htid heof⟩
    rcases hpc with rfl | rfl <;> simp
  | posted _ _ hpost _ => rw [hidle] at hpost; cases hpost
  | running hearly htrue _ h => exact .running hearly (hrun.trans htrue) hpc (h.keep htid hsem heof)
  | ended _ _ he => rw [hopen] at he; cases he
  | closing _ _ he _ => rw [hopen] at he; cases he

/-- A step of the writer inside `Write()` or back to its start. -/
theorem WakeState.Phase.writer (h : s.Phase) {g : WriteableCacheFile} (hw : s.file.WriterStep g)
    (hin : g.tid ≠ some .returned) : WakeState.Phase { s with file := g } := by
  have hrun := hw.isWriterRunning hin
  cases h with
  | asleep hearly hfalse hpc h => exact .asleep hearly (hrun.trans hfalse) hpc (hw.asleep hin h)
  | posted hearly hfalse hpc h => exact .posted hearly (hrun.trans hfalse) hpc (hw.woken hin h)
  | running hearly htrue hpc h => exact .running hearly (hrun.trans htrue) hpc (hw.woken hin h)
  | ended hfalse hpc he => exact .ended (hrun.trans hfalse) hpc (hw.frame.1.trans he)
  | closing htrue hpc he h => exact .closing (hrun.trans htrue) hpc (hw.frame.1.trans he) (hw.served hin h)

/-- `Close` has set `eof_`. -/
theorem WakeState.Phase.eof_of_closing (h : s.Phase) (hclosing : s.closing ≠ .notCalled) : s.file.eof = true := by
  cases h with
  | asleep hearly _ _ _ => exact absurd hearly hclosing
  | posted hearly _ _ _ => exact absurd hearly hclosing
  | running hearly _ _ _ => exact absurd hearly hclosing
  | ended _ _ he => exact he
  | closing _ _ he _ => exact he

/-- A statement of `Close`, which posts the semaphore or does not. -/
theorem WakeState.Phase.close (h : s.Phase) (hidle : s.pc = .idle)
    (hc : s.file.isWriterRunning = true → s.file.tid ≠ some .returned) (f : WriteableCacheFile)
    (htid : f.tid = s.file.tid) (hsem : s.file.semWriter ≤ f.semWriter)
    (hrun : f.isWriterRunning = s.file.isWriterRunning) (he : f.eof = true) (stage : CloseStage) :
    WakeState.Phase { s with file := f, closing := stage } := by
  cases hset : s.file.isWriterRunning with
  | false => exact .ended (hrun.trans hset) hidle he
  | true =>
    exact .closing (hrun.trans hset) hidle he ((h.served hset).keep htid hsem fun hpc => absurd hpc (hc hset))

/-- The writer resets the flag, in front of nobody who relies on it. -/
theorem WakeState.Phase.reset (h : s.Phase) (hpc : s.file.tid = some .looping)
    (hc : s.pc ≠ .posted ∧ (s.pc = .entered → s.file.eof = false)) : WakeState.Phase
      { s with file := { s.file with isWriterRunning := false, tid := some .returned }, leaving := false } := by
  have hin : s.file.InWrite := .inl hpc
  cases h with
  | asleep _ _ _ h => exact absurd hin h.2.not_inWrite
  | posted _ _ hpost _ => exact absurd hpost hc.1
  | running hearly _ hat h =>
    have hzero : s.file.semWriter = 0 := by
      rcases h with ⟨-, hat⟩ | ⟨hzero, -⟩
      · exact absurd hin hat.not_inWrite
      · exact hzero
    cases he : s.file.eof with
    | false => exact .asleep hearly rfl hc.1 ⟨hzero, .inr ⟨rfl, he⟩⟩
    | true =>
      refine .ended rfl (hat.resolve_right fun hentered => ?_) he
      rw [hc.2 hentered] at he
      cases he
  | ended _ hidle he => exact .ended rfl hidle he
  | closing _ hidle he _ => exact .ended rfl hidle he

/-- **Every step that meets the condition keeps the invariant.** -/
theorem WakeStep.invariant (hs : WakeStep crc s a t) (h : s.Invariant) (hc : a.Orderly s) : t.Invariant := by
  obtain ⟨hleaving, hph⟩ := h
  cases hs with
  | @append key val lba f hidle hr =>
    obtain ⟨htid, hsem, hrun, -, hok⟩ := appendBuffered_wake hr
    obtain ⟨hopen, hfills⟩ := hok rfl
    refine ⟨fun hl => htid.trans (hleaving hl), hph.append hidle hopen htid hsem hrun (fun hpc => ?_) (.inr rfl)⟩
    by_contra hne
    exact hc (hfills (by simpa using hne)) hpc
  | @refuse key val lba f hidle hr =>
    obtain ⟨htid, hsem, hrun, hsame, -⟩ := appendBuffered_wake hr
    refine ⟨fun hl => htid.trans (hleaving hl), ?_⟩
    cases he : s.file.eof with
    | false => exact hph.append hidle he htid hsem hrun (fun _ => (hsame rfl).trans he) (.inl hidle)
    | true =>
      rw [appendBuffered_of_eof he] at hr
      cases hr
      exact hph
  | running hpc hrun =>
    refine ⟨hleaving, ?_⟩
    cases hph with
    | running hearly _ _ h => exact .running hearly hrun (.inl rfl) h
    | asleep _ hfalse _ _ => rw [hrun] at hfalse; cases hfalse
    | posted _ hfalse _ _ => rw [hrun] at hfalse; cases hfalse
    | ended hfalse _ _ => rw [hrun] at hfalse; cases hfalse
    | closing _ hidle _ _ => rw [hpc] at hidle; cases hidle
  | notRunning hpc hrun =>
    refine ⟨hleaving, ?_⟩
    cases hph with
    | asleep hearly _ _ h => exact .asleep hearly hrun (by simp) h
    | posted _ _ hpost _ => rw [hpc] at hpost; cases hpost
    | running _ htrue _ _ => rw [hrun] at htrue; cases htrue
    | ended _ hidle _ => rw [hpc] at hidle; cases hidle
    | closing _ hidle _ _ => rw [hpc] at hidle; cases hidle
  | noneFull hpc hnone =>
    obtain ⟨hearly, hrun, h⟩ := hph.of_pc (by simp [hpc]) (by simp [hpc]) (by simp [hpc])
    exact ⟨hleaving, .asleep hearly hrun (by simp) h⟩
  | due hpc hdue =>
    obtain ⟨hearly, hrun, h⟩ := hph.of_pc (by simp [hpc]) (by simp [hpc]) (by simp [hpc])
    exact ⟨hleaving, .asleep hearly hrun (by simp only; split_ifs <;> simp) h⟩
  | moveOn hpc =>
    obtain ⟨hearly, hrun, h⟩ := hph.of_pc (by simp [hpc]) (by simp [hpc]) (by simp [hpc])
    exact ⟨hleaving, .asleep hearly hrun (by simp) h⟩
  | post hpc =>
    obtain ⟨hearly, hrun, hzero, hat⟩ := hph.of_pc (by simp [hpc]) (by simp [hpc]) (by simp [hpc])
    exact ⟨hleaving, .posted hearly hrun rfl (.inl ⟨by simp [hzero], hat⟩)⟩
  | setRunning hpc =>
    refine ⟨hleaving, ?_⟩
    cases hph with
    | asleep _ _ hpost _ => exact absurd hpc hpost
    | posted hearly _ _ h => exact .running hearly rfl (.inl rfl) h
    | running _ _ hat _ => rcases hat with hat | hat <;> rw [hpc] at hat <;> cases hat
    | ended _ hidle _ => rw [hpc] at hidle; cases hidle
    | closing _ hidle _ _ => rw [hpc] at hidle; cases hidle
  | closeEof hidle hstage => exact ⟨hleaving, hph.close hidle hc { s.file with eof := true } rfl (Nat.le_refl _) rfl rfl _⟩
  | closeWoff hidle hstage =>
    have he := hph.eof_of_closing (by simp [hstage])
    exact ⟨hleaving, hph.close hidle hc { s.file with bufWoff := s.file.bufWoff + 1 } rfl (Nat.le_refl _) rfl he _⟩
  | closePost hidle hstage =>
    have he := hph.eof_of_closing (by simp [hstage])
    exact ⟨hleaving,
      hph.close hidle hc { s.file with semWriter := s.file.semWriter + 1 } rfl (Nat.le_succ _) rfl he _⟩
  | writer hstay hw hin => exact ⟨fun hl => (by rw [hstay] at hl; cases hl), hph.writer hw hin⟩
  | leave hstay hpc hge =>
    refine ⟨fun _ => hpc, ?_⟩
    cases hph with
    | asleep hearly hrun hp h => exact .asleep hearly hrun hp h
    | posted hearly hrun hp h => exact .posted hearly hrun hp h
    | running hearly hrun hp h => exact .running hearly hrun hp h
    | ended hrun hp he => exact .ended hrun hp he
    | closing hrun hp he h => exact .closing hrun hp he h
  | reset hleave => exact ⟨fun hl => (by cases hl), hph.reset (hleaving hleave) hc⟩

/-- In every state reached the invariant holds. -/
theorem WakeState.invariant_reach {cacheId maxSize writeBufferSize : UInt32}
    (h : Reach (WakeStep crc) (fun s a => a.Orderly s) (WakeState.init cacheId maxSize writeBufferSize 0) s) :
    s.Invariant :=
  h.invariant (WakeState.invariant_init _ _ _) fun _ _ _ hi hc hs => hs.invariant hi hc

/-! ### Coming to the end of the loop -/

/-- The file keeps its own invariant, whatever the order of the steps. -/
structure WakeState.Sound (s : WakeState) : Prop where
  /-- The file and its log. -/
  file : ∃ log, s.file.Consistent log
  /-- `buf_woff_` is moved on at the end of the file, by `DispatchBuffer` … -/
  atEof : s.pc = .atEof → s.file.eof = true
  /-- … and by `Close`. -/
  closing : s.closing ≠ .notCalled → s.file.eof = true
  /-- The writer that is about to reset the flag is in its loop. -/
  leaving : s.leaving = true → s.file.tid = some .looping

theorem WakeStep.sound (hs : WakeStep crc s a t) (h : s.Sound) : t.Sound := by
  obtain ⟨⟨log, hf⟩, hat, hclosing, hleaving⟩ := h
  have open_of_idle : ∀ {pc : DispatchPc}, pc ≠ .atEof → pc = .atEof → s.file.eof = true :=
    fun hne heq => absurd heq hne
  cases hs with
  | @append key val lba f hidle hr =>
    obtain ⟨htid, -, -, -, hok⟩ := appendBuffered_wake hr
    obtain ⟨hopen, -⟩ := hok rfl
    rcases hf.appendBuffered_cases hr with ⟨-, hno, -⟩ | ⟨he, bufs, woff, more, hsh, ⟨-, -, -, rfl⟩ | ⟨hno, -⟩⟩
    · cases hno
    · refine ⟨⟨_, hf.grow he hsh _ _ _⟩, fun hpc => (by cases hpc), fun hne => ?_, hleaving⟩
      rw [hclosing hne] at hopen
      cases hopen
    · cases hno
  | @refuse key val lba f hidle hr =>
    rcases hf.appendBuffered_cases hr with ⟨-, -, rfl⟩ | ⟨he, bufs, woff, more, hsh, ⟨hno, -⟩ | ⟨-, -, rfl⟩⟩
    · exact ⟨⟨log, hf⟩, hat, hclosing, hleaving⟩
    · cases hno
    · exact ⟨⟨_, hf.grow he hsh _ _ _⟩, hat, hclosing, hleaving⟩
  | running hpc hrun => exact ⟨⟨log, hf⟩, open_of_idle (by simp), hclosing, hleaving⟩
  | notRunning hpc hrun => exact ⟨⟨log, hf⟩, open_of_idle (by simp), hclosing, hleaving⟩
  | noneFull hpc hnone => exact ⟨⟨log, hf⟩, open_of_idle (by simp), hclosing, hleaving⟩
  | due hpc hdue =>
    refine ⟨⟨log, hf⟩, fun heq => ?_, hclosing, hleaving⟩
    by_contra he
    simp only at heq
    rw [if_neg he] at heq
    cases heq
  | moveOn hpc => exact ⟨⟨log, hf.moveOn (hat hpc)⟩, fun heq => (by cases heq), hclosing, hleaving⟩
  | post hpc => exact ⟨⟨log, { hf with }⟩, fun heq => (by cases heq), hclosing, hleaving⟩
  | setRunning hpc => exact ⟨⟨log, { hf with }⟩, fun heq => (by cases heq), hclosing, hleaving⟩
  | closeEof hidle hstage => exact ⟨⟨log, hf.setEof⟩, fun _ => rfl, fun _ => rfl, hleaving⟩
  | closeWoff hidle hstage =>
    have he := hclosing (by simp [hstage])
    exact ⟨⟨log, hf.moveOn he⟩, fun _ => he, fun _ => he, hleaving⟩
  | closePost hidle hstage =>
    have he := hclosing (by simp [hstage])
    exact ⟨⟨log, { hf with }⟩, fun _ => he, fun _ => he, hleaving⟩
  | writer hstay hw hin =>
    refine ⟨⟨log, hw.consistent hf⟩, fun hpc => hw.frame.1.trans (hat hpc),
      fun hne => hw.frame.1.trans (hclosing hne), fun hl => ?_⟩
    rw [hstay] at hl
    cases hl
  | leave hstay hpc hge => exact ⟨⟨log, hf⟩, hat, hclosing, fun _ => hpc⟩
  | reset hleave =>
    have hpc := hleaving hleave
    exact ⟨⟨log, hf.moveTo (by simp [hpc]) (by simp) (by simp [Left, hpc]) (by simp) _ _⟩, hat, hclosing,
      fun hl => (by cases hl)⟩

/-- Steps of the writer are steps of the system. -/
theorem WakeState.reach_writer (hstay : s.leaving = false) {g : WriteableCacheFile}
    (h : Relation.ReflTransGen WriterStep s.file g) :
    Reach (WakeStep crc) (fun _ a => a.ByWriter) s { s with file := g } := by
  have hwriter : WakeAct.writer.ByWriter := trivial
  have hown : WakeAct.reset.ByWriter := trivial
  induction h with
  | refl => exact .refl s
  | @tail f g _ hstep ih =>
    by_cases hin : g.tid = some .returned
    · cases hstep with
      | leave hpc hge =>
        -- the end of the loop and the reset of the flag are one step of the writer
        have hleave := ih.step hwriter (.leave hstay hpc hge)
        have hreset := hleave.step hown (.reset rfl)
        rw [hstay]
        exact hreset
      | eintr hpc _ => rw [hpc] at hin; cases hin
      | pop hpc _ => rw [hpc] at hin; cases hin
      | _ => cases hin
    · exact ih.step hwriter (.writer hstay hstep hin)

/-- **The writer, woken before the end of the file, comes to reset the flag** by its own
steps. -/
theorem WriteableCacheFile.Served.leaves {f : WriteableCacheFile} {log : Bytes} (h : f.Served) (hf : f.Consistent log)
    (he : f.eof = false) : ∃ g, Relation.ReflTransGen WriterStep f g ∧ g.isWriterRunning = false := by
  have from_loop : ∀ {f : WriteableCacheFile}, f.Consistent log → f.eof = false → f.tid = some .looping →
      ∃ g, Relation.ReflTransGen WriterStep f g ∧ g.isWriterRunning = false := by
    intro f hf he hpc
    obtain ⟨g, hg, hpc', hdone, hcons⟩ := hf.drain hpc (hf.shaped he).woff_le
    have hwoff : g.bufWoff = f.bufWoff := by
      clear hdone hpc' hcons
      induction hg with
      | refl => rfl
      | tail _ hstep ih => exact hstep.frame.2.2.2.trans ih
    exact ⟨_, hg.tail (.leave hpc' (by rw [hdone, hwoff]; exact Nat.lt_irrefl _)), rfl⟩
  have from_wait : ∀ {f : WriteableCacheFile}, f.Consistent log → f.eof = false → f.tid = some .waiting →
      0 < f.semWriter → ∃ g, Relation.ReflTransGen WriterStep f g ∧ g.isWriterRunning = false := by
    intro f hf he hpc hpos
    have hstep := WriterStep.semWait hpc hpos
    obtain ⟨g, hg, hrun⟩ := from_loop (hstep.consistent hf) he rfl
    exact ⟨g, .head hstep hg, hrun⟩
  rcases h with ⟨hpos, hpc | ⟨hpc, -⟩⟩ | hpc | ⟨src, left, hpc⟩
  · exact from_wait hf he hpc hpos
  · have hstep := WriterStep.again hpc he
    obtain ⟨g, hg, hrun⟩ := from_wait (hstep.consistent hf) he rfl hpos
    exact ⟨g, .head hstep hg, hrun⟩
  · exact from_loop hf he hpc
  · obtain ⟨hlt, b, hb, -, hfd⟩ := hf.within src left hpc
    by_cases hzero : left = 0
    · subst hzero
      have hstep := WriterStep.advance hpc hb
      obtain ⟨g, hg, hrun⟩ := from_loop (hstep.consistent hf) he rfl
      exact ⟨g, .head hstep hg, hrun⟩
    · have hwrite := WriterStep.write hpc hzero (Nat.le_refl _) hb hfd
      rw [Nat.sub_self] at hwrite
      have hsteps := (Relation.ReflTransGen.single hwrite).tail (.advance rfl hb)
      obtain ⟨g, hg, hrun⟩ := from_loop (hf.of_writerSteps hsteps) he rfl
      exact ⟨g, hsteps.trans hg, hrun⟩

/-! ### The wake-up -/

/-- **No wake-up is lost** in runs that meet the condition, of a file whose semaphore
starts at 0: whenever no call of `DispatchBuffer` is in progress and the flag is set, the
writer works or can take a token; and before the end of the file the flag comes to be
reset by steps of the writer alone, so that the next `Append` finds it so. -/
theorem wakeUp_kept {cacheId maxSize writeBufferSize : UInt32} {tokens : ℕ} (hnone : tokens = 0)
    (h : Reach (WakeStep crc) (fun s a => a.Orderly s) (WakeState.init cacheId maxSize writeBufferSize tokens) s)
    (hidle : s.pc = .idle) :
    (s.file.isWriterRunning = true → s.file.CanTake ∨ s.file.InWrite) ∧
      (0 < writeBufferSize.toNat → s.file.eof = false → ∃ t,
        Reach (WakeStep crc) (fun _ a => a.ByWriter) s t ∧ t.pc = .idle ∧ t.file.isWriterRunning = false) := by
  subst hnone
  have hinv := WakeState.invariant_reach h
  refine ⟨hinv.phase.served, fun hpos he => ?_⟩
  have hsound : s.Sound := h.invariant
    ⟨⟨[], consistent_created _ _ _ 0 hpos⟩, fun hpc => (by cases hpc), fun hne => absurd rfl hne, fun hl => (by cases hl)⟩
    fun _ _ _ hi _ hs => hs.sound hi
  obtain ⟨log, hf⟩ := hsound.file
  cases hleave : s.leaving with
  | true => exact ⟨_, .step (.refl s) (show WakeAct.reset.ByWriter from trivial) (.reset hleave), hidle, rfl⟩
  | false =>
    cases hset : s.file.isWriterRunning with
    | false => exact ⟨s, .refl s, hidle, hset⟩
    | true =>
      obtain ⟨g, hg, hrun⟩ := (hinv.phase.served hset).leaves hf he
      exact ⟨_, WakeState.reach_writer hleave hg, hidle, hrun⟩

/-- A buffer is full and dispatched, and the writer has not taken the token yet. -/
theorem wakeUp_kept_posted : ∃ s : WakeState, s.pc = .idle ∧ s.file.isWriterRunning = true ∧ s.file.eof = false ∧
    (s.file.CanTake ∨ s.file.InWrite) ∧ ∃ t, Reach (WakeStep fun _ => 0) (fun _ a => a.ByWriter) s t ∧
      t.pc = .idle ∧ t.file.isWriterRunning = false := by
  have h0 := Reach.refl (R := WakeStep fun _ => 0) (C := fun s a => a.Orderly s) (.init 0 100 16 0)
  have h1 := h0.step (a := .append [] []) (fun _ => by simp [WakeState.init, created, new]) (.append rfl rfl)
  have h2 := h1.step (a := .dispatch) trivial (.notRunning rfl rfl)
  have h3 := h2.step (a := .dispatch) trivial (.due rfl (by decide))
  have h4 := h3.step (a := .dispatch) trivial (.post rfl)
  have h5 := h4.step (a := .dispatch) trivial (.setRunning rfl)
  obtain ⟨hserved, hleaves⟩ := wakeUp_kept rfl h5 rfl
  exact ⟨_, rfl, rfl, rfl, hserved rfl, hleaves (by decide) rfl⟩

/-! ### A lost wake-up -/

/-- The flag is set and nobody is there to reset it. -/
structure WakeState.Lost (s : WakeState) : Prop where
  /-- `DispatchBuffer` does nothing. -/
  pc : s.pc = .idle ∨ s.pc = .entered
  /-- The flag. -/
  running : s.file.isWriterRunning = true
  /-- There is no token. -/
  token : s.file.semWriter = 0
  /-- The writer is not in its loop. -/
  outside : ¬ s.file.InWrite
  /-- Nor has it just left it. -/
  stay : s.leaving = false

theorem WakeState.Lost.not_served (h : s.Lost) : ¬ (s.file.CanTake ∨ s.file.InWrite) := by
  rintro (⟨hpos, -⟩ | hin)
  · rw [h.token] at hpos
    exact absurd hpos (Nat.lt_irrefl 0)
  · exact h.outside hin

/-- Without a token no step of the writer leads into its loop. -/
theorem WriteableCacheFile.WriterStep.outside {f g : WriteableCacheFile} (hs : f.WriterStep g)
    (hzero : f.semWriter = 0) (hout : ¬ f.InWrite) :
    ¬ g.InWrite ∧ g.semWriter = 0 ∧ g.isWriterRunning = f.isWriterRunning := by
  cases hs with
  | semWait hpc hsem => rw [hzero] at hsem; cases hsem
  | fetch hpc hlt hb => exact absurd (.inl hpc) hout
  | write hpc hleft hn hb hfd => exact absurd (.inr ⟨_, _, hpc⟩) hout
  | eintr hpc hleft => exact absurd (.inr ⟨_, _, hpc⟩) hout
  | advance hpc hb => exact absurd (.inr ⟨_, _, hpc⟩) hout
  | leave hpc hge => exact absurd (.inl hpc) hout
  | again hpc heof => exact ⟨by simp [InWrite], hzero, rfl⟩
  | exit hpc heof => exact ⟨by simp [InWrite], hzero, rfl⟩
  | pop hpc hne => exact ⟨by simp [InWrite, hpc], hzero, rfl⟩
  | finish hpc hnil => exact ⟨by simp [InWrite], hzero, rfl⟩

/-- No `Append` and no step of the writer ends such a state. -/
theorem WakeStep.lost (hs : WakeStep crc s a t) (h : s.Lost) (hc : a ≠ .close) : t.Lost := by
  obtain ⟨hpc, hrun, hzero, hout, hstay⟩ := h
  have never : ∀ {pc : DispatchPc}, s.pc = pc → pc ≠ .idle → pc ≠ .entered → False := by
    rintro pc rfl hidle hentered
    exact hpc.elim hidle hentered
  cases hs with
  | @append key val lba f hidle hr =>
    obtain ⟨htid, hsem, hsame, -⟩ := appendBuffered_wake hr
    exact ⟨.inr rfl, hsame.trans hrun, hsem.trans hzero, fun hin => hout (hin.keep htid.symm), hstay⟩
  | @refuse key val lba f hidle hr =>
    obtain ⟨htid, hsem, hsame, -⟩ := appendBuffered_wake hr
    exact ⟨hpc, hsame.trans hrun, hsem.trans hzero, fun hin => hout (hin.keep htid.symm), hstay⟩
  | running hentered hset => exact ⟨.inl rfl, hrun, hzero, hout, hstay⟩
  | notRunning hentered hfalse => rw [hrun] at hfalse; cases hfalse
  | noneFull hat hnone => exact (never hat (by simp) (by simp)).elim
  | due hat hdue => exact (never hat (by simp) (by simp)).elim
  | moveOn hat => exact (never hat (by simp) (by simp)).elim
  | post hat => exact (never hat (by simp) (by simp)).elim
  | setRunning hat => exact (never hat (by simp) (by simp)).elim
  | closeEof => exact absurd rfl hc
  | closeWoff => exact absurd rfl hc
  | closePost => exact absurd rfl hc
  | writer _ hw hin =>
    obtain ⟨hout', hsem, hsame⟩ := hw.outside hzero hout
    exact ⟨hpc, hsame.trans hrun, hsem, hout', hstay⟩
  | leave _ hat hge => exact absurd (.inl hat) hout
  | reset hleave => rw [hstay] at hleave; cases hleave

/-- **A wake-up can be lost**: the writer takes the token and has gone through its loop
before `DispatchBuffer` sets the flag. Until `Close` every later `Append` finds the flag
set. -/
theorem wakeUp_lost : ∃ s : WakeState, Reach (WakeStep fun _ => 0) Always (.init 0 100 16 0) s ∧ s.pc = .idle ∧
    s.file.isWriterRunning = true ∧ s.file.eof = false ∧
    ∀ t, Reach (WakeStep fun _ => 0) (fun _ a => a ≠ .close) s t →
      t.file.isWriterRunning = true ∧ ¬ (t.file.CanTake ∨ t.file.InWrite) := by
  have h0 := Reach.refl (R := WakeStep fun _ => 0) (C := Always) (.init 0 100 16 0)
  have h1 := h0.step (a := .append [] []) trivial (.append rfl rfl)
  have h2 := h1.step (a := .dispatch) trivial (.notRunning rfl rfl)
  have h3 := h2.step (a := .dispatch) trivial (.due rfl (by decide))
  have h4 := h3.step (a := .dispatch) trivial (.post rfl)
  have h5 := h4.step (a := .writer) trivial (.writer rfl (.semWait rfl Nat.one_pos) (by simp))
  have h6 := h5.step (a := .writer) trivial (.writer rfl (.fetch rfl (by decide) rfl) (by simp))
  have h7 := h6.step (a := .writer) trivial (.writer rfl (.write (n := 16) rfl (by decide) (by decide) rfl rfl) (by simp))
  have h8 := h7.step (a := .writer) trivial (.writer rfl (.advance rfl rfl) (by simp))
  have h9 := h8.step (a := .writer) trivial (.leave rfl rfl (by decide))
  have h10 := h9.step (a := .reset) trivial (.reset rfl)
  have h11 := h10.step (a := .dispatch) trivial (.setRunning rfl)
  refine ⟨_, h11, rfl, rfl, rfl, fun t ht => ?_⟩
  have hlost : t.Lost := ht.invariant ⟨.inl rfl, rfl, rfl, by simp [InWrite], rfl⟩
    fun _ _ _ hl hc hs => hs.lost hl hc
  exact ⟨hlost.running, hlost.not_served⟩

/-- **A token left behind is enough**, in a run that meets the condition: the writer takes
it and has gone through its loop when the `Append` comes that fills the file, so that it
finds `eof_` set and ends while it is being woken. -/
theorem wakeUp_lost_stale : ∃ s : WakeState,
    Reach (WakeStep fun _ => 0) (fun s a => a.Orderly s) (.init 0 16 16 1) s ∧ s.pc = .idle ∧
      s.file.isWriterRunning = true ∧ ¬ (s.file.CanTake ∨ s.file.InWrite) := by
  have h0 := Reach.refl (R := WakeStep fun _ => 0) (C := fun s a => a.Orderly s) (.init 0 16 16 1)
  have h1 := h0.step (a := .writer) trivial (.writer rfl (.semWait rfl Nat.one_pos) (by simp))
  have h2 := h1.step (a := .writer) trivial (.leave rfl rfl (by decide))
  have h3 := h2.step (a := .append [] []) (fun _ => by simp) (.append rfl rfl)
  have h4 := h3.step (a := .dispatch) trivial (.notRunning rfl rfl)
  have h5 := h4.step (a := .reset) ⟨by simp, fun h => by cases h⟩ (.reset rfl)
  have h6 := h5.step (a := .dispatch) trivial (.due rfl (by decide))
  have h7 := h6.step (a := .dispatch) trivial (.moveOn rfl)
  have h8 := h7.step (a := .dispatch) trivial (.post rfl)
  have h9 := h8.step (a := .dispatch) trivial (.setRunning rfl)
  refine ⟨_, h9, rfl, rfl, ?_⟩
  rintro (⟨-, hwait | ⟨-, hopen⟩⟩ | hloop | ⟨src, left, hwriting⟩)
  · cases hwait
  · cases hopen
  · cases hloop
  · cases hwriting

end EmbeddedKv.Flash
