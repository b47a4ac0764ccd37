import EmbeddedKv.Flash.Ledger

/-!
# The end of a file

The `Append` that fills a file sets `eof_`, and from then on the writer brings the
last buffers to the file and drops them. Whether it takes a partly filled last
buffer depends on `buf_woff_`, which `DispatchBuffer` moves on at this moment if the
writer is idle, and `Close` in any case.

## What is proved

* `reach_finished_file`: nothing is lost when the writer finishes, in runs in which
  the filling `Append` meets `KeepsLast`: the writer is not just about to test
  `eof_`, and it is awake exactly if the file ends at the end of a buffer.
* `reach_not_overrun`: the writer stays within the buffers, in runs whose filling
  `Append` and whose `Close` meet `InBounds`: what moves `buf_woff_` on does so over a
  buffer that is there, or when the writer looks at no buffer any more.
* `read_iff_spared`: in every reachable state the records that can be read are
  exactly those that the hand-over spares.

The theorems after them show that the conditions are needed.
-/

namespace EmbeddedKv.Flash

open EmbeddedKv.Library Relation WriteableCacheFile

variable {crc : Bytes → UInt32} {cacheId maxSize writeBufferSize : UInt32} {tokens : ℕ} {s t : FileState}

/-! ### The append that fills the file -/

namespace WriteableCacheFile

variable {f g : WriteableCacheFile} {log : Bytes} {key val : Bytes}

/-- An `Append` of this record sets `eof_`, if it succeeds. -/
def Fills (f : WriteableCacheFile) (key val : Bytes) : Prop :=
  f.eof = false ∧ f.maxSize ≤ f.diskWoff + CacheRecord.calcSize key val

/-- The record ends where a buffer ends. -/
def EndsBuffer (f : WriteableCacheFile) (key val : Bytes) : Prop :=
  f.writeBufferSize.toNat ∣ f.stored + recordSize key val

instance (f : WriteableCacheFile) (key val : Bytes) : Decidable (f.Fills key val) :=
  inferInstanceAs (Decidable (_ ∧ _))

instance (f : WriteableCacheFile) (key val : Bytes) : Decidable (f.EndsBuffer key val) :=
  inferInstanceAs (Decidable (_ ∣ _))

/-- The writer will look at no buffer any more if `eof_` is set. -/
def Stopping (f : WriteableCacheFile) : Prop :=
  f.tid = some .returned ∨ f.tid = some .clearing ∨ f.tid = some .finished

instance (f : WriteableCacheFile) : Decidable f.Stopping := inferInstanceAs (Decidable (_ ∨ _))

theorem Left.stopping (h : f.Left) : f.Stopping := .inr h

/-- At the end of the file the writer only comes to stop at the end of its loop. -/
theorem WriterStep.stopping (hs : WriterStep f g) (he : f.eof = true) (hg : g.Stopping) :
    f.Stopping ∨ f.bufWoff ≤ f.bufDoff := by
  cases hs with
  | leave hpc hge => exact .inr (Nat.not_lt.mp hge)
  | again hpc heof => simp [he] at heof
  | exit hpc heof => exact .inl (.inl hpc)
  | pop hpc hne => exact .inl (.inr (.inl hpc))
  | finish hpc hnil => exact .inl (.inr (.inl hpc))
  | eintr hpc hleft => exact .inl hg
  | semWait hpc hsem => simp [Stopping] at hg
  | fetch hpc hlt hb => simp [Stopping] at hg
  | write hpc hleft hn hb hfd => simp [Stopping] at hg
  | advance hpc hb => simp [Stopping] at hg

/-- Once it stops, it goes on to stop. -/
theorem WriterStep.stopping_of_eof (hs : WriterStep f g) (he : f.eof = true) (hf : f.Stopping) : g.Stopping := by
  cases hs with
  | exit hpc heof => exact .inr (.inl rfl)
  | pop hpc hne => exact hf
  | finish hpc hnil => exact .inr (.inr rfl)
  | eintr hpc hleft => exact hf
  | again hpc heof => simp [he] at heof
  | semWait hpc hsem => simp [Stopping, hpc] at hf
  | fetch hpc hlt hb => simp [Stopping, hpc] at hf
  | write hpc hleft hn hb hfd => simp [Stopping, hpc] at hf
  | advance hpc hb => simp [Stopping, hpc] at hf
  | leave hpc hge => simp [Stopping, hpc] at hf

/-- Where the writer does not stop it leaves the buffers alone, and never goes back. -/
theorem WriterStep.bufs (hs : WriterStep f g) : (g.bufs = f.bufs ∨ f.Left) ∧ f.bufDoff ≤ g.bufDoff := by
  cases hs with
  | pop hpc hne => exact ⟨.inr (.inl hpc), Nat.le_refl _⟩
  | advance hpc hb => exact ⟨.inl rfl, Nat.le_succ _⟩
  | semWait hpc hsem => exact ⟨.inl rfl, Nat.le_refl _⟩
  | fetch hpc hlt hb => exact ⟨.inl rfl, Nat.le_refl _⟩
  | write hpc hleft hn hb hfd => exact ⟨.inl rfl, Nat.le_refl _⟩
  | eintr hpc hleft => exact ⟨.inl rfl, Nat.le_refl _⟩
  | leave hpc hge => exact ⟨.inl rfl, Nat.le_refl _⟩
  | again hpc heof => exact ⟨.inl rfl, Nat.le_refl _⟩
  | exit hpc heof => exact ⟨.inl rfl, Nat.le_refl _⟩
  | finish hpc hnil => exact ⟨.inl rfl, Nat.le_refl _⟩

/-- Until the end of the file the buffers hold the whole log. -/
theorem Consistent.stored_of_open (h : f.Consistent log) (he : f.eof = false) : f.stored = log.length := by
  rw [h.stored_eq, Nat.min_eq_right (h.shaped he).room]

end WriteableCacheFile

/-! ### Nothing is lost -/

/-- Calls of `Append` and steps of the writer only. -/
def FileAct.Plain : FileAct → Prop
  | .append _ _ | .writer => True
  | _ => False

/-- **The condition on the `Append` that fills the file**: the writer is not about to
test `eof_`, and it is awake exactly if the file ends at the end of a buffer. Records
are of less than `2 ^ 32` bytes. -/
def FileAct.KeepsLast (s : FileState) : FileAct → Prop
  | .append key val => recordSize key val < 2 ^ 32 ∧ (s.file.Fills key val →
      s.file.tid ≠ some .returned ∧ (s.file.isWriterRunning = true ↔ s.file.EndsBuffer key val))
  | .writer => True
  | _ => False

theorem FileAct.KeepsLast.small {a : FileAct} (h : a.KeepsLast s) : a.Small := by
  cases a with
  | append key val => exact h.1
  | writer => trivial
  | body key val => exact h.elim
  | dispatch => exact h.elim
  | close => exact h.elim

/-- From the end of the file on the log ends before the buffer at `buf_woff_`, and once
the writer stops it has written all of it. -/
structure WriteableCacheFile.Covered (f : WriteableCacheFile) (log : Bytes) : Prop where
  /-- The writer's loop goes as far as the log. -/
  woff : f.eof = true → log.length ≤ f.bufWoff * f.writeBufferSize.toNat
  /-- It has gone that far. -/
  doff : f.eof = true → f.Stopping → log.length ≤ f.bufDoff * f.writeBufferSize.toNat

/-- An `Append` that meets the condition leaves the log covered. -/
theorem WriteableCacheFile.Consistent.covered_append {f : WriteableCacheFile} {log key val : Bytes}
    (h : f.Consistent log) (he : f.eof = false) {bufs : List CacheWriteBuffer} {woff : ℕ}
    (hs : Shaped f.writeBufferSize.toNat bufs woff (log ++ image crc key val)) (keyLists : List Bytes)
    (diskWoff : UInt32) (eof : Bool)
    (hkeep : eof = true → f.tid ≠ some .returned ∧ (f.isWriterRunning = true ↔ f.EndsBuffer key val)) :
    Covered ({ f with bufs, bufWoff := woff, keyLists, diskWoff, eof } : WriteableCacheFile).dispatched
      (log ++ image crc key val) := by
  have hlen : (log ++ image crc key val).length = f.stored + recordSize key val := by
    rw [List.length_append, length_image, h.stored_of_open he]
  have hlt := Nat.lt_mul_div_succ (log ++ image crc key val).length h.pos
  rw [Nat.mul_comm, ← hs.woff] at hlt
  rcases dispatched_cases { f with bufs, bufWoff := woff, keyLists, diskWoff, eof } with
    ⟨heq, hwhy⟩ | ⟨-, hno, -, heq⟩ | ⟨-, hyes, heq⟩
  · rw [heq]
    refine ⟨fun heof => ?_, fun heof hstop => ?_⟩
    · -- the writer is awake, and the log ends with a buffer
      obtain ⟨-, hends⟩ := hkeep heof
      have hrun := hwhy.resolve_right fun hidle => by simp_all
      have hdiv := Nat.div_mul_cancel (hends.mp hrun)
      rw [← hlen, ← hs.woff] at hdiv
      exact Nat.le_of_eq hdiv.symm
    · rcases hstop with hpc | hleft
      · exact absurd hpc (hkeep heof).1
      · simp [h.eof_of_left hleft] at he
  · rw [heq]
    exact ⟨fun heof => by simp_all, fun heof => by simp_all⟩
  · rw [heq]
    refine ⟨fun _ => Nat.le_of_lt hlt, fun heof hstop => ?_⟩
    rcases hstop with hpc | hleft
    · exact absurd hpc (hkeep hyes).1
    · simp [h.eof_of_left hleft] at he

/-- The writer keeps the log covered. -/
theorem WriteableCacheFile.WriterStep.covered {f g : WriteableCacheFile} {log : Bytes} (hs : f.WriterStep g)
    (hcov : f.Covered log) : g.Covered log := by
  obtain ⟨heof, hcap, -, hwoff⟩ := hs.frame
  refine ⟨fun he => ?_, fun he hstop => ?_⟩
  · rw [hwoff, hcap]
    exact hcov.woff (heof.symm.trans he)
  · have he' := heof.symm.trans he
    have hdoff := Nat.mul_le_mul_right f.writeBufferSize.toNat hs.bufs.2
    rw [hcap]
    rcases hs.stopping he' hstop with hstop' | hdone
    · exact (hcov.doff he' hstop').trans hdoff
    · exact (hcov.woff he').trans ((Nat.mul_le_mul_right _ hdone).trans hdoff)

/-- Every step that meets the condition keeps the log covered. -/
theorem FileStep.covered {a : FileAct} (hs : FileStep crc s a t) (h : s.Invariant (s.log crc))
    (hk : a.KeepsLast s) (hcov : s.file.Covered (s.log crc)) : t.file.Covered (t.log crc) := by
  cases hs with
  | append hidle hr hd =>
    obtain rfl := WriteableCacheFile.eq_dispatched hd
    rcases h.file.appendBuffered_cases hr with ⟨-, hok, -⟩ | ⟨he, bufs, woff, more, hshape, ⟨-, rfl, -, rfl⟩ | ⟨hok, -, -⟩⟩
    · cases hok
    · rw [FileState.log_snoc]
      exact h.file.covered_append he hshape _ _ _ fun heof => hk.2 ⟨he, by simpa using heof⟩
    · cases hok
  | refuse hidle hr =>
    rcases h.file.appendBuffered_cases hr with ⟨-, -, rfl⟩ | ⟨he, bufs, woff, more, -, ⟨hok, -⟩ | ⟨-, hbig, -⟩⟩
    · exact hcov
    · cases hok
    · exact absurd hbig (Nat.not_le.mpr hk.1)
  | writer hw => exact hw.covered hcov
  | body hidle hr => exact hk.elim
  | dispatch => exact hk.elim
  | closeEof hstage => exact hk.elim
  | closeWoff hstage => exact hk.elim
  | closePost hstage => exact hk.elim

/-- **No record is lost at the end of the file**: in every run in which the `Append`
that fills the file meets the condition, when the writer has finished, the file is
the log. -/
theorem reach_finished_file (hc : 0 < writeBufferSize.toNat)
    (h : Reach (FileStep crc) (fun s a => a.KeepsLast s) (.init cacheId maxSize writeBufferSize tokens) s)
    (hfin : s.file.tid = some .finished) : s.file.fd = some (s.log crc) := by
  have hboth : s.Invariant (s.log crc) ∧ s.file.Covered (s.log crc) := by
    refine h.invariant (P := fun s => s.Invariant (s.log crc) ∧ s.file.Covered (s.log crc))
      ⟨FileState.invariant_init _ _ _ hc, (by intro he; cases he), (by intro he; cases he)⟩ ?_
    rintro s a t ⟨hs, hcov⟩ hk hstep
    obtain ⟨more, ht, hlog⟩ := hstep.invariant hs
    rw [← hlog hk.small] at ht
    exact ⟨ht, hstep.covered hs hk hcov⟩
  obtain ⟨hinv, hcov⟩ := hboth
  have hleft : s.file.Left := .inr hfin
  have hall := hcov.doff (hinv.file.eof_of_left hleft) hleft.stopping
  rw [hinv.file.between (by simp [hfin]), List.take_of_length_le hall]

/-- A file that ends with a buffer while the writer is awake. -/
theorem reach_finished_file_boundary : ∃ s : FileState,
    s.file.tid = some .finished ∧ s.appended.length = 2 ∧ s.file.fd = some (s.log fun _ => 0) := by
  have h0 := Reach.refl (R := FileStep fun _ => 0) (C := fun s a => a.KeepsLast s) (.init 0 40 20 0)
  have h1 := h0.step (a := .append [97] [1, 2, 3]) ⟨by decide, by decide⟩ (.append rfl rfl rfl)
  have h2 := h1.step (a := .append [98] [4, 5, 6]) ⟨by decide, by decide⟩ (.append rfl rfl rfl)
  have h3 := h2.step (by trivial) (.writer (.semWait rfl (by decide)))
  have h4 := h3.step (by trivial) (.writer (.fetch rfl (by decide) rfl))
  have h5 := h4.step (by trivial) (.writer (.write (n := 20) rfl (by decide) (by decide) rfl rfl))
  have h6 := h5.step (by trivial) (.writer (.advance rfl rfl))
  have h7 := h6.step (by trivial) (.writer (.fetch rfl (by decide) rfl))
  have h8 := h7.step (by trivial) (.writer (.write (n := 20) rfl (by decide) (by decide) rfl rfl))
  have h9 := h8.step (by trivial) (.writer (.advance rfl rfl))
  have h10 := h9.step (by trivial) (.writer (.leave rfl (by decide)))
  have h11 := h10.step (by trivial) (.writer (.exit rfl rfl))
  have h12 := h11.step (by trivial) (.writer (.pop rfl (by decide)))
  have h13 := h12.step (by trivial) (.writer (.pop rfl (by decide)))
  have h14 := h13.step (by trivial) (.writer (.finish rfl rfl))
  exact ⟨_, rfl, rfl, reach_finished_file (by decide) h14 rfl⟩

/-- The file fills up while the writer is awake, and its last buffer, which is not
full, is dropped. -/
theorem last_buffer_lost : ∃ s : FileState,
    Reach (FileStep fun _ => 0) (fun _ a => a.Plain) (.init 0 30 20 0) s ∧
      s.appended.map (fun r => (r.key, r.val)) = [([97], [1, 2, 3]), ([], [])] ∧
      s.file.tid = some .finished ∧ s.file.fd ≠ some (s.log fun _ => 0) := by
  have h0 := Reach.refl (R := FileStep fun _ => 0) (C := fun _ a => a.Plain) (.init 0 30 20 0)
  have h1 := h0.step (a := .append [97] [1, 2, 3]) trivial (.append rfl rfl rfl)
  have h2 := h1.step (a := .append [] []) trivial (.append rfl rfl rfl)
  have h3 := h2.step (by trivial) (.writer (.semWait rfl (by decide)))
  have h4 := h3.step (by trivial) (.writer (.fetch rfl (by decide) rfl))
  have h5 := h4.step (by trivial) (.writer (.write (n := 20) rfl (by decide) (by decide) rfl rfl))
  have h6 := h5.step (by trivial) (.writer (.advance rfl rfl))
  have h7 := h6.step (by trivial) (.writer (.leave rfl (by decide)))
  have h8 := h7.step (by trivial) (.writer (.exit rfl rfl))
  have h9 := h8.step (by trivial) (.writer (.pop rfl (by decide)))
  have h10 := h9.step (by trivial) (.writer (.pop rfl (by decide)))
  have h11 := h10.step (by trivial) (.writer (.finish rfl rfl))
  exact ⟨_, h11, rfl, rfl, by decide⟩

/-! ### Nothing behind the buffers -/

/-- **The condition on what moves `buf_woff_` on**: an `Append` that fills the file
while the writer is idle does not end with a buffer, unless the writer is about to
stop; and `Close` finds a buffer at `buf_woff_`, or the writer stopping. -/
def FileAct.InBounds (s : FileState) : FileAct → Prop
  | .append key val => s.file.Fills key val → s.file.isWriterRunning = false → ¬ s.file.Stopping →
      ¬ s.file.EndsBuffer key val
  | .close => s.closing = .eofSet → s.file.bufWoff < s.file.bufs.length ∨ s.file.Stopping
  | .writer => True
  | _ => False

/-- The writer's loop ends within the buffers, or has ended for good. -/
def WriteableCacheFile.Bounded (f : WriteableCacheFile) : Prop :=
  f.bufWoff ≤ f.bufs.length ∨ (f.eof = true ∧ f.Stopping)

/-- An `Append` that meets the condition leaves the loop within the buffers. -/
theorem WriteableCacheFile.Consistent.bounded_append {f : WriteableCacheFile} {log key val : Bytes}
    (h : f.Consistent log) (he : f.eof = false) {bufs : List CacheWriteBuffer} {woff : ℕ}
    (hs : Shaped f.writeBufferSize.toNat bufs woff (log ++ image crc key val)) (keyLists : List Bytes)
    (diskWoff : UInt32) (eof : Bool)
    (hin : eof = true → f.isWriterRunning = false → ¬ f.Stopping → ¬ f.EndsBuffer key val) :
    Bounded ({ f with bufs, bufWoff := woff, keyLists, diskWoff, eof } : WriteableCacheFile).dispatched := by
  rcases dispatched_cases { f with bufs, bufWoff := woff, keyLists, diskWoff, eof } with
    ⟨heq, -⟩ | ⟨-, -, -, heq⟩ | ⟨hidle, heof, heq⟩
  · rw [heq]
    exact .inl hs.woff_le
  · rw [heq]
    exact .inl hs.woff_le
  · rw [heq]
    by_cases hstop : f.Stopping
    · exact .inr ⟨heof, hstop⟩
    · left
      have hends := hin heof hidle hstop
      rw [EndsBuffer, h.stored_of_open he, ← length_image crc, ← List.length_append] at hends
      show woff < bufs.length
      rcases Nat.lt_or_eq_of_le hs.woff_le with hlt | hlast
      · exact hlt
      · -- with `woff` behind the last buffer the log would end with it
        refine absurd ?_ hends
        have hle := Nat.div_mul_le_self (log ++ image crc key val).length f.writeBufferSize.toNat
        have hroom := hs.room
        rw [← hlast, hs.woff] at hroom
        exact ⟨_, (Nat.le_antisymm hroom hle).trans (Nat.mul_comm _ _)⟩

/-- Every step that meets the condition keeps the writer's loop within the buffers. -/
theorem FileStep.bounded {a : FileAct} {log : Bytes} (hs : FileStep crc s a t) (h : s.Invariant log)
    (hk : a.InBounds s) (hb : s.file.Bounded) : t.file.Bounded := by
  cases hs with
  | append hidle hr hd =>
    obtain rfl := WriteableCacheFile.eq_dispatched hd
    rcases h.file.appendBuffered_cases hr with ⟨-, hok, -⟩ | ⟨he, bufs, woff, more, hshape, ⟨-, rfl, -, rfl⟩ | ⟨hok, -, -⟩⟩
    · cases hok
    · exact h.file.bounded_append he hshape _ _ _ fun heof => hk ⟨he, by simpa using heof⟩
    · cases hok
  | refuse hidle hr =>
    rcases h.file.appendBuffered_cases hr with ⟨-, -, rfl⟩ | ⟨he, bufs, woff, more, hshape, ⟨hok, -⟩ | ⟨-, -, rfl⟩⟩
    · exact hb
    · cases hok
    · exact .inl hshape.woff_le
  | writer hw =>
    obtain ⟨heof, -, -, hwoff⟩ := hw.frame
    rcases hb with hle | ⟨he, hstop⟩
    · rcases hw.bufs.1 with hbufs | hleft
      · left
        show _ ≤ _
        rw [hwoff, hbufs]
        exact hle
      · have he := h.file.eof_of_left hleft
        exact .inr ⟨heof.trans he, hw.stopping_of_eof he hleft.stopping⟩
    · exact .inr ⟨heof.trans he, hw.stopping_of_eof he hstop⟩
  | closeEof hstage => exact hb.imp_right fun hstop => ⟨rfl, hstop.2⟩
  | closeWoff hstage =>
    have he := h.closing (by rw [hstage]; simp)
    exact (hk hstage).imp id fun hstop => ⟨he, hstop⟩
  | closePost hstage => exact hb
  | body hidle hr => exact hk.elim
  | dispatch => exact hk.elim

/-- **The writer never indexes past the buffers** in runs whose steps meet the
condition. -/
theorem reach_not_overrun (hc : 0 < writeBufferSize.toNat)
    (h : Reach (FileStep crc) (fun s a => a.InBounds s) (.init cacheId maxSize writeBufferSize tokens) s) :
    ¬ s.file.Overrun := by
  have hboth : (∃ log, s.Invariant log) ∧ s.file.Bounded := by
    refine h.invariant (P := fun s => (∃ log, s.Invariant log) ∧ s.file.Bounded)
      ⟨⟨[], FileState.invariant_init _ _ _ hc⟩, .inl (Nat.le_refl _)⟩ ?_
    rintro s a t ⟨⟨log, hs⟩, hb⟩ hk hstep
    obtain ⟨more, ht, -⟩ := hstep.invariant hs
    exact ⟨⟨log ++ more, ht⟩, hstep.bounded hs hk hb⟩
  rintro ⟨hpc, hlt, hge⟩
  rcases hboth.2 with hle | ⟨-, hstop⟩
  · exact absurd (Nat.lt_of_lt_of_le hlt hle) (Nat.not_lt.mpr hge)
  · simp [Stopping, hpc] at hstop

/-- A file with a partly filled buffer, closed, when the writer has written it. -/
theorem reach_not_overrun_closed : ∃ s : FileState,
    s.closing = .posted ∧ s.file.bufDoff = 1 ∧ ¬ s.file.Overrun := by
  have h0 := Reach.refl (R := FileStep fun _ => 0) (C := fun s a => a.InBounds s) (.init 0 100 20 0)
  have h1 := h0.step (a := .append [] []) (by intro hf; exact absurd hf (by decide)) (.append rfl rfl rfl)
  have h2 := h1.step (a := .close) (by intro hst; cases hst) (.closeEof rfl)
  have h3 := h2.step (a := .close) (fun _ => .inl (by decide)) (.closeWoff rfl)
  have h4 := h3.step (a := .close) (by intro hst; cases hst) (.closePost rfl)
  have h5 := h4.step (by trivial) (.writer (.semWait rfl (by decide)))
  have h6 := h5.step (by trivial) (.writer (.fetch rfl (by decide) rfl))
  have h7 := h6.step (by trivial) (.writer (.write (n := 16) rfl (by decide) (by decide) rfl rfl))
  have h8 := h7.step (by trivial) (.writer (.advance rfl rfl))
  exact ⟨_, rfl, rfl, reach_not_overrun (by decide) h8⟩

/-- Both increments lead the writer past the buffers: `Close` on a new file, and an
`Append` that fills the file and its only buffer while the writer is idle. -/
theorem overrun_at_boundary :
    (∃ s : FileState, Reach (FileStep fun _ => 0) Always (.init 0 100 20 0) s ∧ s.appended = [] ∧ s.file.Overrun) ∧
      ∃ s : FileState, Reach (FileStep fun _ => 0) Always (.init 0 20 20 0) s ∧
        s.appended.map (fun r => (r.key, r.val)) = [([97], [1, 2, 3])] ∧ s.closing = .notCalled ∧
        s.file.Overrun := by
  constructor
  · have h0 := Reach.refl (R := FileStep fun _ => 0) (C := Always) (.init 0 100 20 0)
    have h1 := h0.step (a := .close) trivial (.closeEof rfl)
    have h2 := h1.step (a := .close) trivial (.closeWoff rfl)
    have h3 := h2.step (a := .close) trivial (.closePost rfl)
    have h4 := h3.step (a := .writer) trivial (.writer (.semWait rfl (by decide)))
    exact ⟨_, h4, rfl, by decide⟩
  · have h0 := Reach.refl (R := FileStep fun _ => 0) (C := Always) (.init 0 20 20 0)
    have h1 := h0.step (a := .append [97] [1, 2, 3]) trivial (.append rfl rfl rfl)
    have h2 := h1.step (a := .writer) trivial (.writer (.semWait rfl (by decide)))
    have h3 := h2.step (a := .writer) trivial (.writer (.fetch rfl (by decide) rfl))
    have h4 := h3.step (a := .writer) trivial (.writer (.write (n := 20) rfl (by decide) (by decide) rfl rfl))
    have h5 := h4.step (a := .writer) trivial (.writer (.advance rfl rfl))
    exact ⟨_, h5, rfl, rfl, by decide⟩

/-! ### Reading during the hand-over -/

/-- **What can be read at the end of a file**: in every reachable state and for every
address returned, `Read` passes its assertions and returns the key and the value
exactly when the hand-over spares the record. -/
theorem read_iff_spared (hc : 0 < writeBufferSize.toNat)
    (h : Reach (FileStep crc) (fun s a => a.InRange crc s) (.init cacheId maxSize writeBufferSize tokens) s)
    {r : Appended} (hr : r ∈ s.appended) (hk : NulFree r.key) (hv : NulFree r.val) :
    (∀ env : Environment, Enough env.preads r.lba.size.toNat →
      s.file.read crc .writeBuffer env r.lba = .ok (some (r.key, r.val))) ↔ s.file.Spared r.lba := by
  obtain ⟨hinv, haddr⟩ := FileState.reach_at hc (fun _ _ ha => ha) h
  obtain ⟨hsmall, hat⟩ := haddr r hr
  obtain ⟨hsize, hlog⟩ := hat.nonempty (length_image_pos crc r.key r.val)
  rw [← hinv.file.readable_iff_spared hlog hsize]
  constructor
  · intro hall
    let env : Environment := ⟨[], List.replicate r.lba.size.toNat (.moved 0), false, []⟩
    have hio : Enough env.preads r.lba.size.toNat := enough_replicate _
    exact (read_iff hinv.file.holds hat hk hv hsmall hio).mp (hall env hio)
  · intro hread env hio
    exact (read_iff hinv.file.holds hat hk hv hsmall hio).mpr hread

/-- A record that is read back from the file when the buffers are gone. -/
theorem read_iff_spared_finished : ∃ s : FileState, s.file.tid = some .finished ∧ s.file.bufs = [] ∧
    ∀ env : Environment, Enough env.preads 18 →
      s.file.read (fun _ => 0) .writeBuffer env ⟨0, 0, 18⟩ = .ok (some ([97], [98])) := by
  have h0 := Reach.refl (R := FileStep fun _ => 0) (C := fun s a => a.InRange (fun _ => 0) s) (.init 0 10 20 0)
  have h1 := h0.step (a := .body [97] [98]) ⟨by decide, by decide⟩ (.body rfl rfl)
  have h2 := h1.step (a := .dispatch) trivial (.dispatch rfl rfl)
  have h3 := h2.step (a := .writer) trivial (.writer (.semWait rfl (by decide)))
  have h4 := h3.step (a := .writer) trivial (.writer (.fetch rfl (by decide) rfl))
  have h5 := h4.step (a := .writer) trivial (.writer (.write (n := 18) rfl (by decide) (by decide) rfl rfl))
  have h6 := h5.step (a := .writer) trivial (.writer (.advance rfl rfl))
  have h7 := h6.step (a := .writer) trivial (.writer (.leave rfl (by decide)))
  have h8 := h7.step (a := .writer) trivial (.writer (.exit rfl rfl))
  have h9 := h8.step (a := .writer) trivial (.writer (.pop rfl (by decide)))
  have h10 := h9.step (a := .writer) trivial (.writer (.finish rfl rfl))
  have hspared := read_iff_spared (r := ⟨⟨0, 0, 18⟩, [97], [98]⟩) (by decide) h10 (by decide) (by decide) (by decide)
  exact ⟨_, rfl, rfl, hspared.mpr (by decide)⟩

/-- As soon as `DispatchBuffer` has moved `buf_woff_` on over a partly filled buffer,
reading the record in it runs into an assertion. -/
theorem read_aborts_after_dispatch : ∃ s : FileState,
    Reach (FileStep fun _ => 0) (fun _ a => a.Plain) (.init 0 10 20 0) s ∧ s.file.eof = true ∧
      s.appended = [⟨⟨0, 0, 18⟩, [97], [98]⟩] ∧
      ∀ env : Environment, s.file.read (fun _ => 0) .writeBuffer env ⟨0, 0, 18⟩ = .error .abort := by
  have h0 := Reach.refl (R := FileStep fun _ => 0) (C := fun _ a => a.Plain) (.init 0 10 20 0)
  have h1 := h0.step (a := .append [97] [98]) trivial (.append rfl rfl rfl)
  exact ⟨_, h1, rfl, rfl, fun env => rfl⟩

end EmbeddedKv.Flash
