import EmbeddedKv.Flash.Writer
import Mathlib.Data.UInt

/-!
# The file is a prefix of the log

What the file of a write-buffered cache file holds in every state the two parties can
reach: the first bytes of the log, each once and in order (`reach_file_prefix`), as
long as every record appended is of less than `2 ^ 32` bytes. `filesize_` counts them
in 32 bits, so it is their number modulo `2 ^ 32` only; `drain` brings a file there.
-/

namespace EmbeddedKv.Flash

open EmbeddedKv.Library Relation WriteableCacheFile

variable {crc : Bytes → UInt32} {cacheId maxSize writeBufferSize : UInt32} {tokens : ℕ} {s t : FileState}

/-! ### Reachable states -/

/-- A reachable file is consistent with what was put into its buffers. -/
theorem FileState.reach_invariant (hc : 0 < writeBufferSize.toNat) {C : FileState → FileAct → Prop}
    (h : Reach (FileStep crc) C (init cacheId maxSize writeBufferSize tokens) s) : ∃ log, s.Invariant log := by
  refine h.invariant (P := fun s => ∃ log, s.Invariant log) ⟨[], invariant_init _ _ _ hc⟩ ?_
  rintro s a t ⟨log, hs⟩ - hstep
  obtain ⟨more, ht, -⟩ := hstep.invariant hs
  exact ⟨log ++ more, ht⟩

/-- If all records appended are small, that is the log. -/
theorem FileState.reach_log (hc : 0 < writeBufferSize.toNat) {C : FileState → FileAct → Prop}
    (hC : ∀ s a, C s a → a.Small) (h : Reach (FileStep crc) C (init cacheId maxSize writeBufferSize tokens) s) :
    s.Invariant (s.log crc) := by
  refine h.invariant (P := fun s => s.Invariant (s.log crc)) (invariant_init _ _ _ hc) ?_
  intro s a t hs ha hstep
  obtain ⟨more, ht, hlog⟩ := hstep.invariant hs
  rw [hlog (hC s a ha)]
  exact ht

/-! ### The bytes in the file -/

namespace WriteableCacheFile

variable {f g : WriteableCacheFile} {log : Bytes}

/-- The file is a prefix of the log, also within a round of the writer's loop. -/
theorem Consistent.file_prefix (h : f.Consistent log) : ∃ d, f.fd = some d ∧ d <+: log := by
  by_cases hpc : ∀ src left, f.tid ≠ some (.writing src left)
  · exact ⟨_, h.between hpc, List.take_prefix _ _⟩
  · push Not at hpc
    obtain ⟨src, left, hpc⟩ := hpc
    obtain ⟨-, b, hb, -, hfd⟩ := h.within src left hpc
    refine ⟨_, hfd, List.IsPrefix.trans ?_ (List.take_prefix ((f.bufDoff + 1) * f.writeBufferSize.toNat) log)⟩
    rw [h.take_succ hb, List.prefix_append_right_inj]
    exact List.take_prefix _ _

/-- Between two rounds the file is the used bytes of the buffers before `buf_doff_`,
and `filesize_` counts them. -/
theorem Consistent.file_between (h : f.Consistent log) (hpc : ∀ src left, f.tid ≠ some (.writing src left))
    (hleft : ¬ f.Left) : f.fd = some ((f.bufs.take f.bufDoff).flatMap CacheWriteBuffer.data) ∧
      f.filesize = UInt32.ofNat ((f.bufs.take f.bufDoff).flatMap CacheWriteBuffer.data).length := by
  have hroom := h.room.resolve_left hleft
  have hdata : (f.bufs.take f.bufDoff).flatMap CacheWriteBuffer.data =
      log.take (f.bufDoff * f.writeBufferSize.toNat) := by
    rw [(h.cut.take f.bufDoff).flatMap_data, List.length_take]
    rcases Nat.le_total f.bufDoff f.bufs.length with hle | hle
    · rw [Nat.min_eq_left hle]
    · have hall := hroom.trans (Nat.mul_le_mul_right f.writeBufferSize.toNat hle)
      rw [Nat.min_eq_right hle, List.take_of_length_le hroom, List.take_of_length_le hall]
  rw [hdata]
  exact ⟨h.between hpc, h.filesize⟩

/-- Any number of steps of the writer keeps the invariant. -/
theorem Consistent.of_writerSteps (h : f.Consistent log) (hs : ReflTransGen WriterStep f g) :
    g.Consistent log := by
  induction hs with
  | refl => exact h
  | tail _ hstep ih => exact hstep.consistent ih

/-- The writer does not change the capacity of the buffers. -/
theorem writeBufferSize_of_writerSteps {f g : WriteableCacheFile} (hs : ReflTransGen WriterStep f g) :
    g.writeBufferSize = f.writeBufferSize := by
  induction hs with
  | refl => rfl
  | tail _ hstep ih => exact hstep.frame.2.1.trans ih

/-- The writer has enough buffers before it: one round of its loop. -/
theorem Consistent.round (h : f.Consistent log) (hpc : f.tid = some .looping) (hlt : f.bufDoff < f.bufWoff)
    (hin : f.bufDoff < f.bufs.length) : ∃ g, ReflTransGen WriterStep f g ∧ g.tid = some .looping ∧
      g.bufDoff = f.bufDoff + 1 ∧ g.bufWoff = f.bufWoff ∧ g.bufs = f.bufs := by
  have hb := List.getElem?_eq_getElem hin
  have hfd := h.between (by simp [hpc])
  have hfetch := ReflTransGen.single (WriterStep.fetch hpc hlt hb)
  by_cases hused : (f.bufs[f.bufDoff]).used = 0
  · rw [hused] at hfetch
    exact ⟨_, hfetch.tail (.advance rfl hb), rfl, rfl, rfl, rfl⟩
  · have hwrite := hfetch.tail (.write rfl hused (Nat.le_refl _) hb hfd)
    rw [Nat.sub_self] at hwrite
    exact ⟨_, hwrite.tail (.advance rfl hb), rfl, rfl, rfl, rfl⟩

/-- **The writer comes to the end of its loop** as long as there are buffers up to
`buf_woff_`. The induction is on the number of buffers left to write. -/
theorem Consistent.drain (h : f.Consistent log) (hpc : f.tid = some .looping)
    (hin : f.bufWoff ≤ f.bufs.length) : ∃ g, ReflTransGen WriterStep f g ∧ g.tid = some .looping ∧
      g.bufDoff = f.bufWoff ∧ g.Consistent log := by
  obtain ⟨n, hn⟩ := Nat.exists_eq_add_of_le h.doff_le
  induction n generalizing f with
  | zero => exact ⟨f, .refl, hpc, hn.symm, h⟩
  | succ n ih =>
    obtain ⟨g, hg, hpc', hdoff, hwoff, hbufs⟩ := h.round hpc (by omega) (by omega)
    obtain ⟨g', hg', hrest⟩ := ih (h.of_writerSteps hg) hpc' (by rw [hwoff, hbufs]; exact hin) (by omega)
    rw [hwoff] at hrest
    exact ⟨g', hg.trans hg', hrest⟩

end WriteableCacheFile

/-- Steps of the writer are steps of the system. -/
theorem FileState.reach_writer {C : FileState → FileAct → Prop} (hC : ∀ s, C s .writer) {g : WriteableCacheFile}
    (h : ReflTransGen WriteableCacheFile.WriterStep s.file g) :
    Reach (FileStep crc) C s { s with file := g } := by
  induction h with
  | refl => exact .refl s
  | tail _ hstep ih => exact ih.step (hC _) (.writer hstep)

/-! ### The offset in the file -/

/-- `disk_woff_` is the length of the log, modulo `2 ^ 32`. -/
def FileState.Booked (crc : Bytes → UInt32) (s : FileState) : Prop :=
  s.file.diskWoff = UInt32.ofNat (s.log crc).length

/-- One record more is booked with its size. -/
theorem FileState.booked_append {key val : Bytes} {lba : LBA} (h : s.Booked crc)
    (happ : t.appended = s.appended ++ [⟨lba, key, val⟩])
    (hwoff : t.file.diskWoff = s.file.diskWoff + CacheRecord.calcSize key val) : t.Booked crc := by
  have hlog : t.log crc = s.log crc ++ image crc key val := by simp [FileState.log, happ]
  rw [FileState.Booked, hwoff, h, hlog, List.length_append, UInt32.ofNat_add, length_image]
  rfl

/-- Every step keeps the offset booked. -/
theorem FileStep.booked {a : FileAct} {log : Bytes} (hs : FileStep crc s a t) (h : s.Invariant log)
    (hb : s.Booked crc) : t.Booked crc := by
  cases hs with
  | append hidle hr hd =>
    obtain rfl := WriteableCacheFile.eq_dispatched hd
    rcases h.file.appendBuffered_cases hr with ⟨-, hok, -⟩ | ⟨-, bufs, woff, more, -, ⟨-, -, -, rfl⟩ | ⟨hok, -, -⟩⟩
    · cases hok
    · exact FileState.booked_append hb rfl (WriteableCacheFile.dispatched_frame _).2.1
    · cases hok
  | refuse hidle hr =>
    rcases h.file.appendBuffered_cases hr with ⟨-, -, rfl⟩ | ⟨-, bufs, woff, more, -, ⟨hok, -⟩ | ⟨-, -, rfl⟩⟩
    · exact hb
    · cases hok
    · exact hb
  | body hidle hr =>
    rcases h.file.appendBuffered_cases hr with ⟨-, hok, -⟩ | ⟨-, bufs, woff, more, -, ⟨-, -, -, rfl⟩ | ⟨hok, -, -⟩⟩
    · cases hok
    · exact FileState.booked_append hb rfl rfl
    · cases hok
  | dispatch hdue hd =>
    obtain rfl := WriteableCacheFile.eq_dispatched hd
    exact (WriteableCacheFile.dispatched_frame _).2.1.trans hb
  | closeEof hstage => exact hb
  | closeWoff hstage => exact hb
  | closePost hstage => exact hb
  | writer hw => exact hw.frame.2.2.1.trans hb

/-- Every reachable state has its offset booked. -/
theorem FileState.reach_booked (hc : 0 < writeBufferSize.toNat) {C : FileState → FileAct → Prop}
    (h : Reach (FileStep crc) C (init cacheId maxSize writeBufferSize tokens) s) : s.Booked crc := by
  have hboth : s.Booked crc ∧ ∃ log, s.Invariant log := by
    refine h.invariant (P := fun s => s.Booked crc ∧ ∃ log, s.Invariant log)
      ⟨rfl, [], invariant_init _ _ _ hc⟩ ?_
    rintro s a t ⟨hb, log, hs⟩ - hstep
    obtain ⟨more, ht, -⟩ := hstep.invariant hs
    exact ⟨hstep.booked hs hb, log ++ more, ht⟩
  exact hboth.1

/-! ### The file in every reachable state -/

/-- **The file is an in-order, duplicate-free prefix of the log** in every state
reached by appending records of less than `2 ^ 32` bytes, closing and writing:
between two rounds of the writer's loop it has the used bytes of the first
`buf_doff_` buffers, which `filesize_` counts modulo `2 ^ 32`, and an `Append` puts
its record behind all of them. -/
theorem reach_file_prefix (hc : 0 < writeBufferSize.toNat)
    (h : Reach (FileStep crc) (fun _ a => a.Small) (.init cacheId maxSize writeBufferSize tokens) s) :
    ∃ d, s.file.fd = some d ∧ d <+: s.log crc ∧
      ((∀ src left, s.file.tid ≠ some (.writing src left)) → ¬ s.file.Left →
        d = (s.file.bufs.take s.file.bufDoff).flatMap CacheWriteBuffer.data ∧
          s.file.filesize.toNat = d.length % 2 ^ 32) ∧
      ∀ key val r t, FileStep crc s (.append key val) t →
        t.appended = s.appended ++ [r] → d.length ≤ (s.log crc).length ∧
          r.lba.off.toNat = (s.log crc).length % 2 ^ 32 ∧ t.log crc = s.log crc ++ image crc key val := by
  have hinv := FileState.reach_log hc (fun _ _ ha => ha) h
  have hbook : s.Booked crc := FileState.reach_booked hc h
  obtain ⟨d, hd, hpre⟩ := hinv.file.file_prefix
  refine ⟨d, hd, hpre, fun hpc hleft => ?_, fun key val r t hstep happ => ?_⟩
  · obtain ⟨hfile, hsize⟩ := hinv.file.file_between hpc hleft
    obtain rfl := Option.some.inj (hd.symm.trans hfile)
    refine ⟨rfl, ?_⟩
    rw [hsize, UInt32.toNat_ofNat']
  · refine ⟨hpre.length_le, ?_⟩
    cases hstep with
    | append hidle hr hd =>
      obtain rfl := WriteableCacheFile.eq_dispatched hd
      rcases hinv.file.appendBuffered_cases hr with ⟨-, hok, -⟩ | ⟨-, bufs, woff, more, -, ⟨-, -, rfl, rfl⟩ | ⟨hok, -, -⟩⟩
      · cases hok
      · obtain rfl : _ = r := by simpa using happ
        refine ⟨?_, by simp [FileState.log]⟩
        rw [hbook, UInt32.toNat_ofNat']
      · cases hok
    | refuse hidle hr => simp at happ

/-- A record of 20 bytes that is written in two pieces. -/
theorem reach_file_prefix_short : ∃ s : FileState, s.file.tid = some .looping ∧ s.file.filesize = 20 ∧
    ∃ d, s.file.fd = some d ∧ d <+: s.log (fun _ => 0) ∧
      d = (s.file.bufs.take s.file.bufDoff).flatMap CacheWriteBuffer.data := by
  have h0 := Reach.refl (R := FileStep fun _ => 0) (C := fun _ a => a.Small) (.init 0 100 20 0)
  have h1 := h0.step (a := .append [97] [1, 2, 3]) (by decide) (.append rfl rfl rfl)
  have h2 := h1.step (by trivial) (.writer (.semWait rfl (by decide)))
  have h3 := h2.step (by trivial) (.writer (.fetch rfl (by decide) rfl))
  have h4 := h3.step (by trivial) (.writer (.write (n := 7) rfl (by decide) (by decide) rfl rfl))
  have h5 := h4.step (by trivial) (.writer (.write (n := 13) rfl (by decide) (by decide) rfl rfl))
  have h6 := h5.step (by trivial) (.writer (.advance rfl rfl))
  obtain ⟨d, hd, hpre, hbetween, -⟩ := reach_file_prefix (by decide) h6
  exact ⟨_, rfl, rfl, d, hd, hpre, (hbetween (by simp) (by simp [WriteableCacheFile.Left])).1⟩

/-- Two records of `2 ^ 31` bytes each fill two buffers, and once the writer has
written both, `filesize_` is zero. -/
theorem filesize_wraps : ∃ s : FileState,
    Reach (FileStep fun _ => 0) Always (.init 0 (2 ^ 32 - 1) (2 ^ 31) 0) s ∧
      s.appended.map (fun r => (r.key, r.val)) =
        [(List.replicate (2 ^ 31 - 16) 97, []), (List.replicate (2 ^ 31 - 16) 97, [])] ∧
      s.file.tid = some .looping ∧
      s.file.filesize.toNat ≠ ((s.file.bufs.take s.file.bufDoff).flatMap CacheWriteBuffer.data).length := by
  have hsize : CacheRecord.calcSize (List.replicate (2 ^ 31 - 16) 97) [] = 2 ^ 31 := by
    rw [CacheRecord.calcSize, List.length_replicate]; decide
  have hrec : recordSize (List.replicate (2 ^ 31 - 16) 97) [] = 2 ^ 31 := by
    rw [recordSize, List.length_replicate]; rfl
  generalize List.replicate (2 ^ 31 - 16) (97 : UInt8) = key at *
  have hlen : (image (fun _ => 0) key []).length = 2 ^ 31 := by rw [length_image, hrec]
  have hsmall : ¬ 2 ^ 32 ≤ recordSize key [] := by rw [hrec]; decide
  have h0 := Reach.refl (R := FileStep fun _ => 0) (C := fun _ _ => True) (.init 0 (2 ^ 32 - 1) (2 ^ 31) 0)
  have i0 := FileState.invariant_init 0 (2 ^ 32 - 1) 0 (show 0 < (2 ^ 31 : UInt32).toNat by decide)
  -- the first record fills a buffer and wakes the writer
  obtain ⟨bufs₁, woff₁, more₁, shape₁, ⟨rfl, hr₁⟩ | ⟨hbig, -⟩⟩ :=
    i0.file.appendBuffered rfl (fun _ => 0) key [] {}
  swap
  · exact absurd hbig hsmall
  rw [hsize] at hr₁
  have hw₁ : woff₁ = 1 := by
    have hw := (show Shaped (2 ^ 31) bufs₁ woff₁ _ from shape₁).woff
    rwa [List.nil_append, hlen] at hw
  subst hw₁
  have h1 : Reach (FileStep fun _ => 0) Always _ ⟨⟨0, 2 ^ 32 - 1, 2 ^ 31, 0, some [], [key], false,
      2 ^ 31, bufs₁, 1, 0, true, 1, some .waiting⟩, [⟨⟨0, 0, 2 ^ 31⟩, key, []⟩], false, .notCalled⟩ :=
    h0.step (a := .append key []) trivial (.append rfl hr₁ rfl)
  have i1 : Consistent ⟨0, 2 ^ 32 - 1, 2 ^ 31, 0, some [], [key], false,
      2 ^ 31, bufs₁, 1, 0, true, 1, some .waiting⟩ _ := (i0.file.grow rfl shape₁ [key] (2 ^ 31) false).dispatched
  -- the second one fills another buffer, and the 32-bit offset wraps below the maximal size
  obtain ⟨bufs₂, woff₂, more₂, shape₂, ⟨rfl, hr₂⟩ | ⟨hbig, -⟩⟩ :=
    i1.appendBuffered rfl (fun _ => 0) key [] {}
  swap
  · exact absurd hbig hsmall
  have hlog : (([] ++ image (fun _ => 0) key []) ++ image (fun _ => 0) key []).length = 2 ^ 32 := by
    rw [List.length_append, List.nil_append, hlen]; rfl
  have hw₂ : woff₂ = 2 := by
    have hw := (show Shaped (2 ^ 31) bufs₂ woff₂ _ from shape₂).woff
    rwa [hlog] at hw
  subst hw₂
  have hwrap : decide ((2 ^ 32 - 1 : UInt32) ≤ 2 ^ 31 + 2 ^ 31) = false := by decide
  simp only [hsize, hwrap] at hr₂
  have h2 := h1.step (a := .append key []) trivial (.append rfl hr₂ rfl)
  -- the writer writes both
  have i2 := (i1.grow rfl shape₂ [key, key] (2 ^ 31 + 2 ^ 31) false).dispatched
  have h3 := h2.step (a := .writer) trivial (.writer (.semWait rfl Nat.one_pos))
  have i3 := i2.of_writerSteps (.single (.semWait rfl Nat.one_pos))
  obtain ⟨g, hg, hpc, hdone, i4⟩ := i3.drain rfl shape₂.woff_le
  have hdoff : g.bufDoff = 2 := hdone
  have h4 := h3.trans (FileState.reach_writer (fun _ => trivial) hg)
  have hnw : ∀ src left, g.tid ≠ some (.writing src left) := by simp [hpc]
  obtain ⟨hfd, hcount⟩ := i4.file_between hnw (by simp [Left, hpc])
  refine ⟨_, h4, rfl, hpc, ?_⟩
  have hcap : g.writeBufferSize = 2 ^ 31 := writeBufferSize_of_writerSteps hg
  have hbytes : (g.bufs.take g.bufDoff).flatMap CacheWriteBuffer.data =
      ([] ++ image (fun _ => 0) key []) ++ image (fun _ => 0) key [] := by
    rw [← Option.some.inj ((i4.between hnw).symm.trans hfd), hdoff, hcap, List.take_of_length_le]
    rw [hlog]; decide
  show g.filesize.toNat ≠ _
  rw [hcount, hbytes, hlog]
  decide
/-- A record of more than `2 ^ 32` bytes is refused when the buffers are full, but
what was put into them stays and comes before the next record in the file. -/
theorem refused_record_written : ∃ s : FileState,
    Reach (FileStep fun _ => 0) Always (.init 0 100 16 0) s ∧
      s.appended.map (fun r => (r.key, r.val)) = [([], [])] ∧ s.file.tid = some .looping ∧
      ∀ d, s.file.fd = some d → ¬ d <+: s.log fun _ => 0 := by
  have hrec : recordSize (List.replicate (2 ^ 32 + 1) 97) [] = 2 ^ 32 + 17 := by
    rw [recordSize, List.length_replicate]; rfl
  have hsize : (CacheRecord.calcSize (List.replicate (2 ^ 32 + 1) 97) []).toNat = 17 := by
    rw [CacheRecord.toNat_calcSize, hrec]; rfl
  generalize List.replicate (2 ^ 32 + 1) (97 : UInt8) = key at *
  have hlen : (image (fun _ => 0) key []).length = 2 ^ 32 + 17 := by rw [length_image, hrec]
  have h0 := Reach.refl (R := FileStep fun _ => 0) (C := Always) (.init 0 100 16 0)
  have i0 := FileState.invariant_init 0 100 0 (show 0 < (16 : UInt32).toNat by decide)
  -- the record gets the two buffers that its size modulo `2 ^ 32` needs
  have hspec := appendBuffered_shaped i0.file.pos (i0.file.shaped rfl) rfl (fun _ => 0) key [] {}
  rw [hsize, List.nil_append] at hspec
  generalize image (fun _ => 0) key [] = big at hspec hlen
  obtain ⟨bufs₁, woff₁, hroom, hmin, shape₁, hr₁⟩ := hspec
  have hn : bufs₁.length = 2 := by
    have h1 : 0 + 17 ≤ bufs₁.length * 16 := hroom
    have h2 : bufs₁.length = 0 ∨ bufs₁.length * 16 < 0 + 17 + 16 := hmin
    omega
  rw [hn, hrec] at hr₁
  rw [hn] at shape₁
  have shape₁' : Shaped 16 bufs₁ woff₁ ([] ++ big.take 32) := shape₁
  obtain ⟨hfit, -⟩ | ⟨-, hr₁⟩ := hr₁
  · exact absurd (show 0 + (2 ^ 32 + 17) ≤ 2 * 16 from hfit) (by decide)
  have h1 := h0.step (a := .append key []) trivial (.refuse rfl hr₁)
  have i1 := i0.file.grow rfl shape₁' [] 0 false
  -- the next record is behind what is left of it
  obtain ⟨bufs₂, woff₂, more₂, shape₂, ⟨rfl, hr₂⟩ | ⟨hbig, -⟩⟩ :=
    i1.appendBuffered rfl (fun _ => 0) [] [] {}
  swap
  · exact absurd hbig (by decide)
  have hlog : ([] ++ big.take 32 ++ image (fun _ => 0) [] []).length = 48 := by
    rw [List.length_append, List.nil_append, List.length_take, hlen]; rfl
  have hw₂ : woff₂ = 3 := by
    have hw := (show Shaped 16 bufs₂ woff₂ _ from shape₂).woff
    rwa [hlog] at hw
  subst hw₂
  have h2 := h1.step (a := .append [] []) trivial (.append rfl hr₂ rfl)
  have i2 := (i1.grow rfl shape₂ [[]] 16 false).dispatched
  have h3 := h2.step (a := .writer) trivial (.writer (.semWait rfl Nat.one_pos))
  have i3 := i2.of_writerSteps (.single (.semWait rfl Nat.one_pos))
  obtain ⟨g, hg, hpc, hdone, i4⟩ := i3.drain rfl shape₂.woff_le
  have hdoff : g.bufDoff = 3 := hdone
  have hcap : g.writeBufferSize = 16 := writeBufferSize_of_writerSteps hg
  have h4 := h3.trans (FileState.reach_writer (fun _ => trivial) hg)
  refine ⟨_, h4, rfl, hpc, fun d hd hpre => ?_⟩
  have hfd := i4.between (by simp [hpc])
  rw [hdoff, hcap, List.take_of_length_le (by rw [hlog]; decide)] at hfd
  obtain rfl := Option.some.inj (hfd.symm.trans hd)
  have hle := hpre.length_le
  rw [hlog] at hle
  exact absurd (show 48 ≤ 16 from hle) (by decide)

/-- Both bounds are needed: `filesize_` is not the number of bytes where that reaches
`2 ^ 32`, and the file is no prefix of the records appended where one of them was too
long. -/
theorem file_prefix_bounds_needed :
    (∃ s : FileState, Reach (FileStep fun _ => 0) Always (.init 0 (2 ^ 32 - 1) (2 ^ 31) 0) s ∧
      s.appended.map (fun r => (r.key, r.val)) =
        [(List.replicate (2 ^ 31 - 16) 97, []), (List.replicate (2 ^ 31 - 16) 97, [])] ∧
      s.file.tid = some .looping ∧
      s.file.filesize.toNat ≠ ((s.file.bufs.take s.file.bufDoff).flatMap CacheWriteBuffer.data).length) ∧
    ∃ s : FileState, Reach (FileStep fun _ => 0) Always (.init 0 100 16 0) s ∧
      s.appended.map (fun r => (r.key, r.val)) = [([], [])] ∧ s.file.tid = some .looping ∧
      ∀ d, s.file.fd = some d → ¬ d <+: s.log fun _ => 0 :=
  ⟨filesize_wraps, refused_record_written⟩

end EmbeddedKv.Flash
