import EmbeddedKv.Flash.Prefix

/-!
# Reading what was appended

The addresses that `Append` returned, and what `Read` makes of them in a state that
the two parties can reach.

## What is proved

Every address returned is the place of its record in the log (`FileState.reach_at`),
if the offsets and sizes fit their 32-bit fields. With the invariant of the file this
makes `Readable` a matter of numbers (`Spared`): `readable_iff_spared`. Before the end
of the file it holds for every record, so `ReadBuffer` and `Read` return what was
appended (`read_appended`).
-/

namespace EmbeddedKv.Flash

open EmbeddedKv.Library Relation WriteableCacheFile

variable {crc : Bytes → UInt32} {cacheId maxSize writeBufferSize : UInt32} {tokens : ℕ} {s t : FileState}

/-! ### The addresses returned -/

/-- The offset and the size of the record appended, if there is one, fit into 32
bits. -/
def FileAct.InRange (crc : Bytes → UInt32) (s : FileState) : FileAct → Prop
  | .append key val | .body key val => (s.log crc).length < 2 ^ 32 ∧ recordSize key val < 2 ^ 32
  | _ => True

theorem FileAct.InRange.small {a : FileAct} (h : a.InRange crc s) : a.Small := by
  cases a with
  | append key val => exact h.2
  | body key val => exact h.2
  | dispatch => trivial
  | close => trivial
  | writer => trivial

/-- Every address returned is the place of its record in the log. -/
def FileState.Addressed (crc : Bytes → UInt32) (s : FileState) : Prop :=
  ∀ r ∈ s.appended, recordSize r.key r.val < 2 ^ 32 ∧ At (s.log crc) r.lba (image crc r.key r.val)

/-- One record more, at the end of the log. -/
theorem FileState.addressed_append {key val : Bytes} (h : s.Addressed crc) (hb : s.Booked crc)
    (hin : (s.log crc).length < 2 ^ 32 ∧ recordSize key val < 2 ^ 32) {cid : UInt32}
    (happ : t.appended = s.appended ++ [⟨⟨cid, s.file.diskWoff, CacheRecord.calcSize key val⟩, key, val⟩]) :
    t.Addressed crc := by
  have hlog : t.log crc = s.log crc ++ image crc key val := by simp [FileState.log, happ]
  intro r hr
  rw [happ, List.mem_append, List.mem_singleton] at hr
  rw [hlog]
  rcases hr with hr | rfl
  · obtain ⟨hsmall, hat⟩ := h r hr
    exact ⟨hsmall, hat.append (length_image_pos _ _ _) _⟩
  · refine ⟨hin.2, At.last ?_ ?_⟩
    · rw [hb, UInt32.toNat_ofNat', Nat.mod_eq_of_lt hin.1]
    · rw [CacheRecord.toNat_calcSize_of_lt hin.2, length_image]

/-- Every step keeps the addresses right. -/
theorem FileStep.addressed {a : FileAct} {log : Bytes} (hs : FileStep crc s a t) (h : s.Invariant log)
    (hb : s.Booked crc) (ha : s.Addressed crc) (hin : a.InRange crc s) : t.Addressed crc := by
  cases hs with
  | append hidle hr hd =>
    obtain rfl := WriteableCacheFile.eq_dispatched hd
    rcases h.file.appendBuffered_cases hr with ⟨-, hok, -⟩ | ⟨-, bufs, woff, more, -, ⟨-, -, rfl, -⟩ | ⟨hok, -, -⟩⟩
    · cases hok
    · exact FileState.addressed_append ha hb hin rfl
    · cases hok
  | refuse hidle hr => exact ha
  | body hidle hr =>
    rcases h.file.appendBuffered_cases hr with ⟨-, hok, -⟩ | ⟨-, bufs, woff, more, -, ⟨-, -, rfl, -⟩ | ⟨hok, -, -⟩⟩
    · cases hok
    · exact FileState.addressed_append ha hb hin rfl
    · cases hok
  | dispatch => exact ha
  | closeEof hstage => exact ha
  | closeWoff hstage => exact ha
  | closePost hstage => exact ha
  | writer hw => exact ha

/-- **Every address returned is the place of its record in the log.** -/
theorem FileState.reach_at (hc : 0 < writeBufferSize.toNat) {C : FileState → FileAct → Prop}
    (hC : ∀ s a, C s a → a.InRange crc s)
    (h : Reach (FileStep crc) C (init cacheId maxSize writeBufferSize tokens) s) :
    s.Invariant (s.log crc) ∧ s.Addressed crc := by
  have hall : s.Invariant (s.log crc) ∧ s.Booked crc ∧ s.Addressed crc := by
    refine h.invariant (P := fun s => s.Invariant (s.log crc) ∧ s.Booked crc ∧ s.Addressed crc)
      ⟨invariant_init _ _ _ hc, rfl, by simp [Addressed, init]⟩ ?_
    rintro s a t ⟨hs, hb, ha⟩ hca hstep
    obtain ⟨more, ht, hlog⟩ := hstep.invariant hs
    rw [← hlog (hC s a hca).small] at ht
    exact ⟨ht, hstep.booked hs hb, hstep.addressed hs hb ha (hC s a hca)⟩
  exact ⟨hall.1, hall.2.2⟩

/-! ### What can be read -/

namespace WriteableCacheFile

variable {f : WriteableCacheFile} {log : Bytes} {lba : LBA}

/-- The number of bytes in the buffers. -/
def stored (f : WriteableCacheFile) : ℕ := (f.bufs.flatMap CacheWriteBuffer.data).length

/-- **The record is spared by the hand-over**: the file has all of it, once the buffers
are gone; until then the buffers do, and `buf_woff_` has not been moved on over a
partly filled last buffer that the record reaches into. -/
def Spared (f : WriteableCacheFile) (lba : LBA) : Prop :=
  if f.bufs = [] then lba.off.toNat + lba.size.toNat ≤ (f.fd.getD []).length
  else lba.off.toNat + lba.size.toNat ≤ f.stored ∧
    (f.bufWoff ≤ f.stored / f.writeBufferSize.toNat ∨
      lba.off.toNat + lba.size.toNat ≤ f.stored / f.writeBufferSize.toNat * f.writeBufferSize.toNat)

instance (f : WriteableCacheFile) (lba : LBA) : Decidable (f.Spared lba) :=
  inferInstanceAs (Decidable (if _ = ([] : List CacheWriteBuffer) then _ ≤ _ else _ ≤ _ ∧ (_ ≤ _ ∨ _ ≤ _)))

/-- A consistent file holds a piece of its log. -/
theorem Consistent.holds (h : f.Consistent log) : f.Holds log := ⟨h.file_prefix, h.cut⟩

/-- The buffers hold the log as far as they go. -/
theorem Consistent.stored_eq (h : f.Consistent log) :
    f.stored = min (f.bufs.length * f.writeBufferSize.toNat) log.length := by
  rw [stored, h.cut.flatMap_data, List.length_take]

/-- With no buffer left there is something in the log at the end of the file only. -/
theorem Consistent.eof_of_nil (h : f.Consistent log) (hnil : f.bufs = []) (hlog : log ≠ []) : f.eof = true := by
  rcases h.room with hleft | hroom
  · exact h.eof_of_left hleft
  · rw [hnil, List.length_nil, Nat.zero_mul, Nat.le_zero, List.length_eq_zero_iff] at hroom
    exact absurd hroom hlog

/-- A buffer is full if the log reaches behind it. -/
theorem Consistent.free_eq_zero_iff (h : f.Consistent log) {i : ℕ} {b : CacheWriteBuffer}
    (hb : f.bufs[i]? = some b) : b.free = 0 ↔ (i + 1) * f.writeBufferSize.toNat ≤ f.stored := by
  obtain ⟨hsize, hdata⟩ := h.cut.getElem? hb
  have hpos := h.pos
  have hin : (i + 1) * f.writeBufferSize.toNat ≤ f.bufs.length * f.writeBufferSize.toNat :=
    Nat.mul_le_mul_right _ (List.getElem?_eq_some_iff.mp hb).1
  rw [h.stored_eq, CacheWriteBuffer.free, CacheWriteBuffer.used, hsize, hdata, List.length_take, List.length_drop]
  rw [Nat.succ_mul] at hin ⊢
  omega

/-- **What can be read**, in a consistent file. -/
theorem Consistent.readable_iff_spared (h : f.Consistent log) (hlog : log ≠ []) (hsize : 0 < lba.size.toNat) :
    f.Readable .writeBuffer lba ↔ f.Spared lba := by
  have hpos := h.pos
  by_cases hnil : f.bufs = []
  · have hcl : f.closed .writeBuffer = true := by simp [closed, h.eof_of_nil hnil hlog, hnil]
    rw [Readable, Spared, if_pos hnil, contents, if_pos hcl]
    exact and_iff_left fun hop => by simp [hcl] at hop
  · have hcl : f.closed .writeBuffer = false := by simp [closed, hnil]
    rw [Readable, Spared, if_neg hnil, contents, if_neg (by simp [hcl])]
    apply and_congr_right
    intro hle
    have hle' : lba.off.toNat + lba.size.toNat ≤ f.stored := hle
    have hstored : f.stored ≤ f.bufs.length * f.writeBufferSize.toNat := by
      rw [h.stored_eq]; exact Nat.min_le_left _ _
    have hwoff : f.stored / f.writeBufferSize.toNat ≤ f.bufWoff := by
      refine (Nat.div_le_div_right ?_).trans h.le_woff
      rw [h.stored_eq]; exact Nat.min_le_right _ _
    have hdiv := Nat.div_mul_le_self f.stored f.writeBufferSize.toNat
    have hlt := Nat.lt_mul_div_succ f.stored hpos
    rw [Nat.mul_comm, Nat.succ_mul] at hlt
    constructor
    · -- a record in the last buffer touches it while it has free space
      intro htouch
      by_contra hno
      obtain ⟨hbump, hreach⟩ := not_or.mp hno
      have hin : f.stored / f.writeBufferSize.toNat < f.bufs.length := by
        by_contra hge
        have := Nat.mul_le_mul_right f.writeBufferSize.toNat (Nat.not_lt.mp hge)
        omega
      have hb := List.getElem?_eq_getElem hin
      obtain ⟨-, hwoff' | hfree⟩ := htouch hcl _ _ hb (by omega) (by rw [Nat.succ_mul]; omega)
      · omega
      · rw [h.free_eq_zero_iff hb, Nat.succ_mul] at hfree
        omega
    · intro hsp _ i b hb hlt' hgt
      have hi : i * f.writeBufferSize.toNat < f.stored := by omega
      have hile : i ≤ f.stored / f.writeBufferSize.toNat := (Nat.le_div_iff_mul_le hpos).mpr (Nat.le_of_lt hi)
      refine ⟨hile.trans hwoff, ?_⟩
      by_cases hlast : i = f.bufWoff
      · exact .inl hlast
      · -- a buffer before the last is full
        right
        rw [h.free_eq_zero_iff hb, ← Nat.le_div_iff_mul_le hpos]
        rcases hsp with hbump | hreach
        · omega
        · have := Nat.lt_of_mul_lt_mul_right (Nat.lt_of_lt_of_le hlt' hreach)
          omega

/-- Before the end of the file every record is spared. -/
theorem Consistent.spared_of_open (h : f.Consistent log) (he : f.eof = false) {r : Bytes}
    (hat : At log lba r) (hr : 0 < r.length) : f.Spared lba := by
  have hle := hat.le hr
  have hshape := h.shaped he
  have hstored : f.stored = log.length := by rw [h.stored_eq, Nat.min_eq_right hshape.room]
  have hne : f.bufs ≠ [] := by
    intro hnil
    have hroom := hshape.room
    rw [hnil, List.length_nil, Nat.zero_mul] at hroom
    omega
  rw [Spared, if_neg hne, hstored, hat.1]
  exact ⟨hle, .inl (Nat.le_of_eq hshape.woff)⟩

end WriteableCacheFile

/-! ### Before the end of the file -/

/-- **A buffered read returns what was appended**: as long as `eof_` is not set, for
every address returned so far `ReadBuffer` passes its assertions and copies the bytes
of the record, and `Read` returns the key and the value. -/
theorem read_appended (hc : 0 < writeBufferSize.toNat)
    (h : Reach (FileStep crc) (fun s a => a.InRange crc s) (.init cacheId maxSize writeBufferSize tokens) s)
    (he : s.file.eof = false) {r : Appended} (hr : r ∈ s.appended) :
    s.file.readBuffer r.lba = .ok (true, image crc r.key r.val) ∧
      (NulFree r.key → NulFree r.val → ∀ env,
        s.file.read crc .writeBuffer env r.lba = .ok (some (r.key, r.val))) := by
  obtain ⟨hinv, haddr⟩ := FileState.reach_at hc (fun _ _ ha => ha) h
  obtain ⟨hsmall, hat⟩ := haddr r hr
  have hpos := length_image_pos crc r.key r.val
  obtain ⟨hsize, hlog⟩ := hat.nonempty hpos
  have hcl : s.file.closed .writeBuffer = false := by simp [closed, he]
  have hread := (hinv.file.readable_iff_spared hlog hsize).mpr (hinv.file.spared_of_open he hat hpos)
  refine ⟨?_, fun hk hv env => (read_open_iff hcl hinv.file.holds hat hk hv hsmall env).mpr hread⟩
  obtain ⟨hle, htouch⟩ := hread
  rw [contents, if_neg (by simp [hcl])] at hle
  refine (readBuffer_iff _ hinv.file.cut hsize).mpr ⟨?_, hle, htouch hcl⟩
  rw [hat.1]
  exact hat.2.symm

/-- Two records over four buffers of ten bytes. -/
theorem read_appended_split : ∃ s : FileState, s.file.bufs.length = 4 ∧ ∀ r ∈ s.appended,
    s.file.readBuffer r.lba = .ok (true, image (fun _ => 0) r.key r.val) ∧
      ∀ env, s.file.read (fun _ => 0) .writeBuffer env r.lba = .ok (some (r.key, r.val)) := by
  have h0 := Reach.refl (R := FileStep fun _ => 0) (C := fun s a => a.InRange (fun _ => 0) s) (.init 0 100 10 0)
  have h1 := h0.step (a := .append [97] [1, 2, 3]) ⟨by decide, by decide⟩ (.append rfl rfl rfl)
  have h2 := h1.step (a := .append [98] [4]) ⟨by decide, by decide⟩ (.append rfl rfl rfl)
  have hnul : ∀ r ∈ [(⟨⟨0, 0, 20⟩, [97], [1, 2, 3]⟩ : Appended), ⟨⟨0, 20, 18⟩, [98], [4]⟩],
      NulFree r.key ∧ NulFree r.val := by decide
  have hread := fun r hr => read_appended (r := r) (by decide) h2 rfl hr
  exact ⟨_, rfl, fun r hr => ⟨(hread r hr).1, (hread r hr).2 (hnul r hr).1 (hnul r hr).2⟩⟩

end EmbeddedKv.Flash
