import EmbeddedKv.Flash.File

/-!
# Reading a record

When `WriteableCacheFile::Read` gives back the record that the log has at an address,
from the buffers or from the file.

## What is proved

`readBuffer_iff` says exactly when `ReadBuffer` passes all its assertions, and that
it then copies the addressed bytes of the log. `preadLoop_enough` says the same of
the loop around `pread` for files that hold the bytes, however the reads are split.
Together they give `read_iff`: for an address at which the log has the record of a
key and a value without zero bytes, `Read` returns them exactly when the record is
`Readable`, a condition on the file object only.
-/

namespace EmbeddedKv.Flash

open EmbeddedKv.Library CacheWriteBuffer

/-! ### Addresses -/

/-- The log has the bytes `r` at the address. -/
def At (log : Bytes) (lba : LBA) (r : Bytes) : Prop :=
  lba.size.toNat = r.length ∧ (log.drop lba.off.toNat).take r.length = r

theorem At.le {log : Bytes} {lba : LBA} {r : Bytes} (h : At log lba r) (hr : 0 < r.length) :
    lba.off.toNat + r.length ≤ log.length := by
  have hl := congrArg List.length h.2
  rw [List.length_take, List.length_drop] at hl
  omega

/-- Something is at the address, and in the log. -/
theorem At.nonempty {log : Bytes} {lba : LBA} {r : Bytes} (h : At log lba r) (hr : 0 < r.length) :
    0 < lba.size.toNat ∧ log ≠ [] := by
  refine ⟨by rw [h.1]; exact hr, ?_⟩
  rintro rfl
  have hle := h.le hr
  rw [List.length_nil] at hle
  omega

/-- A log that grows keeps what it has at an address. -/
theorem At.append {log : Bytes} {lba : LBA} {r : Bytes} (h : At log lba r) (hr : 0 < r.length)
    (more : Bytes) : At (log ++ more) lba r := by
  have hle := h.le hr
  refine ⟨h.1, ?_⟩
  rw [List.drop_append_of_le_length (by omega), List.take_append_of_le_length]
  · exact h.2
  · rw [List.length_drop]; omega

/-- What is appended is at the address that names the end of the log. -/
theorem At.last {log : Bytes} {lba : LBA} {r : Bytes} (hoff : lba.off.toNat = log.length)
    (hsize : lba.size.toNat = r.length) : At (log ++ r) lba r := by
  refine ⟨hsize, ?_⟩
  rw [hoff, List.drop_left, List.take_length]

/-- An address with bytes of the log at it determines them. -/
theorem At.unique {log : Bytes} {lba : LBA} {r r' : Bytes} (h : At log lba r) (h' : At log lba r') :
    r = r' := by
  have hl : r.length = r'.length := h.1.symm.trans h'.1
  rw [← h.2, ← h'.2, hl]

/-! ### The loops -/

/-- No result is needed for nothing. -/
theorem Enough.of_cons {r : IoResult} {rs : List IoResult} {n : ℕ} (h : Enough (r :: rs) n) :
    r ≠ .failed ∧ Enough rs (if r.isMoved then n - 1 else n) := by
  obtain ⟨hf, hn⟩ := h
  refine ⟨hf r (by simp), fun x hx => hf x (List.mem_cons_of_mem _ hx), ?_⟩
  rw [List.countP_cons] at hn
  split_ifs with hm
  · simp only [hm, if_true] at hn; omega
  · simpa [hm] using hn

theorem Enough.mono {rs : List IoResult} {m n : ℕ} (h : Enough rs n) (hmn : m ≤ n) : Enough rs m :=
  ⟨h.1, le_trans hmn h.2⟩

/-- As many results as there are bytes are enough. -/
theorem enough_replicate (n : ℕ) {k : ℕ} : Enough (List.replicate n (.moved k)) n := by
  refine ⟨fun r hr => by rw [List.eq_of_mem_replicate hr]; simp, ?_⟩
  rw [List.countP_replicate]
  simp [IoResult.isMoved]

namespace WriteableCacheFile

/-- **The write loop**: whatever the results, when it ends all of `src` is in the
file. -/
theorem writeLoop_ok {rs : List IoResult} {file src file' : Bytes}
    (h : writeLoop rs file src = .ok file') : file' = file ++ src := by
  induction rs generalizing file src with
  | nil => cases src <;> simp_all [writeLoop]
  | cons r rs ih =>
    cases src with
    | nil => simp_all [writeLoop]
    | cons x src =>
      cases r with
      | moved n =>
        rw [ih h, List.append_assoc, List.take_append_drop]
      | eintr => exact ih h
      | failed => simp [writeLoop] at h

/-- The write loop ends, however short the writes are. -/
theorem writeLoop_enough {rs : List IoResult} {file src : Bytes} (h : Enough rs src.length) :
    writeLoop rs file src = .ok (file ++ src) := by
  induction rs generalizing file src with
  | nil =>
    have hnil : src = [] := by simpa using h.2
    subst hnil
    simp [writeLoop]
  | cons r rs ih =>
    cases src with
    | nil => simp [writeLoop]
    | cons x src =>
      obtain ⟨hr, hrest⟩ := h.of_cons
      cases r with
      | moved n =>
        rw [writeLoop, ih, List.append_assoc, List.take_append_drop]
        · exact hrest.mono (by simp [IoResult.isMoved])
        · simp
      | eintr => exact ih hrest
      | failed => exact absurd rfl hr

/-- **The read loop**: if the file holds the bytes, it reads all of them, however the
reads are split. -/
theorem preadLoop_enough {rs : List IoResult} {eintr : Bool} {rest : Bytes} {left : ℕ} {acc : Bytes}
    {neg : Bool} (h : Enough rs left) (hlen : left ≤ rest.length) :
    preadLoop rs eintr rest left acc neg = .ok (acc ++ rest.take left, if left = 0 then neg else false) := by
  induction rs generalizing eintr rest left acc neg with
  | nil =>
    have hz : left = 0 := by simpa using h.2
    subst hz
    simp [preadLoop]
  | cons r rs ih =>
    cases left with
    | zero => simp [preadLoop]
    | succ left =>
      obtain ⟨hr, hrest⟩ := h.of_cons
      cases r with
      | moved n =>
        have hne : rest ≠ [] := by rintro rfl; simp at hlen
        have hgot : (rest.take (min (n + 1) (left + 1))).length = min (n + 1) (left + 1) := by
          rw [List.length_take]; omega
        rw [preadLoop, if_neg hne]
        simp only [hgot]
        have hsum : min (n + 1) (left + 1) + (left + 1 - min (n + 1) (left + 1)) = left + 1 := by omega
        rw [ih, List.append_assoc, ← List.take_add, hsum]
        · simp
        · exact hrest.mono (by simp [IoResult.isMoved])
        · rw [List.length_drop]; omega
        · simp
      | eintr =>
        have hrest' : Enough rs (left + 1) := hrest
        rw [preadLoop, ih hrest' hlen]
        · simp
        · simp
      | failed => exact absurd rfl hr

/-- What the read loop reads is a piece of the file. -/
theorem preadLoop_ok {rs : List IoResult} {eintr : Bool} {rest : Bytes} {left : ℕ} {acc out : Bytes}
    {neg neg' : Bool} (h : preadLoop rs eintr rest left acc neg = .ok (out, neg')) :
    ∃ m, out = acc ++ rest.take m := by
  induction rs generalizing eintr rest left acc neg with
  | nil =>
    cases left with
    | zero => exact ⟨0, by simp_all [preadLoop]⟩
    | succ left => simp [preadLoop] at h
  | cons r rs ih =>
    cases left with
    | zero => exact ⟨0, by simp_all [preadLoop]⟩
    | succ left =>
      cases r with
      | moved n =>
        rw [preadLoop] at h
        · by_cases hne : rest = []
          · rw [if_pos hne] at h
            cases eintr with
            | true => exact ih (by simpa using h)
            | false => exact ⟨0, by simp_all⟩
          · rw [if_neg hne] at h
            obtain ⟨m, hm⟩ := ih h
            refine ⟨(rest.take (min (n + 1) (left + 1))).length + m, ?_⟩
            rw [hm, List.append_assoc, List.take_add, List.length_take]
            congr 2
            rw [List.take_eq_take_iff]; omega
        · simp
      | eintr =>
        rw [preadLoop] at h
        · exact ih h
        · simp
      | failed =>
        rw [preadLoop] at h
        · exact ⟨0, by simp_all⟩
        · simp

/-- What holds of the buffers that begin before the end of a reading holds of the first one
and, counted from there, of the others. -/
theorem forall_buffers_cons {c m i : ℕ} {P : ℕ → CacheWriteBuffer → Prop} {buf : CacheWriteBuffer}
    {bufs : List CacheWriteBuffer} (hm : 0 < m) :
    (∀ j b, (buf :: bufs)[j]? = some b → j * c < m → P (i + j) b) ↔
      P i buf ∧ ∀ j b, bufs[j]? = some b → j * c < m - c → P (i + 1 + j) b := by
  constructor
  · refine fun h => ⟨h 0 buf rfl (by omega), fun j b hb hlt => ?_⟩
    have := h (j + 1) b hb (by rw [Nat.succ_mul]; omega)
    rwa [show i + 1 + j = i + (j + 1) by omega]
  · rintro ⟨hfirst, hrest⟩ j b hb hlt
    cases j with
    | zero => rwa [← Option.some.inj hb]
    | succ j =>
      rw [Nat.succ_mul] at hlt
      have := hrest j b hb (by omega)
      rwa [show i + (j + 1) = i + 1 + j by omega]

/-- The buffers that a reading touches, counted from the one it begins in, are those that
end behind its offset. -/
theorem forall_buffers_drop {c : ℕ} {P : ℕ → CacheWriteBuffer → Prop} (off size : ℕ) (hc : 0 < c)
    (bufs : List CacheWriteBuffer) :
    (∀ j b, (bufs.drop (off / c))[j]? = some b → j * c < off % c + size → P (off / c + j) b) ↔
      ∀ i b, bufs[i]? = some b → i * c < off + size → off < (i + 1) * c → P i b := by
  have hoff : off / c * c + off % c = off := Nat.div_add_mod' off c
  have hmod : off % c < c := Nat.mod_lt off hc
  constructor
  · intro hj i b hb hlt hgt
    have hle : off / c ≤ i := Nat.le_of_lt_succ (Nat.div_lt_of_lt_mul (by rwa [Nat.mul_comm]))
    obtain ⟨j, rfl⟩ := Nat.exists_eq_add_of_le hle
    exact hj j b (by rwa [List.getElem?_drop]) (by rw [Nat.add_mul] at hlt; omega)
  · intro hi j b hb hlt
    refine hi (off / c + j) b (by rwa [List.getElem?_drop] at hb) (by rw [Nat.add_mul]; omega) ?_
    rw [Nat.add_mul, Nat.add_mul]; omega

/-- **The loop of `ReadBuffer`** reads everything exactly when it is there and no
buffer on the way but the one at `woff` has free space. The induction follows the
buffers; after the first one the reading goes on at the start of the next. -/
theorem readBufferLoop_iff {c : ℕ} (woff i : ℕ) {bufs : List CacheWriteBuffer} {rem : Bytes}
    {total off : ℕ} (tmp out : Bytes) (h : Cut c bufs rem) (hoff : off < c) (hpos : total = 0 → off = 0) :
    readBufferLoop woff i bufs total off tmp = .ok (0, out) ↔
      out = tmp ++ (rem.drop off).take total ∧ off + total ≤ (rem.take (bufs.length * c)).length ∧
        ∀ j b, bufs[j]? = some b → j * c < off + total → i + j ≤ woff ∧ (i + j = woff ∨ b.free = 0) := by
  induction bufs generalizing i rem total off tmp with
  | nil =>
    cases total with
    | zero => simp [readBufferLoop, hpos rfl, eq_comm]
    | succ total => simp [readBufferLoop]
  | cons buf bufs ih =>
    cases total with
    | zero => simp [readBufferLoop, hpos rfl, eq_comm]
    | succ total =>
      obtain ⟨hsize, hdata, htail⟩ := h.head
      have hused : buf.used = min c rem.length := by
        rw [CacheWriteBuffer.used, hdata, List.length_take]
      have hlen : (rem.take ((buf :: bufs).length * c)).length = min (bufs.length * c + c) rem.length := by
        rw [List.length_take, List.length_cons, Nat.succ_mul]
      rw [readBufferLoop, hlen, forall_buffers_cons (P := fun i b => i ≤ woff ∧ (i = woff ∨ b.free = 0)) (by omega)]
      swap
      · simp
      by_cases hpass : i ≤ woff ∧ (i = woff ∨ buf.free = 0)
      · rw [if_neg (not_not.mpr hpass.1), if_neg (not_not.mpr hpass.2), and_iff_right hpass]
        by_cases h3 : buf.used < off
        · -- the buffer does not reach the offset
          rw [if_pos h3]
          refine ⟨fun hf => (by cases hf), fun ⟨_, hle, _⟩ => ?_⟩
          omega
        rw [if_neg h3]
        by_cases h4 : buf.used - off < total + 1
        · simp only [h4, if_true]
          rw [ih _ _ htail (Nat.zero_lt_of_lt hoff) (fun _ => rfl)]
          by_cases hfull : c ≤ rem.length
          · -- the buffer is read to its end, and the reading goes on
            have hrest : (rem.drop off).take (total + 1) =
                (buf.data.drop off).take (buf.used - off) ++
                  (rem.drop c).take (total + 1 - (buf.used - off)) := by
              have hu : buf.used = c := by omega
              have hsplit : total + 1 = (c - off) + (total + 1 - (c - off)) := by omega
              rw [hu, hdata, List.drop_take, List.take_take, Nat.min_self]
              conv_lhs => rw [hsplit, List.take_add, List.drop_drop]
              rw [show off + (c - off) = c by omega]
            rw [hrest, ← List.append_assoc, List.drop_zero, List.length_take, List.length_drop]
            have hend : 0 + (total + 1 - (buf.used - off)) = off + (total + 1) - c := by omega
            rw [hend]
            exact and_congr Iff.rfl (and_congr (by omega) Iff.rfl)
          · -- the buffer is the last with anything in it
            refine ⟨fun ⟨_, hle, _⟩ => ?_, fun ⟨_, hle, _⟩ => ?_⟩
            · rw [List.length_take, List.length_drop] at hle; omega
            · omega
        · -- the buffer holds all that is left to read
          simp only [h4, if_false]
          rw [ih _ _ htail (Nat.zero_lt_of_lt hoff) (fun _ => rfl)]
          have hout : (buf.data.drop off).take (total + 1) = (rem.drop off).take (total + 1) := by
            rw [hdata, List.drop_take, List.take_take, Nat.min_eq_left (by omega)]
          rw [hout, Nat.sub_self, List.take_zero, List.append_nil]
          have hend : off + (total + 1) - c = 0 := by omega
          rw [hend]
          exact and_congr Iff.rfl ⟨fun _ => ⟨by omega, fun j b _ hlt => by omega⟩,
            fun _ => ⟨Nat.zero_le _, fun j b _ hlt => by omega⟩⟩
      · -- an assertion fails at the buffer
        refine ⟨fun hf => ?_, fun ⟨_, _, hfirst, _⟩ => absurd hfirst hpass⟩
        by_cases h1 : i ≤ woff
        · rw [if_neg (not_not.mpr h1), if_pos (fun h2 => hpass ⟨h1, h2⟩)] at hf
          cases hf
        · rw [if_pos h1] at hf
          cases hf

/-- **`ReadBuffer`** passes all its assertions exactly when the addressed bytes are in
the buffers and no buffer with free space other than the one at `buf_woff_` is
touched; it then returns `true` and `scratch` has those bytes of the log. -/
theorem readBuffer_iff {f : WriteableCacheFile} {log : Bytes} {lba : LBA} (out : Bytes)
    (h : Cut f.writeBufferSize.toNat f.bufs log) (hsize : 0 < lba.size.toNat) :
    f.readBuffer lba = .ok (true, out) ↔
      out = (log.drop lba.off.toNat).take lba.size.toNat ∧
        lba.off.toNat + lba.size.toNat ≤ (f.bufs.flatMap CacheWriteBuffer.data).length ∧
        ∀ i b, f.bufs[i]? = some b → i * f.writeBufferSize.toNat < lba.off.toNat + lba.size.toNat →
          lba.off.toNat < (i + 1) * f.writeBufferSize.toNat →
          i ≤ f.bufWoff ∧ (i = f.bufWoff ∨ b.free = 0) := by
  rw [h.flatMap_data]
  unfold readBuffer
  generalize f.writeBufferSize.toNat = c at h ⊢
  generalize lba.off.toNat = off
  generalize lba.size.toNat = size at hsize ⊢
  by_cases hc : c = 0
  · subst hc
    refine ⟨fun hf => (by simp at hf), fun ⟨_, hle, _⟩ => ?_⟩
    simp at hle; omega
  rw [if_neg hc]
  have hpos : 0 < c := Nat.pos_of_ne_zero hc
  have hoff : off / c * c + off % c = off := Nat.div_add_mod' off c
  have hmod : off % c < c := Nat.mod_lt off hpos
  have hloop := fun out : Bytes => readBufferLoop_iff f.bufWoff (off / c) [] out (h.drop (off / c)) hmod
    (fun hz : size = 0 => absurd hz (Nat.ne_of_gt hsize))
  have hrest : (log.drop (off / c * c)).drop (off % c) = log.drop off := by rw [List.drop_drop, hoff]
  have hlen : off % c + size ≤ ((log.drop (off / c * c)).take ((f.bufs.drop (off / c)).length * c)).length ↔
      off + size ≤ (log.take (f.bufs.length * c)).length := by
    simp only [List.length_take, List.length_drop, Nat.sub_mul]
    omega
  have htouch := forall_buffers_drop (P := fun i b => i ≤ f.bufWoff ∧ (i = f.bufWoff ∨ b.free = 0)) off size hpos
    f.bufs
  simp only [hrest, hlen, htouch, List.nil_append] at hloop
  rw [← hloop]
  simp only
  by_cases hstart : off / c ≤ f.bufWoff
  · rw [if_neg (not_not.mpr hstart)]
    cases hres : readBufferLoop f.bufWoff (off / c) (f.bufs.drop (off / c)) size (off % c) [] with
    | error e => simp
    | ok r =>
      obtain ⟨total, tmp⟩ := r
      by_cases ht : total = 0
      · subst ht
        obtain ⟨htmp, hle, -⟩ := (hloop tmp).mp hres
        have hl : tmp.length = size := by
          rw [List.length_take] at hle
          rw [htmp, List.length_take, List.length_drop]; omega
        simp [hl]
      · simp [ht]
  · -- the first buffer would be touched
    rw [if_pos hstart]
    refine ⟨fun hf => (by cases hf), fun hres => absurd ?_ hstart⟩
    obtain ⟨-, hle, hi⟩ := (hloop out).mp hres
    have hlt : off / c < f.bufs.length := by
      rw [List.length_take] at hle
      exact Nat.div_lt_of_lt_mul (by rw [Nat.mul_comm]; omega)
    exact (hi (off / c) f.bufs[off / c] (List.getElem?_eq_getElem hlt) (by omega)
      (by rw [Nat.add_mul]; omega)).1

/-! ### Reading through the object -/

/-- The bytes `Read` looks at: those of the file, or the used bytes of the buffers. -/
def contents (mode : FlashcacheMode) (f : WriteableCacheFile) : Bytes :=
  if f.closed mode then f.fd.getD [] else f.bufs.flatMap CacheWriteBuffer.data

/-- **The record at the address can be read**: all its bytes are where `Read` looks,
and if that is the buffers, the record touches no buffer with free space other than
the one at `buf_woff_`, and none behind it. -/
def Readable (mode : FlashcacheMode) (f : WriteableCacheFile) (lba : LBA) : Prop :=
  lba.off.toNat + lba.size.toNat ≤ (f.contents mode).length ∧
    (f.closed mode = false → ∀ i b, f.bufs[i]? = some b →
      i * f.writeBufferSize.toNat < lba.off.toNat + lba.size.toNat →
      lba.off.toNat < (i + 1) * f.writeBufferSize.toNat →
      i ≤ f.bufWoff ∧ (i = f.bufWoff ∨ b.free = 0))

/-- What the object has in its file and in its buffers is what the log says. -/
structure Holds (f : WriteableCacheFile) (log : Bytes) : Prop where
  /-- The file is a prefix of the log. -/
  file : ∃ d, f.fd = some d ∧ d <+: log
  /-- So are the buffers, cut into chunks. -/
  bufs : Cut f.writeBufferSize.toNat f.bufs log

variable {crc : Bytes → UInt32} {mode : FlashcacheMode} {f : WriteableCacheFile} {log key val : Bytes}
  {lba : LBA}

/-- From the file: all the bytes are there. -/
theorem read_closed_of_le (hcl : f.closed mode = true) (h : f.Holds log)
    (hat : At log lba (image crc key val)) (hk : NulFree key) (hv : NulFree val)
    (hsize : recordSize key val < 2 ^ 32) {env : Environment} (hio : Enough env.preads lba.size.toNat)
    (hle : lba.off.toNat + lba.size.toNat ≤ (f.contents mode).length) :
    f.read crc mode env lba = .ok (some (key, val)) := by
  obtain ⟨d, hd, hpre⟩ := h.file
  have hs : lba.size.toNat = recordSize key val := by rw [hat.1, length_image]
  have hpos : 0 < lba.size.toNat := by rw [hs]; exact recordSize_pos key val
  rw [contents, if_pos hcl, hd, Option.getD_some] at hle
  have hbytes : (d.drop lba.off.toNat).take lba.size.toNat = image crc key val := by
    obtain ⟨t, rfl⟩ := hpre
    have h2 := hat.2
    rw [List.drop_append_of_le_length (by omega), List.take_append_of_le_length, ← hat.1] at h2
    · exact h2
    · rw [List.length_drop, ← hat.1]; omega
  unfold read
  rw [if_pos hcl, hd]
  simp only
  rw [preadLoop_enough hio (by rw [List.length_drop]; omega), List.nil_append, hbytes]
  simp only [Nat.ne_of_gt hpos, if_false, Bool.false_eq_true, length_image]
  rw [CacheRecord.deserialize_image crc hk hv hsize]
  rfl

/-- From the file: what was accepted was there. -/
theorem le_of_read_closed (hcl : f.closed mode = true) (h : f.Holds log)
    (hat : At log lba (image crc key val)) (hsize : recordSize key val < 2 ^ 32) {env : Environment}
    {r : Bytes × Bytes} (hr : f.read crc mode env lba = .ok (some r)) :
    lba.off.toNat + lba.size.toNat ≤ (f.contents mode).length := by
  obtain ⟨d, hd, hpre⟩ := h.file
  have hs : lba.size.toNat = recordSize key val := by rw [hat.1, length_image]
  have hpos : 0 < lba.size.toNat := by rw [hs]; exact recordSize_pos key val
  rw [contents, if_pos hcl, hd, Option.getD_some]
  unfold read at hr
  rw [if_pos hcl, hd] at hr
  simp only at hr
  cases hl : preadLoop env.preads env.errnoEintr (d.drop lba.off.toNat) lba.size.toNat [] true with
  | error e => rw [hl] at hr; cases hr
  | ok p =>
    obtain ⟨out, neg⟩ := p
    rw [hl] at hr
    simp only [Except.ok.injEq, Option.map_eq_some_iff] at hr
    obtain ⟨rec, hrec, -⟩ := hr
    obtain ⟨h16, hsum⟩ := CacheRecord.deserialize_size hrec
    cases neg with
    | true => simp [headerSize] at h16
    | false =>
      simp only [Bool.false_eq_true, if_false] at h16 hsum
      obtain ⟨m, hm⟩ := preadLoop_ok hl
      rw [List.nil_append] at hm
      -- the header is there, and announces the size of the record
      have hhdr : out.take headerSize = (CacheRecord.new crc key val).hdr.bytes := by
        have hpre' : out <+: log.drop lba.off.toNat := by
          obtain ⟨t, rfl⟩ := hpre
          rw [hm, List.drop_append]
          exact (List.take_prefix _ _).trans (List.prefix_append _ _)
        have himg : (CacheRecord.new crc key val).hdr.bytes <+: log.drop lba.off.toNat := by
          refine List.IsPrefix.trans ?_ (List.take_prefix (image crc key val).length _)
          rw [hat.2, image, CacheRecord.bytes, List.append_assoc]
          exact List.prefix_append _ _
        have := List.prefix_of_prefix_length_le himg hpre' (by simpa using h16)
        rw [List.prefix_iff_eq_take] at this
        rw [this, CacheRecordHeader.length_bytes]
      have hmem : out ++ env.scratch.drop out.length =
          (CacheRecord.new crc key val).hdr.bytes ++ (out.drop headerSize ++ env.scratch.drop out.length) := by
        rw [← hhdr, ← List.append_assoc, List.take_append_drop]
      rw [hmem, CacheRecordHeader.ofBytes_bytes_append, headerSum_image crc hsize] at hsum
      have hol : out.length ≤ d.length - lba.off.toNat := by
        rw [hm, List.length_take, List.length_drop]; omega
      omega

/-- From the buffers: all the bytes are there, and no assertion fails on the way. -/
theorem read_open_iff (hcl : f.closed mode = false) (h : f.Holds log)
    (hat : At log lba (image crc key val)) (hk : NulFree key) (hv : NulFree val)
    (hsize : recordSize key val < 2 ^ 32) (env : Environment) :
    f.read crc mode env lba = .ok (some (key, val)) ↔ f.Readable mode lba := by
  have hs : lba.size.toNat = recordSize key val := by rw [hat.1, length_image]
  have hpos : 0 < lba.size.toNat := by rw [hs]; exact recordSize_pos key val
  have hcontents : f.contents mode = f.bufs.flatMap CacheWriteBuffer.data := by
    rw [contents, hcl, if_neg Bool.false_ne_true]
  have himage : (log.drop lba.off.toNat).take lba.size.toNat = image crc key val := by
    rw [hat.1]; exact hat.2
  have hiff := fun out : Bytes => readBuffer_iff out h.bufs hpos
  rw [Readable, hcontents]
  unfold read
  rw [hcl, if_neg Bool.false_ne_true]
  constructor
  · intro hr
    cases hb : f.readBuffer lba with
    | error e => rw [hb] at hr; cases hr
    | ok p =>
      obtain ⟨b, tmp⟩ := p
      rw [hb] at hr
      cases b with
      | false => simp at hr
      | true =>
        obtain ⟨-, hle, htouch⟩ := (hiff tmp).mp hb
        exact ⟨hle, fun _ => htouch⟩
  · rintro ⟨hle, htouch⟩
    rw [(hiff _).mpr ⟨rfl, hle, htouch rfl⟩]
    simp only [himage]
    rw [hs, CacheRecord.deserialize_image crc hk hv hsize]
    rfl

/-- **`Read`**: for an address at which the log has a record whose key and value hold
no zero byte, it returns them exactly when the record can be read. -/
theorem read_iff (h : f.Holds log) (hat : At log lba (image crc key val)) (hk : NulFree key)
    (hv : NulFree val) (hsize : recordSize key val < 2 ^ 32) {env : Environment}
    (hio : Enough env.preads lba.size.toNat) :
    f.read crc mode env lba = .ok (some (key, val)) ↔ f.Readable mode lba := by
  cases hcl : f.closed mode with
  | false => exact read_open_iff hcl h hat hk hv hsize env
  | true =>
    constructor
    · intro hr
      exact ⟨le_of_read_closed hcl h hat hsize hr, fun ho => absurd (hcl.symm.trans ho) (by decide)⟩
    · intro hr
      exact read_closed_of_le hcl h hat hk hv hsize hio hr.1

end WriteableCacheFile

end EmbeddedKv.Flash
