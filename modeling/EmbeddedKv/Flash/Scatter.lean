import EmbeddedKv.Flash.Writer

/-!
# Scattering a record over buffers

`ExpandBuffer` makes room for a record, and the three calls of `CacheRecord::Append` in
`Serialize` put its header, its key and its value there, each from the index on that the
one before it has left.

## The model

`CacheRecord.appendRounds` is the loop of `CacheRecord::Append` as it is written: it goes on
while there are bytes left and buffers, changes the buffer at `*woff`, and has its two
assertions. It ends, and is the loop over the rest of the buffers (`appendRounds_eq`),
whatever the buffers hold. The shape of the buffers is said buffer by buffer (`Filled`), and
is the one of a log cut into chunks (`filled_iff_shaped`).

## What is proved

`record_scattered`: once `ExpandBuffer` has made room for all of the record, which takes no
more empty buffers than it needs, the record goes behind what the buffers hold, and they keep
their shape. `Append` asks for the size of the record as a `uint32_t`, so it can be refused
from `2 ^ 32` bytes on, and only there.
-/

namespace EmbeddedKv.Flash

open EmbeddedKv.Library CacheWriteBuffer

variable {c woff fuel : ℕ} {buf : CacheWriteBuffer} {bufs : List CacheWriteBuffer} {data log : Bytes}

/-! ### The loop -/

/-- There is room for as many bytes as are free. -/
theorem length_take_free (buf : CacheWriteBuffer) (p : Bytes) : (p.take buf.free).length ≤ buf.free :=
  List.length_take_le _ _

/-- The body of the loop of `CacheRecord::Append` up to its last `if`: the buffer, and the
bytes from `p` on. -/
def CacheRecord.appendBody (buf : CacheWriteBuffer) (p : Bytes) : Except Stop (CacheWriteBuffer × Bytes) :=
  if h : p.length ≤ buf.free then .ok (buf.append p h, [])
  else
    let buf' := buf.append (p.take buf.free) (length_take_free buf p)
    -- `assert(!buf->Free())`, then `assert(buf->Used() == buf->Capacity())`
    if buf'.free = 0 ∧ buf'.used = buf'.size then .ok (buf', p.drop buf.free) else .error .abort

/-- **The loop of `CacheRecord::Append`** with room for `fuel` rounds: the buffers, `*woff`,
and the bytes from `p` on. -/
def CacheRecord.appendRounds : ℕ → List CacheWriteBuffer → ℕ → Bytes → Except Stop (List CacheWriteBuffer × ℕ × Bytes)
  | 0, bufs, woff, p => if p = [] ∨ bufs.length ≤ woff then .ok (bufs, woff, p) else .error .unfinished
  | fuel + 1, bufs, woff, p =>
    if p = [] then .ok (bufs, woff, p)
    else
      match bufs[woff]? with
      | none => .ok (bufs, woff, p)
      | some buf =>
        match appendBody buf p with
        | .error e => .error e
        | .ok (buf', p') => appendRounds fuel (bufs.set woff buf') (if buf'.free = 0 then woff + 1 else woff) p'

/-- `CacheRecord::Append(bufs, woff, data, size)` with its assertions. -/
def CacheRecord.appendAsserting (bufs : List CacheWriteBuffer) (woff : ℕ) (data : Bytes) :
    Except Stop (Bool × List CacheWriteBuffer × ℕ) :=
  match appendRounds (bufs.length - woff + 1) bufs woff data with
  | .error e => .error e
  | .ok (bufs, woff, left) => .ok (left.isEmpty, bufs, woff)

/-- `CacheRecord::Serialize(bufs, woff)` with the assertions of its calls. -/
def CacheRecord.serializeAsserting (r : CacheRecord) (bufs : List CacheWriteBuffer) (woff : ℕ) :
    Except Stop (Bool × List CacheWriteBuffer × ℕ) :=
  match appendAsserting bufs woff r.hdr.bytes with
  | .error e => .error e
  | .ok (false, bufs, woff) => .ok (false, bufs, woff)
  | .ok (true, bufs, woff) =>
    match appendAsserting bufs woff r.key with
    | .error e => .error e
    | .ok (false, bufs, woff) => .ok (false, bufs, woff)
    | .ok (true, bufs, woff) => appendAsserting bufs woff r.val

/-- What is free after a buffer has taken some bytes. -/
theorem free_append (buf : CacheWriteBuffer) (p : Bytes) (h : p.length ≤ buf.free) :
    (buf.append p h).free = buf.free - p.length := by
  simp only [free, used, size_append, data_append, List.length_append]
  omega

/-- **The assertions hold**: a buffer that has not enough room for all of the bytes is full
after it has taken as many as it can. -/
theorem CacheRecord.appendBody_of_lt (h : ¬ data.length ≤ buf.free) : CacheRecord.appendBody buf data =
    .ok (buf.append (data.take buf.free) (length_take_free buf data), data.drop buf.free) := by
  have hfits := buf.fits
  have hlen : (data.take buf.free).length = buf.free := List.length_take_of_le (Nat.le_of_not_le h)
  have hfree : (buf.append (data.take buf.free) (length_take_free buf data)).free = 0 := by
    rw [free_append, hlen, Nat.sub_self]
  have hused : (buf.append (data.take buf.free) (length_take_free buf data)).used = buf.size := by
    rw [used, data_append, List.length_append, hlen, free, used]
    omega
  rw [CacheRecord.appendBody, dif_neg h]
  exact if_pos ⟨hfree, hused⟩

/-- Nothing is left to do. -/
theorem CacheRecord.appendRounds_nil (fuel : ℕ) (bufs : List CacheWriteBuffer) (woff : ℕ) :
    CacheRecord.appendRounds fuel bufs woff [] = .ok (bufs, woff, []) := by
  cases fuel with
  | zero => exact if_pos (.inl rfl)
  | succ fuel => exact if_pos rfl

/-- **The loop ends**, with no assertion failing, and does to the buffers from `*woff` on
what `appendLoop` does. The induction is on the rounds, and each one but the last moves
`*woff` on. -/
theorem CacheRecord.appendRounds_eq (hfuel : bufs.length - woff < fuel) : CacheRecord.appendRounds fuel bufs woff data =
    .ok (bufs.take woff ++ (appendLoop (bufs.drop woff) data).1, woff + (appendLoop (bufs.drop woff) data).2.1,
      (appendLoop (bufs.drop woff) data).2.2) := by
  induction fuel generalizing bufs woff data with
  | zero => exact absurd hfuel (Nat.not_lt_zero _)
  | succ fuel ih =>
    by_cases hne : data = []
    · rw [hne, CacheRecord.appendRounds_nil, appendLoop]
      simp
    rw [CacheRecord.appendRounds, if_neg hne]
    cases hbuf : bufs[woff]? with
    | none =>
      have hlen : bufs.length ≤ woff := List.getElem?_eq_none_iff.mp hbuf
      obtain ⟨x, data, rfl⟩ := List.exists_cons_of_ne_nil hne
      rw [List.drop_eq_nil_of_le hlen, List.take_of_length_le hlen, appendLoop]
      · simp
      · exact List.cons_ne_nil x data
    | some buf =>
      obtain ⟨hlt, hget⟩ := List.getElem?_eq_some_iff.mp hbuf
      have hdrop : bufs.drop woff = buf :: bufs.drop (woff + 1) := by rw [List.drop_eq_getElem_cons hlt, hget]
      have hset (b : CacheWriteBuffer) : bufs.set woff b = bufs.take woff ++ b :: bufs.drop (woff + 1) := by
        rw [List.set_eq_take_append_cons_drop, if_pos hlt]
      rw [hdrop]
      by_cases hle : data.length ≤ buf.free
      · -- the last round
        have hbody : CacheRecord.appendBody buf data = .ok (buf.append data hle, []) := dif_pos hle
        simp only [hbody, CacheRecord.appendRounds_nil, hset, appendLoop_of_le hne hle]
        split_ifs <;> rfl
      · -- the buffer is filled
        have hfull : (buf.append (data.take buf.free) (length_take_free buf data)).free = 0 := by
          rw [free_append, List.length_take_of_le (Nat.le_of_not_le hle), Nat.sub_self]
        have htake (b : CacheWriteBuffer) : (bufs.set woff b).take (woff + 1) = bufs.take woff ++ [b] := by
          rw [List.take_add_one, List.take_set_of_le (Nat.le_refl woff), List.getElem?_set_self hlt]
          rfl
        have hrest (b : CacheWriteBuffer) : (bufs.set woff b).drop (woff + 1) = bufs.drop (woff + 1) :=
          List.drop_set_of_lt (Nat.lt_succ_self woff)
        simp only [CacheRecord.appendBody_of_lt hle, hfull, if_true]
        rw [ih (by rw [List.length_set]; omega), htake, hrest, appendLoop_of_lt hle]
        simp only [List.append_assoc, List.singleton_append, Nat.add_right_comm woff 1, Nat.add_assoc]

/-- `CacheRecord::Append` is `CacheRecord.append`. -/
theorem CacheRecord.appendAsserting_eq (bufs : List CacheWriteBuffer) (woff : ℕ) (data : Bytes) :
    CacheRecord.appendAsserting bufs woff data = .ok (CacheRecord.append bufs woff data) := by
  rw [CacheRecord.appendAsserting, CacheRecord.appendRounds_eq (Nat.lt_succ_self _)]
  rfl

/-- **`CacheRecord::Serialize` returns**, and no assertion of its calls fails. -/
theorem CacheRecord.serializeAsserting_eq (r : CacheRecord) (bufs : List CacheWriteBuffer) (woff : ℕ) :
    r.serializeAsserting bufs woff = .ok (r.serialize bufs woff) := by
  rw [CacheRecord.serializeAsserting, CacheRecord.serialize, CacheRecord.appendAsserting_eq]
  obtain ⟨ok₁, bufs₁, woff₁⟩ := CacheRecord.append bufs woff r.hdr.bytes
  cases ok₁ with
  | false => rfl
  | true =>
    simp only [CacheRecord.appendAsserting_eq, if_true]
    obtain ⟨ok₂, bufs₂, woff₂⟩ := CacheRecord.append bufs₁ woff₁ r.key
    cases ok₂ <;> rfl

/-! ### The shape -/

/-- **The shape of the buffers**, buffer by buffer: one capacity, those before `woff` full,
those after it empty, and the one at `woff` not full. -/
structure Filled (c : ℕ) (bufs : List CacheWriteBuffer) (woff : ℕ) : Prop where
  /-- One capacity. -/
  size : ∀ b ∈ bufs, b.size = c
  /-- The index is in the vector, or at its end. -/
  woff_le : woff ≤ bufs.length
  /-- The buffers before it are full. -/
  before : ∀ b ∈ bufs.take woff, b.free = 0
  /-- The buffer there is not full. -/
  current : ∀ b ∈ bufs[woff]?, b.free ≠ 0
  /-- The buffers after it are empty. -/
  after : ∀ b ∈ bufs.drop (woff + 1), b.used = 0

/-- Empty buffers. -/
theorem Cut.of_used_zero (h : ∀ b ∈ bufs, b.size = c ∧ b.used = 0) : Cut c bufs [] := by
  refine ⟨fun b hb => (h b hb).1, ?_⟩
  rw [chunks_nil, List.eq_replicate_iff]
  refine ⟨List.length_map _, fun d hd => ?_⟩
  obtain ⟨b, hb, rfl⟩ := List.mem_map.mp hd
  exact List.length_eq_zero_iff.mp (h b hb).2

/-- **They hold a log cut into chunks.** The induction is on the buffers, and goes through
the full ones. -/
theorem Filled.shaped (hc : 0 < c) (h : Filled c bufs woff) : Shaped c bufs woff (bufs.flatMap CacheWriteBuffer.data) := by
  induction bufs generalizing woff with
  | nil =>
    obtain rfl := Nat.le_zero.mp h.woff_le
    exact Shaped.nil c
  | cons b bufs ih =>
    obtain ⟨hb, hsize⟩ := List.forall_mem_cons.mp h.size
    have hfits := b.fits
    cases woff with
    | zero =>
      have hcut : Cut c bufs [] := Cut.of_used_zero fun x hx => ⟨hsize x hx, h.after x hx⟩
      have hlog : (b :: bufs).flatMap CacheWriteBuffer.data = b.data := by
        rw [List.flatMap_cons, hcut.flatMap_data, List.take_nil, List.append_nil]
      have hfree : b.size - b.data.length ≠ 0 := h.current b rfl
      rw [hlog]
      refine ⟨Cut.cons hb (List.take_of_length_le (by omega)).symm ?_, ?_, ?_⟩
      · rwa [List.drop_eq_nil_of_le (by omega)]
      · rw [List.length_cons, Nat.succ_mul]
        omega
      · rw [Nat.div_eq_of_lt (by omega)]
    | succ woff =>
      have hfree : b.size - b.data.length = 0 := h.before b List.mem_cons_self
      have hlen : b.data.length = c := by omega
      have hrest : Filled c bufs woff := ⟨hsize, Nat.le_of_succ_le_succ h.woff_le,
        fun x hx => h.before x (List.mem_cons_of_mem _ hx), h.current, h.after⟩
      obtain ⟨hcut, hroom, hwoff⟩ := ih hrest
      rw [List.flatMap_cons]
      refine ⟨Cut.cons hb (List.take_left' hlen).symm ?_, ?_, ?_⟩
      · rwa [List.drop_left' hlen]
      · rw [List.length_append, List.length_cons, Nat.succ_mul]
        omega
      · rw [List.length_append, hlen, Nat.add_div_left _ hc, ← hwoff]

/-- What is used of a buffer. -/
theorem Cut.used (h : Cut c bufs log) {i : ℕ} (hb : bufs[i]? = some buf) : buf.used = min c (log.length - i * c) := by
  rw [CacheWriteBuffer.used, (h.getElem? hb).2, List.length_take, List.length_drop]

/-- **A log cut into chunks fills the buffers up to its end.** -/
theorem Shaped.filled (hc : 0 < c) (h : Shaped c bufs woff log) : Filled c bufs woff := by
  have hend : log.length < (woff + 1) * c := by
    rw [← Nat.div_lt_iff_lt_mul hc, ← h.woff]
    exact Nat.lt_succ_self woff
  refine ⟨h.size, h.woff_le, fun b hb => ?_, fun b hb => ?_, fun b hb => ?_⟩
  · obtain ⟨i, hi⟩ := List.mem_iff_getElem?.mp hb
    rw [List.getElem?_take] at hi
    split_ifs at hi with hlt
    have hfull : (i + 1) * c ≤ log.length := by
      rw [← Nat.le_div_iff_mul_le hc, ← h.woff]
      exact hlt
    rw [free, h.toCut.used hi, h.size b (List.mem_of_getElem? hi)]
    rw [Nat.succ_mul] at hfull
    omega
  · rw [free, h.toCut.used hb, h.size b (List.mem_of_getElem? hb)]
    rw [Nat.succ_mul] at hend
    omega
  · obtain ⟨i, hi⟩ := List.mem_iff_getElem?.mp hb
    rw [List.getElem?_drop] at hi
    have hle : (woff + 1) * c ≤ (woff + 1 + i) * c := Nat.mul_le_mul_right c (Nat.le_add_right _ i)
    rw [h.toCut.used hi]
    omega

/-- **The shape, buffer by buffer**, is the one of a log cut into chunks. -/
theorem filled_iff_shaped (hc : 0 < c) :
    Filled c bufs woff ↔ Shaped c bufs woff (bufs.flatMap CacheWriteBuffer.data) :=
  ⟨Filled.shaped hc, Shaped.filled hc⟩

/-! ### The record -/

/-- The room in the buffers from `woff` on. -/
def roomFrom (bufs : List CacheWriteBuffer) (woff : ℕ) : ℕ := ((bufs.drop woff).map CacheWriteBuffer.free).sum

/-- **A record is scattered**: `ExpandBuffer`, asked for the size of the record, adds empty
buffers, fewer of which would not make the room; `Serialize` then returns true with no
assertion failing, and puts the header, the key and the value behind the bytes that the
buffers hold, none of which holds more than it can, and which have the same shape again. -/
def Scattered (crc : Bytes → UInt32) (c : ℕ) (bufs : List CacheWriteBuffer) (woff : ℕ) (key val : Bytes) : Prop :=
  ∃ k, expandBuffer bufs woff c (headerSize + key.length + val.length) = .ok (bufs ++ List.replicate k (new c)) ∧
    (∀ j < k, roomFrom (bufs ++ List.replicate j (new c)) woff < headerSize + key.length + val.length) ∧
    ∃ bufs' woff', (CacheRecord.new crc key val).serializeAsserting (bufs ++ List.replicate k (new c)) woff =
        .ok (true, bufs', woff') ∧
      bufs'.flatMap CacheWriteBuffer.data =
        bufs.flatMap CacheWriteBuffer.data ++ ((CacheRecord.new crc key val).hdr.bytes ++ key ++ val) ∧
      (∀ b ∈ bufs', b.used ≤ b.size) ∧ Filled c bufs' woff'

/-- **Every record is scattered.** -/
theorem Filled.scattered (hc : 0 < c) (h : Filled c bufs woff) (crc : Bytes → UInt32) (key val : Bytes) :
    Scattered crc c bufs woff key val := by
  have hshape := h.shaped hc
  obtain ⟨k, hk, hshape', hfit, hmin⟩ := expandBuffer_shaped hc hshape (recordSize key val)
  refine ⟨k, hk, fun j hj => ?_, ?_⟩
  · -- one buffer less than `k` is not enough
    have hroom : roomFrom (bufs ++ List.replicate j (new c)) woff + _ = _ := (hshape.addEmpty j).sum_free_drop
    have hle : (bufs.length + j + 1) * c ≤ (bufs.length + k) * c := Nat.mul_le_mul_right c (by omega)
    rw [List.length_append, List.length_replicate] at hroom
    rw [Nat.succ_mul] at hle
    rw [recordSize] at hmin
    omega
  · obtain ⟨hgrown, hlen, hok⟩ := CacheRecord.serialize_shaped hc hshape' (CacheRecord.new crc key val)
    have hsize : (CacheRecord.new crc key val).bytes.length = recordSize key val := length_image crc key val
    rw [List.length_append, List.length_replicate, hsize] at hok
    rw [List.length_append, List.length_replicate, List.take_of_length_le] at hgrown
    · refine ⟨_, _, ?_, hgrown.flatMap_data, fun b _ => b.fits, hgrown.filled hc⟩
      rw [CacheRecord.serializeAsserting_eq, ← hok.mpr hfit]
    · rw [List.length_append, hsize]
      exact hfit

/-! ### The size that `Append` asks for -/

/-- **`Append` is refused** exactly if the record has `2 ^ 32` bytes or more, so that the room
is made for fewer, and does not fit into the room that is there. -/
theorem appendBuffered_refused_iff {f : WriteableCacheFile} (hpos : 0 < f.writeBufferSize.toNat)
    (h : Shaped f.writeBufferSize.toNat f.bufs f.bufWoff log) (he : f.eof = false) {crc : Bytes → UInt32} {key val : Bytes}
    {lba : LBA} : (∃ lba' g, f.appendBuffered crc key val lba = .ok (false, lba', g)) ↔
      2 ^ 32 ≤ recordSize key val ∧ roomFrom f.bufs f.bufWoff < recordSize key val := by
  have hroom : roomFrom f.bufs f.bufWoff + log.length = _ := h.sum_free_drop
  have hsize : (CacheRecord.new crc key val).bytes.length = recordSize key val := length_image crc key val
  have hbooked := CacheRecord.toNat_calcSize key val
  have hcap := UInt32.toNat_lt f.writeBufferSize
  obtain ⟨k, hk, hshape, hfit, hmin⟩ := expandBuffer_shaped hpos h (CacheRecord.calcSize key val).toNat
  obtain ⟨-, -, hok⟩ := CacheRecord.serialize_shaped hpos hshape (CacheRecord.new crc key val)
  rw [List.length_append, List.length_replicate, hsize] at hok
  have hmore : f.bufs.length * f.writeBufferSize.toNat ≤ (f.bufs.length + k) * f.writeBufferSize.toNat :=
    Nat.mul_le_mul_right _ (Nat.le_add_right _ k)
  -- the size asked for is the size of the record, or less by `2 ^ 32` at least
  have hrefused : (∃ lba' g, f.appendBuffered crc key val lba = .ok (false, lba', g)) ↔
      (f.bufs.length + k) * f.writeBufferSize.toNat < log.length + recordSize key val := by
    rw [← Nat.not_le, ← hok]
    unfold WriteableCacheFile.appendBuffered
    rw [if_neg (by simp [he])]
    simp only [hk]
    cases ((CacheRecord.new crc key val).serialize
      (f.bufs ++ List.replicate k (new f.writeBufferSize.toNat)) f.bufWoff).1 <;> simp
  rw [hrefused]
  by_cases hbig : 2 ^ 32 ≤ recordSize key val
  · rcases hmin with rfl | hmin
    · rw [Nat.add_zero]
      omega
    · omega
  · rw [Nat.mod_eq_of_lt (Nat.not_le.mp hbig)] at hbooked
    omega

/-- **Scattering a record over buffers**, for any buffers of that shape and any record. Only
`Append` of a record of `2 ^ 32` bytes or more, for which it makes too little room, can come
to the branch for a failed `Serialize`. -/
theorem record_scattered (hc : 0 < c) (h : Filled c bufs woff) (crc : Bytes → UInt32) (key val : Bytes) :
    Scattered crc c bufs woff key val ∧
      ∀ f : WriteableCacheFile, f.bufs = bufs → f.bufWoff = woff → f.writeBufferSize.toNat = c → f.eof = false →
        ∀ lba, (∃ lba' g, f.appendBuffered crc key val lba = .ok (false, lba', g)) ↔
          2 ^ 32 ≤ recordSize key val ∧ roomFrom bufs woff < recordSize key val := by
  refine ⟨h.scattered hc crc key val, ?_⟩
  rintro f rfl rfl rfl he lba
  exact appendBuffered_refused_iff hc (h.shaped hc) he

/-- A record of 18 bytes, behind a full buffer and two bytes of another one. -/
theorem record_scattered_boundary : Scattered (fun _ => 0) 4
    [⟨4, [1, 2, 3, 4], by decide⟩, ⟨4, [5, 6], by decide⟩] 1 [97] [98] :=
  (record_scattered (by decide) ⟨by decide, by decide, by decide, by decide, by decide⟩ (fun _ => 0) [97] [98]).1

/-- The key of 2³² + 1 bytes is refused by an empty file. -/
theorem record_refused : Filled 16 [] 0 ∧
    ∃ lba g, (WriteableCacheFile.fresh 0 100 16).appendBuffered (fun _ => 0) (List.replicate (2 ^ 32 + 1) 97) [] {} =
      .ok (false, lba, g) := by
  have hshape : Shaped 16 [] 0 [] := Shaped.nil 16
  have hrec : recordSize (List.replicate (2 ^ 32 + 1) 97) [] = 2 ^ 32 + 17 := by
    rw [recordSize, List.length_replicate]
    rfl
  refine ⟨hshape.filled (by decide), ?_⟩
  generalize List.replicate (2 ^ 32 + 1) (97 : UInt8) = key at *
  refine (appendBuffered_refused_iff (f := WriteableCacheFile.fresh 0 100 16) (by decide) hshape rfl).mpr ⟨by omega, ?_⟩
  rw [hrec]
  decide

end EmbeddedKv.Flash
