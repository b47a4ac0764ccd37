import EmbeddedKv.Flash.Record
import EmbeddedKv.Library.Chunks

/-!
# Write buffers

The in-memory side of a cache file in write-buffer mode: a vector of
`CacheWriteBuffer`s of one capacity, the loop of `CacheRecord::Append` that scatters
bytes over them from the index `woff` on, `CacheRecord::Serialize`, which does so
with the header, the key and the value, and `WriteableCacheFile::ExpandBuffer`,
which first makes the room.

## What is proved

A vector of buffers with all buffers before `woff` full and all after it empty is a
log cut into chunks (`Shaped`). `CacheRecord.append_shaped` and
`CacheRecord.serialize_shaped` say that scattering appends to that log, as far as
there is room, and succeeds exactly when there is; `expandBuffer_shaped` that
`ExpandBuffer` adds the room asked for, as empty buffers and no more than needed.
-/

namespace EmbeddedKv.Flash

open EmbeddedKv.Library

/-! ### Buffers -/

/-- `CacheWriteBuffer`: its capacity and the bytes before `pos_`. -/
structure CacheWriteBuffer where
  /-- `size_`. -/
  size : ℕ
  /-- The first `pos_` bytes of `buf_`. -/
  data : Bytes
  /-- `pos_ <= size_`. -/
  fits : data.length ≤ size
  deriving DecidableEq, Repr

namespace CacheWriteBuffer

/-- `CacheWriteBuffer(size)`. -/
def new (size : ℕ) : CacheWriteBuffer := ⟨size, [], Nat.zero_le _⟩

/-- `Used()`. -/
def used (b : CacheWriteBuffer) : ℕ := b.data.length

/-- `Free()`. -/
def free (b : CacheWriteBuffer) : ℕ := b.size - b.used

/-- `Append(buf, size)`, of bytes there is room for. -/
def append (b : CacheWriteBuffer) (p : Bytes) (h : p.length ≤ b.free) : CacheWriteBuffer :=
  ⟨b.size, b.data ++ p, by have := b.fits; simp only [free, used] at h; simp; omega⟩

@[simp] theorem size_new (c : ℕ) : (new c).size = c := rfl

@[simp] theorem data_new (c : ℕ) : (new c).data = [] := rfl

@[simp] theorem size_append (b : CacheWriteBuffer) (p : Bytes) (h : p.length ≤ b.free) :
    (b.append p h).size = b.size := rfl

@[simp] theorem data_append (b : CacheWriteBuffer) (p : Bytes) (h : p.length ≤ b.free) :
    (b.append p h).data = b.data ++ p := rfl

end CacheWriteBuffer

open CacheWriteBuffer

/-! ### Scattering -/

/-- The loop of `CacheRecord::Append`, over the buffers from `*woff` on: what becomes
of them, how far `*woff` moves, and the bytes that are left over. -/
def appendLoop : List CacheWriteBuffer → Bytes → List CacheWriteBuffer × ℕ × Bytes
  | bufs, [] => (bufs, 0, [])
  | [], data => ([], 0, data)
  | buf :: bufs, data =>
    if h : data.length ≤ buf.free then
      let buf' := buf.append data h
      (buf' :: bufs, if buf'.free = 0 then 1 else 0, [])
    else
      let buf' := buf.append (data.take buf.free) (by simp)
      let (bufs', n, left) := appendLoop bufs (data.drop buf.free)
      (buf' :: bufs', n + 1, left)

/-- `CacheRecord::Append(bufs, woff, data, size)`: whether all of `data` was placed,
the buffers, and `*woff`. -/
def CacheRecord.append (bufs : List CacheWriteBuffer) (woff : ℕ) (data : Bytes) :
    Bool × List CacheWriteBuffer × ℕ :=
  let (tail, n, left) := appendLoop (bufs.drop woff) data
  (left.isEmpty, bufs.take woff ++ tail, woff + n)

/-- `CacheRecord::Serialize(bufs, woff)`: the header, then the key, then the value,
stopping at the first that does not find room. -/
def CacheRecord.serialize (r : CacheRecord) (bufs : List CacheWriteBuffer) (woff : ℕ) :
    Bool × List CacheWriteBuffer × ℕ :=
  let (ok₁, bufs₁, woff₁) := CacheRecord.append bufs woff r.hdr.bytes
  if ok₁ then
    let (ok₂, bufs₂, woff₂) := CacheRecord.append bufs₁ woff₁ r.key
    if ok₂ then CacheRecord.append bufs₂ woff₂ r.val else (false, bufs₂, woff₂)
  else (false, bufs₁, woff₁)

/-! ### Making room -/

/-- The first loop of `ExpandBuffer`: `none` as soon as the room suffices, otherwise
the room there is. -/
def expandRoom (size : ℕ) : List CacheWriteBuffer → ℕ → Option ℕ
  | [], free => some free
  | buf :: bufs, free =>
    if size ≤ free + buf.free then none else expandRoom size bufs (free + buf.free)

/-- The second loop of `ExpandBuffer`, with room for `fuel` rounds: every round adds
an empty buffer of capacity `c`. -/
def expandLoop (c size : ℕ) : ℕ → ℕ → List CacheWriteBuffer → Except Stop (List CacheWriteBuffer)
  | 0, free, bufs => if free < size then .error .unfinished else .ok bufs
  | fuel + 1, free, bufs =>
    if free < size then expandLoop c size fuel (free + (new c).free) (bufs ++ [new c]) else .ok bufs

/-- `WriteableCacheFile::ExpandBuffer(size)`, with `bufs_`, `buf_woff_` and
`write_buffer_size_` given. It returns `true` whenever it returns, since `new` does
not yield a null pointer. If the capacity is not zero, `size` rounds are enough; if
it is zero, no number is. -/
def expandBuffer (bufs : List CacheWriteBuffer) (woff c size : ℕ) :
    Except Stop (List CacheWriteBuffer) :=
  match expandRoom size (bufs.drop woff) 0 with
  | none => .ok bufs
  | some free => expandLoop c size size free bufs

/-! ### Buffers as a log cut into chunks -/

/-- The buffers have capacity `c` and hold the log, as far as it goes. -/
structure Cut (c : ℕ) (bufs : List CacheWriteBuffer) (log : Bytes) : Prop where
  /-- One capacity. -/
  size : ∀ b ∈ bufs, b.size = c
  /-- The contents. -/
  data : bufs.map CacheWriteBuffer.data = chunks c bufs.length log

/-- **The shape of the buffers**: they hold all of the log, so that those before
`woff` are full, those after it empty, and the one at `woff` is not full. -/
structure Shaped (c : ℕ) (bufs : List CacheWriteBuffer) (woff : ℕ) (log : Bytes) : Prop
    extends Cut c bufs log where
  /-- There is room for the log. -/
  room : log.length ≤ bufs.length * c
  /-- The index of the buffer to write to. -/
  woff : woff = log.length / c

theorem Cut.nil (c : ℕ) (log : Bytes) : Cut c [] log := ⟨by simp, rfl⟩

theorem Cut.head {c : ℕ} {b : CacheWriteBuffer} {bufs : List CacheWriteBuffer} {log : Bytes}
    (h : Cut c (b :: bufs) log) : b.size = c ∧ b.data = log.take c ∧ Cut c bufs (log.drop c) := by
  have hd := h.data
  simp only [List.map_cons, List.length_cons, chunks, List.cons.injEq] at hd
  exact ⟨h.size b (by simp), hd.1, ⟨fun x hx => h.size x (List.mem_cons_of_mem _ hx), hd.2⟩⟩

theorem Cut.cons {c : ℕ} {b : CacheWriteBuffer} {bufs : List CacheWriteBuffer} {log : Bytes}
    (hb : b.size = c) (hd : b.data = log.take c) (h : Cut c bufs (log.drop c)) :
    Cut c (b :: bufs) log := by
  refine ⟨fun x hx => ?_, ?_⟩
  · rcases List.mem_cons.mp hx with rfl | hx
    · exact hb
    · exact h.size x hx
  · simp only [List.map_cons, List.length_cons, chunks, hd, h.data]

theorem Cut.take {c : ℕ} {bufs : List CacheWriteBuffer} {log : Bytes} (h : Cut c bufs log) (m : ℕ) :
    Cut c (bufs.take m) log := by
  refine ⟨fun x hx => h.size x (List.mem_of_mem_take hx), ?_⟩
  rw [List.map_take, h.data, List.length_take]
  rcases Nat.le_total m bufs.length with hm | hm
  · rw [Nat.min_eq_left hm, take_chunks _ _ _ _ hm]
  · rw [Nat.min_eq_right hm, List.take_of_length_le (by simpa using hm)]

theorem Cut.drop {c : ℕ} {bufs : List CacheWriteBuffer} {log : Bytes} (h : Cut c bufs log) (m : ℕ) :
    Cut c (bufs.drop m) (log.drop (m * c)) := by
  refine ⟨fun x hx => h.size x (List.mem_of_mem_drop hx), ?_⟩
  rw [List.map_drop, h.data, drop_chunks, List.length_drop]

/-- Buffers side by side. -/
theorem Cut.append {c : ℕ} {bufs bufs' : List CacheWriteBuffer} {log : Bytes} (h : Cut c bufs log)
    (h' : Cut c bufs' (log.drop (bufs.length * c))) : Cut c (bufs ++ bufs') log := by
  refine ⟨fun x hx => ?_, ?_⟩
  · rcases List.mem_append.mp hx with hx | hx
    · exact h.size x hx
    · exact h'.size x hx
  · rw [List.map_append, h.data, h'.data, List.length_append, chunks_add]

/-- The buffers hold only what is within their common capacity. -/
theorem Cut.of_take {c : ℕ} {bufs : List CacheWriteBuffer} {log log' : Bytes} (h : Cut c bufs log)
    (heq : log.take (bufs.length * c) = log'.take (bufs.length * c)) : Cut c bufs log' := by
  refine ⟨h.size, ?_⟩
  rw [h.data, ← chunks_take, heq, chunks_take]

/-- Buffer `i` holds the bytes of the log from `i * c` on. -/
theorem Cut.getElem? {c : ℕ} {bufs : List CacheWriteBuffer} {log : Bytes} (h : Cut c bufs log) {i : ℕ}
    {b : CacheWriteBuffer} (hb : bufs[i]? = some b) : b.size = c ∧ b.data = (log.drop (i * c)).take c := by
  have hlt : i < bufs.length := (List.getElem?_eq_some_iff.mp hb).1
  have hd : (bufs.map CacheWriteBuffer.data)[i]? = some b.data := by rw [List.getElem?_map, hb]; rfl
  rw [h.data, getElem?_chunks, if_pos hlt, Option.some.injEq] at hd
  exact ⟨h.size b (List.mem_of_getElem? hb), hd.symm⟩

/-- The used bytes in a row are the log, as far as the buffers go. -/
theorem Cut.flatMap_data {c : ℕ} {bufs : List CacheWriteBuffer} {log : Bytes} (h : Cut c bufs log) :
    bufs.flatMap CacheWriteBuffer.data = log.take (bufs.length * c) := by
  rw [List.flatMap_def, h.data, flatten_chunks]

/-- The room left. -/
theorem Cut.sum_free {c : ℕ} {bufs : List CacheWriteBuffer} {log : Bytes} (h : Cut c bufs log)
    (hroom : log.length ≤ bufs.length * c) :
    (bufs.map CacheWriteBuffer.free).sum + log.length = bufs.length * c := by
  induction bufs generalizing log with
  | nil => simpa using hroom
  | cons b bufs ih =>
    obtain ⟨hb, hd, ht⟩ := h.head
    have hused : b.free = c - min c log.length := by
      simp only [CacheWriteBuffer.free, CacheWriteBuffer.used, hb, hd, List.length_take]
    simp only [List.length_cons, Nat.succ_mul] at hroom
    have := ih ht (by simp; omega)
    simp only [List.length_drop] at this
    simp only [List.map_cons, List.sum_cons, List.length_cons, Nat.succ_mul, hused]
    omega

theorem Shaped.nil (c : ℕ) : Shaped c [] 0 [] := ⟨Cut.nil c [], by simp, by simp⟩

theorem Shaped.flatMap_data {c : ℕ} {bufs : List CacheWriteBuffer} {woff : ℕ} {log : Bytes}
    (h : Shaped c bufs woff log) : bufs.flatMap CacheWriteBuffer.data = log := by
  rw [h.toCut.flatMap_data, List.take_of_length_le h.room]

theorem Shaped.woff_le {c : ℕ} {bufs : List CacheWriteBuffer} {woff : ℕ} {log : Bytes}
    (h : Shaped c bufs woff log) : woff ≤ bufs.length := by
  rw [h.woff]
  exact Nat.div_le_of_le_mul (by rw [Nat.mul_comm]; exact h.room)

/-! ### What scattering does -/

/-- The bytes fit into the buffer: the last round. -/
theorem appendLoop_of_le {buf : CacheWriteBuffer} {bufs : List CacheWriteBuffer} {data : Bytes}
    (hne : data ≠ []) (h : data.length ≤ buf.free) :
    appendLoop (buf :: bufs) data =
      (buf.append data h :: bufs, if (buf.append data h).free = 0 then 1 else 0, []) := by
  cases data with
  | nil => exact absurd rfl hne
  | cons x data =>
    rw [appendLoop, dif_pos h]
    exact hne

/-- The buffer is filled up and the loop goes on with the next one. -/
theorem appendLoop_of_lt {buf : CacheWriteBuffer} {bufs : List CacheWriteBuffer} {data : Bytes}
    (h : ¬ data.length ≤ buf.free) :
    appendLoop (buf :: bufs) data =
      (buf.append (data.take buf.free) (List.length_take_le _ _) :: (appendLoop bufs (data.drop buf.free)).1,
        (appendLoop bufs (data.drop buf.free)).2.1 + 1,
        (appendLoop bufs (data.drop buf.free)).2.2) := by
  cases data with
  | nil => simp at h
  | cons x data =>
    rw [appendLoop, dif_neg h]
    simp

/-- **The loop appends to the log**: what there is room for goes into the buffers,
the index ends at the first buffer that is not full, and the rest is left over. The
induction follows the buffers, of which only the first may hold something (`rem`). -/
theorem appendLoop_spec {c : ℕ} {bufs : List CacheWriteBuffer} {rem : Bytes} (data : Bytes)
    (h : Cut c bufs rem) (hrem : rem.length < c) (hroom : rem.length ≤ bufs.length * c) :
    Cut c (appendLoop bufs data).1 (rem ++ data) ∧ (appendLoop bufs data).1.length = bufs.length ∧
      (appendLoop bufs data).2.1 = min bufs.length ((rem ++ data).length / c) ∧
      (appendLoop bufs data).2.2 = (rem ++ data).drop (bufs.length * c) := by
  have hc : 0 < c := Nat.zero_lt_of_lt hrem
  induction bufs generalizing rem data with
  | nil =>
    have hnil : rem = [] := by simpa using hroom
    subst hnil
    cases data <;> simp [appendLoop, Cut.nil]
  | cons buf bufs ih =>
    by_cases hne : data = []
    · subst hne
      simp [appendLoop, h, Nat.div_eq_of_lt hrem]
      simpa using hroom
    obtain ⟨hsize, hdata, htail⟩ := h.head
    rw [List.take_of_length_le (Nat.le_of_lt hrem)] at hdata
    rw [List.drop_eq_nil_of_le (Nat.le_of_lt hrem)] at htail
    have hfree : buf.free = c - rem.length := by
      rw [CacheWriteBuffer.free, CacheWriteBuffer.used, hsize, hdata]
    by_cases hle : data.length ≤ buf.free
    · -- the last round: the buffer takes everything
      have hlen : (rem ++ data).length ≤ c := by rw [List.length_append]; omega
      rw [appendLoop_of_le hne hle]
      refine ⟨Cut.cons hsize ?_ ?_, rfl, ?_, ?_⟩
      · rw [data_append, hdata, List.take_of_length_le hlen]
      · rwa [List.drop_eq_nil_of_le hlen]
      · have hfree' : (buf.append data hle).free = c - (rem ++ data).length := by
          rw [CacheWriteBuffer.free, CacheWriteBuffer.used, size_append, data_append, hsize, hdata]
        simp only [hfree', List.length_cons]
        by_cases hfull : (rem ++ data).length = c
        · rw [if_pos (by omega), hfull, Nat.div_self hc]; omega
        · rw [if_neg (by omega), Nat.div_eq_of_lt (by omega)]; omega
      · rw [List.drop_eq_nil_of_le]
        rw [List.length_cons, Nat.succ_mul]; omega
    · -- the buffer is filled, and the next one is empty
      have htake : (rem ++ data).take c = rem ++ data.take buf.free := by
        rw [List.take_append, List.take_of_length_le (Nat.le_of_lt hrem), hfree]
      have hdrop : (rem ++ data).drop c = data.drop buf.free := by
        rw [List.drop_append, List.drop_eq_nil_of_le (Nat.le_of_lt hrem), hfree, List.nil_append]
      have hlen : (rem ++ data).length = (data.drop buf.free).length + c := by
        rw [List.length_append, List.length_drop]; omega
      obtain ⟨hcut, hl, hn, hleft⟩ := ih (data.drop buf.free) htail hc (Nat.zero_le _)
      rw [List.nil_append] at hcut hn hleft
      rw [appendLoop_of_lt hle]
      refine ⟨Cut.cons hsize ?_ ?_, ?_, ?_, ?_⟩
      · rw [data_append, hdata, htake]
      · rw [hdrop]; exact hcut
      · rw [List.length_cons, hl, List.length_cons]
      · simp only [hn, hlen, Nat.add_div_right _ hc, List.length_cons]; omega
      · rw [hleft, List.length_cons, Nat.succ_mul, Nat.add_comm, ← List.drop_drop, hdrop]

/-- **`CacheRecord::Append`**: the log grows by what there is room for; the call
succeeds exactly when that is everything. -/
theorem CacheRecord.append_shaped {c : ℕ} (hc : 0 < c) {bufs : List CacheWriteBuffer} {woff : ℕ}
    {log : Bytes} (h : Shaped c bufs woff log) (data : Bytes) :
    Shaped c (CacheRecord.append bufs woff data).2.1 (CacheRecord.append bufs woff data).2.2
        ((log ++ data).take (bufs.length * c)) ∧
      (CacheRecord.append bufs woff data).2.1.length = bufs.length ∧
      ((CacheRecord.append bufs woff data).1 = true ↔ log.length + data.length ≤ bufs.length * c) := by
  have hwle := h.woff_le
  have hwc : woff * c ≤ log.length := by rw [h.woff]; exact Nat.div_mul_le_self _ _
  have hrem : (log.drop (woff * c)).length < c := by
    rw [List.length_drop, h.woff]
    have := Nat.mod_lt log.length hc
    rw [Nat.mod_eq_sub_div_mul] at this
    exact this
  have hmul : (bufs.length - woff) * c + woff * c = bufs.length * c := by
    rw [← Nat.add_mul, Nat.sub_add_cancel hwle]
  have hroom : (log.drop (woff * c)).length ≤ (bufs.drop woff).length * c := by
    have := h.room
    rw [List.length_drop, List.length_drop]; omega
  obtain ⟨hcut, hl, hn, hleft⟩ := appendLoop_spec data (h.toCut.drop woff) hrem hroom
  have hdrop : log.drop (woff * c) ++ data = (log ++ data).drop (woff * c) :=
    (List.drop_append_of_le_length hwc).symm
  rw [hdrop] at hcut hn hleft
  have hlen : (bufs.take woff ++ (appendLoop (bufs.drop woff) data).1).length = bufs.length := by
    rw [List.length_append, hl, List.length_take, List.length_drop]; omega
  have hall : Cut c (bufs.take woff ++ (appendLoop (bufs.drop woff) data).1) (log ++ data) := by
    refine Cut.append ((h.toCut.take woff).of_take ?_) ?_
    · rw [List.take_append_of_le_length]
      rw [List.length_take, Nat.min_eq_left hwle]; exact hwc
    · rwa [List.length_take, Nat.min_eq_left hwle]
  refine ⟨⟨hall.of_take ?_, ?_, ?_⟩, hlen, ?_⟩
  · rw [hlen, List.take_take, Nat.min_self]
  · simp only [CacheRecord.append, hlen, List.length_take]; omega
  · simp only [CacheRecord.append, hn, List.length_drop, List.length_take]
    have hdiv : (log ++ data).length / c = ((log ++ data).length - woff * c) / c + woff := by
      rw [← Nat.add_mul_div_right _ _ hc, Nat.sub_add_cancel (by rw [List.length_append]; omega)]
    rcases Nat.le_total (bufs.length * c) (log ++ data).length with hle | hle
    · have := Nat.div_le_div_right (c := c) hle
      rw [Nat.mul_div_cancel _ hc] at this
      rw [Nat.min_eq_left hle, Nat.mul_div_cancel _ hc]; omega
    · have := Nat.div_le_div_right (c := c) hle
      rw [Nat.mul_div_cancel _ hc] at this
      rw [Nat.min_eq_right hle]; omega
  · simp only [CacheRecord.append, hleft, List.drop_drop, List.isEmpty_iff, List.drop_eq_nil_iff,
      List.length_append, List.length_drop]
    omega

/-- **`CacheRecord::Serialize`**: the log grows by the record, as far as there is
room; the call succeeds exactly when there is room for all of it. -/
theorem CacheRecord.serialize_shaped {c : ℕ} (hc : 0 < c) {bufs : List CacheWriteBuffer} {woff : ℕ}
    {log : Bytes} (h : Shaped c bufs woff log) (r : CacheRecord) :
    Shaped c (r.serialize bufs woff).2.1 (r.serialize bufs woff).2.2
        ((log ++ r.bytes).take (bufs.length * c)) ∧
      (r.serialize bufs woff).2.1.length = bufs.length ∧
      ((r.serialize bufs woff).1 = true ↔ log.length + r.bytes.length ≤ bufs.length * c) := by
  have hbytes : r.bytes = r.hdr.bytes ++ r.key ++ r.val := rfl
  have hlen : r.bytes.length = r.hdr.bytes.length + r.key.length + r.val.length := by
    rw [hbytes, List.length_append, List.length_append]
  obtain ⟨h₁, l₁, e₁⟩ := CacheRecord.append_shaped hc h r.hdr.bytes
  unfold CacheRecord.serialize
  by_cases ok₁ : (CacheRecord.append bufs woff r.hdr.bytes).1 = true
  · have fit₁ := e₁.mp ok₁
    rw [List.take_of_length_le (by rw [List.length_append]; exact fit₁)] at h₁
    obtain ⟨h₂, l₂, e₂⟩ := CacheRecord.append_shaped hc h₁ r.key
    rw [l₁, List.length_append] at e₂
    rw [l₁] at h₂ l₂
    simp only [ok₁, if_true]
    by_cases ok₂ : (CacheRecord.append (CacheRecord.append bufs woff r.hdr.bytes).2.1
        (CacheRecord.append bufs woff r.hdr.bytes).2.2 r.key).1 = true
    · have fit₂ := e₂.mp ok₂
      rw [List.take_of_length_le (by rw [List.length_append, List.length_append]; exact fit₂)] at h₂
      obtain ⟨h₃, l₃, e₃⟩ := CacheRecord.append_shaped hc h₂ r.val
      rw [l₂, List.length_append, List.length_append] at e₃
      rw [l₂] at h₃ l₃
      simp only [ok₂, if_true]
      refine ⟨?_, l₃, e₃.trans (by rw [hlen]; omega)⟩
      rw [hbytes]
      simpa only [List.append_assoc] using h₃
    · -- the key did not fit
      have out₂ := mt e₂.mpr ok₂
      simp only [ok₂, if_false, Bool.false_eq_true]
      refine ⟨?_, l₂, by simp only [false_iff]; omega⟩
      rw [hbytes, ← List.append_assoc, ← List.append_assoc, List.take_append_of_le_length]
      · exact h₂
      · rw [List.length_append, List.length_append]; omega
  · -- the header did not fit
    have out₁ := mt e₁.mpr ok₁
    simp only [ok₁, if_false, Bool.false_eq_true]
    refine ⟨?_, l₁, by simp only [false_iff]; omega⟩
    rw [hbytes, List.append_assoc, ← List.append_assoc log, List.take_append_of_le_length]
    · exact h₁
    · rw [List.length_append]; omega

/-! ### What making room does -/

/-- The first loop ends early only when the room suffices, and otherwise with the
whole room. -/
theorem expandRoom_spec (size : ℕ) (bufs : List CacheWriteBuffer) (free : ℕ) :
    match expandRoom size bufs free with
    | none => size ≤ free + (bufs.map CacheWriteBuffer.free).sum
    | some f => f = free + (bufs.map CacheWriteBuffer.free).sum ∧ (bufs = [] ∨ f < size) := by
  induction bufs generalizing free with
  | nil => simp [expandRoom]
  | cons b bufs ih =>
    rw [expandRoom]
    by_cases h : size ≤ free + b.free
    · simp only [h, if_true, List.map_cons, List.sum_cons]; omega
    · simp only [h, if_false, List.map_cons, List.sum_cons]
      have := ih (free + b.free)
      cases he : expandRoom size bufs (free + b.free) with
      | none => rw [he] at this; simp only at this ⊢; omega
      | some f =>
        rw [he] at this
        obtain ⟨hf, hs⟩ := this
        refine ⟨by omega, Or.inr ?_⟩
        rcases hs with rfl | hs
        · simp at hf; omega
        · exact hs

/-- The second loop adds as many empty buffers as the missing room needs. -/
theorem expandLoop_spec {c : ℕ} (hc : 0 < c) (size fuel free : ℕ) (bufs : List CacheWriteBuffer)
    (hfuel : size ≤ free + fuel) :
    ∃ k, expandLoop c size fuel free bufs = .ok (bufs ++ List.replicate k (new c)) ∧
      size ≤ free + k * c ∧ (k = 0 ∨ free + k * c < size + c) := by
  have hnew : (new c).free = c := by simp [CacheWriteBuffer.free, CacheWriteBuffer.used]
  induction fuel generalizing free bufs with
  | zero =>
    refine ⟨0, ?_, by omega, .inl rfl⟩
    rw [expandLoop, if_neg (by omega)]
    simp
  | succ fuel ih =>
    rw [expandLoop]
    by_cases h : free < size
    · obtain ⟨k, hk, hroom, hmin⟩ := ih (free + c) (bufs ++ [new c]) (by omega)
      refine ⟨k + 1, ?_, by rw [Nat.succ_mul]; omega, .inr ?_⟩
      · rw [if_pos h, hnew, hk, List.append_assoc, List.replicate_succ]
        rfl
      · rw [Nat.succ_mul]
        rcases hmin with rfl | hmin <;> omega
    · exact ⟨0, by simp [h], by omega, .inl rfl⟩

/-- Without capacity the second loop does not end. -/
theorem expandLoop_zero (size fuel free : ℕ) (bufs : List CacheWriteBuffer) (h : free < size) :
    expandLoop 0 size fuel free bufs = .error .unfinished := by
  induction fuel generalizing bufs with
  | zero => rw [expandLoop, if_pos h]
  | succ fuel ih =>
    rw [expandLoop, if_pos h]
    exact ih _

/-- The room from `woff` on. -/
theorem Shaped.sum_free_drop {c : ℕ} {bufs : List CacheWriteBuffer} {woff : ℕ} {log : Bytes}
    (h : Shaped c bufs woff log) :
    ((bufs.drop woff).map CacheWriteBuffer.free).sum + log.length = bufs.length * c := by
  have hwle := h.woff_le
  have hwc : woff * c ≤ log.length := by rw [h.woff]; exact Nat.div_mul_le_self _ _
  have hmul : (bufs.length - woff) * c + woff * c = bufs.length * c := by
    rw [← Nat.add_mul, Nat.sub_add_cancel hwle]
  have hr := h.room
  have := (h.toCut.drop woff).sum_free (by rw [List.length_drop, List.length_drop]; omega)
  rw [List.length_drop, List.length_drop] at this
  omega

/-- Empty buffers at the end keep the shape. -/
theorem Shaped.addEmpty {c : ℕ} {bufs : List CacheWriteBuffer} {woff : ℕ} {log : Bytes}
    (h : Shaped c bufs woff log) (k : ℕ) : Shaped c (bufs ++ List.replicate k (new c)) woff log := by
  refine ⟨h.toCut.append ⟨fun b hb => ?_, ?_⟩, ?_, h.woff⟩
  · rw [List.eq_of_mem_replicate hb]; rfl
  · rw [List.drop_eq_nil_of_le h.room, chunks_nil, List.map_replicate, List.length_replicate]; rfl
  · rw [List.length_append, Nat.add_mul]; exact Nat.le_add_right_of_le h.room

/-- Without capacity `ExpandBuffer` does not return. -/
theorem expandBuffer_zero {bufs : List CacheWriteBuffer} {woff : ℕ} {log : Bytes} (h : Shaped 0 bufs woff log)
    {size : ℕ} (hsize : 0 < size) : expandBuffer bufs woff 0 size = .error .unfinished := by
  have hfree := h.sum_free_drop
  have hspec := expandRoom_spec size (bufs.drop woff) 0
  unfold expandBuffer
  cases he : expandRoom size (bufs.drop woff) 0 with
  | none =>
    rw [he] at hspec
    simp only at hspec
    omega
  | some f =>
    rw [he] at hspec
    obtain ⟨hf, -⟩ := hspec
    exact expandLoop_zero size size f bufs (by omega)

/-- **`ExpandBuffer`**: it returns, adds empty buffers only, and no more than are
needed for `size` more bytes; the shape of the buffers stays. -/
theorem expandBuffer_shaped {c : ℕ} (hc : 0 < c) {bufs : List CacheWriteBuffer} {woff : ℕ}
    {log : Bytes} (h : Shaped c bufs woff log) (size : ℕ) :
    ∃ k, expandBuffer bufs woff c size = .ok (bufs ++ List.replicate k (new c)) ∧
      Shaped c (bufs ++ List.replicate k (new c)) woff log ∧
      log.length + size ≤ (bufs.length + k) * c ∧
      (k = 0 ∨ (bufs.length + k) * c < log.length + size + c) := by
  have hfree := h.sum_free_drop
  have hspec := expandRoom_spec size (bufs.drop woff) 0
  unfold expandBuffer
  cases he : expandRoom size (bufs.drop woff) 0 with
  | none =>
    rw [he] at hspec
    simp only at hspec
    exact ⟨0, by simp, by simpa using h.addEmpty 0, by simp only [Nat.add_zero]; omega, .inl rfl⟩
  | some f =>
    rw [he] at hspec
    obtain ⟨hf, -⟩ := hspec
    obtain ⟨k, hk, hroom, hmin⟩ := expandLoop_spec hc size size f bufs (by omega)
    refine ⟨k, hk, h.addEmpty k, by rw [Nat.add_mul]; omega, ?_⟩
    rcases hmin with hmin | hmin
    · exact .inl hmin
    · right; rw [Nat.add_mul]; omega

end EmbeddedKv.Flash
