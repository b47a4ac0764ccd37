import EmbeddedKv.Library.Bytes

/-!
# Cache records

The record format of the flash cache (`flashcache.h`, `flashcache.cc`): a header of
four 32-bit words — a magic number, a checksum, the sizes of the key and of the
value — followed by the key and the value. `CacheRecord.bytes` is what the three
calls of `CacheRecord::Serialize` put into the log, and `CacheRecord.deserialize`
is `CacheRecord::Deserialize` on a region of memory.

The checksum is a parameter `crc`, an arbitrary function of the bytes
(`boost::crc_32_type` in the source). `deserialize` builds the key and the value
through NUL-terminated strings, so it may read beyond the bytes it is given; the
region it gets is therefore everything readable from the pointer on.
-/

namespace EmbeddedKv.Flash

open EmbeddedKv.Library

/-- Why a call does not come back to its caller. -/
inductive Stop where
  /-- A failed `assert`. -/
  | abort
  /-- `exit(-1)`. -/
  | exit
  /-- An access the language leaves undefined: out of range, freed or uninitialised. -/
  | undefined
  /-- The thread waits for what no one gives back. -/
  | blocked
  /-- The system calls answered so far do not let the call come to its end. -/
  | unfinished
  deriving DecidableEq, Repr

/-! ### The format -/

/-- `CacheRecordHeader`. -/
structure CacheRecordHeader where
  /-- `magic_`. -/
  magic : UInt32
  /-- `crc_`. -/
  crc : UInt32
  /-- `key_size_`. -/
  keySize : UInt32
  /-- `val_size_`. -/
  valSize : UInt32
  deriving DecidableEq, Repr

/-- `sizeof(CacheRecordHeader)`. -/
def headerSize : ℕ := 16

/-- The bytes of a header as it lies in memory. -/
def CacheRecordHeader.bytes (h : CacheRecordHeader) : Bytes :=
  le32 h.magic ++ le32 h.crc ++ le32 h.keySize ++ le32 h.valSize

/-- `memcpy(&hdr_, data, sizeof(hdr_))`. -/
def CacheRecordHeader.ofBytes (data : Bytes) : CacheRecordHeader :=
  ⟨ofLe32 data, ofLe32 (data.drop 4), ofLe32 (data.drop 8), ofLe32 (data.drop 12)⟩

/-- `CacheRecord`. -/
structure CacheRecord where
  /-- `hdr_`. -/
  hdr : CacheRecordHeader
  /-- `key_`. -/
  key : Bytes
  /-- `val_`. -/
  val : Bytes
  deriving DecidableEq, Repr

/-- `CacheRecord::MAGIC`. -/
def CacheRecord.MAGIC : UInt32 := 0xfefa

/-- `CacheRecord::ComputeCRC`: over the header with its checksum cleared, the key
and the value. -/
def CacheRecord.computeCRC (crc : Bytes → UInt32) (r : CacheRecord) : UInt32 :=
  crc (({ r.hdr with crc := 0 } : CacheRecordHeader).bytes ++ r.key ++ r.val)

/-- `CacheRecord(key, val)`. -/
def CacheRecord.new (crc : Bytes → UInt32) (key val : Bytes) : CacheRecord :=
  let r : CacheRecord :=
    ⟨⟨CacheRecord.MAGIC, 0, UInt32.ofNat key.length, UInt32.ofNat val.length⟩, key, val⟩
  { r with hdr := { r.hdr with crc := r.computeCRC crc } }

/-- `CacheRecord::CalcSize`. -/
def CacheRecord.calcSize (key val : Bytes) : UInt32 :=
  UInt32.ofNat (headerSize + key.length + val.length)

/-- The number of bytes a record really takes. -/
def recordSize (key val : Bytes) : ℕ := headerSize + key.length + val.length

/-- The header, the key and the value in a row. -/
def CacheRecord.bytes (r : CacheRecord) : Bytes := r.hdr.bytes ++ r.key ++ r.val

/-- The bytes the log gets for a key and a value. -/
def image (crc : Bytes → UInt32) (key val : Bytes) : Bytes := (CacheRecord.new crc key val).bytes

/-- `CacheRecord::Deserialize(data, read_size)`: `data` is the memory from the
pointer on, also beyond the bytes read; `none` is `false`. -/
def CacheRecord.deserialize (crc : Bytes → UInt32) (data : Bytes) (readSize : ℕ) : Option CacheRecord :=
  if readSize < headerSize then none
  else
    let hdr := CacheRecordHeader.ofBytes data
    -- the two 32-bit sizes are added modulo 2 ^ 32 before the sum is widened
    if (hdr.keySize + hdr.valSize).toNat + headerSize ≠ readSize then none
    else
      let r : CacheRecord :=
        { hdr
          key := (cstr (data.drop headerSize)).take hdr.keySize.toNat
          val := (cstr (data.drop (headerSize + hdr.keySize.toNat))).take hdr.valSize.toNat }
      if hdr.magic = CacheRecord.MAGIC ∧ r.computeCRC crc = hdr.crc then some r else none

/-! ### Sizes -/

@[simp] theorem CacheRecordHeader.length_bytes (h : CacheRecordHeader) : h.bytes.length = headerSize := by
  simp [CacheRecordHeader.bytes, headerSize]

@[simp] theorem CacheRecord.key_new (crc : Bytes → UInt32) (key val : Bytes) :
    (CacheRecord.new crc key val).key = key := rfl

@[simp] theorem CacheRecord.val_new (crc : Bytes → UInt32) (key val : Bytes) :
    (CacheRecord.new crc key val).val = val := rfl

@[simp] theorem length_image (crc : Bytes → UInt32) (key val : Bytes) :
    (image crc key val).length = recordSize key val := by
  simp [image, CacheRecord.bytes, recordSize, Nat.add_assoc]

theorem headerSize_le_recordSize (key val : Bytes) : headerSize ≤ recordSize key val := by
  unfold recordSize; omega

theorem recordSize_pos (key val : Bytes) : 0 < recordSize key val :=
  Nat.lt_of_lt_of_le (by decide) (headerSize_le_recordSize key val)

theorem length_image_pos (crc : Bytes → UInt32) (key val : Bytes) : 0 < (image crc key val).length := by
  rw [length_image]
  exact recordSize_pos key val

/-- The size a record is booked with is its size modulo `2 ^ 32`. -/
theorem CacheRecord.toNat_calcSize (key val : Bytes) :
    (CacheRecord.calcSize key val).toNat = recordSize key val % 2 ^ 32 :=
  UInt32.toNat_ofNat'

theorem CacheRecord.toNat_calcSize_of_lt {key val : Bytes} (h : recordSize key val < 2 ^ 32) :
    (CacheRecord.calcSize key val).toNat = recordSize key val := by
  rw [CacheRecord.toNat_calcSize, Nat.mod_eq_of_lt h]

/-! ### Reading back what was written -/

/-- The header is read back from the start of a region. -/
@[simp] theorem CacheRecordHeader.ofBytes_bytes_append (h : CacheRecordHeader) (mem : Bytes) :
    CacheRecordHeader.ofBytes (h.bytes ++ mem) = h := by
  have h8 : (h.bytes ++ mem).drop 8 = le32 h.keySize ++ (le32 h.valSize ++ mem) := by
    rw [CacheRecordHeader.bytes]
    simp only [List.append_assoc]
    rw [← List.append_assoc (le32 h.magic), List.drop_left' (by simp)]
  have h4 : (h.bytes ++ mem).drop 4 = le32 h.crc ++ (le32 h.keySize ++ (le32 h.valSize ++ mem)) := by
    rw [CacheRecordHeader.bytes]
    simp only [List.append_assoc]
    rw [List.drop_left' (by simp)]
  have h12 : (h.bytes ++ mem).drop 12 = le32 h.valSize ++ mem := by
    rw [show 12 = 8 + 4 from rfl, ← List.drop_drop, h8, List.drop_left' (by simp)]
  have h0 : ofLe32 (h.bytes ++ mem) = h.magic := by
    rw [CacheRecordHeader.bytes]
    simp only [List.append_assoc, ofLe32_le32_append]
  rw [CacheRecordHeader.ofBytes, h0, h4, h8, h12]
  simp only [ofLe32_le32_append]

/-- **A header is the bytes it is read from.** -/
theorem CacheRecordHeader.bytes_ofBytes {bs : Bytes} (h : bs.length = headerSize) :
    (CacheRecordHeader.ofBytes bs).bytes = bs := by
  unfold headerSize at h
  have hword : ∀ k, k + 4 ≤ 16 → le32 (ofLe32 (bs.drop k)) = (bs.drop k).take 4 := by
    intro k hk
    exact le32_ofLe32 (by rw [List.length_drop]; omega)
  have hsplit : ∀ k, (bs.drop k).take 4 ++ bs.drop (k + 4) = bs.drop k := by
    intro k
    rw [← List.drop_drop, List.take_append_drop]
  have hlast : bs.drop 16 = [] := List.drop_eq_nil_of_le (Nat.le_of_eq h)
  have h0 : le32 (ofLe32 bs) = (bs.drop 0).take 4 := hword 0 (by omega)
  rw [CacheRecordHeader.bytes, CacheRecordHeader.ofBytes, h0, hword 4 (by omega), hword 8 (by omega),
    hword 12 (by omega)]
  calc (bs.drop 0).take 4 ++ (bs.drop 4).take 4 ++ (bs.drop 8).take 4 ++ (bs.drop 12).take 4
      = (bs.drop 0).take 4 ++ ((bs.drop 4).take 4 ++ ((bs.drop 8).take 4 ++
          ((bs.drop 12).take 4 ++ bs.drop 16))) := by simp only [hlast, List.append_nil, List.append_assoc]
    _ = bs.drop 0 := by rw [hsplit 12, hsplit 8, hsplit 4, hsplit 0]
    _ = bs := rfl

/-- **A record is read back**: from a region that starts with the bytes of a record
whose key and value hold no zero byte, whatever follows them. -/
theorem CacheRecord.deserialize_image (crc : Bytes → UInt32) {key val : Bytes} (hk : NulFree key)
    (hv : NulFree val) (hsize : recordSize key val < 2 ^ 32) (mem : Bytes) :
    CacheRecord.deserialize crc (image crc key val ++ mem) (recordSize key val) =
      some (CacheRecord.new crc key val) := by
  have hks : (UInt32.ofNat key.length).toNat = key.length := by
    rw [UInt32.toNat_ofNat']; unfold recordSize at hsize; omega
  have hvs : (UInt32.ofNat val.length).toNat = val.length := by
    rw [UInt32.toNat_ofNat']; unfold recordSize at hsize; omega
  generalize hr : CacheRecord.new crc key val = r
  have hkey : r.key = key := by rw [← hr]; rfl
  have hval : r.val = val := by rw [← hr]; rfl
  have hkeySize : r.hdr.keySize = UInt32.ofNat key.length := by rw [← hr]; rfl
  have hvalSize : r.hdr.valSize = UInt32.ofNat val.length := by rw [← hr]; rfl
  have hmagic : r.hdr.magic = CacheRecord.MAGIC := by rw [← hr]; rfl
  have hcrc : r.computeCRC crc = r.hdr.crc := by rw [← hr]; rfl
  have hmem : image crc key val ++ mem = r.hdr.bytes ++ (key ++ (val ++ mem)) := by
    rw [image, hr, CacheRecord.bytes, hkey, hval]
    simp only [List.append_assoc]
  have hsum : (r.hdr.keySize + r.hdr.valSize).toNat + headerSize = recordSize key val := by
    rw [hkeySize, hvalSize, UInt32.toNat_add, hks, hvs]
    unfold recordSize at hsize ⊢; omega
  have hkeyPart : (cstr ((image crc key val ++ mem).drop headerSize)).take r.hdr.keySize.toNat = key := by
    rw [hmem, List.drop_left' (by simp), hkeySize, hks, take_cstr_append hk]
  have hvalPart : (cstr ((image crc key val ++ mem).drop (headerSize + r.hdr.keySize.toNat))).take
      r.hdr.valSize.toNat = val := by
    rw [hmem, ← List.append_assoc, List.drop_left' (by simp [hkeySize, hks]), hvalSize, hvs,
      take_cstr_append hv]
  have hhdr : CacheRecordHeader.ofBytes (image crc key val ++ mem) = r.hdr := by
    rw [hmem, CacheRecordHeader.ofBytes_bytes_append]
  have hrec : (⟨r.hdr, key, val⟩ : CacheRecord) = r := by
    rw [← hkey, ← hval]
  unfold CacheRecord.deserialize
  rw [if_neg (Nat.not_lt.mpr (headerSize_le_recordSize key val))]
  simp only [hhdr, hsum, hkeyPart, hvalPart, hrec, hmagic, hcrc, ne_eq, not_true_eq_false, if_false,
    and_self, if_true]

/-- What is accepted has the length its own header announces. -/
theorem CacheRecord.deserialize_size {crc : Bytes → UInt32} {data : Bytes} {n : ℕ} {r : CacheRecord}
    (h : CacheRecord.deserialize crc data n = some r) :
    headerSize ≤ n ∧ ((CacheRecordHeader.ofBytes data).keySize +
      (CacheRecordHeader.ofBytes data).valSize).toNat + headerSize = n := by
  unfold CacheRecord.deserialize at h
  by_cases h1 : n < headerSize
  · simp [h1] at h
  by_cases h2 : ((CacheRecordHeader.ofBytes data).keySize +
      (CacheRecordHeader.ofBytes data).valSize).toNat + headerSize = n
  · exact ⟨Nat.not_lt.mp h1, h2⟩
  · simp only [if_neg h1, ne_eq, h2, not_false_eq_true, if_true, reduceCtorEq] at h

/-- The header a record's bytes announce sums up to the record's size. -/
theorem headerSum_image (crc : Bytes → UInt32) {key val : Bytes} (hsize : recordSize key val < 2 ^ 32) :
    ((CacheRecord.new crc key val).hdr.keySize + (CacheRecord.new crc key val).hdr.valSize).toNat +
      headerSize = recordSize key val := by
  show (UInt32.ofNat key.length + UInt32.ofNat val.length).toNat + headerSize = recordSize key val
  rw [UInt32.toNat_add, UInt32.toNat_ofNat', UInt32.toNat_ofNat']
  unfold recordSize at hsize ⊢; omega

end EmbeddedKv.Flash
