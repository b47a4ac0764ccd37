import EmbeddedKv.Flash.Record

/-!
# What `Deserialize` accepts

`CacheRecord::Deserialize` takes the key and the value with `std::string(p, 0, n)`, which
makes a string of everything up to the next zero byte and then takes `n` bytes of it. The
log does not end its keys and values with a zero byte.

## The model

`deserializeWithin` is `Deserialize` where only the `read_size` bytes it is given may be
looked at: a string that does not end within them is read beyond them, which is
undefined. Where it returns, `CacheRecord.deserialize` returns the same on every memory
that goes on behind these bytes (`deserialize_of_within`).

## What is proved

`acceptsSerialized_iff`: nothing beyond the bytes is read, and only what `Serialize` would
write is accepted, exactly for the byte strings that are refused. What is accepted has
either no zero byte from its value on, and then memory behind it is read, or it has one,
and then the value is shorter than its header says.
-/

namespace EmbeddedKv.Flash

open EmbeddedKv.Library

/-! ### Reading within bounds -/

/-- `std::string(p, 0, n)` where the memory from `p` on may be read as far as `mem` goes. -/
def cstrWithin (mem : Bytes) (n : ℕ) : Except Stop Bytes :=
  if 0 ∈ mem then .ok ((cstr mem).take n) else .error .undefined

/-- `CacheRecord::Deserialize(data, read_size)` on exactly `read_size` bytes. -/
def CacheRecord.deserializeWithin (crc : Bytes → UInt32) (data : Bytes) : Except Stop (Option CacheRecord) :=
  if data.length < headerSize then .ok none
  else
    let hdr := CacheRecordHeader.ofBytes data
    if (hdr.keySize + hdr.valSize).toNat + headerSize ≠ data.length then .ok none
    else match cstrWithin (data.drop headerSize) hdr.keySize.toNat with
      | .error e => .error e
      | .ok key =>
        match cstrWithin (data.drop (headerSize + hdr.keySize.toNat)) hdr.valSize.toNat with
        | .error e => .error e
        | .ok val =>
          let r : CacheRecord := { hdr, key, val }
          .ok (if hdr.magic = CacheRecord.MAGIC ∧ r.computeCRC crc = hdr.crc then some r else none)

/-- **`Deserialize` accepts only what `Serialize` writes**: on these bytes, followed by
`mem`, it reads nothing beyond them, and a record it returns has the sizes of its header
and is written as these bytes. -/
def AcceptsSerialized (crc : Bytes → UInt32) (data mem : Bytes) : Prop :=
  (∃ r, CacheRecord.deserializeWithin crc data = .ok r) ∧
    ∀ r, CacheRecord.deserialize crc (data ++ mem) data.length = some r →
      r.key.length = r.hdr.keySize.toNat ∧ r.val.length = r.hdr.valSize.toNat ∧ r.bytes = data

/-- The record that `Deserialize` takes from bytes whose strings end within them. -/
def CacheRecord.taken (data : Bytes) : CacheRecord :=
  let hdr := CacheRecordHeader.ofBytes data
  { hdr
    key := (cstr (data.drop headerSize)).take hdr.keySize.toNat
    val := (cstr (data.drop (headerSize + hdr.keySize.toNat))).take hdr.valSize.toNat }

/-- The bytes are refused without a look behind them: they are too few for a header, or
not as many as the header announces, or the strings end within them and the magic number
or the checksum is wrong. -/
def Refused (crc : Bytes → UInt32) (data : Bytes) : Prop :=
  data.length < headerSize ∨
    ((CacheRecordHeader.ofBytes data).keySize + (CacheRecordHeader.ofBytes data).valSize).toNat + headerSize ≠
      data.length ∨
    0 ∈ data.drop (headerSize + (CacheRecordHeader.ofBytes data).keySize.toNat) ∧
      ¬ ((CacheRecordHeader.ofBytes data).magic = CacheRecord.MAGIC ∧
        (CacheRecord.taken data).computeCRC crc = (CacheRecordHeader.ofBytes data).crc)

variable {crc : Bytes → UInt32} {data mem : Bytes} {n : ℕ} {r : CacheRecord}

/-! ### Memory behind the bytes -/

/-- A header is read from its bytes only. -/
theorem CacheRecordHeader.ofBytes_append (h : headerSize ≤ data.length) (mem : Bytes) :
    CacheRecordHeader.ofBytes (data ++ mem) = CacheRecordHeader.ofBytes data := by
  have hword : ∀ k, k + 4 ≤ data.length → ofLe32 ((data ++ mem).drop k) = ofLe32 (data.drop k) := by
    intro k hk
    rw [ofLe32, ofLe32, List.drop_append_of_le_length (by omega), List.take_append_of_le_length]
    rw [List.length_drop]
    omega
  unfold headerSize at h
  have h0 : ofLe32 (data ++ mem) = ofLe32 data := hword 0 (by omega)
  rw [CacheRecordHeader.ofBytes, CacheRecordHeader.ofBytes, h0, hword 4 (by omega), hword 8 (by omega),
    hword 12 (by omega)]

/-- A zero byte from the value on stands from the key on. -/
theorem mem_drop_key (h : 0 ∈ data.drop (headerSize + n)) : 0 ∈ data.drop headerSize := by
  rw [← List.drop_drop] at h
  exact List.mem_of_mem_drop h

/-- Where the strings end within the bytes, the record taken from them is accepted exactly
if its magic number and its checksum are right. -/
theorem deserializeWithin_of_mem (hsum : ((CacheRecordHeader.ofBytes data).keySize +
      (CacheRecordHeader.ofBytes data).valSize).toNat + headerSize = data.length)
    (hval : 0 ∈ data.drop (headerSize + (CacheRecordHeader.ofBytes data).keySize.toNat)) :
    CacheRecord.deserializeWithin crc data =
      .ok (if (CacheRecordHeader.ofBytes data).magic = CacheRecord.MAGIC ∧
        (CacheRecord.taken data).computeCRC crc = (CacheRecordHeader.ofBytes data).crc then
          some (CacheRecord.taken data) else none) := by
  have hlen : ¬ data.length < headerSize := by omega
  unfold CacheRecord.deserializeWithin
  simp only [if_neg hlen, ne_eq, hsum, not_true_eq_false, if_false, cstrWithin, if_pos hval, if_pos (mem_drop_key hval)]
  rfl

/-- Nothing beyond the bytes is read exactly if the lengths are refused or the strings
end within them. -/
theorem deserializeWithin_ok_iff : (∃ r, CacheRecord.deserializeWithin crc data = .ok r) ↔
    data.length < headerSize ∨
      ((CacheRecordHeader.ofBytes data).keySize + (CacheRecordHeader.ofBytes data).valSize).toNat + headerSize ≠
        data.length ∨
      0 ∈ data.drop (headerSize + (CacheRecordHeader.ofBytes data).keySize.toNat) := by
  by_cases hlen : data.length < headerSize
  · exact iff_of_true ⟨none, by rw [CacheRecord.deserializeWithin, if_pos hlen]⟩ (.inl hlen)
  by_cases hsum : ((CacheRecordHeader.ofBytes data).keySize + (CacheRecordHeader.ofBytes data).valSize).toNat +
      headerSize = data.length
  · by_cases hval : 0 ∈ data.drop (headerSize + (CacheRecordHeader.ofBytes data).keySize.toNat)
    · exact iff_of_true ⟨_, deserializeWithin_of_mem hsum hval⟩ (.inr (.inr hval))
    · refine iff_of_false ?_ (by rintro (h | h | h) <;> contradiction)
      rintro ⟨r, hr⟩
      simp only [CacheRecord.deserializeWithin, if_neg hlen, ne_eq, hsum, not_true_eq_false, if_false, cstrWithin,
        if_neg hval] at hr
      split at hr
      · cases hr
      · cases hr
  · refine iff_of_true ⟨none, ?_⟩ (.inr (.inl hsum))
    simp only [CacheRecord.deserializeWithin, if_neg hlen, ne_eq, hsum, not_false_eq_true, if_true]

/-- **What `Deserialize` returns where it stays within the bytes** does not depend on what
follows them. -/
theorem deserialize_of_within {r : Option CacheRecord} (h : CacheRecord.deserializeWithin crc data = .ok r)
    (mem : Bytes) : CacheRecord.deserialize crc (data ++ mem) data.length = r := by
  have hok := deserializeWithin_ok_iff.mp ⟨r, h⟩
  by_cases hlen : data.length < headerSize
  · rw [CacheRecord.deserializeWithin, if_pos hlen] at h
    rw [CacheRecord.deserialize, if_pos hlen]
    exact Except.ok.inj h
  have hge := Nat.not_lt.mp hlen
  by_cases hsum : ((CacheRecordHeader.ofBytes data).keySize + (CacheRecordHeader.ofBytes data).valSize).toNat +
      headerSize = data.length
  · have hval := (hok.resolve_left hlen).resolve_left (not_not_intro hsum)
    have hle : headerSize + (CacheRecordHeader.ofBytes data).keySize.toNat ≤ data.length := by
      have hpos := List.length_pos_of_mem hval
      rw [List.length_drop] at hpos
      omega
    rw [deserializeWithin_of_mem hsum hval] at h
    rw [← Except.ok.inj h]
    simp only [CacheRecord.deserialize, if_neg hlen, CacheRecordHeader.ofBytes_append hge, ne_eq, hsum,
      not_true_eq_false, if_false, List.drop_append_of_le_length hge, List.drop_append_of_le_length hle,
      cstr_append_of_mem (mem_drop_key hval), cstr_append_of_mem hval]
    rfl
  · simp only [CacheRecord.deserializeWithin, if_neg hlen, ne_eq, hsum, not_false_eq_true, if_true] at h
    simp only [CacheRecord.deserialize, if_neg hlen, CacheRecordHeader.ofBytes_append hge, ne_eq, hsum,
      not_false_eq_true, if_true]
    exact Except.ok.inj h

/-! ### What is accepted -/

/-- **A value with a zero byte in it is cut**: what is taken from bytes that have a zero
byte from the value on is shorter than its header says. -/
theorem length_val_taken
    (h : 0 ∈ data.drop (headerSize + (CacheRecordHeader.ofBytes data).keySize.toNat))
    (hsum : ((CacheRecordHeader.ofBytes data).keySize + (CacheRecordHeader.ofBytes data).valSize).toNat + headerSize =
      data.length) : (CacheRecord.taken data).val.length < (CacheRecordHeader.ofBytes data).valSize.toNat := by
  set hdr := CacheRecordHeader.ofBytes data with hhdr
  have hpos := List.length_pos_of_mem h
  have hcut := length_cstr_lt h []
  rw [List.append_nil] at hcut
  rw [List.length_drop] at hpos hcut
  -- the key ends before the bytes do, so the sum of the sizes has not wrapped
  have hval : hdr.valSize.toNat = data.length - (headerSize + hdr.keySize.toNat) := by
    have hk := hdr.keySize.toNat_lt
    have hv := hdr.valSize.toNat_lt
    rw [UInt32.toNat_add] at hsum
    omega
  calc (CacheRecord.taken data).val.length ≤ (cstr (data.drop (headerSize + hdr.keySize.toNat))).length :=
        List.length_take_le' _ _
    _ < hdr.valSize.toNat := hval ▸ hcut

/-- **`Deserialize` accepts only what `Serialize` writes** exactly where it refuses. -/
theorem acceptsSerialized_iff (crc : Bytes → UInt32) (data mem : Bytes) :
    AcceptsSerialized crc data mem ↔ Refused crc data := by
  constructor
  · rintro ⟨hwithin, haccepted⟩
    rcases deserializeWithin_ok_iff.mp hwithin with hlen | hsum | hval
    · exact .inl hlen
    · exact .inr (.inl hsum)
    · by_cases hsum : ((CacheRecordHeader.ofBytes data).keySize +
          (CacheRecordHeader.ofBytes data).valSize).toNat + headerSize = data.length
      · refine .inr (.inr ⟨hval, fun hgood => ?_⟩)
        have hsome : CacheRecord.deserializeWithin crc data = _ := deserializeWithin_of_mem hsum hval
        rw [if_pos hgood] at hsome
        have hlength := (haccepted _ (deserialize_of_within hsome mem)).2.1
        exact Nat.ne_of_lt (length_val_taken hval hsum) hlength
      · exact .inr (.inl hsum)
  · intro hrefused
    have hwithin : ∃ r, CacheRecord.deserializeWithin crc data = .ok r := by
      refine deserializeWithin_ok_iff.mpr ?_
      rcases hrefused with hlen | hsum | ⟨hval, -⟩
      · exact .inl hlen
      · exact .inr (.inl hsum)
      · exact .inr (.inr hval)
    refine ⟨hwithin, fun r hr => absurd hrefused ?_⟩
    obtain ⟨r', hr'⟩ := hwithin
    have hsize := CacheRecord.deserialize_size hr
    rw [deserialize_of_within hr' mem] at hr
    subst hr
    rw [CacheRecordHeader.ofBytes_append hsize.1] at hsize
    rintro (hlen | hsum | ⟨hval, hbad⟩)
    · exact Nat.not_lt.mpr hsize.1 hlen
    · exact hsum hsize.2
    · rw [deserializeWithin_of_mem hsize.2 hval, if_neg hbad] at hr'
      cases hr'

/-- A value that is a zero byte is read as the empty value. -/
example : CacheRecord.deserializeWithin (fun _ => 0) (image (fun _ => 0) [97] [0]) =
    .ok (some ⟨(CacheRecord.new (fun _ => 0) [97] [0]).hdr, [97], []⟩) := rfl

/-- The record of the key `a` and the value `b`, as `Serialize` writes it: no zero byte
follows, so memory behind it is read. -/
theorem not_acceptsSerialized_image : ¬ AcceptsSerialized (fun _ => 0) (image (fun _ => 0) [97] [98]) [0] := by
  rintro ⟨hwithin, -⟩
  have hzero := deserializeWithin_ok_iff.mp hwithin
  revert hzero
  decide

end EmbeddedKv.Flash
