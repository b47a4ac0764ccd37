import EmbeddedKv.Flash.Deserialize
import EmbeddedKv.Flash.Reading
import EmbeddedKv.Library.Crc

/-!
# Damage within a record

What `Deserialize` makes of the bytes of a record of which a few next to each other have been
damaged. The checksum is over the header, the key and the value, so damage that stays within them is
noticed if the check detects bursts. The checksum itself is not covered by the check, nor is the
size that is read, which is compared with the sum of the two sizes.

## What is proved

- `deserialize_burst`: if the check detects bursts of four bytes, a record with such a burst in it is
  refused, wherever in the record the burst is, unless it puts a zero byte into the key or the
  value.
- `read_scratched`: of a record that is `Scratched` in its file, `Read` returns the key and the value
  if nothing of it has changed, and fails if something has.
-/

namespace EmbeddedKv.Flash

open EmbeddedKv.Library

variable {crc : Bytes → UInt32} {key val data mem bs : Bytes} {n : ℕ} {r : CacheRecord}

/-! ### The fields of the header -/

/-- What `Deserialize` accepts has the right sizes, the magic number and the checksum. -/
theorem CacheRecord.deserialize_fields (h : CacheRecord.deserialize crc data n = some r) :
    r = CacheRecord.taken data ∧ (r.hdr.keySize + r.hdr.valSize).toNat + headerSize = n ∧
      r.hdr.magic = CacheRecord.MAGIC ∧ r.computeCRC crc = r.hdr.crc := by
  obtain ⟨h16, hsum⟩ := CacheRecord.deserialize_size h
  unfold CacheRecord.deserialize at h
  rw [if_neg (Nat.not_lt.mpr h16)] at h
  simp only [hsum, ne_eq, not_true_eq_false, if_false] at h
  split_ifs at h with hgood
  obtain rfl := Option.some.inj h
  exact ⟨rfl, hsum, hgood⟩

/-- Two words add up to the bytes that are kept and the bytes of a window. -/
theorem ofLittle_add {as : Bytes} (hlen : as.length = 8) {m : ℕ} (hm : m ≤ 4) :
    ofLittle (as.take 4) + ofLittle (as.drop 4) = ofLittle ((as.drop 4).take m ++ (as.drop m).take (4 - m)) +
      (ofLittle (as.take m) + 256 ^ m * ofLittle (as.drop (m + 4))) := by
  have hlow : as.take 4 = as.take m ++ (as.drop m).take (4 - m) := by
    rw [← List.take_add, Nat.add_sub_cancel' hm]
  have hhigh : as.drop 4 = (as.drop 4).take m ++ as.drop (m + 4) := by
    rw [Nat.add_comm m 4, ← List.drop_drop, List.take_append_drop]
  have hm₁ : (as.take m).length = m := by rw [List.length_take]; omega
  have hm₂ : ((as.drop 4).take m).length = m := by rw [List.length_take, List.length_drop]; omega
  calc ofLittle (as.take 4) + ofLittle (as.drop 4)
      = ofLittle (as.take m ++ (as.drop m).take (4 - m)) + ofLittle ((as.drop 4).take m ++ as.drop (m + 4)) := by
        rw [← hlow, ← hhigh]
    _ = _ := by
        rw [ofLittle_append, ofLittle_append, ofLittle_append, hm₁, hm₂]
        ring

/-- **Two sizes with the same sum** are the same, if they differ in four bytes next to each other: the
bytes of the window, high ones of the first size and low ones of the second, are added to the same number. -/
theorem sizes_of_burst {as bs : Bytes} (hlen : as.length = 8) (h : Burst 4 as bs)
    (hsum : ofLe32 as + ofLe32 (as.drop 4) = ofLe32 bs + ofLe32 (bs.drop 4)) : as = bs := by
  obtain ⟨hab, i, hi⟩ := h
  obtain ⟨m, hm, hsame⟩ : ∃ m ≤ 4, ∀ j, j < m ∨ m + 4 ≤ j → as[j]? = bs[j]? := by
    refine ⟨min i 4, Nat.min_le_right _ _, fun j hj => ?_⟩
    by_cases hout : 8 ≤ j
    · rw [List.getElem?_eq_none (by omega), List.getElem?_eq_none (by omega)]
    · exact hi j (by omega)
  have hlow : as.take m = bs.take m := by
    refine List.ext_getElem? fun j => ?_
    rw [List.getElem?_take, List.getElem?_take]
    split_ifs with hj
    · exact hsame j (.inl hj)
    · rfl
  have hhigh : as.drop (m + 4) = bs.drop (m + 4) := by
    refine List.ext_getElem? fun j => ?_
    rw [List.getElem?_drop, List.getElem?_drop]
    exact hsame _ (.inr (Nat.le_add_right _ _))
  have hwords : ∀ cs : Bytes, cs.length = 8 → (ofLe32 cs + ofLe32 (cs.drop 4)).toNat =
      (ofLittle (cs.take 4) + ofLittle (cs.drop 4)) % 2 ^ 32 := by
    intro cs hcs
    rw [UInt32.toNat_add, toNat_ofLe32, toNat_ofLe32, List.take_of_length_le (l := cs.drop 4)]
    rw [List.length_drop, hcs]
  have hmod := congrArg UInt32.toNat hsum
  rw [hwords as hlen, hwords bs (hab ▸ hlen), ofLittle_add hlen hm, ofLittle_add (hab ▸ hlen) hm, hlow, hhigh] at hmod
  have hlength : ∀ cs : Bytes, cs.length = 8 → ((cs.drop 4).take m ++ (cs.drop m).take (4 - m)).length = 4 := by
    intro cs hcs
    rw [List.length_append, List.length_take, List.length_take, List.length_drop, List.length_drop]
    omega
  have hwindow : (as.drop 4).take m ++ (as.drop m).take (4 - m) = (bs.drop 4).take m ++ (bs.drop m).take (4 - m) := by
    apply ofLittle_injective ((hlength as hlen).trans (hlength bs (hab ▸ hlen)).symm)
    have ha := ofLittle_lt ((as.drop 4).take m ++ (as.drop m).take (4 - m))
    have hb := ofLittle_lt ((bs.drop 4).take m ++ (bs.drop m).take (4 - m))
    rw [hlength as hlen] at ha
    rw [hlength bs (hab ▸ hlen)] at hb
    omega
  obtain ⟨h₁, h₂⟩ := List.append_inj hwindow (by
    rw [List.length_take, List.length_take, List.length_drop, List.length_drop, hab])
  have hsplit : ∀ cs : Bytes, cs = cs.take m ++ (cs.drop m).take (4 - m) ++ ((cs.drop 4).take m ++ cs.drop (m + 4)) := by
    intro cs
    rw [← List.take_add, Nat.add_sub_cancel' hm, Nat.add_comm m 4, ← List.drop_drop, List.take_append_drop,
      List.take_append_drop]
  rw [hsplit as, hsplit bs, hlow, hhigh, h₁, h₂]

/-! ### The record -/

/-- **What is taken from bytes without a zero byte** behind the header are these bytes. -/
theorem data_taken (hnul : NulFree (bs.drop headerSize)) (hlen : bs.length = headerSize +
      (CacheRecordHeader.ofBytes bs).keySize.toNat + (CacheRecordHeader.ofBytes bs).valSize.toNat) (mem : Bytes) :
    (CacheRecord.taken (bs ++ mem)).hdr = CacheRecordHeader.ofBytes bs ∧
      (CacheRecord.taken (bs ++ mem)).key ++ (CacheRecord.taken (bs ++ mem)).val = bs.drop headerSize := by
  have hhdr : CacheRecordHeader.ofBytes (bs ++ mem) = CacheRecordHeader.ofBytes bs :=
    CacheRecordHeader.ofBytes_append (by omega) mem
  generalize hks : (CacheRecordHeader.ofBytes bs).keySize.toNat = ks at hlen
  generalize hvs : (CacheRecordHeader.ofBytes bs).valSize.toNat = vs at hlen
  have hkey : (CacheRecord.taken (bs ++ mem)).key = (bs.drop headerSize).take ks := by
    rw [CacheRecord.taken, hhdr, hks, List.drop_append_of_le_length (by omega)]
    exact take_cstr_of_le hnul (by rw [List.length_drop]; omega) mem
  have hval : (CacheRecord.taken (bs ++ mem)).val = (bs.drop headerSize).drop ks := by
    have hrest : ((bs.drop headerSize).drop ks).length = vs := by
      rw [List.length_drop, List.length_drop]
      omega
    show (cstr ((bs ++ mem).drop (headerSize + (CacheRecordHeader.ofBytes (bs ++ mem)).keySize.toNat))).take
      (CacheRecordHeader.ofBytes (bs ++ mem)).valSize.toNat = _
    rw [hhdr, hks, hvs, List.drop_append_of_le_length (by omega), ← List.drop_drop, ← hrest]
    exact take_cstr_append (hnul.drop ks) mem
  exact ⟨hhdr, by rw [hkey, hval, List.take_append_drop]⟩

/-- The words of a header are those of its bytes. -/
theorem sizes_ofBytes (bs : Bytes) : (CacheRecordHeader.ofBytes bs).keySize = ofLe32 ((bs.drop 8).take 8) ∧
    (CacheRecordHeader.ofBytes bs).valSize = ofLe32 (((bs.drop 8).take 8).drop 4) := by
  refine ⟨?_, ?_⟩
  · rw [ofLe32, List.take_take]
    rfl
  · rw [ofLe32, List.drop_take, List.take_take, List.drop_drop]
    rfl

theorem crc_ofBytes (bs : Bytes) : (CacheRecordHeader.ofBytes bs).crc = ofLe32 ((bs.take 8).drop 4) := by
  rw [ofLe32, List.drop_take, List.take_take]
  rfl

/-- **The sizes withstand a burst**, since their sum is compared. -/
theorem sizes_eq_of_burst {as : Bytes} (hlen : headerSize ≤ as.length) (h : Burst 4 as bs)
    (hsum : (CacheRecordHeader.ofBytes as).keySize + (CacheRecordHeader.ofBytes as).valSize =
      (CacheRecordHeader.ofBytes bs).keySize + (CacheRecordHeader.ofBytes bs).valSize) :
    (CacheRecordHeader.ofBytes as).keySize = (CacheRecordHeader.ofBytes bs).keySize ∧
      (CacheRecordHeader.ofBytes as).valSize = (CacheRecordHeader.ofBytes bs).valSize := by
  obtain ⟨hka, hva⟩ := sizes_ofBytes as
  obtain ⟨hkb, hvb⟩ := sizes_ofBytes bs
  rw [hka, hva, hkb, hvb] at hsum ⊢
  unfold headerSize at hlen
  rw [sizes_of_burst (by rw [List.length_take, List.length_drop]; omega) ((h.drop 8).take 8) hsum]
  exact ⟨rfl, rfl⟩

/-- The checksum of a record is over its header and what is behind it. -/
theorem crc_image (crc : Bytes → UInt32) (key val : Bytes) :
    crc (({ (CacheRecord.new crc key val).hdr with crc := 0 } : CacheRecordHeader).bytes ++ (key ++ val)) =
      (CacheRecord.new crc key val).hdr.crc := by
  rw [← List.append_assoc]
  rfl

theorem ofBytes_image (crc : Bytes → UInt32) (key val : Bytes) :
    CacheRecordHeader.ofBytes (image crc key val) = (CacheRecord.new crc key val).hdr := by
  rw [image, CacheRecord.bytes, List.append_assoc, CacheRecordHeader.ofBytes_bytes_append]

theorem drop_image (crc : Bytes → UInt32) (key val : Bytes) : (image crc key val).drop headerSize = key ++ val := by
  rw [image, CacheRecord.bytes, List.append_assoc, List.drop_left' (CacheRecordHeader.length_bytes _)]
  rfl

/-- Bytes are their header and what is behind it. -/
theorem bytes_ofBytes_append (h : headerSize ≤ bs.length) :
    (CacheRecordHeader.ofBytes bs).bytes ++ bs.drop headerSize = bs := by
  have hlen : (bs.take headerSize).length = headerSize := by rw [List.length_take, Nat.min_eq_left h]
  have hhdr := CacheRecordHeader.ofBytes_append (Nat.le_of_eq hlen.symm) (bs.drop headerSize)
  rw [List.take_append_drop] at hhdr
  rw [hhdr, CacheRecordHeader.bytes_ofBytes hlen, List.take_append_drop]

/-- **A record with a burst in it** is refused, unless the burst makes a byte behind the header zero. -/
theorem deserialize_burst (hcrc : DetectsBursts 4 crc) (hsize : recordSize key val < 2 ^ 32)
    (h : Burst 4 (image crc key val) bs) (hnul : NulFree (bs.drop headerSize))
    (hr : CacheRecord.deserialize crc (bs ++ mem) (recordSize key val) = some r) : bs = image crc key val := by
  obtain ⟨rfl, hsum, hmagic, hcheck⟩ := CacheRecord.deserialize_fields hr
  have hlen : bs.length = recordSize key val := by rw [← h.1, length_image]
  have h16 : headerSize ≤ bs.length := hlen ▸ headerSize_le_recordSize key val
  have hhdr : (CacheRecord.taken (bs ++ mem)).hdr = CacheRecordHeader.ofBytes bs :=
    CacheRecordHeader.ofBytes_append h16 mem
  rw [hhdr] at hsum hmagic
  -- the sizes are the right ones
  have hsums := headerSum_image crc hsize
  obtain ⟨hks, hvs⟩ := sizes_eq_of_burst (headerSize_le_recordSize key val |>.trans_eq (length_image crc key val).symm) h
    (by rw [ofBytes_image]; exact UInt32.toNat_inj.mp (by omega))
  rw [ofBytes_image] at hks hvs
  have hclear : ({ CacheRecordHeader.ofBytes bs with crc := 0 } : CacheRecordHeader) =
      { (CacheRecord.new crc key val).hdr with crc := 0 } := by
    rw [CacheRecordHeader.mk.injEq]
    exact ⟨hmagic, rfl, hks.symm, hvs.symm⟩
  have hbs : bs.length = headerSize + (CacheRecordHeader.ofBytes bs).keySize.toNat +
      (CacheRecordHeader.ofBytes bs).valSize.toNat := by
    rw [← hks, ← hvs, hlen]
    show headerSize + key.length + val.length = headerSize + (UInt32.ofNat key.length).toNat + (UInt32.ofNat val.length).toNat
    unfold recordSize at hsize
    rw [UInt32.toNat_ofNat', UInt32.toNat_ofNat', Nat.mod_eq_of_lt (by omega), Nat.mod_eq_of_lt (by omega)]
  obtain ⟨-, hdata⟩ := data_taken hnul hbs mem
  rw [CacheRecord.computeCRC, hhdr, hclear, List.append_assoc, hdata] at hcheck
  -- the burst is either in the header or behind it
  have hburst := (h.drop headerSize).append_left
    ({ (CacheRecord.new crc key val).hdr with crc := 0 } : CacheRecordHeader).bytes
  rw [drop_image] at hburst
  have hsame : key ++ val = bs.drop headerSize := by
    rcases h.take_or_drop 8 with htake | hdrop
    · have hfield : (CacheRecordHeader.ofBytes bs).crc = (CacheRecord.new crc key val).hdr.crc := by
        rw [← ofBytes_image, crc_ofBytes, crc_ofBytes, htake]
      exact List.append_cancel_left (hcrc _ _ hburst ((crc_image crc key val).trans (hfield.symm.trans hcheck.symm)))
    · have hback := congrArg (List.drop 4) hdrop
      rw [List.drop_drop, List.drop_drop] at hback
      rw [← drop_image crc key val]
      exact hback
  have hall : CacheRecordHeader.ofBytes bs = (CacheRecord.new crc key val).hdr := by
    rw [← hsame, crc_image crc key val] at hcheck
    exact (CacheRecordHeader.mk.injEq _ _ _ _ _ _ _ _).mpr ⟨hmagic, hcheck.symm, hks.symm, hvs.symm⟩
  rw [← bytes_ofBytes_append h16, hall, ← hsame, image, CacheRecord.bytes, List.append_assoc]
  rfl

/-! ### The file -/

/-- The bytes at an address. -/
def slice (file : Bytes) (lba : LBA) : Bytes := (file.drop lba.off.toNat).take lba.size.toNat

/-- **The record at an address is scratched**: its bytes differ in a burst of four at most, and none of
them has become zero. What is around it may be anything. -/
structure Scratched (file file' : Bytes) (lba : LBA) : Prop where
  /-- The burst. -/
  burst : Burst 4 (slice file lba) (slice file' lba)
  /-- A zero byte was one before. -/
  zero : ∀ j : ℕ, (slice file' lba)[j]? = some 0 → (slice file lba)[j]? = some 0

theorem getElem?_slice (file : Bytes) (lba : LBA) (j : ℕ) :
    (slice file lba)[j]? = if j < lba.size.toNat then file[lba.off.toNat + j]? else none := by
  rw [slice, List.getElem?_take, List.getElem?_drop]

/-- One byte that is overwritten is a scratch, unless it becomes zero. -/
theorem scratched_set (file : Bytes) (lba : LBA) (k : ℕ) {b : UInt8} (hb : b ≠ 0) : Scratched file (file.set k b) lba := by
  refine ⟨⟨?_, k - lba.off.toNat, fun j hj => ?_⟩, fun j hj => ?_⟩
  · rw [slice, slice, List.length_take, List.length_take, List.length_drop, List.length_drop, List.length_set]
  · rw [getElem?_slice, getElem?_slice, List.getElem?_set_ne (by omega)]
  · rw [getElem?_slice] at hj ⊢
    split_ifs at hj ⊢
    by_cases hk : k = lba.off.toNat + j
    · rw [hk, List.getElem?_set_self'] at hj
      cases hold : file[lba.off.toNat + j]? with
      | none => rw [hold] at hj; cases hj
      | some a => rw [hold] at hj; exact absurd (Option.some.inj hj) hb
    · rwa [List.getElem?_set_ne hk] at hj

/-- Behind the header of a record that is scratched there is no zero byte. -/
theorem Scratched.nulFree {file file' : Bytes} {lba : LBA} (h : Scratched file file' lba)
    (hslice : slice file lba = image crc key val) (hk : NulFree key) (hv : NulFree val) :
    NulFree ((slice file' lba).drop headerSize) := by
  intro b hb hzero
  obtain ⟨j, hj⟩ := List.mem_iff_getElem?.mp hb
  rw [List.getElem?_drop, hzero] at hj
  have hback := h.zero _ hj
  rw [hslice, ← List.getElem?_drop, drop_image] at hback
  exact hk.append hv 0 (List.mem_iff_getElem?.mpr ⟨j, hback⟩) rfl

/-- **`Read` of a record that is scratched** returns it if nothing has changed, and fails otherwise. -/
theorem read_scratched {f : WriteableCacheFile} {mode : FlashcacheMode} {env : Environment} {file file' : Bytes}
    {lba : LBA} (hcrc : DetectsBursts 4 crc) (hat : At file lba (image crc key val)) (hk : NulFree key)
    (hv : NulFree val) (hsize : recordSize key val < 2 ^ 32) (h : Scratched file file' lba)
    (hcl : f.closed mode = true) (hfd : f.fd = some file') (hio : Enough env.preads lba.size.toNat) :
    f.read crc mode env lba =
      .ok (if slice file' lba = slice file lba then some (key, val) else none) := by
  have hs : lba.size.toNat = recordSize key val := by rw [hat.1, length_image]
  have hslice : slice file lba = image crc key val := by
    rw [slice, hat.1]
    exact hat.2
  have hlen : (slice file' lba).length = recordSize key val := by rw [← h.burst.1, hslice, length_image]
  have hpos := recordSize_pos key val
  have hle : lba.size.toNat ≤ (file'.drop lba.off.toNat).length := by
    rw [slice, List.length_take] at hlen
    omega
  rw [WriteableCacheFile.read, if_pos hcl, hfd]
  dsimp only
  rw [WriteableCacheFile.preadLoop_enough hio hle, List.nil_append, if_neg (by omega)]
  show Except.ok ((CacheRecord.deserialize crc (slice file' lba ++ env.scratch.drop (slice file' lba).length)
    (slice file' lba).length).map fun r => (r.key, r.val)) = _
  rw [hlen]
  split_ifs with hsame
  · rw [hsame, hslice, CacheRecord.deserialize_image crc hk hv hsize]
    rfl
  · -- a record that is accepted is the one that was written
    cases hr : CacheRecord.deserialize crc (slice file' lba ++ env.scratch.drop (recordSize key val)) (recordSize key val) with
    | none => rfl
    | some r =>
      rw [hslice] at hsame
      exact absurd (deserialize_burst hcrc hsize (hslice ▸ h.burst) (h.nulFree hslice hk hv) hr) hsame

end EmbeddedKv.Flash
