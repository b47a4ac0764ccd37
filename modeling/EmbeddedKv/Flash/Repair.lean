import EmbeddedKv.Flash.File

/-!
# Repair

`WriteableCacheFile::Open` and the loop of `Repair`, which walk over a file that was
written before: from each position on, a header is read, then the key, and the address
of the record is given to the index of the store.

## The model

`repairLoop` is the list of the calls of `Metadata::Insert`. What `pread` returns is not
looked at, so where the file is at its end memory keeps what it held: for the header
that is the header before, for the key whatever `new char[]` gave. A round that does not
move on is repeated forever (`Stop.unfinished`).

## What is proved

`repair_whole_records`: on what a crash may leave of a log, `Repair` finds exactly the complete
records if and only if no record is cut. The first record that is cut is found as well
(`repair_cut`).
-/

namespace EmbeddedKv.Flash

open EmbeddedKv.Library

/-! ### The files of an earlier run -/

/-- `WriteableCacheFile(dir, cache_id, 0, 0, cache)` and `Open()` on a file with the
given bytes. -/
def WriteableCacheFile.opened (cacheId : UInt32) (file : Bytes) : WriteableCacheFile :=
  { new cacheId 0 0 with filesize := UInt32.ofNat file.length, fd := some file, eof := true }

/-- `pread` into memory that holds `mem`: as much as the file has from `pos` on. -/
def preadInto (file : Bytes) (pos : ℕ) (mem : Bytes) : Bytes :=
  let got := (file.drop pos).take mem.length
  got ++ mem.drop got.length

/-- The loop of `Repair`, with room for `fuel` rounds: the keys and addresses given to
`Metadata::Insert`. `garbage` is what memory holds that was just allocated. -/
def WriteableCacheFile.repairLoop (garbage : ℕ → ℕ → UInt8) (f : WriteableCacheFile) (file : Bytes) :
    ℕ → ℕ → CacheRecordHeader → Except Stop (List (Bytes × LBA))
  | 0, _, _ => .error .unfinished
  | fuel + 1, startPos, hdr =>
    if startPos < f.filesize.toNat then
      let hdr := CacheRecordHeader.ofBytes (preadInto file startPos hdr.bytes)
      let tempKey := (List.range hdr.keySize.toNat).map (garbage startPos)
      let key := preadInto file (startPos + headerSize) tempKey
      let lba : LBA := ⟨f.cacheId, UInt32.ofNat startPos, hdr.keySize + hdr.valSize + UInt32.ofNat headerSize⟩
      match repairLoop garbage f file fuel (startPos + lba.size.toNat) hdr with
      | .error e => .error e
      | .ok calls => .ok ((key, lba) :: calls)
    else .ok []

/-- `Repair`: what is given to `Metadata::Insert`. -/
def WriteableCacheFile.repair (garbage : ℕ → ℕ → UInt8) (f : WriteableCacheFile) :
    Except Stop (List (Bytes × LBA)) :=
  match f.fd with
  | none => .error .undefined
  | some file => f.repairLoop garbage file (f.filesize.toNat + 1) 0 ⟨0, 0, 0, 0⟩

/-- Every address has the id of the file. -/
theorem WriteableCacheFile.cacheId_repair {garbage : ℕ → ℕ → UInt8} {f : WriteableCacheFile} {calls : List (Bytes × LBA)}
    (hr : f.repair garbage = .ok calls) : ∀ c ∈ calls, c.2.cacheId = f.cacheId := by
  have loop : ∀ (file : Bytes) (fuel start : ℕ) (hdr : CacheRecordHeader) (calls : List (Bytes × LBA)),
      f.repairLoop garbage file fuel start hdr = .ok calls → ∀ c ∈ calls, c.2.cacheId = f.cacheId := by
    intro file fuel
    induction fuel with
    | zero => intro start hdr calls hr; cases hr
    | succ fuel ih =>
      intro start hdr calls hr
      rw [repairLoop] at hr
      split_ifs at hr
      · simp only at hr
        split at hr
        · cases hr
        · next more heq =>
          cases hr
          intro c hc
          rcases List.mem_cons.mp hc with rfl | hc
          · rfl
          · exact ih _ _ _ heq c hc
      · cases hr
        intro c hc
        cases hc
  unfold repair at hr
  split at hr
  · cases hr
  · exact loop _ _ _ _ _ hr

/-! ### Logs -/

/-- The bytes of a list of records. -/
def images (crc : Bytes → UInt32) (recs : List (Bytes × Bytes)) : Bytes :=
  recs.flatMap fun r => image crc r.1 r.2

/-- The bytes that they take. -/
def imagesSize (recs : List (Bytes × Bytes)) : ℕ := (recs.map fun r => recordSize r.1 r.2).sum

/-- The keys and addresses of the records of a log that starts at `start`. -/
def located (cacheId : UInt32) : ℕ → List (Bytes × Bytes) → List (Bytes × LBA)
  | _, [] => []
  | start, r :: recs =>
    (r.1, ⟨cacheId, UInt32.ofNat start, CacheRecord.calcSize r.1 r.2⟩) ::
      located cacheId (start + recordSize r.1 r.2) recs

/-- The records that lie in the first `n` bytes completely. -/
def complete : ℕ → List (Bytes × Bytes) → List (Bytes × Bytes)
  | _, [] => []
  | n, r :: recs => if recordSize r.1 r.2 ≤ n then r :: complete (n - recordSize r.1 r.2) recs else []

variable {crc : Bytes → UInt32} {garbage : ℕ → ℕ → UInt8} {f : WriteableCacheFile} {file rest : Bytes}
  {key val : Bytes} {recs : List (Bytes × Bytes)} {cacheId : UInt32} {start fuel n : ℕ} {hdr : CacheRecordHeader}

@[simp] theorem imagesSize_nil : imagesSize [] = 0 := rfl

@[simp] theorem imagesSize_cons (r : Bytes × Bytes) (recs : List (Bytes × Bytes)) :
    imagesSize (r :: recs) = recordSize r.1 r.2 + imagesSize recs := by
  rw [imagesSize, List.map_cons, List.sum_cons]
  rfl

@[simp] theorem length_images (crc : Bytes → UInt32) (recs : List (Bytes × Bytes)) :
    (images crc recs).length = imagesSize recs := by
  induction recs with
  | nil => rfl
  | cons r recs ih =>
    rw [images, List.flatMap_cons, List.length_append, length_image, imagesSize_cons]
    exact congrArg (recordSize r.1 r.2 + ·) ih

theorem images_append (crc : Bytes → UInt32) (recs more : List (Bytes × Bytes)) :
    images crc (recs ++ more) = images crc recs ++ images crc more := List.flatMap_append

theorem imagesSize_append (recs more : List (Bytes × Bytes)) :
    imagesSize (recs ++ more) = imagesSize recs + imagesSize more := by
  rw [imagesSize, List.map_append, List.sum_append]
  rfl

/-- What the first `n` bytes of a log are: the complete records, and a part of the next. -/
theorem take_images (crc : Bytes → UInt32) (n : ℕ) (recs : List (Bytes × Bytes)) :
    ∃ rest, (images crc recs).take n = images crc (complete n recs) ++ rest := by
  induction recs generalizing n with
  | nil => exact ⟨[], by rw [complete, images, List.flatMap_nil, List.take_nil]; rfl⟩
  | cons r recs ih =>
    rw [complete]
    split_ifs with hle
    · obtain ⟨rest, hrest⟩ := ih (n - recordSize r.1 r.2)
      refine ⟨rest, ?_⟩
      rw [images, List.flatMap_cons, List.take_append, length_image,
        List.take_of_length_le (by rw [length_image]; exact hle)]
      rw [images] at hrest
      rw [hrest, images, images, List.flatMap_cons, List.append_assoc]
    · exact ⟨_, (List.nil_append _).symm⟩

/-- Records take at least one byte each. -/
theorem length_le_imagesSize (recs : List (Bytes × Bytes)) : recs.length ≤ imagesSize recs := by
  induction recs with
  | nil => exact Nat.le_refl 0
  | cons r recs ih =>
    have hpos := recordSize_pos r.1 r.2
    rw [imagesSize_cons, List.length_cons]
    omega

/-- The addresses of records lie where the records do. -/
theorem end_of_located (hsize : start + imagesSize recs < 2 ^ 32) {c : Bytes × LBA}
    (hc : c ∈ located cacheId start recs) : c.2.off.toNat + c.2.size.toNat ≤ start + imagesSize recs := by
  induction recs generalizing start with
  | nil => cases hc
  | cons r recs ih =>
    rw [imagesSize_cons] at hsize ⊢
    rw [located, List.mem_cons] at hc
    rcases hc with rfl | hc
    · have hoff : (UInt32.ofNat start).toNat = start := by
        rw [UInt32.toNat_ofNat', Nat.mod_eq_of_lt (by omega)]
      rw [hoff, CacheRecord.toNat_calcSize_of_lt (by omega)]
      omega
    · have := ih (by omega) hc
      omega

/-! ### One round -/

/-- `pread` of as much as is there. -/
theorem preadInto_of_drop {mem got : Bytes} (hfile : file.drop start = got ++ rest) (hlen : got.length = mem.length) :
    preadInto file start mem = got := by
  rw [preadInto, hfile, ← hlen, List.take_left', List.drop_eq_nil_of_le (Nat.le_of_eq hlen.symm), List.append_nil]
  rfl

/-- **One round over a complete record**: its key and its address are found, whatever
the header held before. -/
theorem repairLoop_record (hfile : file.drop start = image crc key val ++ rest) (hsize : recordSize key val < 2 ^ 32)
    (hlt : start < f.filesize.toNat) : f.repairLoop garbage file (fuel + 1) start hdr =
      match f.repairLoop garbage file fuel (start + recordSize key val) (CacheRecord.new crc key val).hdr with
      | .error e => .error e
      | .ok calls => .ok ((key, ⟨f.cacheId, UInt32.ofNat start, CacheRecord.calcSize key val⟩) :: calls) := by
  have hkey : (UInt32.ofNat key.length).toNat = key.length := by
    rw [UInt32.toNat_ofNat', Nat.mod_eq_of_lt]
    unfold recordSize at hsize
    omega
  have hparts : file.drop start = (CacheRecord.new crc key val).hdr.bytes ++ (key ++ (val ++ rest)) := by
    rw [hfile, image, CacheRecord.bytes]
    simp only [List.append_assoc, CacheRecord.key_new, CacheRecord.val_new]
  have hhdr : CacheRecordHeader.ofBytes (preadInto file start hdr.bytes) = (CacheRecord.new crc key val).hdr := by
    rw [preadInto_of_drop hparts (by simp)]
    have hback := CacheRecordHeader.ofBytes_bytes_append (CacheRecord.new crc key val).hdr []
    rwa [List.append_nil] at hback
  have hkeyPart : preadInto file (start + headerSize)
      ((List.range (CacheRecord.new crc key val).hdr.keySize.toNat).map (garbage start)) = key := by
    have hdrop : file.drop (start + headerSize) = key ++ (val ++ rest) := by
      rw [← List.drop_drop, hparts, List.drop_left' (by simp)]
    apply preadInto_of_drop hdrop
    rw [List.length_map, List.length_range]
    exact hkey.symm
  have hcalc : (CacheRecord.new crc key val).hdr.keySize + (CacheRecord.new crc key val).hdr.valSize +
      UInt32.ofNat headerSize = CacheRecord.calcSize key val := by
    show UInt32.ofNat key.length + UInt32.ofNat val.length + UInt32.ofNat headerSize = _
    rw [← UInt32.ofNat_add, ← UInt32.ofNat_add, CacheRecord.calcSize]
    congr 1
    omega
  rw [WriteableCacheFile.repairLoop, if_pos hlt]
  simp only [hhdr, hkeyPart, hcalc, CacheRecord.toNat_calcSize_of_lt hsize]

/-- **The complete records of a log are found.** -/
theorem repairLoop_images (garbage : ℕ → ℕ → UInt8) (fuel : ℕ) (hdr : CacheRecordHeader)
    (hfile : file.drop start = images crc recs ++ rest) (hend : start + imagesSize recs ≤ f.filesize.toNat) :
    ∃ hdr', f.repairLoop garbage file (fuel + recs.length) start hdr =
        match f.repairLoop garbage file fuel (start + imagesSize recs) hdr' with
        | .error e => .error e
        | .ok calls => .ok (located f.cacheId start recs ++ calls) := by
  induction recs generalizing start hdr with
  | nil =>
    refine ⟨hdr, ?_⟩
    rw [List.length_nil, imagesSize_nil, Nat.add_zero, Nat.add_zero]
    cases f.repairLoop garbage file fuel start hdr <;> rfl
  | cons r recs ih =>
    rw [imagesSize_cons] at hend
    have hpos := recordSize_pos r.1 r.2
    have hbound := f.filesize.toNat_lt
    have hcons : file.drop start = image crc r.1 r.2 ++ (images crc recs ++ rest) := by
      rw [hfile, images, List.flatMap_cons, List.append_assoc]
      rfl
    have hnext : file.drop (start + recordSize r.1 r.2) = images crc recs ++ rest := by
      rw [← List.drop_drop, hcons, List.drop_left' (length_image crc r.1 r.2)]
    obtain ⟨hdr', hrun⟩ := ih (CacheRecord.new crc r.1 r.2).hdr hnext (by omega)
    refine ⟨hdr', ?_⟩
    rw [List.length_cons, ← Nat.add_assoc, repairLoop_record hcons (by omega) (by omega), hrun, imagesSize_cons,
      ← Nat.add_assoc]
    cases f.repairLoop garbage file fuel (start + recordSize r.1 r.2 + imagesSize recs) hdr' <;> rfl

/-! ### The whole file -/

/-- The size of a file is read as it is. -/
theorem toNat_filesize_opened (cacheId : UInt32) (hsize : file.length < 2 ^ 32) :
    (WriteableCacheFile.opened cacheId file).filesize.toNat = file.length :=
  (UInt32.toNat_ofNat').trans (Nat.mod_eq_of_lt hsize)

/-- **`Repair` finds the complete records** of a file that starts with them. -/
theorem repair_append (crc : Bytes → UInt32) (garbage : ℕ → ℕ → UInt8) (cacheId : UInt32)
    (recs : List (Bytes × Bytes)) (rest : Bytes) (hsize : imagesSize recs + rest.length < 2 ^ 32) : ∃ hdr fuel,
    (WriteableCacheFile.opened cacheId (images crc recs ++ rest)).repair garbage =
      match (WriteableCacheFile.opened cacheId (images crc recs ++ rest)).repairLoop garbage (images crc recs ++ rest)
        (fuel + 1) (imagesSize recs) hdr with
      | .error e => .error e
      | .ok calls => .ok (located cacheId 0 recs ++ calls) := by
  have hlength : (images crc recs ++ rest).length = imagesSize recs + rest.length := by
    rw [List.length_append, length_images]
  have hfilesize : (WriteableCacheFile.opened cacheId (images crc recs ++ rest)).filesize.toNat =
      (images crc recs ++ rest).length := toNat_filesize_opened cacheId (by rw [hlength]; exact hsize)
  have hlen := length_le_imagesSize recs
  have hfile : (images crc recs ++ rest).drop 0 = images crc recs ++ rest := rfl
  have hend : 0 + imagesSize recs ≤ (WriteableCacheFile.opened cacheId (images crc recs ++ rest)).filesize.toNat := by
    rw [hfilesize, hlength]
    omega
  have hfuel : imagesSize recs + rest.length + 1 = imagesSize recs - recs.length + rest.length + 1 + recs.length := by
    omega
  obtain ⟨hdr, hrun⟩ := repairLoop_images garbage (imagesSize recs - recs.length + rest.length + 1) ⟨0, 0, 0, 0⟩
    hfile hend
  refine ⟨hdr, imagesSize recs - recs.length + rest.length, ?_⟩
  rw [Nat.zero_add] at hrun
  show WriteableCacheFile.repairLoop _ _ _ _ _ _ = _
  rw [hfilesize, hlength, hfuel]
  exact hrun

/-- A file of complete records only. -/
theorem repair_images (hsize : imagesSize recs < 2 ^ 32) :
    (WriteableCacheFile.opened cacheId (images crc recs)).repair garbage = .ok (located cacheId 0 recs) := by
  obtain ⟨hdr, fuel, hrun⟩ := repair_append crc garbage cacheId recs [] (by simpa using hsize)
  rw [List.append_nil] at hrun
  have hdone : ¬ imagesSize recs < (WriteableCacheFile.opened cacheId (images crc recs)).filesize.toNat := by
    rw [toNat_filesize_opened cacheId (by rw [length_images]; exact hsize), length_images]
    exact Nat.lt_irrefl _
  rw [WriteableCacheFile.repairLoop, if_neg hdone] at hrun
  rw [hrun]
  exact congrArg Except.ok (List.append_nil _)

/-- **What is left of a record that was cut is found as well**, if `Repair` returns. -/
theorem repair_cut (hsize : imagesSize recs + rest.length < 2 ^ 32) (hrest : rest ≠ []) {calls : List (Bytes × LBA)}
    (hr : (WriteableCacheFile.opened cacheId (images crc recs ++ rest)).repair garbage = .ok calls) :
    ∃ c more, calls = located cacheId 0 recs ++ c :: more := by
  obtain ⟨hdr, fuel, hrun⟩ := repair_append crc garbage cacheId recs rest hsize
  have hpos := List.length_pos_of_ne_nil hrest
  have hlt : imagesSize recs < (WriteableCacheFile.opened cacheId (images crc recs ++ rest)).filesize.toNat := by
    rw [toNat_filesize_opened cacheId (by rw [List.length_append, length_images]; exact hsize), List.length_append,
      length_images]
    omega
  rw [hr, WriteableCacheFile.repairLoop, if_pos hlt] at hrun
  simp only at hrun
  split at hrun
  · cases hrun
  · next more heq =>
    split at heq
    · cases heq
    · cases heq
      exact ⟨_, _, Except.ok.inj hrun⟩

/-- **Crash recovery indexes only whole records** exactly if no record is cut: on the
first `n` bytes of a log, `Repair` returns, gives exactly the complete records to the
index, and all of them lie in the file, if and only if the `n` bytes are complete
records. -/
theorem repair_whole_records (crc : Bytes → UInt32) (garbage : ℕ → ℕ → UInt8) (cacheId : UInt32)
    (recs : List (Bytes × Bytes)) (n : ℕ) (hn : n ≤ imagesSize recs) (hsize : n < 2 ^ 32) :
    (∃ calls, (WriteableCacheFile.opened cacheId ((images crc recs).take n)).repair garbage = .ok calls ∧
        calls = located cacheId 0 (complete n recs) ∧ ∀ c ∈ calls, c.2.off.toNat + c.2.size.toNat ≤ n) ↔
      imagesSize (complete n recs) = n := by
  obtain ⟨rest, htake⟩ := take_images crc n recs
  have hlength : imagesSize (complete n recs) + rest.length = n := by
    rw [← length_images crc, ← List.length_append, ← htake, List.length_take, length_images, Nat.min_eq_left hn]
  rw [htake]
  constructor
  · rintro ⟨calls, hr, rfl, -⟩
    by_contra hne
    have hrest : rest ≠ [] := by
      rintro rfl
      exact hne hlength
    obtain ⟨c, more, hmore⟩ := repair_cut (by omega) hrest hr
    exact List.cons_ne_nil c more (List.self_eq_append_right.mp hmore)
  · intro hwhole
    obtain rfl : rest = [] := List.eq_nil_of_length_eq_zero (by omega)
    rw [List.append_nil]
    refine ⟨_, repair_images (by omega), rfl, fun c hc => ?_⟩
    have hstart : 0 + imagesSize (complete n recs) < 2 ^ 32 := by omega
    have hend := end_of_located hstart hc
    omega

/-- Two records, and the file ends with the first. -/
theorem repair_whole_first :
    (WriteableCacheFile.opened 7 ((images (fun _ => 0) [([97], [98]), ([99], [])]).take 18)).repair (fun _ _ => 0) =
      .ok [([97], ⟨7, 0, 18⟩)] := by
  obtain ⟨calls, hr, hcalls, -⟩ := (repair_whole_records (fun _ => 0) (fun _ _ => 0) 7 [([97], [98]), ([99], [])] 18
    (by decide) (by decide)).mpr (by decide)
  rw [hr, hcalls]
  rfl

/-- The value of the only record is cut off: its address is given to the index, and it
ends behind the end of the file. -/
theorem cut_record_indexed : (WriteableCacheFile.opened 7 ((images (fun _ => 0) [([97], [98])]).take 17)).repair
      (fun _ _ => 0) = .ok [([97], ⟨7, 0, 18⟩)] ∧ complete 17 [([97], [98])] = [] := by
  constructor
  · rfl
  · rfl

end EmbeddedKv.Flash
