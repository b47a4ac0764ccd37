import EmbeddedKv.Flash.Paths
import EmbeddedKv.Flash.Repair

/-!
# The walk of `Repair`

The rounds of the loop of `Repair` one by one, on a file with any bytes.

## The model

`RepairState` is what the loop works on, `repairRound` is its body, and `Visited` are the
states in which its condition is tested. `HeaderAt` is the same walk seen from the file:
the header at offset 0, and behind each header the next, at a distance that is the sum of
the two sizes and of the size of a header, modulo `2 ^ 32`.

## What is proved

- `repair_progress_iff`: each round moves on, and the loop ends, exactly for the files
  where no header of the walk has the distance 0.
- `repair_appendAll`: on a file that was written by calls of `Append` in direct mode,
  `Repair` gives the keys and addresses to the index that `Append` has returned, and it
  ends at the end of the file.
-/

namespace EmbeddedKv.Flash

open EmbeddedKv.Library

/-! ### Rounds -/

/-- What the loop of `Repair` works on. -/
structure RepairState where
  /-- `start_pos`. -/
  startPos : ℕ := 0
  /-- `hdr_`. -/
  hdr : CacheRecordHeader := ⟨0, 0, 0, 0⟩
  /-- What was given to `Metadata::Insert`. -/
  offered : List (Bytes × LBA) := []
  /-- `key_lists_`. -/
  keyLists : List Bytes := []

/-- `lba_.size_`: the sizes of a header and of the key and the value it announces. -/
def CacheRecordHeader.width (hdr : CacheRecordHeader) : UInt32 :=
  hdr.keySize + hdr.valSize + UInt32.ofNat headerSize

/-- `pread` of a header over the one before. -/
def readHeader (file : Bytes) (startPos : ℕ) (hdr : CacheRecordHeader) : CacheRecordHeader :=
  CacheRecordHeader.ofBytes (preadInto file startPos hdr.bytes)

namespace WriteableCacheFile

/-- The body of the loop of `Repair`. -/
def repairRound (garbage : ℕ → ℕ → UInt8) (f : WriteableCacheFile) (file : Bytes) (s : RepairState) : RepairState :=
  let hdr := readHeader file s.startPos s.hdr
  let tempKey := (List.range hdr.keySize.toNat).map (garbage s.startPos)
  let key := preadInto file (s.startPos + headerSize) tempKey
  let lba : LBA := ⟨f.cacheId, UInt32.ofNat s.startPos, hdr.width⟩
  { startPos := s.startPos + lba.size.toNat
    hdr
    offered := s.offered ++ [(key, lba)]
    keyLists := s.keyLists ++ [key] }

/-- The states in which the condition of the loop is tested. -/
inductive Visited (garbage : ℕ → ℕ → UInt8) (f : WriteableCacheFile) (file : Bytes) : RepairState → Prop where
  /-- Before the first round. -/
  | start : Visited garbage f file {}
  /-- After a round. -/
  | round {s : RepairState} (hs : Visited garbage f file s) (hlt : s.startPos < f.filesize.toNat) :
      Visited garbage f file (f.repairRound garbage file s)

/-- Each round moves on. -/
def Progress (garbage : ℕ → ℕ → UInt8) (f : WriteableCacheFile) (file : Bytes) : Prop :=
  ∀ s, Visited garbage f file s → s.startPos < f.filesize.toNat →
    s.startPos < (f.repairRound garbage file s).startPos

end WriteableCacheFile

/-- The headers that are met in a file, going from each to the place behind its record. -/
inductive HeaderAt (file : Bytes) : ℕ → CacheRecordHeader → Prop where
  /-- The first header; where the file is shorter, memory holds zeros. -/
  | first (hpos : 0 < file.length) : HeaderAt file 0 (readHeader file 0 ⟨0, 0, 0, 0⟩)
  /-- The next header; where the file is shorter, memory holds the header before. -/
  | next {pos : ℕ} {hdr : CacheRecordHeader} (h : HeaderAt file pos hdr)
      (hlt : pos + hdr.width.toNat < file.length) :
      HeaderAt file (pos + hdr.width.toNat) (readHeader file (pos + hdr.width.toNat) hdr)

open WriteableCacheFile

variable {crc : Bytes → UInt32} {garbage : ℕ → ℕ → UInt8} {f : WriteableCacheFile} {file : Bytes} {s : RepairState}
  {cacheId : UInt32} {calls : List (Bytes × LBA)} {fuel pos : ℕ} {hdr : CacheRecordHeader}

/-! ### The loop and its rounds -/

/-- One round of the loop. -/
theorem repairLoop_succ (hlt : s.startPos < f.filesize.toNat) :
    f.repairLoop garbage file (fuel + 1) s.startPos s.hdr =
      match f.repairLoop garbage file fuel (f.repairRound garbage file s).startPos
          (f.repairRound garbage file s).hdr with
      | .error e => .error e
      | .ok calls => .ok ((preadInto file (s.startPos + headerSize)
            ((List.range (readHeader file s.startPos s.hdr).keySize.toNat).map (garbage s.startPos)),
          ⟨f.cacheId, UInt32.ofNat s.startPos, (readHeader file s.startPos s.hdr).width⟩) :: calls) := by
  rw [repairLoop, if_pos hlt]
  rfl

/-- **What the loop has done when it ends.** -/
theorem visited_of_repairLoop (hs : Visited garbage f file s)
    (hr : f.repairLoop garbage file fuel s.startPos s.hdr = .ok calls) :
    ∃ s', Visited garbage f file s' ∧ ¬ s'.startPos < f.filesize.toNat ∧ s'.offered = s.offered ++ calls ∧
      s'.keyLists = s.keyLists ++ calls.map Prod.fst ∧
      s'.startPos = s.startPos + (calls.map fun c => c.2.size.toNat).sum := by
  induction fuel generalizing s calls with
  | zero => cases hr
  | succ fuel ih =>
    by_cases hlt : s.startPos < f.filesize.toNat
    · rw [repairLoop_succ hlt] at hr
      split at hr
      · cases hr
      · next more hmore =>
        cases hr
        obtain ⟨s', hs', hend, hoffered, hkeys, hpos⟩ := ih (hs.round hlt) hmore
        refine ⟨s', hs', hend, hoffered.trans ?_, hkeys.trans ?_, hpos.trans ?_⟩
        · exact List.append_assoc _ _ _
        · exact List.append_assoc _ _ _
        · rw [List.map_cons, List.sum_cons, ← Nat.add_assoc]
          rfl
    · rw [repairLoop, if_neg hlt] at hr
      cases hr
      exact ⟨s, hs, hlt, (List.append_nil _).symm, (List.append_nil _).symm, rfl⟩

/-- **Where each round moves on the loop ends**: it has at most as many rounds as there
are bytes left. -/
theorem repairLoop_of_progress (hp : Progress garbage f file) (hs : Visited garbage f file s)
    (hfuel : f.filesize.toNat - s.startPos < fuel) :
    ∃ calls, f.repairLoop garbage file fuel s.startPos s.hdr = .ok calls := by
  induction fuel generalizing s with
  | zero => exact absurd hfuel (Nat.not_lt_zero _)
  | succ fuel ih =>
    by_cases hlt : s.startPos < f.filesize.toNat
    · have hmove := hp s hs hlt
      obtain ⟨calls, hcalls⟩ := ih (hs.round hlt) (by omega)
      rw [repairLoop_succ hlt, hcalls]
      exact ⟨_, rfl⟩
    · exact ⟨[], by rw [repairLoop, if_neg hlt]⟩

/-! ### Reading a header again -/

@[simp] theorem length_preadInto (file : Bytes) (pos : ℕ) (mem : Bytes) : (preadInto file pos mem).length = mem.length := by
  simp only [preadInto, List.length_append, List.length_take, List.length_drop]
  omega

/-- A second `pread` at one place finds the same. -/
theorem preadInto_preadInto (file : Bytes) (pos : ℕ) (mem : Bytes) :
    preadInto file pos (preadInto file pos mem) = preadInto file pos mem := by
  have hdrop : (preadInto file pos mem).drop ((file.drop pos).take mem.length).length =
      mem.drop ((file.drop pos).take mem.length).length := by
    rw [preadInto, List.drop_left' rfl]
  rw [preadInto, length_preadInto, hdrop]
  rfl

/-- **A header that is read again** is the same. -/
theorem readHeader_readHeader (file : Bytes) (pos : ℕ) (hdr : CacheRecordHeader) :
    readHeader file pos (readHeader file pos hdr) = readHeader file pos hdr := by
  have hbytes : (readHeader file pos hdr).bytes = preadInto file pos hdr.bytes :=
    CacheRecordHeader.bytes_ofBytes (by rw [length_preadInto, CacheRecordHeader.length_bytes])
  rw [readHeader, hbytes, preadInto_preadInto]
  rfl

/-! ### The walk over the file -/

/-- The header of each round is one of the walk. -/
theorem headerAt_of_visited (hsize : file.length < 2 ^ 32)
    (hs : Visited garbage (WriteableCacheFile.opened cacheId file) file s)
    (hlt : s.startPos < (WriteableCacheFile.opened cacheId file).filesize.toNat) :
    HeaderAt file s.startPos (readHeader file s.startPos s.hdr) := by
  rw [toNat_filesize_opened cacheId hsize] at hlt
  induction hs with
  | start => exact .first hlt
  | round hs hprev ih =>
    rw [toNat_filesize_opened cacheId hsize] at hprev
    exact (ih hprev).next hlt

/-- Each header of the walk is that of a round. -/
theorem visited_of_headerAt (garbage : ℕ → ℕ → UInt8) (cacheId : UInt32) (hsize : file.length < 2 ^ 32)
    (h : HeaderAt file pos hdr) : ∃ s, Visited garbage (WriteableCacheFile.opened cacheId file) file s ∧
      s.startPos = pos ∧ readHeader file pos s.hdr = hdr ∧ pos < file.length := by
  induction h with
  | first hpos => exact ⟨{}, .start, rfl, rfl, hpos⟩
  | next h hlt ih =>
    obtain ⟨s, hs, rfl, rfl, hprev⟩ := ih
    exact ⟨_, hs.round (by rw [toNat_filesize_opened cacheId hsize]; exact hprev), rfl, rfl, hlt⟩

/-- **Each round moves on** exactly if each header of the walk has a distance. -/
theorem progress_iff (garbage : ℕ → ℕ → UInt8) (cacheId : UInt32) (hsize : file.length < 2 ^ 32) :
    Progress garbage (WriteableCacheFile.opened cacheId file) file ↔
      ∀ pos hdr, HeaderAt file pos hdr → hdr.width ≠ 0 := by
  constructor
  · rintro hp pos hdr h hzero
    obtain ⟨s, hs, rfl, rfl, hlt⟩ := visited_of_headerAt garbage cacheId hsize h
    have hmove : s.startPos < s.startPos + (readHeader file s.startPos s.hdr).width.toNat :=
      hp s hs (by rw [toNat_filesize_opened cacheId hsize]; exact hlt)
    rw [hzero] at hmove
    exact Nat.lt_irrefl _ hmove
  · intro h s hs hlt
    refine Nat.lt_add_of_pos_right (Nat.pos_of_ne_zero fun hzero => ?_)
    exact h _ _ (headerAt_of_visited hsize hs hlt) (UInt32.toNat_inj.mp hzero)

/-- **A header without a distance is read again and again.** -/
theorem repairLoop_stuck (hlt : s.startPos < f.filesize.toNat) (hzero : (readHeader file s.startPos s.hdr).width = 0)
    (fuel : ℕ) : ∃ e, f.repairLoop garbage file fuel s.startPos s.hdr = .error e := by
  induction fuel generalizing s with
  | zero => exact ⟨_, rfl⟩
  | succ fuel ih =>
    have hsame : (f.repairRound garbage file s).startPos = s.startPos := by
      show s.startPos + (readHeader file s.startPos s.hdr).width.toNat = s.startPos
      rw [hzero]
      rfl
    have hagain : readHeader file (f.repairRound garbage file s).startPos (f.repairRound garbage file s).hdr =
        readHeader file s.startPos s.hdr := by
      rw [hsame]
      exact readHeader_readHeader file s.startPos s.hdr
    obtain ⟨e, he⟩ := ih (s := f.repairRound garbage file s) (hsame ▸ hlt) (by rw [hagain]; exact hzero)
    rw [repairLoop_succ hlt, he]
    exact ⟨e, rfl⟩

/-- A loop that does not end from a state that is visited does not end from the start. -/
theorem repairLoop_error_of_visited (hs : Visited garbage f file s)
    (h : ∀ fuel, ∃ e, f.repairLoop garbage file fuel s.startPos s.hdr = .error e) (fuel : ℕ) :
    ∃ e, f.repairLoop garbage file fuel 0 ⟨0, 0, 0, 0⟩ = .error e := by
  induction hs generalizing fuel with
  | start => exact h fuel
  | round hs hlt ih =>
    refine ih (fun fuel => ?_) fuel
    cases fuel with
    | zero => exact ⟨_, rfl⟩
    | succ fuel =>
      obtain ⟨e, he⟩ := h fuel
      rw [repairLoop_succ hlt, he]
      exact ⟨e, rfl⟩

/-- **The loop ends** exactly if each header of the walk has a distance; otherwise no
number of rounds is enough. -/
theorem repairLoop_ends_iff (garbage : ℕ → ℕ → UInt8) (cacheId : UInt32) (hsize : file.length < 2 ^ 32) :
    (∃ fuel calls, (WriteableCacheFile.opened cacheId file).repairLoop garbage file fuel 0 ⟨0, 0, 0, 0⟩ = .ok calls) ↔
      ∀ pos hdr, HeaderAt file pos hdr → hdr.width ≠ 0 := by
  constructor
  · rintro ⟨fuel, calls, hr⟩ pos hdr h hzero
    obtain ⟨s, hs, rfl, rfl, hlt⟩ := visited_of_headerAt garbage cacheId hsize h
    rw [← toNat_filesize_opened cacheId hsize] at hlt
    obtain ⟨e, he⟩ := repairLoop_error_of_visited hs (repairLoop_stuck hlt hzero) fuel
    rw [he] at hr
    cases hr
  · intro h
    exact ⟨_, repairLoop_of_progress ((progress_iff garbage cacheId hsize).mpr h) .start (Nat.lt_succ_self _)⟩

/-- **`Repair` moves on in each round and ends** exactly for the files where no header of
the walk has sizes that sum up, with the size of a header, to 0 modulo `2 ^ 32`. -/
theorem repair_progress_iff (garbage : ℕ → ℕ → UInt8) (cacheId : UInt32) (file : Bytes) (hsize : file.length < 2 ^ 32) :
    (Progress garbage (WriteableCacheFile.opened cacheId file) file ∧
      ∃ calls, (WriteableCacheFile.opened cacheId file).repair garbage = .ok calls) ↔
      ∀ pos hdr, HeaderAt file pos hdr → hdr.keySize + hdr.valSize + UInt32.ofNat headerSize ≠ 0 := by
  constructor
  · rintro ⟨hp, -⟩
    exact (progress_iff garbage cacheId hsize).mp hp
  · intro h
    have hp := (progress_iff garbage cacheId hsize).mpr h
    exact ⟨hp, repairLoop_of_progress hp .start (Nat.lt_succ_self _)⟩

/-- A file of one header that announces nothing. -/
theorem repair_progress_header :
    Progress (fun _ _ => 0) (WriteableCacheFile.opened 7 (⟨1, 2, 0, 0⟩ : CacheRecordHeader).bytes)
      (⟨1, 2, 0, 0⟩ : CacheRecordHeader).bytes := by
  refine ((repair_progress_iff (fun _ _ => 0) 7 (⟨1, 2, 0, 0⟩ : CacheRecordHeader).bytes (by decide)).mpr ?_).1
  have hwalk : ∀ pos hdr, HeaderAt (⟨1, 2, 0, 0⟩ : CacheRecordHeader).bytes pos hdr → hdr = ⟨1, 2, 0, 0⟩ := by
    intro pos hdr h
    induction h with
    | first hpos => rfl
    | next h hlt ih =>
      -- the first header ends where the file does
      rw [ih, CacheRecordHeader.length_bytes] at hlt
      exact absurd (Nat.le_add_left 16 _) (Nat.not_le.mpr hlt)
  intro pos hdr h
  rw [hwalk pos hdr h]
  decide

/-- A file of one header with sizes that sum up to `2 ^ 32 - 16`: the loop reads it again
and again. -/
theorem repair_stuck_header :
    ¬ (Progress (fun _ _ => 0) (WriteableCacheFile.opened 7 (⟨0, 0, 0, 0xfffffff0⟩ : CacheRecordHeader).bytes)
        (⟨0, 0, 0, 0xfffffff0⟩ : CacheRecordHeader).bytes ∧
      ∃ calls, (WriteableCacheFile.opened 7 (⟨0, 0, 0, 0xfffffff0⟩ : CacheRecordHeader).bytes).repair
        (fun _ _ => 0) = .ok calls) := by
  rintro ⟨hp, -⟩
  have hmove := hp {} .start (by decide)
  revert hmove
  decide

/-! ### What `Append` has written -/

/-- The keys and addresses of the calls that returned `true`. -/
def recorded (calls : List AppendCall) (rs : List (Bool × LBA)) : List (Bytes × LBA) :=
  (calls.zip rs).filterMap fun c => if c.2.1 then some (c.1.key, c.2.2) else none

/-- A file in direct mode holds the records of a list. -/
structure Holds (crc : Bytes → UInt32) (f : WriteableCacheFile) (recs : List (Bytes × Bytes)) : Prop where
  /-- The bytes of the file. -/
  fd : f.fd = some (images crc recs)
  /-- The next offset. -/
  diskWoff : f.diskWoff = UInt32.ofNat (imagesSize recs)
  /-- `key_lists_`. -/
  keyLists : f.keyLists = recs.map Prod.fst

theorem located_append (cacheId : UInt32) (start : ℕ) (recs more : List (Bytes × Bytes)) :
    located cacheId start (recs ++ more) =
      located cacheId start recs ++ located cacheId (start + imagesSize recs) more := by
  induction recs generalizing start with
  | nil => rfl
  | cons r recs ih =>
    rw [List.cons_append, located, located, ih, List.cons_append, imagesSize_cons, Nat.add_assoc]

/-- The keys of located records. -/
theorem map_fst_located (cacheId : UInt32) (start : ℕ) (recs : List (Bytes × Bytes)) :
    (located cacheId start recs).map Prod.fst = recs.map Prod.fst := by
  induction recs generalizing start with
  | nil => rfl
  | cons r recs ih => rw [located, List.map_cons, List.map_cons, ih]

/-- The sizes in the addresses sum up to what the records take. -/
theorem sum_located (cacheId : UInt32) {start : ℕ} {recs : List (Bytes × Bytes)} (hsize : imagesSize recs < 2 ^ 32) :
    ((located cacheId start recs).map fun c => c.2.size.toNat).sum = imagesSize recs := by
  induction recs generalizing start with
  | nil => rfl
  | cons r recs ih =>
    rw [imagesSize_cons] at hsize ⊢
    rw [located, List.map_cons, List.sum_cons, ih (by omega), CacheRecord.toNat_calcSize_of_lt (by omega)]

/-- **One call of `Append`**: it adds its record and returns its place, or does nothing. -/
theorem Holds.append {recs : List (Bytes × Bytes)} {call : AppendCall} {lba lba' : LBA} {ok : Bool}
    {g : WriteableCacheFile} (h : Holds crc f recs)
    (hr : f.append crc .direct call.writes call.key call.val lba = .ok (ok, lba', g)) :
    g.cacheId = f.cacheId ∧ (ok = false ∧ g = f ∨
      ok = true ∧ Holds crc g (recs ++ [(call.key, call.val)]) ∧
        located f.cacheId (imagesSize recs) [(call.key, call.val)] = [(call.key, lba')]) := by
  rw [WriteableCacheFile.append] at hr
  cases he : f.eof with
  | true =>
    rw [appendDirect_of_eof he] at hr
    cases hr
    exact ⟨rfl, .inl ⟨rfl, rfl⟩⟩
  | false =>
    obtain ⟨-, heq⟩ := appendDirect_ok he h.fd hr
    cases heq
    have himages : images crc (recs ++ [(call.key, call.val)]) = images crc recs ++ image crc call.key call.val := by
      rw [images_append]
      exact congrArg (images crc recs ++ ·) (List.append_nil _)
    refine ⟨rfl, .inr ⟨rfl, ⟨congrArg some himages.symm, ?_, ?_⟩, ?_⟩⟩
    · rw [imagesSize_append, UInt32.ofNat_add, ← h.diskWoff]
      rfl
    · rw [h.keyLists, List.map_append]
      rfl
    · rw [h.diskWoff]
      rfl

/-- **Any calls of `Append`**: the file holds one record for each call that returned
`true`, at the place that it returned. -/
theorem Holds.appendAll {calls : List AppendCall} {recs : List (Bytes × Bytes)} {rs : List (Bool × LBA)}
    {g : WriteableCacheFile} (h : Holds crc f recs) (hr : f.appendAll crc .direct calls = .ok (rs, g)) :
    ∃ more, Holds crc g (recs ++ more) ∧ recorded calls rs = located f.cacheId (imagesSize recs) more := by
  induction calls generalizing f recs rs with
  | nil =>
    cases hr
    exact ⟨[], by rwa [List.append_nil], rfl⟩
  | cons call calls ih =>
    rw [WriteableCacheFile.appendAll] at hr
    split at hr
    · cases hr
    · next ok lba f₁ hone =>
      split at hr
      · cases hr
      · next rs₁ g₁ hrest =>
        cases hr
        obtain ⟨hid, ⟨rfl, rfl⟩ | ⟨rfl, h₁, hplace⟩⟩ := h.append hone
        · exact ih h hrest
        · obtain ⟨more, hmore, hrecorded⟩ := ih h₁ hrest
          refine ⟨(call.key, call.val) :: more, by rwa [List.append_assoc] at hmore, ?_⟩
          rw [hid, imagesSize_append] at hrecorded
          calc recorded (call :: calls) ((true, lba) :: rs₁) = [(call.key, lba)] ++ recorded calls rs₁ := rfl
            _ = located f.cacheId (imagesSize recs) ([(call.key, call.val)] ++ more) := by
                rw [located_append, hplace, hrecorded]

/-- **`Repair` finds what `Append` recorded**: calls of `Append` in direct mode with
records that fit an `int` return when `write` succeeds in the end; and on the file
that any calls leave, of less than `2 ^ 32` bytes, `Repair` ends at the end of the file,
has given the keys and addresses to the index that the calls returned, in their order,
and has built the same `key_lists_`. -/
theorem repair_appendAll (crc : Bytes → UInt32) (garbage : ℕ → ℕ → UInt8) (cacheId maxSize writeBufferSize : UInt32)
    (calls : List AppendCall) :
    ((∀ call ∈ calls, recordSize call.key call.val < 2 ^ 31 ∧ Enough call.writes (recordSize call.key call.val)) →
      ∃ rs g, (fresh cacheId maxSize writeBufferSize).appendAll crc .direct calls = .ok (rs, g)) ∧
    ∀ rs g file, (fresh cacheId maxSize writeBufferSize).appendAll crc .direct calls = .ok (rs, g) →
      g.fd = some file → file.length < 2 ^ 32 →
      ∃ s, Visited garbage (WriteableCacheFile.opened cacheId file) file s ∧
        (WriteableCacheFile.opened cacheId file).repair garbage = .ok s.offered ∧
        s.offered = recorded calls rs ∧ s.keyLists = g.keyLists ∧
        s.startPos = (WriteableCacheFile.opened cacheId file).filesize.toNat := by
  refine ⟨fun h => appendAll_direct_ok rfl (fun call hc => (h call hc).1) (fun call hc => (h call hc).2), ?_⟩
  intro rs g file hr hfd hsize
  have hfresh : Holds crc (fresh cacheId maxSize writeBufferSize) [] := ⟨rfl, rfl, rfl⟩
  obtain ⟨recs, hg, hrecorded⟩ := hfresh.appendAll hr
  obtain rfl : file = images crc recs := Option.some.inj (hfd.symm.trans hg.fd)
  rw [length_images] at hsize
  have hrepair : (WriteableCacheFile.opened cacheId (images crc recs)).repair garbage = .ok (located cacheId 0 recs) :=
    repair_images hsize
  obtain ⟨s, hs, -, hoffered, hkeys, hpos⟩ := visited_of_repairLoop Visited.start hrepair
  refine ⟨s, hs, ?_, hoffered.trans hrecorded.symm, ?_, ?_⟩
  · rw [hoffered]
    exact hrepair
  · rw [hkeys, hg.keyLists]
    exact map_fst_located cacheId 0 recs
  · rw [hpos, sum_located cacheId hsize, toNat_filesize_opened cacheId (by rw [length_images]; exact hsize),
      length_images]
    exact Nat.zero_add _

/-- Two records, the first written in two pieces, and a call after the end of the file. -/
theorem repair_appendAll_two : ∃ (s : RepairState) (g : WriteableCacheFile),
    (fresh 7 30 10).appendAll (fun _ => 0) .direct
      [⟨[97], [0], [.moved 6, .eintr, .moved 99]⟩, ⟨[98], [], [.moved 99]⟩, ⟨[99], [], []⟩] =
        .ok ([(true, ⟨7, 0, 18⟩), (true, ⟨7, 18, 17⟩), (false, {})], g) ∧
    (WriteableCacheFile.opened 7 (images (fun _ => 0) [([97], [0]), ([98], [])])).repair (fun _ _ => 0) =
      .ok s.offered ∧
    s.offered = [([97], ⟨7, 0, 18⟩), ([98], ⟨7, 18, 17⟩)] ∧ s.startPos = 35 := by
  obtain ⟨s, -, hrepair, hoffered, -, hpos⟩ := (repair_appendAll (fun _ => 0) (fun _ _ => 0) 7 30 10
    [⟨[97], [0], [.moved 6, .eintr, .moved 99]⟩, ⟨[98], [], [.moved 99]⟩, ⟨[99], [], []⟩]).2 _ _
    (images (fun _ => 0) [([97], [0]), ([98], [])]) rfl rfl (by decide)
  exact ⟨s, _, rfl, hrepair, hoffered, hpos⟩

end EmbeddedKv.Flash
