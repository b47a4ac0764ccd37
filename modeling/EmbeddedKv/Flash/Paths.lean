import EmbeddedKv.Flash.Writer

/-!
# The two write paths agree

`WriteableCacheFile::Append` writes a record to the file at once in direct mode, and
scatters it over the buffers in write-buffer mode. `append_paths_agree`: from two new
files that differ only in the mode, any sequence of calls returns the same flags and
addresses and leaves the same bookkeeping, and the file of the one has the bytes that
the buffers of the other hold. The relation that one call keeps is `Agree`.
-/

namespace EmbeddedKv.Flash

open EmbeddedKv.Library

/-- A call of `Append`, with the results of the calls of `write` it makes. -/
structure AppendCall where
  /-- The key. -/
  key : Bytes
  /-- The value. -/
  val : Bytes
  /-- The results of `write`. -/
  writes : List IoResult
  deriving DecidableEq, Repr

namespace WriteableCacheFile

variable {crc : Bytes → UInt32} {f g f' : WriteableCacheFile} {key val : Bytes} {lba : LBA}

/-! ### The direct path -/

/-- **`Append` in direct mode**: when all of the record is written, it is behind what
the file had, and the address names its place. -/
theorem appendDirect_eq {file file' : Bytes} {rs : List IoResult} (he : f.eof = false) (hfd : f.fd = some file)
    (hsize : recordSize key val < 2 ^ 31) (hw : writeLoop rs file (image crc key val) = .ok file') :
    f.appendDirect crc rs key val lba = .ok (true, ⟨f.cacheId, f.diskWoff, CacheRecord.calcSize key val⟩,
      { f with fd := some file', filesize := f.filesize + CacheRecord.calcSize key val
               diskWoff := f.diskWoff + CacheRecord.calcSize key val
               eof := decide (f.maxSize ≤ f.filesize + CacheRecord.calcSize key val)
               keyLists := f.keyLists ++ [key] }) := by
  have hnat : (CacheRecord.calcSize key val).toNat = recordSize key val :=
    CacheRecord.toNat_calcSize_of_lt (by omega)
  unfold appendDirect writeDirect
  rw [if_neg (by simp [he])]
  simp only [hnat, Nat.lt_irrefl, if_false, Nat.not_le.mpr hsize, hfd, hw]
  by_cases hfull : f.maxSize ≤ f.filesize + CacheRecord.calcSize key val
  · simp only [hfull, if_true, decide_true]
  · simp only [hfull, if_false, decide_false, he]

/-- After the end of the file `Append` does nothing. -/
theorem appendDirect_of_eof (he : f.eof = true) (rs : List IoResult) :
    f.appendDirect crc rs key val lba = .ok (false, lba, f) := by
  unfold appendDirect
  rw [if_pos he]

/-- The calls of `write` decide whether the direct path returns. -/
theorem writeLoop_of_appendDirect {file : Bytes} {rs : List IoResult} {r : Bool × LBA × WriteableCacheFile}
    (he : f.eof = false) (hfd : f.fd = some file) (hsize : recordSize key val < 2 ^ 31)
    (hr : f.appendDirect crc rs key val lba = .ok r) :
    ∃ file', writeLoop rs file (image crc key val) = .ok file' := by
  have hnat : (CacheRecord.calcSize key val).toNat = recordSize key val :=
    CacheRecord.toNat_calcSize_of_lt (by omega)
  unfold appendDirect writeDirect at hr
  rw [if_neg (by simp [he])] at hr
  simp only [hnat, Nat.lt_irrefl, if_false, Nat.not_le.mpr hsize, hfd] at hr
  cases hw : writeLoop rs file (image crc key val) with
  | ok file' => exact ⟨file', rfl⟩
  | error e => rw [hw] at hr; cases hr

/-- If the direct path returns before the end of the file, the size of the record fits
into an `int`, and the file is open. -/
theorem size_of_appendDirect {rs : List IoResult} {r : Bool × LBA × WriteableCacheFile} (he : f.eof = false)
    (hr : f.appendDirect crc rs key val lba = .ok r) : recordSize key val < 2 ^ 31 ∧ f.fd.isSome := by
  unfold appendDirect writeDirect at hr
  rw [if_neg (by simp [he])] at hr
  by_cases hsmall : (CacheRecord.calcSize key val).toNat < recordSize key val
  · rw [if_pos hsmall] at hr
    cases hr
  rw [if_neg hsmall] at hr
  by_cases hint : 2 ^ 31 ≤ (CacheRecord.calcSize key val).toNat
  · rw [if_pos hint] at hr
    cases hr
  rw [if_neg hint] at hr
  refine ⟨by omega, ?_⟩
  cases hfd : f.fd with
  | none => rw [hfd] at hr; cases hr
  | some file => rfl

/-- **What the direct path has done** when it returns before the end of the file. -/
theorem appendDirect_ok {file : Bytes} {rs : List IoResult} {r : Bool × LBA × WriteableCacheFile} (he : f.eof = false)
    (hfd : f.fd = some file) (hr : f.appendDirect crc rs key val lba = .ok r) : recordSize key val < 2 ^ 31 ∧
      r = (true, ⟨f.cacheId, f.diskWoff, CacheRecord.calcSize key val⟩,
        { f with fd := some (file ++ image crc key val), filesize := f.filesize + CacheRecord.calcSize key val
                 diskWoff := f.diskWoff + CacheRecord.calcSize key val
                 eof := decide (f.maxSize ≤ f.filesize + CacheRecord.calcSize key val)
                 keyLists := f.keyLists ++ [key] }) := by
  obtain ⟨hsize, -⟩ := size_of_appendDirect he hr
  obtain ⟨file', hw⟩ := writeLoop_of_appendDirect he hfd hsize hr
  have heq : f.appendDirect crc rs key val lba = _ := appendDirect_eq he hfd hsize hw
  rw [writeLoop_ok hw] at heq
  exact ⟨hsize, Except.ok.inj (hr.symm.trans heq)⟩

/-- The same without the file: at its end the direct path does nothing, and otherwise it
succeeds. -/
theorem appendDirect_inv {rs : List IoResult} {ok : Bool} {lba' : LBA}
    (hr : f.appendDirect crc rs key val lba = .ok (ok, lba', g)) :
    (f.eof = true ∧ ok = false ∧ g = f) ∨
      f.eof = false ∧ ok = true ∧ lba' = ⟨f.cacheId, f.diskWoff, CacheRecord.calcSize key val⟩ ∧
        ∃ file, f.fd = some file ∧
          g = { f with fd := some (file ++ image crc key val), filesize := f.filesize + CacheRecord.calcSize key val
                       diskWoff := f.diskWoff + CacheRecord.calcSize key val
                       eof := decide (f.maxSize ≤ f.filesize + CacheRecord.calcSize key val)
                       keyLists := f.keyLists ++ [key] } := by
  cases he : f.eof with
  | true =>
    rw [appendDirect_of_eof he] at hr
    cases hr
    exact .inl ⟨rfl, rfl, rfl⟩
  | false =>
    obtain ⟨-, hopen⟩ := size_of_appendDirect he hr
    obtain ⟨file, hfd⟩ := Option.isSome_iff_exists.mp hopen
    obtain ⟨-, heq⟩ := appendDirect_ok he hfd hr
    cases heq
    exact .inr ⟨rfl, rfl, rfl, file, hfd, rfl⟩

/-! ### One call -/

/-- A file in direct mode and one in write-buffer mode agree. -/
structure Agree (f g : WriteableCacheFile) : Prop where
  /-- The same file id. -/
  cacheId : f.cacheId = g.cacheId
  /-- The same maximal size. -/
  maxSize : f.maxSize = g.maxSize
  /-- The same end of the file. -/
  eof : f.eof = g.eof
  /-- The same offset. -/
  diskWoff : f.diskWoff = g.diskWoff
  /-- The same keys. -/
  keyLists : f.keyLists = g.keyLists
  /-- What is appended directly is written. -/
  filesize : f.filesize = f.diskWoff
  /-- The same bytes, and the writer of the buffered file has not left its loop. -/
  bytes : ∃ log, f.fd = some log ∧ g.Consistent log ∧ ¬ g.Left

/-- The file of the one has the used bytes of the buffers of the other. -/
theorem Agree.fd_eq (h : Agree f g) : f.fd = some (g.bufs.flatMap CacheWriteBuffer.data) := by
  obtain ⟨log, hfd, hg, hleft⟩ := h.bytes
  rw [hfd, hg.cut.flatMap_data, List.take_of_length_le (hg.room.resolve_left hleft)]

theorem agree_fresh (cacheId maxSize writeBufferSize : UInt32) (hc : 0 < writeBufferSize.toNat) :
    Agree (fresh cacheId maxSize writeBufferSize) (fresh cacheId maxSize writeBufferSize) where
  cacheId := rfl
  maxSize := rfl
  eof := rfl
  diskWoff := rfl
  keyLists := rfl
  filesize := rfl
  bytes := ⟨[], rfl, consistent_created _ _ _ 0 hc, by simp [Left, fresh, created]⟩

/-- `DispatchBuffer` does not show. -/
theorem Agree.dispatched (h : Agree f g) : Agree f g.dispatched := by
  obtain ⟨log, hfd, hg, hleft⟩ := h.bytes
  have hbytes : ∃ log, f.fd = some log ∧ g.dispatched.Consistent log ∧ ¬ g.dispatched.Left := by
    refine ⟨log, hfd, hg.dispatched, ?_⟩
    rw [Left, g.dispatched_frame.2.2.2.1]
    exact hleft
  rcases g.dispatched_cases with ⟨heq, -⟩ | ⟨-, -, -, heq⟩ | ⟨-, -, heq⟩ <;> rw [heq] at hbytes ⊢ <;>
    exact { h with bytes := hbytes }

/-- **One call**: when the direct path returns, the buffered path returns the same flag
and the same address, and the files still agree. -/
theorem Agree.append (h : Agree f g) (hsize : recordSize key val < 2 ^ 31) {rs : List IoResult} (rs' : List IoResult)
    {ok : Bool}
    {lba' : LBA} (hr : f.append crc .direct rs key val lba = .ok (ok, lba', f')) :
    ∃ g', g.append crc .writeBuffer rs' key val lba = .ok (ok, lba', g') ∧ Agree f' g' := by
  cases he : f.eof with
  | true =>
    rw [WriteableCacheFile.append, appendDirect_of_eof he] at hr
    cases hr
    refine ⟨g, ?_, h⟩
    rw [WriteableCacheFile.append, appendBuffered_of_eof (h.eof.symm.trans he)]
  | false =>
    obtain ⟨log, hfd, hg, hleft⟩ := h.bytes
    obtain ⟨file', hw⟩ := writeLoop_of_appendDirect he hfd hsize hr
    have hfile := writeLoop_ok hw
    rw [WriteableCacheFile.append, appendDirect_eq he hfd hsize hw] at hr
    cases hr
    have he' := h.eof.symm.trans he
    obtain ⟨bufs, woff, more, hs, ⟨hmore, hok⟩ | ⟨hbig, -⟩⟩ :=
      hg.appendBuffered he' crc key val lba
    · let g' : WriteableCacheFile :=
        { g with bufs, bufWoff := woff, keyLists := g.keyLists ++ [key]
                 diskWoff := g.diskWoff + CacheRecord.calcSize key val
                 eof := decide (g.maxSize ≤ g.diskWoff + CacheRecord.calcSize key val) }
      have hg' : g'.Consistent (log ++ more) := hg.grow he' hs _ _ _
      refine ⟨g'.dispatched, ?_, Agree.dispatched ⟨h.cacheId, h.maxSize, ?_, ?_, ?_, ?_, ?_⟩⟩
      · exact append_of_buffered (by rw [hok, h.cacheId, h.diskWoff]) hg'.dispatchBuffer rs'
      · show decide (f.maxSize ≤ f.filesize + _) = decide (g.maxSize ≤ g.diskWoff + _)
        rw [h.filesize, h.diskWoff, h.maxSize]
      · show f.diskWoff + _ = g.diskWoff + _
        rw [h.diskWoff]
      · show f.keyLists ++ _ = g.keyLists ++ _
        rw [h.keyLists]
      · show f.filesize + _ = f.diskWoff + _
        rw [h.filesize]
      · exact ⟨_, rfl, by rwa [hfile, ← hmore], hleft⟩
    · omega

/-! ### Sequences of calls -/

/-- The calls one after the other: the flags and addresses they return, and the file. -/
def appendAll (crc : Bytes → UInt32) (mode : FlashcacheMode) :
    List AppendCall → WriteableCacheFile → Except Stop (List (Bool × LBA) × WriteableCacheFile)
  | [], f => .ok ([], f)
  | call :: calls, f =>
    match f.append crc mode call.writes call.key call.val {} with
    | .error e => .error e
    | .ok (ok, lba, f) =>
      match appendAll crc mode calls f with
      | .error e => .error e
      | .ok (rs, f) => .ok ((ok, lba) :: rs, f)

/-- Files that agree still do after any calls. -/
theorem Agree.appendAll (h : Agree f g) {calls : List AppendCall}
    (hsize : ∀ call ∈ calls, recordSize call.key call.val < 2 ^ 31) {rs : List (Bool × LBA)}
    (hr : f.appendAll crc .direct calls = .ok (rs, f')) :
    ∃ g', g.appendAll crc .writeBuffer calls = .ok (rs, g') ∧ Agree f' g' := by
  induction calls generalizing f g rs with
  | nil =>
    cases hr
    exact ⟨g, rfl, h⟩
  | cons call calls ih =>
    rw [WriteableCacheFile.appendAll] at hr
    cases hone : f.append crc .direct call.writes call.key call.val {} with
    | error e => rw [hone] at hr; cases hr
    | ok r =>
      obtain ⟨ok, lba, f₁⟩ := r
      rw [hone] at hr
      simp only at hr
      obtain ⟨g₁, hg₁, h₁⟩ := h.append (hsize call (by simp)) call.writes hone
      cases hrest : f₁.appendAll crc .direct calls with
      | error e => rw [hrest] at hr; cases hr
      | ok r =>
        obtain ⟨rs₁, f₂⟩ := r
        rw [hrest] at hr
        cases hr
        obtain ⟨g₂, hg₂, h₂⟩ := ih h₁ (fun call' hcall => hsize call' (List.mem_cons_of_mem _ hcall)) hrest
        refine ⟨g₂, ?_, h₂⟩
        rw [WriteableCacheFile.appendAll, hg₁]
        simp only [hg₂]

/-- With enough results of `write` the direct path returns. -/
theorem appendAll_direct_ok {file : Bytes} (hfd : f.fd = some file) {calls : List AppendCall}
    (hsize : ∀ call ∈ calls, recordSize call.key call.val < 2 ^ 31)
    (hio : ∀ call ∈ calls, Enough call.writes (recordSize call.key call.val)) :
    ∃ rs f', f.appendAll crc .direct calls = .ok (rs, f') := by
  induction calls generalizing f file with
  | nil => exact ⟨[], f, rfl⟩
  | cons call calls ih =>
    have hrest := fun {f : WriteableCacheFile} {file : Bytes} (hfd : f.fd = some file) =>
      ih hfd (fun call' hcall => hsize call' (List.mem_cons_of_mem _ hcall))
        (fun call' hcall => hio call' (List.mem_cons_of_mem _ hcall))
    have hfirst : ∃ ok lba f₁ file₁, f.append crc .direct call.writes call.key call.val {} = .ok (ok, lba, f₁) ∧
        f₁.fd = some file₁ := by
      cases he : f.eof with
      | true => exact ⟨_, _, _, _, appendDirect_of_eof he _, hfd⟩
      | false =>
        have hw : writeLoop call.writes file (image crc call.key call.val) = .ok (file ++ image crc call.key call.val) :=
          writeLoop_enough (by rw [length_image]; exact hio call (by simp))
        exact ⟨_, _, _, _, appendDirect_eq he hfd (hsize call (by simp)) hw, rfl⟩
    obtain ⟨ok, lba, f₁, file₁, hone, hfd₁⟩ := hfirst
    obtain ⟨rs, f₂, htwo⟩ := hrest hfd₁
    refine ⟨(ok, lba) :: rs, f₂, ?_⟩
    rw [appendAll, hone]
    simp only [htwo]

end WriteableCacheFile

open WriteableCacheFile

/-- **The direct path and the write-buffer path agree**: whenever the calls on the
directly written file return, and they do if every `write` succeeds in the end, the
same calls on the buffered file return the same flags and addresses; `eof_`,
`disk_woff_` and `key_lists_` are equal afterwards, and the file of the one has the
used bytes of the buffers of the other. -/
theorem append_paths_agree (crc : Bytes → UInt32) (cacheId maxSize writeBufferSize : UInt32)
    (hc : 0 < writeBufferSize.toNat) (calls : List AppendCall)
    (hsize : ∀ call ∈ calls, recordSize call.key call.val < 2 ^ 31) :
    ((∀ call ∈ calls, Enough call.writes (recordSize call.key call.val)) →
      ∃ rs f, (fresh cacheId maxSize writeBufferSize).appendAll crc .direct calls = .ok (rs, f)) ∧
    ∀ rs f, (fresh cacheId maxSize writeBufferSize).appendAll crc .direct calls = .ok (rs, f) →
      ∃ g, (fresh cacheId maxSize writeBufferSize).appendAll crc .writeBuffer calls = .ok (rs, g) ∧
        f.eof = g.eof ∧ f.diskWoff = g.diskWoff ∧ f.keyLists = g.keyLists ∧
        f.fd = some (g.bufs.flatMap CacheWriteBuffer.data) := by
  refine ⟨fun hio => appendAll_direct_ok rfl hsize hio, fun rs f hr => ?_⟩
  obtain ⟨g, hg, h⟩ := (agree_fresh cacheId maxSize writeBufferSize hc).appendAll hsize hr
  exact ⟨g, hg, h.eof, h.diskWoff, h.keyLists, h.fd_eq⟩

/-- Three calls, the first written in two pieces with an interruption between them, and
the last after the end of the file. -/
theorem append_paths_agree_three :
    ∃ f g, (fresh 0 30 10).appendAll (fun _ => 0) .direct
        [⟨[97], [1, 2, 3], [.moved 6, .eintr, .moved 99]⟩, ⟨[98], [4], [.moved 99]⟩, ⟨[99], [], []⟩] =
          .ok ([(true, ⟨0, 0, 20⟩), (true, ⟨0, 20, 18⟩), (false, {})], f) ∧
      (fresh 0 30 10).appendAll (fun _ => 0) .writeBuffer
        [⟨[97], [1, 2, 3], [.moved 6, .eintr, .moved 99]⟩, ⟨[98], [4], [.moved 99]⟩, ⟨[99], [], []⟩] =
          .ok ([(true, ⟨0, 0, 20⟩), (true, ⟨0, 20, 18⟩), (false, {})], g) ∧
      f.fd = some (g.bufs.flatMap CacheWriteBuffer.data) := by
  obtain ⟨g, hg, -, -, -, hfd⟩ := (append_paths_agree (fun _ => 0) 0 30 10 (by decide)
    [⟨[97], [1, 2, 3], [.moved 6, .eintr, .moved 99]⟩, ⟨[98], [4], [.moved 99]⟩, ⟨[99], [], []⟩]
    (by decide)).2 _ _ rfl
  exact ⟨_, g, rfl, hg, hfd⟩

end EmbeddedKv.Flash
