import EmbeddedKv.Flash.Buffer
import EmbeddedKv.Library.Text

/-!
# Cache files

`WriteableCacheFile` of `flashcache.cc`: a file of records that is appended to until
it reaches its maximal size. In direct mode a record is written to the file at once;
in write-buffer mode it is scattered over the buffers, which a writer thread writes
to the file one by one and drops when the file is complete. A record is read from
the buffers while they exist and from the file afterwards.

## The model

`fd` is the open file behind `fd_`, as the bytes it holds: only this object writes
to it, at its end, and it starts empty (`O_TRUNC`). The writer thread is where `tid`
says it is; its steps are in `Flash.Writer`. System calls answer with lists of
results (`IoResult`), so that short reads and writes, interruptions and errors are
all there; a call for which the list is too short has not returned yet
(`Stop.unfinished`). `errno` matters only as being `EINTR` or not.

`sem_writer` is a named semaphore (`sem_open`; the `#else` branches do not compile, since
`sem_init` gets no pointer there). The array for its name is too short for ids of four
digits (`SemNameFits`), and a semaphore of this name that exists keeps its tokens: `Create()`
is given how many. Nothing removes it, so tokens that an earlier server has left behind are
still there. `sem_writer` and `fd_` are made by `Create()` together, so a file without `fd`
has no semaphore either.

Left out: `dir_` and the log messages, and `kFileAlignmentSize`, which nothing uses.
-/

namespace EmbeddedKv.Flash

open EmbeddedKv.Library

/-! ### The objects -/

/-- `server.flashcache_mode`: `MODE_FLASH_WRITEBUFFER` or not. -/
inductive FlashcacheMode where
  /-- Anything else than `MODE_FLASH_WRITEBUFFER`: records are written at once. -/
  | direct
  /-- `MODE_FLASH_WRITEBUFFER`. -/
  | writeBuffer
  deriving DecidableEq, Repr

/-- `LogicalBlockAddress`. -/
structure LBA where
  /-- `cache_id_`. -/
  cacheId : UInt32 := 0
  /-- `off_`. -/
  off : UInt32 := 0
  /-- `size_`. -/
  size : UInt32 := 0
  deriving DecidableEq, Repr

/-- Where the writer thread of a file is, in `writerJobs` and `Write()`. -/
inductive WriterPc where
  /-- At `sem_wait`. -/
  | waiting
  /-- At the test of `buf_doff_ < buf_woff_`. -/
  | looping
  /-- In the inner loop: `src` bytes of `bufs_[buf_doff_]` are written, `left` are not. -/
  | writing (src left : ℕ)
  /-- `Write()` has returned; at the test of `eof_`. -/
  | returned
  /-- In `ClearBuffers`. -/
  | clearing
  /-- `writerJobs` has returned. -/
  | finished
  deriving DecidableEq, Repr

/-- `WriteableCacheFile`. -/
structure WriteableCacheFile where
  /-- `cache_id_`. -/
  cacheId : UInt32
  /-- `max_size_`. -/
  maxSize : UInt32
  /-- `write_buffer_size_`. -/
  writeBufferSize : UInt32
  /-- `filesize_`. -/
  filesize : UInt32 := 0
  /-- The file behind `fd_`; `none` while `fd_` is not initialised. -/
  fd : Option Bytes := none
  /-- `key_lists_`. -/
  keyLists : List Bytes := []
  /-- `eof_`. -/
  eof : Bool := false
  /-- `disk_woff_`. -/
  diskWoff : UInt32 := 0
  /-- `bufs_`. -/
  bufs : List CacheWriteBuffer := []
  /-- `buf_woff_`. -/
  bufWoff : ℕ := 0
  /-- `buf_doff_`. -/
  bufDoff : ℕ := 0
  /-- `is_writer_running`. -/
  isWriterRunning : Bool := false
  /-- The value of `sem_writer`; it is initialised with `fd_`. -/
  semWriter : ℕ := 0
  /-- `tid`: the writer thread, if one can be joined. -/
  tid : Option WriterPc := none
  deriving DecidableEq, Repr

/-- The result of one `write` or `pread`. -/
inductive IoResult where
  /-- `n + 1` bytes, or as many as are asked for and there. -/
  | moved (n : ℕ)
  /-- `-1` with `errno == EINTR`. -/
  | eintr
  /-- `-1` with another `errno`. -/
  | failed
  deriving DecidableEq, Repr

/-- The call moved something. -/
def IoResult.isMoved : IoResult → Bool
  | .moved _ => true
  | _ => false

/-- No call fails for good, and there are results for `n` bytes however short each
call falls. -/
def Enough (rs : List IoResult) (n : ℕ) : Prop := (∀ r ∈ rs, r ≠ .failed) ∧ n ≤ rs.countP IoResult.isMoved

/-- What the environment contributes to one call. -/
structure Environment where
  /-- The results of `write`. -/
  writes : List IoResult
  /-- The results of `pread`. -/
  preads : List IoResult
  /-- `errno == EINTR` on entry. -/
  errnoEintr : Bool
  /-- The memory from `scratch` on, before the call; it goes on after `scratch`. -/
  scratch : Bytes

/-! ### The name of the semaphore -/

/-- The name of the semaphore, `sem_writer_%d`: the id is printed as an `int`. -/
def semName (cacheId : UInt32) : Bytes := ascii "sem_writer_" ++ signedDecimal ((cacheId.toNat : ℤ).bmod (2 ^ 32))

/-- **`sem_name` has room for the name** and the zero behind it: it has 15 bytes. -/
def SemNameFits (cacheId : UInt32) : Prop := (semName cacheId).length < 15

instance (cacheId : UInt32) : Decidable (SemNameFits cacheId) := inferInstanceAs (Decidable (_ < _))

/-- Names of ids of four digits or more do not fit, except for some of negative numbers. -/
theorem semNameFits_iff (cacheId : UInt32) :
    SemNameFits cacheId ↔ cacheId.toNat < 1000 ∨ 2 ^ 32 - 100 < cacheId.toNat := by
  have hlen : ∀ n e, 0 < e → ((decimal n).length ≤ e ↔ n < 10 ^ e) := fun n e he => by
    rw [decimal, List.length_map, Nat.length_toDigits_le_iff (by decide) he]
  have hlt := cacheId.toNat_lt
  have hname : (semName cacheId).length = 11 + (signedDecimal ((cacheId.toNat : ℤ).bmod (2 ^ 32))).length :=
    List.length_append
  rw [SemNameFits, hname]
  rcases Nat.lt_or_ge cacheId.toNat (2 ^ 31) with hpos | hneg
  · have hint : (cacheId.toNat : ℤ).bmod (2 ^ 32) = (cacheId.toNat : ℕ) := Int.bmod_eq_of_le (by omega) (by omega)
    have h3 := hlen cacheId.toNat 3 (by decide)
    rw [hint, signedDecimal_natCast]
    omega
  · -- the `int` is negative, and has a sign
    have hint : (cacheId.toNat : ℤ).bmod (2 ^ 32) = cacheId.toNat - 2 ^ 32 := by
      rw [Int.bmod_eq_iff (by decide)]
      omega
    have h2 := hlen (2 ^ 32 - cacheId.toNat) 2 (by decide)
    have habs : ((cacheId.toNat : ℤ) - 2 ^ 32).natAbs = 2 ^ 32 - cacheId.toNat := by omega
    rw [hint, signedDecimal, if_pos (by omega), List.length_cons, habs]
    omega

namespace WriteableCacheFile

/-! ### Creation -/

/-- `WriteableCacheFile(dir, cache_id, max_size, write_buffer_size, cache)`. -/
def new (cacheId maxSize writeBufferSize : UInt32) : WriteableCacheFile :=
  { cacheId, maxSize, writeBufferSize }

/-- What `Create()` makes of the file; `tokens` is the value of the semaphore, which is not
0 if it existed before. -/
def created (f : WriteableCacheFile) (fileExists : Bool) (tokens : ℕ) : WriteableCacheFile :=
  if fileExists then f
  else { f with fd := some [], semWriter := tokens, tid := some .waiting }

/-- `Create()`. If the file exists already, nothing is opened and no thread started,
but `true` is returned all the same. -/
def create (f : WriteableCacheFile) (fileExists : Bool) (tokens : ℕ) : Except Stop WriteableCacheFile :=
  -- `sprintf` writes behind `sem_name`
  if fileExists = false ∧ ¬ SemNameFits f.cacheId then .error .undefined
  else .ok (f.created fileExists tokens)

/-- A new file, created, with an empty semaphore. -/
def fresh (cacheId maxSize writeBufferSize : UInt32) : WriteableCacheFile :=
  (new cacheId maxSize writeBufferSize).created false 0

/-- `Create()` returns exactly if the file exists or the name fits. -/
theorem create_eq (f : WriteableCacheFile) (fileExists : Bool) (tokens : ℕ) : f.create fileExists tokens =
    if fileExists = false → SemNameFits f.cacheId then .ok (f.created fileExists tokens) else .error .undefined := by
  unfold create
  cases fileExists <;> by_cases hfits : SemNameFits f.cacheId <;> simp [hfits]

/-! ### Appending -/

/-- The end of `DispatchBuffer()`, which wakes the writer. -/
def wakeWriter (f : WriteableCacheFile) : WriteableCacheFile :=
  -- at the end of the file the index is moved on so that the writer takes a partly filled buffer
  let f := if f.eof then { f with bufWoff := f.bufWoff + 1 } else f
  { f with semWriter := f.semWriter + 1, isWriterRunning := true }

/-- `DispatchBuffer()`. -/
def dispatchBuffer (f : WriteableCacheFile) : Except Stop WriteableCacheFile :=
  if f.isWriterRunning then .ok f
  else if f.eof = false ∧ f.bufDoff = f.bufWoff then .ok f
  -- `sem_writer` is not initialised
  else if f.fd = none then .error .undefined
  else .ok f.wakeWriter

/-- What `DispatchBuffer()` makes of a file that has a semaphore. -/
def dispatched (f : WriteableCacheFile) : WriteableCacheFile :=
  if f.isWriterRunning then f
  else if f.eof = false ∧ f.bufDoff = f.bufWoff then f
  else f.wakeWriter

/-- It returns if there is a semaphore. -/
theorem dispatchBuffer_of_fd {f : WriteableCacheFile} (hfd : f.fd ≠ none) : f.dispatchBuffer = .ok f.dispatched := by
  unfold dispatchBuffer dispatched
  split_ifs <;> rfl

theorem eq_dispatched {f g : WriteableCacheFile} (h : f.dispatchBuffer = .ok g) : g = f.dispatched := by
  unfold dispatchBuffer at h
  unfold dispatched
  split_ifs at h ⊢ <;> cases h <;> rfl

/-- `Append` in write-buffer mode, up to the call of `DispatchBuffer`. -/
def appendBuffered (crc : Bytes → UInt32) (f : WriteableCacheFile) (key val : Bytes) (lba : LBA) :
    Except Stop (Bool × LBA × WriteableCacheFile) :=
  if f.eof then .ok (false, lba, f)
  else
    let recSize := CacheRecord.calcSize key val
    let lba : LBA := ⟨f.cacheId, f.diskWoff, recSize⟩
    match expandBuffer f.bufs f.bufWoff f.writeBufferSize.toNat recSize.toNat with
    | .error e => .error e
    | .ok bufs =>
      let (ok, bufs, woff) := (CacheRecord.new crc key val).serialize bufs f.bufWoff
      if ok then
        let diskWoff := f.diskWoff + recSize
        .ok (true, lba, { f with bufs, bufWoff := woff, keyLists := f.keyLists ++ [key], diskWoff,
                                 eof := decide (f.maxSize ≤ diskWoff) })
      else .ok (false, lba, { f with bufs, bufWoff := woff })

/-- The loop around `write` that both `Write` functions have: `src` is what is left. -/
def writeLoop : List IoResult → Bytes → Bytes → Except Stop Bytes
  | _, file, [] => .ok file
  | [], _, _ => .error .unfinished
  | .moved n :: rs, file, src => writeLoop rs (file ++ src.take (n + 1)) (src.drop (n + 1))
  | .eintr :: rs, file, src => writeLoop rs file src
  | .failed :: _, _, _ => .error .exit

/-- `Write(src, size_)`. The size is an `int`, so from `2 ^ 31` on it is negative, and
the loop would run over far more than `src`. -/
def writeDirect (rs : List IoResult) (f : WriteableCacheFile) (src : Bytes) (size : UInt32) :
    Except Stop WriteableCacheFile :=
  if 2 ^ 31 ≤ size.toNat then .error .undefined
  else match f.fd with
    | none => .error .undefined
    | some file =>
      match writeLoop rs file src with
      | .error e => .error e
      | .ok file => .ok { f with fd := some file, filesize := f.filesize + size }

/-- `Append` in direct mode. -/
def appendDirect (crc : Bytes → UInt32) (rs : List IoResult) (f : WriteableCacheFile) (key val : Bytes)
    (lba : LBA) : Except Stop (Bool × LBA × WriteableCacheFile) :=
  if f.eof then .ok (false, lba, f)
  else
    let recSize := CacheRecord.calcSize key val
    let lba : LBA := ⟨f.cacheId, f.diskWoff, recSize⟩
    -- `dest` has `rec_size` bytes, and the record is copied into it
    if recSize.toNat < recordSize key val then .error .undefined
    else match f.writeDirect rs (image crc key val) recSize with
      | .error e => .error e
      | .ok f =>
        let f := { f with diskWoff := f.diskWoff + recSize }
        let f := if f.maxSize ≤ f.filesize then { f with eof := true } else f
        .ok (true, lba, { f with keyLists := f.keyLists ++ [key] })

/-- `Append(key, val, lba)`: the success flag, `*lba`, and the file. -/
def append (crc : Bytes → UInt32) (mode : FlashcacheMode) (rs : List IoResult) (f : WriteableCacheFile)
    (key val : Bytes) (lba : LBA) : Except Stop (Bool × LBA × WriteableCacheFile) :=
  match mode with
  | .writeBuffer =>
    match f.appendBuffered crc key val lba with
    | .error e => .error e
    | .ok (false, lba, f) => .ok (false, lba, f)
    | .ok (true, lba, f) =>
      match f.dispatchBuffer with
      | .error e => .error e
      | .ok f => .ok (true, lba, f)
  | .direct => f.appendDirect crc rs key val lba

/-- `Append` in write-buffer mode is its first part and `DispatchBuffer`. -/
theorem append_of_buffered {crc : Bytes → UInt32} {f f' g : WriteableCacheFile} {key val : Bytes} {lba lba' : LBA}
    (hr : f.appendBuffered crc key val lba = .ok (true, lba', f')) (hd : f'.dispatchBuffer = .ok g)
    (rs : List IoResult) : f.append crc .writeBuffer rs key val lba = .ok (true, lba', g) := by
  rw [append, hr]
  simp only [hd]

/-! ### Reading -/

/-- The loop of `ReadBuffer`, over the buffers from index `i` on: what is left to
read, and the bytes copied. -/
def readBufferLoop (woff : ℕ) : ℕ → List CacheWriteBuffer → ℕ → ℕ → Bytes → Except Stop (ℕ × Bytes)
  | _, _, 0, _, tmp => .ok (0, tmp)
  | _, [], total, _, tmp => .ok (total, tmp)
  | i, buf :: bufs, total, off, tmp =>
    if ¬ i ≤ woff then .error .abort
    else if ¬ (i = woff ∨ buf.free = 0) then .error .abort
    -- the difference of the two unsigned numbers would wrap
    else if buf.used < off then .error .undefined
    else
      let readSize := if buf.used - off < total then buf.used - off else total
      readBufferLoop woff (i + 1) bufs (total - readSize) 0 (tmp ++ (buf.data.drop off).take readSize)

/-- `ReadBuffer(lba, scratch)`: the result and what `scratch` gets. Where bytes are
missing the assertion after the loop fails, before `false` can be returned. -/
def readBuffer (f : WriteableCacheFile) (lba : LBA) : Except Stop (Bool × Bytes) :=
  if f.writeBufferSize.toNat = 0 then .error .undefined
  else
    let startIdx := lba.off.toNat / f.writeBufferSize.toNat
    let startOff := lba.off.toNat % f.writeBufferSize.toNat
    if ¬ startIdx ≤ f.bufWoff then .error .abort
    else match readBufferLoop f.bufWoff startIdx (f.bufs.drop startIdx) lba.size.toNat startOff [] with
      | .error e => .error e
      | .ok (total, tmp) =>
        if total ≠ 0 then .error .abort
        else if tmp.length ≠ lba.size.toNat then .error .abort
        else .ok (true, tmp)

/-- The loop around `pread`: `rest` is the file from the current offset on, `acc` what
was read, and the last component whether the last call returned a negative number.
After a call that returned nothing, `errno` decides whether to go on. -/
def preadLoop : List IoResult → Bool → Bytes → ℕ → Bytes → Bool → Except Stop (Bytes × Bool)
  | _, _, _, 0, acc, neg => .ok (acc, neg)
  | [], _, _, _, _, _ => .error .unfinished
  | .moved n :: rs, eintr, rest, left, acc, _ =>
    if rest = [] then
      if eintr then preadLoop rs eintr rest left acc false else .ok (acc, false)
    else
      let got := rest.take (min (n + 1) left)
      preadLoop rs eintr (rest.drop got.length) (left - got.length) (acc ++ got) false
  | .eintr :: rs, _, rest, left, acc, _ => preadLoop rs true rest left acc true
  | .failed :: _, _, _, _, acc, _ => .ok (acc, true)

/-- Whether `Read` goes to the file. -/
def closed (mode : FlashcacheMode) (f : WriteableCacheFile) : Bool :=
  match mode with
  | .writeBuffer => f.eof && f.bufs.isEmpty
  | .direct => true

/-- `Read(lba, key, val, scratch)`: `none` is `false`, otherwise the key and the value. -/
def read (crc : Bytes → UInt32) (mode : FlashcacheMode) (env : Environment) (f : WriteableCacheFile)
    (lba : LBA) : Except Stop (Option (Bytes × Bytes)) :=
  if f.closed mode then
    match f.fd with
    | none => .error .undefined
    | some file =>
      match preadLoop env.preads env.errnoEintr (file.drop lba.off.toNat) lba.size.toNat [] true with
      | .error e => .error e
      | .ok (acc, neg) =>
        .ok ((CacheRecord.deserialize crc (acc ++ env.scratch.drop acc.length)
          (if neg then 0 else acc.length)).map fun r => (r.key, r.val))
  else
    match f.readBuffer lba with
    | .error e => .error e
    | .ok (false, _) => .ok none
    | .ok (true, tmp) =>
      .ok ((CacheRecord.deserialize crc (tmp ++ env.scratch.drop tmp.length) lba.size.toNat).map
        fun r => (r.key, r.val))

end WriteableCacheFile

end EmbeddedKv.Flash
