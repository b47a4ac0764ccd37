import EmbeddedKv.Flash.Paths
import EmbeddedKv.Store.Cache

/-!
# Insertion

What an `Insert` that returns has done to the cache, in both modes.

## What is proved

`insert_cases`: the record goes to one file by one `Append`, to the current one or, if
that is at its end, to a new one. The loop of `Insert` has two rounds at most
(`insertLoop_fuel`).
-/

namespace EmbeddedKv.Store

open EmbeddedKv.Library EmbeddedKv.Flash WriteableCacheFile

variable {crc : Bytes → UInt32} {mode : FlashcacheMode} {f g : WriteableCacheFile} {key val : Bytes}
  {lba : LBA} {c c₁ c' : FlashCache}

/-! ### One append -/

/-- `Append` in write-buffer mode is its first part, and `DispatchBuffer` if that
succeeds. -/
theorem append_buffered {writes : List IoResult} {ok : Bool} {lba lba' : LBA}
    (hr : f.append crc .writeBuffer writes key val lba = .ok (ok, lba', g)) :
    ∃ f', f.appendBuffered crc key val lba = .ok (ok, lba', f') ∧ g = if ok then f'.dispatched else f' := by
  rw [WriteableCacheFile.append] at hr
  cases hb : f.appendBuffered crc key val lba with
  | error e => rw [hb] at hr; cases hr
  | ok q =>
    obtain ⟨ok', lba₁, f'⟩ := q
    rw [hb] at hr
    cases ok' with
    | false =>
      cases hr
      exact ⟨_, rfl, rfl⟩
    | true =>
      simp only at hr
      cases hd : f'.dispatchBuffer with
      | error e => rw [hd] at hr; cases hr
      | ok f₁ =>
        rw [hd] at hr
        cases hr
        exact ⟨_, rfl, eq_dispatched hd⟩

/-- `Append` puts the key into the list of keys exactly if it succeeds. -/
theorem append_keys {writes : List IoResult} {ok : Bool} {lba lba' : LBA}
    (hr : f.append crc mode writes key val lba = .ok (ok, lba', g)) :
    g.cacheId = f.cacheId ∧ (ok = true → lba'.cacheId = f.cacheId ∧ g.keyLists = f.keyLists ++ [key]) ∧
      (ok = false → g.keyLists = f.keyLists) := by
  cases mode with
  | direct =>
    rw [WriteableCacheFile.append] at hr
    rcases appendDirect_inv hr with ⟨-, rfl, rfl⟩ | ⟨-, rfl, rfl, file, -, rfl⟩
    · simp
    · simp
  | writeBuffer =>
    obtain ⟨f', hb, hg⟩ := append_buffered hr
    rcases appendBuffered_inv hb with ⟨-, rfl, rfl⟩ | ⟨-, rfl, bufs, woff, ⟨rfl, rfl⟩ | ⟨rfl, rfl⟩⟩
    · simp [hg]
    · simp [hg]
    · simp [hg]

/-- What `Append` in write-buffer mode leaves alone. -/
theorem append_buffered_frame {writes : List IoResult} {ok : Bool} {lba lba' : LBA}
    (hr : f.append crc .writeBuffer writes key val lba = .ok (ok, lba', g)) :
    g.tid = f.tid ∧ g.fd = f.fd ∧ (ok = true → lba'.size = CacheRecord.calcSize key val) := by
  obtain ⟨f', hb, hg⟩ := append_buffered hr
  have hfd : ∀ f : WriteableCacheFile, f.dispatched.fd = f.fd := by
    intro f
    rcases dispatched_cases f with ⟨heq, -⟩ | ⟨-, -, -, heq⟩ | ⟨-, -, heq⟩ <;> rw [heq]
  rcases appendBuffered_inv hb with ⟨-, rfl, rfl⟩ | ⟨-, rfl, bufs, woff, ⟨rfl, rfl⟩ | ⟨rfl, rfl⟩⟩
  · simp [hg]
  · rw [hg, if_pos rfl]
    exact ⟨(dispatched_frame _).2.2.2.1, hfd _, fun _ => rfl⟩
  · simp [hg]

/-- At its end a file refuses records, and is left as it is. -/
theorem append_of_eof (he : f.eof = true) (crc : Bytes → UInt32) (mode : FlashcacheMode) (writes : List IoResult)
    (key val : Bytes) (lba : LBA) : f.append crc mode writes key val lba = .ok (false, lba, f) := by
  cases mode with
  | direct => rw [WriteableCacheFile.append, appendDirect_of_eof he]
  | writeBuffer => rw [WriteableCacheFile.append, appendBuffered_of_eof he]

/-- Only before its end a file takes a record. -/
theorem eof_of_append_true {writes : List IoResult} {lba' : LBA}
    (hr : f.append crc mode writes key val lba = .ok (true, lba', g)) : f.eof = false := by
  by_contra he
  rw [append_of_eof (Bool.eq_true_of_not_eq_false he)] at hr
  cases hr

/-- A refused `Append` leaves `eof_` alone. -/
theorem eof_of_append_false {writes : List IoResult} {lba' : LBA}
    (hr : f.append crc mode writes key val lba = .ok (false, lba', g)) : g.eof = f.eof := by
  cases mode with
  | direct =>
    -- before the end of the file it is not refused
    rw [WriteableCacheFile.append] at hr
    rcases appendDirect_inv hr with ⟨-, -, rfl⟩ | ⟨-, hok, -⟩
    · rfl
    · cases hok
  | writeBuffer =>
    obtain ⟨f', hb, hg⟩ := append_buffered hr
    rcases appendBuffered_inv hb with ⟨-, -, rfl⟩ | ⟨-, -, bufs, woff, ⟨hok, -⟩ | ⟨-, rfl⟩⟩
    · rw [hg]
      rfl
    · cases hok
    · rw [hg]
      rfl

/-! ### The loop -/

namespace FlashCache

/-- **Two rounds are enough** for the loop of `Insert`: the file of the second one is
new, and a new file is not at its end after a refused `Append`. -/
theorem insertLoop_fuel (crc : Bytes → UInt32) (mode : FlashcacheMode) (writes : List IoResult)
    (key val : Bytes) (n : ℕ) (c : FlashCache) (lba : LBA) :
    insertLoop crc mode writes key val (n + 2) c lba = insertLoop crc mode writes key val 2 c lba := by
  have second : ∀ (k : ℕ) (c : FlashCache) (lba : LBA),
      insertLoop crc mode writes key val (k + 1) c.withNewFile lba =
        insertLoop crc mode writes key val 1 c.withNewFile lba := by
    intro k c lba
    rw [insertLoop, insertLoop, show c.withNewFile.cacheFile = c.heap.length from rfl,
      deref_withNewFile, if_pos rfl]
    simp only
    generalize hnew : (WriteableCacheFile.new c.writerCacheId c.opt.cacheFileSize c.opt.writeBufferSize).created
      (decide (c.writerCacheId ∈ c.dir)) 0 = f
    have heof : f.eof = false := by
      rw [← hnew, created]
      split_ifs <;> rfl
    cases hr : f.append crc mode writes key val lba with
    | error e => rfl
    | ok r =>
      obtain ⟨ok, lba', g⟩ := r
      cases ok with
      | true => rfl
      | false =>
        have hg : g.eof = false := (eof_of_append_false hr).trans heof
        simp only [hg, Bool.false_eq_true, if_false]
  rw [insertLoop, insertLoop]
  cases c.deref c.cacheFile with
  | none => rfl
  | some f =>
    simp only
    cases f.append crc mode writes key val lba with
    | error e => rfl
    | ok r =>
      obtain ⟨ok, lba', g⟩ := r
      cases ok with
      | true => rfl
      | false =>
        simp only
        split_ifs
        · cases hnew : (c.store c.cacheFile g).newCacheFile with
          | error e => rfl
          | ok c₁ =>
            obtain ⟨-, rfl⟩ := newCacheFile_iff.mp hnew
            exact second n _ _
        · rfl

/-- The file that gets the record: the current one, or a new one if that is at its end. -/
inductive Target (mode : FlashcacheMode) (c : FlashCache) : FlashCache → Prop where
  /-- The current file. -/
  | current : Target mode c { c with fcacheMutex := true }
  /-- A new file: `Create()` has returned, and in direct mode there was no file of its name. -/
  | rolled {f : WriteableCacheFile} (hf : c.deref c.cacheFile = some f) (he : f.eof = true)
      (hnew : mode = .direct → c.writerCacheId ∉ c.dir) (hcreate : c.Creatable) :
      Target mode c ({ c with fcacheMutex := true } : FlashCache).withNewFile

/-- The state after the file has got the record. -/
def booked (c : FlashCache) (g : WriteableCacheFile) (key : Bytes) (lba : LBA) : FlashCache :=
  { c.store c.cacheFile g with
    size := c.size + lba.size.toUInt64
    metadata := c.metadata.insert key lba
    fcacheMutex := false }

/-- The second round of `Insert`: a new file is not at its end, whether it takes the
record or not. -/
theorem insertLoop_new {writes : List IoResult} {ok : Bool} {lba lba' : LBA}
    (hr : insertLoop crc mode writes key val 1 c.withNewFile lba = .ok (ok, lba', c')) :
    ∃ f g, c.withNewFile.deref c.withNewFile.cacheFile = some f ∧ f.eof = false ∧
      f.append crc mode writes key val lba = .ok (ok, lba', g) ∧ (mode = .direct → c.writerCacheId ∉ c.dir) ∧
      c' = c.withNewFile.store c.withNewFile.cacheFile g := by
  have hfile : c.withNewFile.deref c.withNewFile.cacheFile =
      some ((WriteableCacheFile.new c.writerCacheId c.opt.cacheFileSize c.opt.writeBufferSize).created
        (decide (c.writerCacheId ∈ c.dir)) 0) := by
    rw [deref_withNewFile]
    exact if_pos rfl
  have heof : ((WriteableCacheFile.new c.writerCacheId c.opt.cacheFileSize c.opt.writeBufferSize).created
      (decide (c.writerCacheId ∈ c.dir)) 0).eof = false := by
    rw [created]
    split_ifs <;> rfl
  rw [insertLoop, hfile] at hr
  simp only at hr
  cases ha : ((WriteableCacheFile.new c.writerCacheId c.opt.cacheFileSize c.opt.writeBufferSize).created
      (decide (c.writerCacheId ∈ c.dir)) 0).append crc mode writes key val lba with
  | error e => rw [ha] at hr; cases hr
  | ok q =>
    obtain ⟨ok₁, lba₁, g⟩ := q
    have hnew : mode = .direct → c.writerCacheId ∉ c.dir := by
      rintro rfl hin
      rw [decide_eq_true hin] at ha
      obtain ⟨-, hfd⟩ := size_of_appendDirect rfl ha
      cases hfd
    rw [ha] at hr
    cases ok₁ with
    | true =>
      cases hr
      exact ⟨_, g, hfile, heof, ha, hnew, rfl⟩
    | false =>
      simp only [(eof_of_append_false ha).trans heof, Bool.false_eq_true, if_false] at hr
      cases hr
      exact ⟨_, g, hfile, heof, ha, hnew, rfl⟩

/-- **`Insert`** appends to the current file or to a new one, once, which is not at its
end; if that fails it returns with the mutex locked. -/
theorem insert_cases {writes : List IoResult} {r : Int} (hr : c.insert crc mode writes key val = .ok (r, c')) :
    ∃ c₁ f g lba lba' ok, Target mode c c₁ ∧ c₁.deref c₁.cacheFile = some f ∧ f.eof = false ∧
      f.append crc mode writes key val lba = .ok (ok, lba', g) ∧
      ((ok = true ∧ c' = c₁.booked g key lba') ∨ ok = false ∧ c' = c₁.store c₁.cacheFile g) := by
  unfold insert at hr
  split_ifs at hr
  cases hl : insertLoop crc mode writes key val 2 { c with fcacheMutex := true } {} with
  | error e => rw [hl] at hr; cases hr
  | ok q =>
    obtain ⟨ok, lba', c₁⟩ := q
    rw [hl] at hr
    rw [insertLoop] at hl
    cases hf : c.deref c.cacheFile with
    | none =>
      rw [show ({ c with fcacheMutex := true } : FlashCache).deref c.cacheFile = none from hf] at hl
      cases hl
    | some f =>
      rw [show ({ c with fcacheMutex := true } : FlashCache).deref c.cacheFile = some f from hf] at hl
      simp only at hl
      cases ha : f.append crc mode writes key val {} with
      | error e => rw [ha] at hl; cases hl
      | ok q =>
        obtain ⟨ok₁, lba₁, g⟩ := q
        rw [ha] at hl
        cases ok₁ with
        | true =>
          cases hl
          cases hr
          exact ⟨_, f, g, {}, lba', true, .current, hf, eof_of_append_true ha, ha, .inl ⟨rfl, rfl⟩⟩
        | false =>
          simp only at hl
          have hsame := eof_of_append_false ha
          cases he : f.eof with
          | false =>
            rw [hsame, he, if_neg Bool.false_ne_true] at hl
            cases hl
            cases hr
            exact ⟨_, f, g, {}, _, false, .current, hf, he, ha, .inr ⟨rfl, rfl⟩⟩
          | true =>
            rw [append_of_eof he] at ha
            cases ha
            have hf' : ({ c with fcacheMutex := true } : FlashCache).deref c.cacheFile = some f := hf
            rw [he, if_pos rfl, store_self hf'] at hl
            cases hnext : ({ c with fcacheMutex := true } : FlashCache).newCacheFile with
            | error e => rw [hnext] at hl; cases hl
            | ok c₂ =>
              obtain ⟨hcreate, rfl⟩ := newCacheFile_iff.mp hnext
              rw [hnext] at hl
              obtain ⟨f₁, g₁, hf₁, he₁, ha₁, hnew, rfl⟩ := insertLoop_new hl
              cases ok with
              | true =>
                cases hr
                exact ⟨_, f₁, g₁, {}, lba', true, .rolled hf he hnew hcreate, hf₁, he₁, ha₁, .inl ⟨rfl, rfl⟩⟩
              | false =>
                cases hr
                exact ⟨_, f₁, g₁, {}, lba', false, .rolled hf he hnew hcreate, hf₁, he₁, ha₁, .inr ⟨rfl, rfl⟩⟩

/-- **`Insert` into the file that gets the record.** -/
theorem insert_of_target {writes : List IoResult} (hfree : c.fcacheMutex = false) (ht : Target mode c c₁)
    (hf : c₁.deref c₁.cacheFile = some f) (ha : f.append crc mode writes key val {} = .ok (true, lba, g)) :
    c.insert crc mode writes key val = .ok (0, c₁.booked g key lba) := by
  rw [insert, if_neg (by simp [hfree])]
  cases ht with
  | current =>
    rw [insertLoop, hf]
    simp only [ha]
    rfl
  | @rolled f₀ hf₀ he hnew hcreate =>
    have hmade : ({ c with fcacheMutex := true } : FlashCache).newCacheFile = .ok _ :=
      newCacheFile_iff.mpr ⟨hcreate, rfl⟩
    rw [insertLoop, show ({ c with fcacheMutex := true } : FlashCache).deref c.cacheFile = some f₀ from hf₀]
    have hf₀' : ({ c with fcacheMutex := true } : FlashCache).deref c.cacheFile = some f₀ := hf₀
    simp only [append_of_eof he, he, if_true, store_self hf₀', hmade]
    rw [insertLoop, hf]
    simp only [ha]
    rfl

/-- `Insert` leaves the options alone. -/
theorem insert_opt {writes : List IoResult} {r : Int} (hr : c.insert crc mode writes key val = .ok (r, c')) :
    c'.opt = c.opt := by
  obtain ⟨c₁, f, g, lba, lba', ok, ht, -, -, -, hstate⟩ := insert_cases hr
  have hopt : c₁.opt = c.opt := by cases ht <;> rfl
  rcases hstate with ⟨-, rfl⟩ | ⟨-, rfl⟩
  · exact hopt
  · exact hopt

end FlashCache

end EmbeddedKv.Store
