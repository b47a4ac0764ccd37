import EmbeddedKv.Library.Runs
import EmbeddedKv.Store.Insert

/-!
# The mutex of the flash cache

`fcache_mutex` after the calls of the flash cache have returned.

## What is proved

* `FlashCache.lookup_mutex`: `Lookup` gives the mutex back exactly when it finds the
  key and its file.
* `CacheStep.unlocked`: `Insert` gives it back in direct mode, and in write-buffer mode
  for records of less than `2 ^ 32` bytes; `Evict` always does.
* `reach_unlocked`: in runs of such calls nobody finds the mutex locked.

The theorem after it shows that the condition on `Lookup` is needed.
-/

namespace EmbeddedKv.Store

open EmbeddedKv.Library EmbeddedKv.Flash WriteableCacheFile Relation

variable {crc : Bytes → UInt32} {mode : FlashcacheMode} {f g : WriteableCacheFile} {key val : Bytes}
  {lba : LBA} {c c' : FlashCache} {p : ℕ}

/-! ### Lookup -/

/-- The key is in the index, and its file is in the index of the files. -/
def FlashCache.Indexed (c : FlashCache) (key : Bytes) : Prop :=
  ∃ lba p, c.metadata.lookup key = some lba ∧ c.metadata.cacheFileIndex.find lba.cacheId = some p

/-- **`Lookup`** gives the mutex back exactly when it finds the key and its file. -/
theorem FlashCache.lookup_mutex {env : Environment} {r : Option Bytes}
    (hr : c.lookup crc mode env key = .ok (r, c')) : c'.fcacheMutex = false ↔ c.Indexed key := by
  cases FlashCache.Looked.of_lookup hr with
  | absent hl => simp [FlashCache.Indexed, hl]
  | noFile hl hget => simp [FlashCache.Indexed, hl, ← LruCache.get_eq_find hget]
  | read hl hget hf hread => exact ⟨fun _ => ⟨_, _, hl, (LruCache.get_eq_find hget).symm⟩, fun _ => rfl⟩

/-! ### Insertion -/

/-- A file takes every record, or is at its end: until its end its buffers have the
shape that `Append` relies on, and its writer has not left its loop. -/
structure Ready (f : WriteableCacheFile) : Prop where
  /-- The writer leaves its loop at the end of the file only. -/
  eof_of_left : f.Left → f.eof = true
  /-- The buffers hold some log. -/
  shaped : f.eof = false → ∃ log, Shaped f.writeBufferSize.toNat f.bufs f.bufWoff log

/-- A file at its end, which no writer is needed for. -/
theorem ready_of_eof (he : f.eof = true) : Ready f where
  eof_of_left _ := he
  shaped hne := by simp [he] at hne

/-- A new file. -/
theorem ready_new (id maxSize writeBufferSize : UInt32) (fileExists : Bool) :
    Ready ((WriteableCacheFile.new id maxSize writeBufferSize).created fileExists 0) := by
  cases fileExists <;> exact ⟨by simp [Left, created, WriteableCacheFile.new], fun _ => ⟨[], Shaped.nil _⟩⟩

/-- `DispatchBuffer` moves `buf_woff_` on at the end of the file only. -/
theorem Ready.dispatched (h : Ready f) : Ready f.dispatched := by
  rcases f.dispatched_cases with ⟨heq, -⟩ | ⟨-, -, -, heq⟩ | ⟨-, he, heq⟩ <;> rw [heq]
  · exact h
  · exact ⟨h.eof_of_left, h.shaped⟩
  · exact ready_of_eof he

/-- **`Append`** fails at the end of the file only, if the record is small enough. -/
theorem Ready.append (h : Ready f) (hsize : mode = .writeBuffer → recordSize key val < 2 ^ 32)
    {writes : List IoResult} {ok : Bool} {lba' : LBA}
    (hr : f.append crc mode writes key val lba = .ok (ok, lba', g)) :
    Ready g ∧ (ok = false → g.eof = true) := by
  cases he : f.eof with
  | true =>
    rw [append_of_eof he] at hr
    cases hr
    exact ⟨h, fun _ => he⟩
  | false =>
    have hleft : ¬ f.Left := fun hl => by simp [h.eof_of_left hl] at he
    obtain ⟨log, hshape⟩ := h.shaped he
    cases mode with
    | direct =>
      rw [WriteableCacheFile.append] at hr
      rcases appendDirect_inv hr with ⟨hend, -⟩ | ⟨-, rfl, -, d, -, rfl⟩
      · exact absurd (he.symm.trans hend) Bool.false_ne_true
      · exact ⟨⟨fun hl => absurd hl hleft, fun _ => ⟨log, hshape⟩⟩, by simp⟩
    | writeBuffer =>
      have hnat := CacheRecord.toNat_calcSize_of_lt (hsize rfl)
      obtain ⟨f', hb, rfl⟩ := append_buffered hr
      rcases Nat.eq_zero_or_pos f.writeBufferSize.toNat with hz | hpos
      · -- without capacity the call does not return
        rw [hz] at hshape
        rw [appendBuffered_of_zero hz hshape he (hsize rfl)] at hb
        cases hb
      · obtain ⟨bufs, woff, hroom, -, hnew, ⟨-, happ⟩ | ⟨hout, -⟩⟩ :=
          appendBuffered_shaped hpos hshape he crc key val lba
        · rw [happ] at hb
          cases hb
          exact ⟨Ready.dispatched ⟨fun hl => absurd hl hleft, fun _ => ⟨_, hnew⟩⟩, by simp⟩
        · omega

/-- The writer keeps a file ready. -/
theorem Ready.writer (h : Ready f) (hw : f.WriterStep g) : Ready g := by
  obtain ⟨heof, hcap, -, hwoff⟩ := hw.frame
  cases he : f.eof with
  | true => exact ready_of_eof (heof.trans he)
  | false =>
    have hleft : ¬ f.Left := fun hl => by simp [h.eof_of_left hl] at he
    have hnot : ¬ g.Left := by
      rintro (hpc | hpc)
      all_goals cases hw <;> simp_all [Left]
    have hbufs : g.bufs = f.bufs := by
      cases hw <;> first | rfl | exact absurd (.inl ‹_›) hleft
    obtain ⟨log, hshape⟩ := h.shaped he
    exact ⟨fun hl => absurd hl hnot, fun _ => ⟨log, by rw [hcap, hbufs, hwoff]; exact hshape⟩⟩

/-! ### Closing -/

/-- `Close` of a file with a sleeping writer and nothing to write returns. -/
theorem FlashCache.close_direct (htid : f.tid = some .waiting) (hdone : ¬ f.bufDoff < f.bufWoff)
    (hbufs : f.bufs = []) :
    FlashCache.Close .direct c f { f with eof := true, isWriterRunning := false, tid := none, bufs := [] } := by
  let g : WriteableCacheFile := { f with eof := true, isWriterRunning := false, tid := some .finished }
  have idle : ∀ {e : WriteableCacheFile}, e.bufDoff = f.bufDoff → e.bufWoff = f.bufWoff →
      ∀ b, FlashCache.Fetches e b → c.overfull (UInt64.ofNat b.used) = false := by
    intro e hdoff hwoff b hb
    have hlt := hb.2.1
    rw [hdoff, hwoff] at hlt
    exact absurd hlt hdone
  have h1 : c.Writes (FlashCache.startClose .direct f) { f with eof := true, tid := some .looping } :=
    ⟨.semWait htid (Nat.succ_pos _), idle rfl rfl⟩
  have h2 : c.Writes { f with eof := true, tid := some .looping }
      { f with eof := true, isWriterRunning := false, tid := some .returned } :=
    ⟨.leave rfl hdone, idle rfl rfl⟩
  have h3 : c.Writes { f with eof := true, isWriterRunning := false, tid := some .returned }
      { f with eof := true, isWriterRunning := false, tid := some .clearing } :=
    ⟨.exit rfl rfl, idle rfl rfl⟩
  have h4 : c.Writes { f with eof := true, isWriterRunning := false, tid := some .clearing } g :=
    ⟨.finish rfl hbufs, idle rfl rfl⟩
  exact .join (g := g) (by rw [htid]; rfl) (((ReflTransGen.single h1).tail h2).tail h3 |>.tail h4) rfl

/-! ### The calls -/

/-- Every file takes records until its end. -/
def AllReady (c : FlashCache) : Prop := ∀ p f, c.deref p = some f → Ready f

/-- A changed file. -/
theorem AllReady.store (h : AllReady c) (hf : c.deref p = some f) (hg : Ready g) : AllReady (c.store p g) := by
  intro q e he
  rw [FlashCache.deref_store hf] at he
  split_ifs at he
  · obtain rfl := Option.some.inj he
    exact hg
  · exact h q e he

/-- A new file. -/
theorem AllReady.withNewFile (h : AllReady c) : AllReady c.withNewFile := by
  intro q e he
  rw [FlashCache.deref_withNewFile] at he
  split_ifs at he
  · obtain rfl := Option.some.inj he
    exact ready_new _ _ _ _
  · exact h q e he

/-- **`Insert`** keeps the mutex for large records only. -/
theorem AllReady.insert (h : AllReady c) (hsize : mode = .writeBuffer → recordSize key val < 2 ^ 32)
    {writes : List IoResult} {r : Int} (hr : c.insert crc mode writes key val = .ok (r, c')) :
    AllReady c' ∧ c'.fcacheMutex = false := by
  obtain ⟨c₁, f, g, lba, lba', ok, ht, hf, heof, ha, hstate⟩ := FlashCache.insert_cases hr
  have hlocked : AllReady { c with fcacheMutex := true } := h
  have h₁ : AllReady c₁ := by
    cases ht with
    | current => exact hlocked
    | rolled _ _ _ => exact hlocked.withNewFile
  obtain ⟨hg, hend⟩ := (h₁ _ f hf).append hsize ha
  obtain ⟨-, rfl⟩ | ⟨rfl, -⟩ := hstate
  · exact ⟨h₁.store hf hg, rfl⟩
  · exact absurd ((hend rfl).symm.trans ((eof_of_append_false ha).trans heof)) (by simp)

/-- A round of `Evict` deletes a file, and gives the mutex back. -/
theorem AllReady.evictRound (h : AllReady c) {size : UInt64} (hr : FlashCache.EvictRound mode size c c') :
    AllReady c' ∧ c'.fcacheMutex = false := by
  cases hr with
  | @round p f g metadata unlinked hover hlock hevict hf hclose =>
    refine ⟨fun q e he => ?_, hlock⟩
    have he' : ({ c with heap := c.heap.set p none } : FlashCache).deref q = some e := he
    rw [FlashCache.deref_set_none] at he'
    split_ifs at he'
    exact h q e he'

/-- **The calls that give the mutex back**: `Lookup` of a key that it finds together
with its file, `Insert` of any record in direct mode and of records of less than
`2 ^ 32` bytes in write-buffer mode, and all others. -/
def CacheAct.Returning (mode : FlashcacheMode) (c : FlashCache) : CacheAct → Prop
  | .insert key val => mode = .writeBuffer → recordSize key val < 2 ^ 32
  | .lookup key => c.Indexed key
  | _ => True

/-- **Such a call leaves the mutex unlocked** if it finds it so. -/
theorem CacheStep.unlocked {a : CacheAct} (hs : CacheStep crc mode c a c') (ha : a.Returning mode c)
    (h : AllReady c) (hfree : c.fcacheMutex = false) : AllReady c' ∧ c'.fcacheMutex = false := by
  cases hs with
  | insert hr => exact h.insert ha hr
  | @lookup c' key env r hr =>
    obtain ⟨-, -, hheap⟩ := FlashCache.lookup_frame hr
    refine ⟨fun p f hf => h p f ?_, (FlashCache.lookup_mutex hr).mpr ha⟩
    rwa [FlashCache.deref, hheap] at hf
  | deleteMetaData => exact ⟨h, hfree⟩
  | @evict c' size hr =>
    have hrounds : ∀ {c'}, ReflTransGen (FlashCache.EvictRound mode size) c c' →
        AllReady c' ∧ c'.fcacheMutex = false := by
      intro c' hrun
      induction hrun with
      | refl => exact ⟨h, hfree⟩
      | tail _ hround ih => exact ih.1.evictRound hround
    exact hrounds hr.1
  | @writer p f g hf hw => exact ⟨h.store hf ((h p f hf).writer hw.1), hfree⟩

/-! ### Runs -/

/-- A cache as `Open()` leaves it: files from earlier are at their end, and the current
one is new. -/
def Opened (c : FlashCache) : Prop :=
  c.fcacheMutex = false ∧ ∀ p f, c.deref p = some f → f.eof = true ∨
    ∃ id fileExists, f = (WriteableCacheFile.new id c.opt.cacheFileSize c.opt.writeBufferSize).created fileExists 0

theorem Opened.allReady (h : Opened c) : AllReady c := by
  intro p f hf
  rcases h.2 p f hf with he | ⟨id, b, rfl⟩
  · exact ready_of_eof he
  · exact ready_new _ _ _ _

theorem opened_openEmpty (opt : FlashCacheConfig) (size : UInt64) : Opened (.openEmpty opt size) := by
  refine ⟨rfl, fun p f hf => .inr ⟨0, false, ?_⟩⟩
  rw [FlashCache.openEmpty, FlashCache.deref_withNewFile] at hf
  split_ifs at hf with hp
  · exact (Option.some.inj hf).symm
  · cases hf

/-- **The mutex is free** in every state reached by calls that give it back. -/
theorem reach_unlocked {c₀ : FlashCache} (h₀ : Opened c₀)
    (h : Reach (CacheStep crc mode) (fun c a => a.Returning mode c) c₀ c) : c.fcacheMutex = false := by
  have hboth : AllReady c ∧ c.fcacheMutex = false := by
    refine h.invariant (P := fun c => AllReady c ∧ c.fcacheMutex = false) ⟨h₀.allReady, h₀.1⟩ ?_
    rintro c a c' ⟨hready, hfree⟩ ha hstep
    exact hstep.unlocked ha hready hfree
  exact hboth.2

/-- Insertions into two files, a lookup, an eviction of the first file, and another
insertion. -/
theorem reach_unlocked_evicted : ∃ c : FlashCache, c.deref 0 = none ∧
    c.metadata.lookup [97] = none ∧ c.metadata.lookup [100] = some ⟨1, 18, 18⟩ ∧ c.fcacheMutex = false := by
  have h0 := Reach.refl (R := CacheStep (fun _ => 0) .direct) (C := fun c a => a.Returning .direct c)
    (.openEmpty ⟨20, 0, 40⟩ 0)
  have h1 := h0.step (a := .insert [97] [1]) (by simp [CacheAct.Returning]) (.insert
    (show FlashCache.insert (fun _ => 0) .direct [.moved 99] _ [97] [1] = .ok (0, _) from rfl))
  have h2 := h1.step (a := .insert [98] [2]) (by simp [CacheAct.Returning]) (.insert
    (show FlashCache.insert (fun _ => 0) .direct [.moved 99] _ [98] [2] = .ok (0, _) from rfl))
  have h3 := h2.step (a := .insert [99] [3]) (by simp [CacheAct.Returning]) (.insert
    (show FlashCache.insert (fun _ => 0) .direct [.moved 99] _ [99] [3] = .ok (0, _) from rfl))
  have h4 := h3.step (a := .lookup [99]) ⟨_, _, rfl, rfl⟩ (.lookup
    (show FlashCache.lookup (fun _ => 0) .direct ⟨[], [.moved 99], false, []⟩ _ [99] = .ok (some [3], _) from rfl))
  have h5 := h4.step (a := .evict 0) trivial (.evict
    ⟨.single (.round true rfl rfl rfl rfl (FlashCache.close_direct rfl (by decide) rfl)), rfl⟩)
  have h6 := h5.step (a := .insert [100] [4]) (by simp [CacheAct.Returning]) (.insert
    (show FlashCache.insert (fun _ => 0) .direct [.moved 99] _ [100] [4] = .ok (0, _) from rfl))
  exact ⟨_, rfl, rfl, rfl, reach_unlocked (opened_openEmpty _ _) h6⟩

/-- A `Lookup` of a key that is not there keeps the mutex, and every call after it
that needs the mutex waits forever. -/
theorem mutex_kept_by_lookup : ∃ c : FlashCache,
    Reach (CacheStep (fun _ => 0) .direct) Always (.openEmpty ⟨20, 0, 40⟩ 0) c ∧ c.fcacheMutex = true ∧
      ∀ writes key val, c.insert (fun _ => 0) .direct writes key val = .error .blocked := by
  have h0 := Reach.refl (R := CacheStep (fun _ => 0) .direct) (C := Always) (.openEmpty ⟨20, 0, 40⟩ 0)
  have h1 := h0.step (a := .lookup [97]) trivial (.lookup
    (show FlashCache.lookup (fun _ => 0) .direct ⟨[], [], false, []⟩ _ [97] = .ok (none, _) from rfl))
  exact ⟨_, h1, rfl, fun writes key val => rfl⟩

end EmbeddedKv.Store
