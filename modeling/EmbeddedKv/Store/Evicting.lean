import EmbeddedKv.Store.Open

/-!
# Evicting and joining

`Evict` runs on the writer threads: it holds `fcache_mutex` while `Close` joins the
writer of the file that is removed, and that writer may be on its way to the same mutex,
or be the one that evicts.

## The model

`EvictStep` is one call of `Insert`, one step of a writer, or one of the three parts of
a round of `Evict`: the test of the capacity, which comes before the lock; the lock, with
the choice of the file and the first statements of `Close`; and the return from
`tid.join()` with the rest of the round. `Insert` has the mutex from its start to its
end. A writer that waits for the mutex, or has it, takes no other step. A writer that joins
itself waits like any other here; `std::thread` throws instead, and the process ends.

## What is proved

`reach_waits_acyclic`: nobody ever waits in a circle, if the file that `Evict` chooses is
neither its own nor that of a writer that waits for the mutex, and a file that is being
closed finds room for its buffers (`EvictAct.Clear`). `evict_joins_itself` is a writer
that evicts its own file, and no step leads out of it.
-/

namespace EmbeddedKv.Store

open EmbeddedKv.Library EmbeddedKv.Flash WriteableCacheFile Relation

/-! ### The system -/

/-- A cache, and what its threads do in `Evict`. -/
structure Evicting where
  /-- The cache. -/
  cache : FlashCache
  /-- The files whose writers have found no room and wait for the mutex. -/
  waiting : List ℕ := []
  /-- The writer of the first file has the mutex and joins the writer of the second. -/
  closing : Option (ℕ × ℕ) := none
  /-- The contents of the files whose `unlink` failed. -/
  leftover : List Bytes := []

/-- What happens to it. -/
inductive EvictAct where
  /-- `Insert(key, val)`. -/
  | insert (key val : Bytes)
  /-- A step of the writer of a file. -/
  | writer (p : ℕ)
  /-- The writer of a file finds no room for its buffer. -/
  | test (p : ℕ)
  /-- It gets the mutex, chooses a file and starts to close it. -/
  | lock (p : ℕ)
  /-- The file is closed and deleted; `unlink` succeeds or not. -/
  | remove (unlinked : Bool)

/-- **One call of `Insert`, one step of a writer, or one part of a round of `Evict`.** -/
inductive EvictStep (crc : Bytes → UInt32) (mode : FlashcacheMode) : Evicting → EvictAct → Evicting → Prop where
  /-- `Insert` returns. -/
  | insert {s : Evicting} {c' : FlashCache} {key val : Bytes} {writes : List IoResult} {r : Int}
      (hr : s.cache.insert crc mode writes key val = .ok (r, c')) :
      EvictStep crc mode s (.insert key val) { s with cache := c' }
  /-- The writer of a file takes a step. -/
  | writer {s : Evicting} {p : ℕ} {f g : WriteableCacheFile} (hidle : p ∉ s.waiting)
      (hfree : ∀ q, s.closing ≠ some (p, q)) (hf : s.cache.deref p = some f) (hw : s.cache.Writes f g) :
      EvictStep crc mode s (.writer p) { s with cache := s.cache.store p g }
  /-- The writer of a file finds no room for its buffer, and goes for the mutex. -/
  | test {s : Evicting} {p : ℕ} {f : WriteableCacheFile} {b : CacheWriteBuffer} (hidle : p ∉ s.waiting)
      (hfree : ∀ q, s.closing ≠ some (p, q)) (hf : s.cache.deref p = some f) (hb : FlashCache.Fetches f b)
      (hover : s.cache.overfull (UInt64.ofNat b.used) = true) :
      EvictStep crc mode s (.test p) { s with waiting := p :: s.waiting }
  /-- It gets the mutex; the least recently used file is taken out of the index, and
  `Close` wakes its writer if there is one. -/
  | lock {s : Evicting} {p q : ℕ} {f : WriteableCacheFile} {metadata : Metadata} (hin : p ∈ s.waiting)
      (hlock : s.cache.fcacheMutex = false)
      (hevict : s.cache.metadata.evict (fun p => (s.cache.deref p).map WriteableCacheFile.cacheId) = .ok (q, metadata))
      (hf : s.cache.deref q = some f) :
      EvictStep crc mode s (.lock p)
        { s with
          cache := ({ s.cache with fcacheMutex := true, metadata } : FlashCache).store q
            (if f.tid.isSome then FlashCache.startClose mode f else f)
          waiting := s.waiting.erase p
          closing := some (p, q) }
  /-- The writer of the file has finished, or there was none; the file is deleted. -/
  | remove {s : Evicting} {p q : ℕ} {f : WriteableCacheFile} (unlinked : Bool) (hclosing : s.closing = some (p, q))
      (hf : s.cache.deref q = some f) (hjoin : f.tid = some .finished ∨ f.tid = none ∧ f.fd.isSome) :
      EvictStep crc mode s (.remove unlinked)
        { s with
          cache := { s.cache.removed s.cache.metadata q { f with tid := none, bufs := [] } unlinked with
            fcacheMutex := false }
          closing := none
          leftover := if unlinked then s.leftover else f.fd.getD [] :: s.leftover }

/-! ### Who waits for whom -/

/-- The threads: the one that inserts, and the writers of the files. -/
inductive CacheThread where
  /-- The thread that calls `Insert`. -/
  | inserter
  /-- The writer of a file. -/
  | writer (p : ℕ)
  deriving DecidableEq, Repr

namespace Evicting

/-- **A thread waits for another one.** -/
inductive WaitsFor (s : Evicting) : CacheThread → CacheThread → Prop where
  /-- `Insert` waits for the mutex, which a writer has. -/
  | insert {p q : ℕ} (h : s.closing = some (p, q)) : WaitsFor s .inserter (.writer p)
  /-- A writer waits for the mutex, which another one has. -/
  | mutex {p q w : ℕ} (h : s.closing = some (p, q)) (hw : w ∈ s.waiting) : WaitsFor s (.writer w) (.writer p)
  /-- The writer that has the mutex joins another one. -/
  | join {p q : ℕ} (h : s.closing = some (p, q)) : WaitsFor s (.writer p) (.writer q)

/-- The writer that has the mutex joins itself, or one that waits for the mutex. -/
def Deadlocked (s : Evicting) : Prop := ∃ p q, s.closing = some (p, q) ∧ (q = p ∨ q ∈ s.waiting)

end Evicting

/-- **The condition**: the file that is chosen is neither the one whose writer evicts nor
one whose writer waits for the mutex, and a writer that is being joined finds room. -/
def EvictAct.Clear (s : Evicting) : EvictAct → Prop
  | .lock p => ∀ q metadata,
    s.cache.metadata.evict (fun p => (s.cache.deref p).map WriteableCacheFile.cacheId) = .ok (q, metadata) →
      q ≠ p ∧ q ∉ s.waiting
  | .test p => ∀ w, s.closing ≠ some (w, p)
  | .insert _ _ | .writer _ | .remove _ => True

/-! ### The invariant -/

variable {crc : Bytes → UInt32} {mode : FlashcacheMode} {s t : Evicting} {a : EvictAct}

/-- **The invariant**: who has the mutex neither waits for it nor joins one that does. -/
structure Evicting.Invariant (s : Evicting) : Prop where
  /-- A writer waits once. -/
  nodup : s.waiting.Nodup
  /-- The writers of two files that do not wait. -/
  apart : ∀ p q, s.closing = some (p, q) → q ≠ p ∧ p ∉ s.waiting ∧ q ∉ s.waiting

theorem EvictStep.invariant (hs : EvictStep crc mode s a t) (h : s.Invariant) (hc : a.Clear s) : t.Invariant := by
  obtain ⟨hnodup, hapart⟩ := h
  cases hs with
  | insert hr => exact ⟨hnodup, hapart⟩
  | writer hidle hfree hf hw => exact ⟨hnodup, hapart⟩
  | @test p f b hidle hfree hf hb hover =>
    refine ⟨List.nodup_cons.mpr ⟨hidle, hnodup⟩, fun w q hw => ?_⟩
    obtain ⟨hne, hwout, hqout⟩ := hapart w q hw
    refine ⟨hne, List.not_mem_cons_of_ne_of_not_mem ?_ hwout, List.not_mem_cons_of_ne_of_not_mem ?_ hqout⟩
    · rintro rfl
      exact hfree q hw
    · rintro rfl
      exact hc w hw
  | @lock p q f metadata hin hlock hevict hf =>
    obtain ⟨hne, hout⟩ := hc q metadata hevict
    refine ⟨hnodup.erase p, fun w q' hw => ?_⟩
    cases hw
    exact ⟨hne, hnodup.not_mem_erase, fun hq => hout (List.mem_of_mem_erase hq)⟩
  | remove unlinked hclosing hf hjoin => exact ⟨hnodup, fun w q hw => nomatch hw⟩

/-- How far a thread is from one that waits for nobody. -/
def Evicting.rank (s : Evicting) : CacheThread → ℕ
  | .inserter => 2
  | .writer w =>
    match s.closing with
    | none => 0
    | some (p, _) => if w = p then 1 else if w ∈ s.waiting then 2 else 0

/-- Nobody waits for a thread that is not nearer to one that waits for nobody. -/
theorem Evicting.Invariant.rank_lt (h : s.Invariant) {x y : CacheThread} (hw : s.WaitsFor x y) : s.rank y < s.rank x := by
  cases hw with
  | insert hclosing => simp [rank, hclosing]
  | @mutex p q w hclosing hin =>
    obtain ⟨-, hp, -⟩ := h.apart p q hclosing
    have hne : w ≠ p := by
      rintro rfl
      exact hp hin
    simp [rank, hclosing, hin, hne]
  | join hclosing =>
    obtain ⟨hne, -, hq⟩ := h.apart _ _ hclosing
    simp [rank, hclosing, hne, hq]

/-- **Nobody waits in a circle**, in runs that meet the condition: a writer in `Close`,
called from `Evict` with the mutex, joins neither itself nor a writer that waits for the
mutex. -/
theorem reach_waits_acyclic {c : FlashCache} (h : Reach (EvictStep crc mode) (fun s a => a.Clear s) { cache := c } s) :
    ¬ s.Deadlocked ∧ ∀ x, ¬ TransGen s.WaitsFor x x := by
  have hinv : s.Invariant := h.invariant ⟨List.nodup_nil, fun p q hp => nomatch hp⟩
    fun _ _ _ hi hc hs => hs.invariant hi hc
  constructor
  · rintro ⟨p, q, hclosing, hq⟩
    obtain ⟨hne, -, hout⟩ := hinv.apart p q hclosing
    exact hq.elim hne hout
  · intro x hcycle
    have hlt : ∀ {y}, TransGen s.WaitsFor x y → s.rank y < s.rank x := by
      intro y hxy
      induction hxy with
      | single hw => exact hinv.rank_lt hw
      | tail _ hw ih => exact (hinv.rank_lt hw).trans ih
    exact Nat.lt_irrefl _ (hlt hcycle)

/-- A directory had an empty file; the writer of the next one is about to fetch a buffer
for which there is no room. -/
theorem reach_fetch_second : ∃ c₀ c f₀ f b, ∃ index : LruCache UInt32 ℕ,
    FlashCache.openDir (fun _ _ _ => 0) ⟨18, 32, 30⟩ 0 [(0, [])] = .ok c₀ ∧
      Reach (EvictStep (fun _ => 0) .writeBuffer) (fun s a => a.Clear s) { cache := c₀ } { cache := c } ∧
      c.fcacheMutex = false ∧ c.opt.cacheSize = 30 ∧ c.size = 18 ∧
      c.metadata.cacheFileIndex.evict = .ok (0, index) ∧ c.deref 0 = some f₀ ∧ c.deref 1 = some f ∧
      FlashCache.Fetches f b ∧ b.used = 18 := by
  obtain ⟨c₀, hc₀⟩ : ∃ c, FlashCache.openDir (fun _ _ _ => 0) ⟨18, 32, 30⟩ 0 [(0, [])] = .ok c := ⟨_, rfl⟩
  have hopen := hc₀
  have h0 := Reach.refl (R := EvictStep (fun _ => 0) .writeBuffer) (C := fun s a => a.Clear s) { cache := c₀ }
  cases hc₀
  have h1 := h0.step (a := .insert [97] [1]) trivial
    (.insert (show FlashCache.insert (fun _ => 0) .writeBuffer [] _ [97] [1] = .ok (0, _) from rfl))
  have h2 := h1.step (a := .writer 1) trivial
    (.writer List.not_mem_nil (fun _ => by simp) rfl ⟨.semWait rfl Nat.one_pos, fun b hb => nomatch hb.1⟩)
  exact ⟨_, _, _, _, _, _, hopen, h2, rfl, rfl, rfl, rfl, rfl, rfl, ⟨rfl, of_decide_eq_true rfl, rfl⟩, rfl⟩

/-- That writer gets the mutex and closes the first file. -/
theorem reach_waits_acyclic_second : ∃ s : Evicting, s.closing = some (1, 0) ∧ ¬ s.Deadlocked ∧
    ∀ x, ¬ TransGen s.WaitsFor x x := by
  obtain ⟨c₀, c, f₀, f, b, index, -, h, hlock, hopt, hsize, hindex, hf₀, hf, hb, hused⟩ := reach_fetch_second
  have hover : c.overfull (UInt64.ofNat b.used) = true := by
    rw [FlashCache.overfull, hopt, hsize, hused]
    decide
  have hevict := evict_of_index hindex hf₀
  have h1 := h.step (a := .test 1) (fun _ => by simp) (.test List.not_mem_nil (fun _ => by simp) hf hb hover)
  have h2 := h1.step (a := .lock 1)
    (fun q metadata hq => by cases hevict.symm.trans hq; exact ⟨Nat.zero_ne_one, by simp⟩)
    (.lock (List.mem_singleton_self 1) hlock hevict hf₀)
  exact ⟨_, rfl, reach_waits_acyclic h2⟩

/-! ### A writer that joins itself -/

/-- A deadlock in which the joined writer is about to fetch a buffer. -/
def Evicting.Stuck (s : Evicting) : Prop :=
  s.cache.fcacheMutex = true ∧ ∃ p q f, s.closing = some (p, q) ∧ (q = p ∨ q ∈ s.waiting) ∧
    s.cache.deref q = some f ∧ f.tid = some .looping

theorem Evicting.Stuck.deadlocked (h : s.Stuck) : s.Deadlocked := by
  obtain ⟨-, p, q, f, hclosing, hq, -⟩ := h
  exact ⟨p, q, hclosing, hq⟩

/-- **No step leads out of it.** -/
theorem EvictStep.stuck (hs : EvictStep crc mode s a t) (h : s.Stuck) : t.Stuck := by
  obtain ⟨hlocked, p, q, f, hclosing, hq, hf, hpc⟩ := h
  cases hs with
  | insert hr =>
    unfold FlashCache.insert at hr
    rw [if_pos hlocked] at hr
    cases hr
  | @writer w e g hidle hfree he hw =>
    have hne : q ≠ w := by
      rintro rfl
      rcases hq with rfl | hin
      · exact hfree q hclosing
      · exact hidle hin
    refine ⟨hlocked, p, q, f, hclosing, hq, ?_, hpc⟩
    rw [FlashCache.deref_store he, if_neg hne]
    exact hf
  | test hidle hfree he hb hover =>
    exact ⟨hlocked, p, q, f, hclosing, hq.imp_right (List.mem_cons_of_mem _), hf, hpc⟩
  | lock hin hlock hevict he => exact absurd (hlocked.symm.trans hlock) (by simp)
  | @remove w q' e unlinked hclosing' he hjoin =>
    cases hclosing.symm.trans hclosing'
    obtain rfl := Option.some.inj (hf.symm.trans he)
    rcases hjoin with hfin | ⟨hnone, -⟩
    · cases hpc.symm.trans hfin
    · cases hpc.symm.trans hnone

/-- A writer is about to fetch a buffer for which there is no room. -/
theorem reach_fetch : ∃ c f b, ∃ index : LruCache UInt32 ℕ,
    Reach (EvictStep (fun _ => 0) .writeBuffer) (fun s a => a.Clear s) { cache := .openEmpty ⟨18, 32, 30⟩ 0 }
      { cache := c } ∧
    c.fcacheMutex = false ∧ c.opt.cacheSize = 30 ∧ c.size = 18 ∧ c.metadata.cacheFileIndex.evict = .ok (0, index) ∧
    c.deref 0 = some f ∧ FlashCache.Fetches f b ∧ b.used = 18 := by
  have h0 := Reach.refl (R := EvictStep (fun _ => 0) .writeBuffer) (C := fun s a => a.Clear s)
    { cache := .openEmpty ⟨18, 32, 30⟩ 0 }
  have h1 := h0.step (a := .insert [97] [1]) trivial
    (.insert (show FlashCache.insert (fun _ => 0) .writeBuffer [] _ [97] [1] = .ok (0, _) from rfl))
  have h2 := h1.step (a := .writer 0) trivial
    (.writer List.not_mem_nil (fun _ => by simp) rfl ⟨.semWait rfl Nat.one_pos, fun b hb => nomatch hb.1⟩)
  exact ⟨_, _, _, _, h2, rfl, rfl, rfl, rfl, rfl, ⟨rfl, of_decide_eq_true rfl, rfl⟩, rfl⟩

/-- The writer of a file with a single record, in a cache with room for more than that,
evicts its own file and joins itself, for ever. -/
theorem evict_joins_itself : ∃ s : Evicting,
    Reach (EvictStep (fun _ => 0) .writeBuffer) Always { cache := .openEmpty ⟨18, 32, 30⟩ 0 } s ∧
      s.closing = some (0, 0) ∧ ∀ t, Reach (EvictStep (fun _ => 0) .writeBuffer) Always s t → t.Deadlocked := by
  obtain ⟨c, f, b, index, h, hlock, hopt, hsize, hindex, hf, hb, hused⟩ := reach_fetch
  have hover : c.overfull (UInt64.ofNat b.used) = true := by
    rw [FlashCache.overfull, hopt, hsize, hused]
    decide
  have hevict := evict_of_index hindex hf
  have h' := h.mono fun _ _ _ => (trivial : Always _ _)
  have h1 := h'.step (a := .test 0) trivial (.test List.not_mem_nil (fun _ => by simp) hf hb hover)
  have h2 := h1.step (a := .lock 0) trivial (.lock (List.mem_singleton_self 0) hlock hevict hf)
  refine ⟨_, h2, rfl, fun t ht => ?_⟩
  have hstarted : f.tid.isSome := by rw [hb.1]; rfl
  have hfile : ({ c with fcacheMutex := true,
                         metadata := { c.metadata with cacheFileIndex := index.erase f.cacheId } } : FlashCache).deref 0 =
      some f := hf
  have hstuck : t.Stuck := ht.invariant
    ⟨rfl, 0, 0, _, rfl, .inl rfl, (FlashCache.deref_store hfile _ 0).trans (if_pos rfl), by rw [if_pos hstarted]; exact hb.1⟩
    fun _ _ _ hi _ hs => hs.stuck hi
  exact hstuck.deadlocked

end EmbeddedKv.Store
