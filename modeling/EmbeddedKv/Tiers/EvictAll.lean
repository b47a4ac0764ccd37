import EmbeddedKv.Tiers.Window

/-!
# Shutdown

`evictAllCommand`, which the handler of SIGINT calls before it destroys the flash cache:
it hands every entry in memory to the flush worker, and then waits until
`LRUCacheSize` is `0`.

## The model

`LRUCacheSize` returns an `int`: the number of nodes of the list, or `0` if the map is
empty. While the command runs no client does; the flush worker and the writers of the
cache files do.

## What is proved

The list is empty as soon as every entry has been handed over, so the command does not
wait for the worker. `evictAll_barrier`: all that was in memory has been written to the
flash cache, in every run in which the command returns, exactly if that was so when it
was called. `evictAll_early` is a run in which it returns with an entry in the queue.
-/

namespace EmbeddedKv.Tiers

open EmbeddedKv.Library EmbeddedKv.Flash EmbeddedKv.Store

variable {crc : Bytes → UInt32} {mode : FlashcacheMode} {d : DeadNode}

/-! ### The command -/

/-- What `LRUCacheSize(mlru)` returns, an `int`. -/
def KvDb.poolSize (s : KvDb) : ℤ := Int.bmod (lruCacheSize s.memLRU) (2 ^ 32)

/-- Where `evictAllCommand` is. -/
inductive EvictAllPc where
  /-- In the first loop. -/
  | evicting (i pool_size : ℤ)
  /-- In the second loop. -/
  | waiting
  /-- It has returned. -/
  | returned

/-- The server while `evictAllCommand` runs. -/
structure Shutdown where
  /-- The server. -/
  server : Server
  /-- The command. -/
  pc : EvictAllPc

/-- `evictAllCommand` is called: `pool_size` is read. -/
def Shutdown.call (s : Server) : Shutdown := ⟨s, .evicting 0 s.db.poolSize⟩

/-- What happens while `evictAllCommand` runs. -/
inductive EvictAllAct where
  /-- An entry is evicted. -/
  | evict
  /-- The first loop ends. -/
  | leave
  /-- The second loop looks at the size. -/
  | look
  /-- The flush worker takes a step. -/
  | bworker (a : BworkerAct)
  /-- The writer thread of a cache file takes a step. -/
  | writer (p : ℕ)
  deriving DecidableEq

/-- **One step while `evictAllCommand` runs.** -/
inductive EvictAllStep (crc : Bytes → UInt32) (mode : FlashcacheMode) : Shutdown → EvictAllAct → Shutdown → Prop where
  /-- The body of the first loop. -/
  | evict {s : Server} {i pool_size : ℤ} {db : KvDb} (hi : i < pool_size) (hr : s.db.evictOne = .ok db) :
      EvictAllStep crc mode ⟨s, .evicting i pool_size⟩ .evict ⟨{ s with db }, .evicting (i + 1) pool_size⟩
  /-- The first loop ends. -/
  | leave {s : Server} {i pool_size : ℤ} (hi : ¬ i < pool_size) :
      EvictAllStep crc mode ⟨s, .evicting i pool_size⟩ .leave ⟨s, .waiting⟩
  /-- The body of the second loop. -/
  | look {s : Server} :
      EvictAllStep crc mode ⟨s, .waiting⟩ .look ⟨s, if s.db.poolSize = 0 then .returned else .waiting⟩
  /-- The flush worker takes a step. -/
  | bworker {s t : Server} {pc : EvictAllPc} {a : BworkerAct} (h : BworkerStep crc mode s a t) :
      EvictAllStep crc mode ⟨s, pc⟩ (.bworker a) ⟨t, pc⟩
  /-- The writer of a cache file takes a step. -/
  | writer {s : Server} {pc : EvictAllPc} {p : ℕ} {f g : WriteableCacheFile}
      (hf : s.db.flashCache.deref p = some f) (hw : s.db.flashCache.Writes f g) :
      EvictAllStep crc mode ⟨s, pc⟩ (.writer p)
        ⟨{ s with db := { s.db with flashCache := s.db.flashCache.store p g } }, pc⟩

/-- The runs of `evictAllCommand`, with what happened. -/
abbrev EvictAllRun (crc : Bytes → UInt32) (mode : FlashcacheMode) : Shutdown → List EvictAllAct → Shutdown → Prop :=
  Run (EvictAllStep crc mode) fun _ _ _ => True

/-- **Nothing is lost** if the flash cache is destroyed in state `t`: the queue is empty,
and the worker has inserted every entry that was in memory in state `s`, before or in
what happened since. -/
def Barrier (s : Server) (acts : List EvictAllAct) (t : Server) : Prop :=
  t.db.memQueue = [] ∧ ∀ key p, s.db.memLRU.find key = some p →
    (∃ valueObj, s.bworker = .inserted p valueObj) ∨ .bworker (.insert p) ∈ acts

variable {s t : Server} {db : KvDb} {a : BworkerAct}

/-! ### The size -/

/-- `LRUCacheSize` is the number of nodes. -/
theorem Server.Sound.lruCacheSize_eq (h : s.Sound) : KvDb.lruCacheSize s.db.memLRU = s.db.memLRU.list.length := by
  rw [KvDb.lruCacheSize, LruCache.size]
  by_cases hnil : s.db.memLRU.list = []
  · rw [hnil, List.length_nil, ite_self]
  · obtain ⟨key, hfind, -⟩ := h.list_ne_nil.mp hnil
    obtain ⟨p, hp⟩ := Option.ne_none_iff_exists'.mp hfind
    rw [LruCache.empty_of_find hp, if_neg Bool.false_ne_true]

theorem Server.Sound.poolSize_eq (h : s.Sound) : s.db.poolSize = Int.bmod s.db.memLRU.list.length (2 ^ 32) := by
  unfold KvDb.poolSize
  rw [h.lruCacheSize_eq]

/-- Up to `INT_MAX` nodes the size is their number. -/
theorem KvDb.poolSize_of_lt {n : ℕ} (h : lruCacheSize db.memLRU = n) (hn : n < 2 ^ 31) : db.poolSize = n := by
  unfold KvDb.poolSize
  rw [h, Int.bmod]
  split_ifs <;> omega

/-- The worker leaves the list alone. -/
theorem BworkerStep.list_eq (hs : BworkerStep crc mode s a t) : t.db.memLRU.list = s.db.memLRU.list := by
  cases hs <;> rfl

/-- The worker puts nothing into the queue. -/
theorem BworkerStep.queue_suffix (hs : BworkerStep crc mode s a t) : t.db.memQueue <:+ s.db.memQueue := by
  cases hs with
  | dequeue hpc hq =>
    rw [hq]
    exact List.suffix_cons _ _
  | read | lock | insert | erase | unlock => exact List.suffix_refl _

/-- While there are nodes, an entry can be evicted. -/
theorem Server.Sound.evictOne_ok (h : s.Sound) (hne : s.db.memLRU.list ≠ []) : ∃ db, s.db.evictOne = .ok db := by
  obtain ⟨k, p, lru, hpop, -, hfind, -⟩ := h.lru.evict hne
  obtain ⟨he, hp, -⟩ := h.found k p hfind
  have hlru : KvDb.lruCacheEvict s.db.memLRU = .ok (some p, lru) := by
    rw [KvDb.lruCacheEvict, LruCache.empty_of_find hfind, if_neg Bool.false_ne_true, hpop]
  rw [KvDb.evictOne, hlru]
  simp only [hp]
  split_ifs
  · exact ⟨_, rfl⟩
  · exact ⟨_, rfl⟩

/-! ### The command does not wait -/

variable (crc mode) in
/-- The first loop, while the worker does nothing. -/
theorem evict_run (h : s.Sound) {n : ℕ} (hn : (n : ℤ) ≤ s.db.poolSize) (hlen : n ≤ s.db.memLRU.list.length) :
    ∃ t, EvictAllRun crc mode (.call s) (List.replicate n .evict) ⟨t, .evicting n s.db.poolSize⟩ ∧ t.Sound ∧
      t.db.memLRU.list.length + n = s.db.memLRU.list.length ∧
      ∃ queue, queue.length = n ∧ t.db.memQueue = s.db.memQueue ++ queue := by
  induction n with
  | zero => exact ⟨s, .nil _, h, rfl, [], rfl, (List.append_nil _).symm⟩
  | succ n ih =>
    obtain ⟨t, hrun, ht, hlist, queue, hcount, hqueue⟩ := ih (by omega) (by omega)
    have hne : t.db.memLRU.list ≠ [] := by
      intro hnil
      rw [hnil, List.length_nil] at hlist
      omega
    obtain ⟨db, hdb⟩ := ht.evictOne_ok hne
    obtain ⟨hsound, p, hpush, hdrop, -⟩ := ht.evict hdb
    have hstep : EvictAllStep crc mode ⟨t, .evicting n s.db.poolSize⟩ .evict
        ⟨{ t with db }, .evicting (n + 1) s.db.poolSize⟩ := .evict (by omega) hdb
    refine ⟨{ t with db }, ?_, hsound, ?_, queue ++ [p], by rw [List.length_append, hcount, List.length_singleton],
      by rw [hpush, hqueue, List.append_assoc]⟩
    · rw [List.replicate_succ', Nat.cast_add_one]
      exact .snoc hrun trivial hstep
    · have hpos := List.length_pos_of_ne_nil hne
      simp only [hdrop, List.length_dropLast]
      omega

variable (crc mode) in
/-- **The command returns without waiting**: a run in which the worker does nothing. -/
theorem evictAll_idle (h : s.Sound) (hn : 0 ≤ s.db.poolSize) :
    ∃ acts t, EvictAllRun crc mode (.call s) acts ⟨t, .returned⟩ ∧ (∀ a, .bworker a ∉ acts) ∧
      ∃ queue, (queue.length : ℤ) = s.db.poolSize ∧ t.db.memQueue = s.db.memQueue ++ queue := by
  obtain ⟨n, hsize⟩ := Int.eq_ofNat_of_zero_le hn
  have hmod := h.poolSize_eq
  rw [hsize, Int.bmod] at hmod
  have hlen : n ≤ s.db.memLRU.list.length := by
    split_ifs at hmod <;> omega
  obtain ⟨t, hrun, ht, hlist, queue, hcount, hqueue⟩ := evict_run crc mode h (by omega) hlen
  have hzero : t.db.poolSize = 0 := by
    rw [ht.poolSize_eq, Int.bmod]
    split_ifs at hmod ⊢ <;> omega
  have hleave : EvictAllStep crc mode ⟨t, .evicting n s.db.poolSize⟩ .leave ⟨t, .waiting⟩ := .leave (by omega)
  have hlook : EvictAllStep crc mode ⟨t, .waiting⟩ .look ⟨t, .returned⟩ := by
    have hl : EvictAllStep crc mode ⟨t, .waiting⟩ .look ⟨t, if t.db.poolSize = 0 then .returned else .waiting⟩ := .look
    rw [if_pos hzero] at hl
    exact hl
  refine ⟨_, t, .snoc (.snoc hrun trivial hleave) trivial hlook, ?_, queue, by rw [hcount, hsize], hqueue⟩
  intro a ha
  simp [List.mem_replicate] at ha

/-! ### When it is a barrier -/

/-- If all that is in memory is written, there is no node left. -/
theorem Server.Sound.list_eq_nil (h : s.Sound)
    (hins : ∀ key p, s.db.memLRU.find key = some p → ∃ valueObj, s.bworker = .inserted p valueObj) :
    s.db.memLRU.list = [] := by
  by_contra hne
  obtain ⟨key, hfind, hlive⟩ := h.list_ne_nil.mp hne
  obtain ⟨p, hp⟩ := Option.ne_none_iff_exists'.mp hfind
  obtain ⟨valueObj, hpc⟩ := hins key p hp
  exact h.not_waits hlive hp (.inr (by rw [hpc]; rfl))

/-- If there is nothing to hand over, the command leaves the queue empty. -/
theorem evictAll_empty (h : s.Sound) (hlist : s.db.memLRU.list = []) (hqueue : s.db.memQueue = [])
    {acts : List EvictAllAct} {u : Shutdown} (hrun : EvictAllRun crc mode (.call s) acts u) :
    u.server.db.memQueue = [] := by
  have hzero : s.db.poolSize = 0 := by
    rw [h.poolSize_eq, hlist]
    rfl
  have hinv : (∀ i n, u.pc = .evicting i n → i = 0 ∧ n = 0) ∧ u.server.db.memQueue = [] := by
    refine hrun.invariant (P := fun _ u => (∀ i n, u.pc = .evicting i n → i = 0 ∧ n = 0) ∧ u.server.db.memQueue = [])
      ⟨fun i n hpc => ?_, hqueue⟩ ?_
    · obtain ⟨rfl, rfl⟩ := EvictAllPc.evicting.inj hpc
      exact ⟨rfl, hzero⟩
    · rintro acts u a v ⟨hpc, hq⟩ - hstep
      cases hstep with
      | evict hi hr =>
        obtain ⟨rfl, rfl⟩ := hpc _ _ rfl
        omega
      | leave hi =>
        refine ⟨fun i n heq => ?_, hq⟩
        cases heq
      | look =>
        refine ⟨fun i n heq => ?_, hq⟩
        simp only at heq
        split_ifs at heq
      | bworker hb =>
        have hsuffix := hb.queue_suffix
        rw [hq] at hsuffix
        exact ⟨hpc, List.suffix_nil.mp hsuffix⟩
      | writer hf hw => exact ⟨hpc, hq⟩
  exact hinv.2

/-- If the size does not fit, the command does not return. -/
theorem evictAll_overflow (h : s.Sound) (hneg : s.db.poolSize < 0) {acts : List EvictAllAct} {u : Shutdown}
    (hrun : EvictAllRun crc mode (.call s) acts u) : u.pc ≠ .returned := by
  have hinv : u.server.Sound ∧ u.server.db.memLRU.list = s.db.memLRU.list ∧
      (∀ i n, u.pc = .evicting i n → i = 0 ∧ n = s.db.poolSize) ∧ u.pc ≠ .returned := by
    refine hrun.invariant (P := fun _ u => u.server.Sound ∧ u.server.db.memLRU.list = s.db.memLRU.list ∧
      (∀ i n, u.pc = .evicting i n → i = 0 ∧ n = s.db.poolSize) ∧ u.pc ≠ .returned) ⟨h, rfl, ?_, ?_⟩ ?_
    · intro i n hpc
      obtain ⟨rfl, rfl⟩ := EvictAllPc.evicting.inj hpc
      exact ⟨rfl, rfl⟩
    · intro hpc
      cases hpc
    · rintro acts u a v ⟨hs, hlist, hpc, hret⟩ - hstep
      cases hstep with
      | evict hi hr =>
        obtain ⟨hi0, hn⟩ := hpc _ _ rfl
        rw [hi0, hn] at hi
        exact absurd (hi.trans hneg) (lt_irrefl 0)
      | leave hi =>
        refine ⟨hs, hlist, fun i n heq => ?_, fun heq => ?_⟩
        · cases heq
        · cases heq
      | @look w =>
        have hsize : w.db.poolSize = s.db.poolSize := by
          rw [hs.poolSize_eq, h.poolSize_eq, hlist]
        have hne : w.db.poolSize ≠ 0 := by
          rw [hsize]
          exact Int.ne_of_lt hneg
        rw [if_neg hne]
        refine ⟨hs, hlist, fun i n heq => ?_, fun heq => ?_⟩
        · cases heq
        · cases heq
      | bworker hb => exact ⟨hs.bworker hb, hb.list_eq.trans hlist, hpc, hret⟩
      | writer hf hw => exact ⟨{ hs with toEntries := ⟨hs.found, hs.kept, hs.gone⟩ }, hlist, hpc, hret⟩
  exact hinv.2.2.2

/-- **`evictAllCommand` is a durability barrier** in every run in which it returns
exactly if, when it is called, the queue is empty and every entry in memory is one that
the worker has just inserted; or if it never returns, since the size is negative. -/
theorem evictAll_barrier {flashCache : FlashCache}
    (hs : Reach (ServerStep crc mode .undefined) Always (.start flashCache) s) :
    (∀ acts t, EvictAllRun crc mode (.call s) acts ⟨t, .returned⟩ → Barrier s acts t) ↔
      (s.db.memQueue = [] ∧
        ∀ key p, s.db.memLRU.find key = some p → ∃ valueObj, s.bworker = .inserted p valueObj) ∨
      s.db.poolSize < 0 := by
  have h : s.Sound := by
    apply hs.invariant (P := Server.Sound) (Server.sound_start _)
    intro s a t hsound _ hstep
    exact hstep.sound (hstep.clear hsound) hsound
  constructor
  · intro hall
    by_cases hneg : s.db.poolSize < 0
    · exact .inr hneg
    · -- the worker need not run before the command returns
      obtain ⟨acts, t, hrun, hidle, queue, hcount, hqueue⟩ :=
        evictAll_idle crc mode h (Int.not_lt.mp hneg)
      obtain ⟨hempty, hins⟩ := hall acts t hrun
      rw [hqueue] at hempty
      refine .inl ⟨(List.append_eq_nil_iff.mp hempty).1, fun key p hfind => ?_⟩
      exact (hins key p hfind).resolve_right (hidle _)
  · rintro (⟨hqueue, hins⟩ | hneg) acts t hrun
    · exact ⟨evictAll_empty h (h.list_eq_nil hins) hqueue hrun, fun key p hfind => .inl (hins key p hfind)⟩
    · exact absurd rfl (evictAll_overflow h hneg hrun)

/-- The only entry has been evicted and inserted before the command is called. -/
theorem evictAll_barrier_inserted : ∃ s : Server, s.db.memLRU.find [97] = some 0 ∧
    ∀ acts t, EvictAllRun (fun _ => 0) .direct (.call s) acts ⟨t, .returned⟩ → Barrier s acts t := by
  have h0 := Reach.refl (R := ServerStep (fun _ => 0) .direct .undefined) (C := Always)
    (.start (.openEmpty ⟨20, 0, 1000⟩ 0))
  have h1 := h0.step (a := ServerAct.set [97] [1]) trivial (.set rfl rfl rfl)
  have h2 := h1.step (a := ServerAct.evict) trivial (.evict rfl)
  have h3 := h2.step (a := ServerAct.bworker .dequeue) trivial (.bworker (.dequeue rfl rfl))
  have h4 := h3.step (a := ServerAct.bworker .read) trivial (.bworker (.read rfl rfl))
  have h5 := h4.step (a := ServerAct.bworker .lock) trivial (.bworker (.lock rfl rfl))
  have h6 := h5.step (a := ServerAct.bworker (.insert 0)) trivial (.bworker (.insert rfl rfl
    (show FlashCache.insert (fun _ => 0) .direct [.moved 99] _ [97] [1] = .ok (0, _) from rfl)))
  refine ⟨_, rfl, (evictAll_barrier h6).mpr (.inl ⟨rfl, fun key p hfind => ⟨[1], ?_⟩⟩)⟩
  have hone : (LruCache.insert ({} : LruCache Bytes ℕ) [97] 0).find key = some p := hfind
  rw [LruCache.find_insert] at hone
  split_ifs at hone with hkey
  · rw [← Option.some.inj hone]
    rfl
  · cases hone

/-- The command returns with the only entry in the queue. -/
theorem evictAll_early : ∃ (s t : Server) (acts : List EvictAllAct),
    Reach (ServerStep (fun _ => 0) .direct .undefined) Always (.start (.openEmpty ⟨20, 0, 1000⟩ 0)) s ∧
      EvictAllRun (fun _ => 0) .direct (.call s) acts ⟨t, .returned⟩ ∧ t.db.memQueue = [0] ∧ ¬ Barrier s acts t := by
  have h0 := Reach.refl (R := ServerStep (fun _ => 0) .direct .undefined) (C := Always)
    (.start (.openEmpty ⟨20, 0, 1000⟩ 0))
  have h1 := h0.step (a := ServerAct.set [97] [1]) trivial (.set rfl rfl rfl)
  have run : ∀ (s : Server) (db : KvDb), s.db.poolSize = 1 → s.db.evictOne = .ok db → db.poolSize = 0 →
      EvictAllRun (fun _ => 0) .direct (.call s) [.evict, .leave, .look] ⟨{ s with db }, .returned⟩ := by
    intro s db hs hdb hzero
    have hlook : EvictAllStep (fun _ => 0) .direct ⟨{ s with db }, .waiting⟩ .look
        ⟨{ s with db }, if db.poolSize = 0 then .returned else .waiting⟩ := .look
    rw [if_pos hzero] at hlook
    refine .snoc (.snoc (.snoc (.nil _) trivial (.evict ?_ hdb)) trivial (.leave ?_)) trivial hlook
    · omega
    · omega
  exact ⟨_, _, _, h1, run _ _ (KvDb.poolSize_of_lt rfl (by decide)) rfl (KvDb.poolSize_of_lt rfl (by decide)), rfl,
    fun hb => by cases hb.1⟩

end EmbeddedKv.Tiers
