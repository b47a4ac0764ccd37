import EmbeddedKv.Tiers.Flush

/-!
# Between eviction and erasure

`LRUCacheEvict` takes the node of a key out of the list at once; its entry in the map,
with an iterator that denotes no node any more, stays until the flush worker has
inserted the value into the flash cache. Whoever uses the key in between uses that
iterator.

## What is proved

`reach_live`: the iterators denote nodes exactly for the keys whose entries do not wait
for the flush, and the keys of the nodes are distinct and in the map, in runs in which
no command is for a key whose entry waits, and nothing is evicted when all wait.
`dead_node_used` shows that the condition is needed. Steps that use no node that is
gone meet it (`ServerStep.clear`).
-/

namespace EmbeddedKv.Tiers

open EmbeddedKv.Library EmbeddedKv.Flash EmbeddedKv.Store

variable {crc : Bytes → UInt32} {mode : FlashcacheMode} {d : DeadNode} {s t : Server} {db : KvDb}
  {key : Bytes} {p : ℕ}

/-! ### Waiting for the flush -/

/-- The entry is queued, or in the hands of the worker, and not erased yet. -/
def Server.Waits (s : Server) (p : ℕ) : Prop := p ∈ s.db.memQueue ∨ s.bworker.inHand = some p

/-- **The key waits for the flush**: its entry does. -/
def Server.Pending (s : Server) (key : Bytes) : Prop :=
  ∃ p he, s.Waits p ∧ s.db.entry p = some he ∧ cString he.key = key

/-- **The invariant.** -/
structure Server.Sound (s : Server) : Prop extends s.Entries where
  /-- The iterators denote nodes, but for the keys that wait. -/
  lru : s.db.memLRU.LinkedBut s.Pending
  /-- No entry is queued twice. -/
  nodup : s.db.memQueue.Nodup
  /-- The entry in the hands of the worker is not queued. -/
  inHand : ∀ p, s.bworker.inHand = some p → p ∉ s.db.memQueue
  /-- The entry that was just erased is not queued. -/
  erased : ∀ p, s.bworker = .erased p → p ∉ s.db.memQueue
  /-- Entries that wait are not freed. -/
  alive : ∀ p, s.Waits p → ∃ he, s.db.entry p = some he
  /-- Entries that do not wait are in memory. -/
  loc : ∀ p he, s.db.entry p = some he → ¬ s.Waits p → s.bworker ≠ .erased p → he.val.loc = .mem

theorem Server.sound_start (flashCache : FlashCache) : (start flashCache).Sound where
  toEntries := entries_start flashCache
  lru := (LruCache.linked_iff.mp LruCache.linked_empty).congr fun k => by
    simp [Pending, Waits, start, BworkerPc.inHand]
  nodup := List.nodup_nil
  inHand p h := by cases h
  erased p h := by cases h
  alive p h := by simp [Waits, start, BworkerPc.inHand] at h
  loc p he h := by simp [start, KvDb.entry] at h

/-- The entry of a key that waits is the one that is found. -/
theorem Server.Sound.find_of_waits (h : s.Sound) {he : HashEntry} (hw : s.Waits p) (hp : s.db.entry p = some he) :
    s.db.memLRU.find (cString he.key) = some p := by
  apply h.kept p he hp
  intro hpc
  rcases hw with hq | hin
  · exact h.erased p hpc hq
  · rw [hpc] at hin
    cases hin

/-- A key that waits has an entry. -/
theorem Server.Sound.find_ne_none (h : s.Sound) (hk : s.Pending key) : s.db.memLRU.find key ≠ none := by
  obtain ⟨p, he, hw, hp, rfl⟩ := hk
  rw [h.find_of_waits hw hp]
  exact Option.some_ne_none p

/-- The entry of a key that does not wait does not wait. -/
theorem Server.Sound.not_waits (h : s.Sound) (hk : ¬ s.Pending key) (hp : s.db.memLRU.find key = some p) :
    ¬ s.Waits p := by
  intro hw
  obtain ⟨he, hentry, hkey⟩ := h.found key p hp
  exact hk ⟨p, he, hw, hentry, hkey⟩

/-- The same keys wait if the same entries do, and have the same keys. -/
theorem Server.pending_congr (hwaits : ∀ p, t.Waits p ↔ s.Waits p)
    (hentry : ∀ p, s.Waits p → (t.db.entry p).map HashEntry.key = (s.db.entry p).map HashEntry.key) (key : Bytes) :
    s.Pending key ↔ t.Pending key := by
  constructor
  · rintro ⟨p, he, hw, hp, hkey⟩
    have hsame := hentry p hw
    rw [hp, Option.map_some] at hsame
    obtain ⟨he', hp', hkey'⟩ := Option.map_eq_some_iff.mp hsame
    exact ⟨p, he', (hwaits p).mpr hw, hp', by rw [hkey', hkey]⟩
  · rintro ⟨p, he, hw, hp, hkey⟩
    have hw' := (hwaits p).mp hw
    have hsame := hentry p hw'
    rw [hp, Option.map_some] at hsame
    obtain ⟨he', hp', hkey'⟩ := Option.map_eq_some_iff.mp hsame.symm
    exact ⟨p, he', hw', hp', by rw [hkey', hkey]⟩

/-! ### Commands -/

/-- A command for a key that does not wait uses no node that is gone. -/
theorem Server.Sound.touch_eq (h : s.Sound) (hk : ¬ s.Pending (cString key)) (d : DeadNode) :
    s.db.touch d key = s.db := by
  cases d with
  | undefined => rfl
  | noEffect =>
    have hstale : s.Pending (cString key) → s.db.memLRU.find (cString key) = none := fun hp => absurd hp hk
    rw [KvDb.touch, h.lru.revive hstale]

/-- What a command leaves: entries keep their keys, those that are changed are in memory,
and the queue is as it was. -/
theorem Server.Sound.entries_changed (h : s.Sound) (hent : Server.Entries { s with db })
    (hpc : ∀ p, s.bworker ≠ .erased p) (hqueue : db.memQueue = s.db.memQueue)
    (hold : ∀ q e, s.db.entry q = some e → ∃ e', db.entry q = some e' ∧ e'.key = e.key)
    (hnew : ∀ q e, db.entry q = some e → e.val.loc = .mem ∨ s.db.entry q = some e)
    (hlru : db.memLRU.LinkedBut s.Pending) : Server.Sound { s with db } := by
  have hwaits : ∀ p, Server.Waits { s with db } p ↔ s.Waits p := by
    intro p
    rw [Server.Waits, Server.Waits, hqueue]
  have hpending := Server.pending_congr hwaits fun q hq => by
    obtain ⟨e, he⟩ := h.alive q hq
    obtain ⟨e', he', hkey⟩ := hold q e he
    rw [he, he', Option.map_some, Option.map_some, hkey]
  refine ⟨hent, hlru.congr hpending, hqueue ▸ h.nodup, fun q hq => hqueue ▸ h.inHand q hq,
    fun q hq => absurd hq (hpc q), fun q hq => ?_, fun q e hq hnot _ => ?_⟩
  · obtain ⟨e, he⟩ := h.alive q ((hwaits q).mp hq)
    obtain ⟨e', he', -⟩ := hold q e he
    exact ⟨e', he'⟩
  · rcases hnew q e hq with hmem | hsame
    · exact hmem
    · exact h.loc q e hsame (fun hw => hnot ((hwaits q).mpr hw)) (hpc q)

/-- **Commands** for a key that does not wait keep the invariant. -/
theorem Server.Sound.effect (h : s.Sound) (hk : ¬ s.Pending (cString key)) (hfree : s.bworker.holdsMutex = false)
    {w : Option Bytes} (he : MemEffect (s.db.touch d key) key w db) (hqueue : db.memQueue = s.db.memQueue) :
    Server.Sound { s with db } := by
  have hent : Server.Entries { s with db } := h.toEntries.effect hfree he
  have hpc : ∀ p, s.bworker ≠ .erased p := by
    intro p heq
    rw [heq] at hfree
    cases hfree
  have hget_linked : ∀ {v lru}, s.db.memLRU.get (cString key) = .ok (v, lru) → lru.LinkedBut s.Pending := by
    intro v lru hget
    obtain ⟨lru', hget', hlru, -⟩ := h.lru.get fun hp => absurd hp hk
    rw [hget, Except.ok.injEq, Prod.mk.injEq] at hget'
    rw [hget'.2]
    exact hlru
  have close := h.entries_changed hent hpc hqueue
  rw [h.touch_eq hk] at he
  cases he with
  | used hfind hget hentries =>
    have hsame : ∀ q, db.entry q = s.db.entry q := fun q => by rw [KvDb.entry, hentries]; rfl
    exact close (fun q e hq => ⟨e, (hsame q).trans hq, rfl⟩) (fun q e hq => .inr ((hsame q).symm.trans hq)) (hget_linked hget)
  | @replaced p he val hw hfind hget hp hentries =>
    have hset : ∀ q, db.entry q = if q = p then some { he with val := createObject val } else s.db.entry q :=
      fun q => by rw [KvDb.entry, hentries, KvDb.join_set (KvDb.lt_of_entry hp)]
    refine close (fun q e hq => ?_) (fun q e hq => ?_) (hget_linked hget)
    · rw [hset]
      split_ifs with hqp
      · rw [hqp, hp, Option.some.injEq] at hq
        exact ⟨_, rfl, by rw [← hq]⟩
      · exact ⟨e, hq, rfl⟩
    · rw [hset] at hq
      split_ifs at hq with hqp
      · rw [← Option.some.inj hq]
        exact .inl rfl
      · exact .inr hq
  | missed hfind hlru hentries =>
    have hsame : ∀ q, db.entry q = s.db.entry q := fun q => by rw [KvDb.entry, hentries]; rfl
    refine close (fun q e hq => ⟨e, (hsame q).trans hq, rfl⟩) (fun q e hq => .inr ((hsame q).symm.trans hq)) ?_
    rw [hlru]
    exact h.lru
  | @added val hfind hlru hentries =>
    refine close (fun q e hq => ⟨e, ?_, rfl⟩) (fun q e hq => ?_) ?_
    · rw [KvDb.entry, hentries, List.getElem?_append_left (KvDb.lt_of_entry hq)]
      exact hq
    · rw [KvDb.entry, hentries] at hq
      rcases Nat.lt_trichotomy q s.db.entries.length with hlt | rfl | hgt
      · rw [List.getElem?_append_left hlt] at hq
        exact .inr hq
      · rw [List.getElem?_append_right (Nat.le_refl _), Nat.sub_self] at hq
        rw [← Option.some.inj hq]
        exact .inl rfl
      · rw [List.getElem?_eq_none (by simp; omega)] at hq
        cases hq
    · rw [hlru]
      exact h.lru.insert (fun hp => absurd hp hk) _

/-! ### Eviction -/

/-- **Eviction** keeps the invariant: the key of the last node waits from now on. -/
theorem Server.Sound.evict (h : s.Sound) (hr : s.db.evictOne = .ok db) : Server.Sound { s with db } ∧
    ∃ p, db.memQueue = s.db.memQueue ++ [p] ∧ db.memLRU.list = s.db.memLRU.list.dropLast ∧
      (∀ k, db.memLRU.find k = s.db.memLRU.find k) := by
  obtain ⟨p, he, hev, hp, -, hcases⟩ := KvDb.evictOne_effect hr
  have hne : s.db.memLRU.list ≠ [] := by
    intro hnil
    rw [LruCache.evict, hnil] at hev
    cases hev
  obtain ⟨k, v, lru, hpop, hlast, hfind, hlive, hlist, hlru⟩ := h.lru.evict hne
  rw [hev, Except.ok.injEq, Prod.mk.injEq] at hpop
  obtain ⟨rfl, rfl⟩ := hpop
  obtain ⟨he', hp', hkey⟩ := h.found k p hfind
  obtain rfl : he = he' := Option.some.inj (hp.symm.trans hp')
  have hnot : ¬ s.Waits p := h.not_waits hlive hfind
  have hnerased : s.bworker ≠ .erased p := fun hpc => h.gone p hpc k hfind
  obtain ⟨-, hqueue, hentries⟩ := hcases.resolve_right fun hor => hor.1 (h.loc p he hp hnot hnerased)
  have hset : ∀ q, db.entry q =
      if q = p then some { he with val := { he.val with loc := .flushing } } else s.db.entry q :=
    fun q => by rw [KvDb.entry, hentries, KvDb.join_set (KvDb.lt_of_entry hp)]
  have hwaits : ∀ q, Server.Waits { s with db } q ↔ s.Waits q ∨ q = p := by
    intro q
    rw [Server.Waits, Server.Waits, hqueue, List.mem_append, List.mem_singleton]
    tauto
  have hfinds := (LruCache.find_evict hev).1
  have hent : Server.Entries { s with db } := by
    refine h.toEntries.congr (fun _ => Iff.rfl) hfinds fun q => ?_
    rw [KvDb.entry, hentries]
    exact KvDb.key_set hp _ q
  have hpending : ∀ k', s.Pending k' ∨ k' = k ↔ Server.Pending { s with db } k' := by
    intro k'
    constructor
    · rintro (⟨q, e, hw, hq, rfl⟩ | rfl)
      · have hqp : q ≠ p := fun heq => hnot (heq ▸ hw)
        exact ⟨q, e, (hwaits q).mpr (.inl hw), by rw [hset, if_neg hqp]; exact hq, rfl⟩
      · exact ⟨p, _, (hwaits p).mpr (.inr rfl), (hset p).trans (if_pos rfl), hkey⟩
    · rintro ⟨q, e, hw, hq, rfl⟩
      rw [hset] at hq
      split_ifs at hq with hqp
      · rw [← Option.some.inj hq]
        exact .inr hkey
      · exact .inl ⟨q, e, ((hwaits q).mp hw).resolve_right hqp, hq, rfl⟩
  refine ⟨⟨hent, hlru.congr hpending, ?_, fun q hq => ?_, fun q hq => ?_, fun q hq => ?_, fun q e hq hw hpc => ?_⟩,
    p, hqueue, congrArg LruCache.list hlist, hfinds⟩
  · rw [hqueue, List.nodup_append]
    refine ⟨h.nodup, List.nodup_singleton p, fun q hq q' hq' heq => ?_⟩
    rw [List.mem_singleton] at hq'
    exact hnot (.inl (by rw [← hq', ← heq]; exact hq))
  · rw [hqueue, List.mem_append, List.mem_singleton]
    rintro (hin | rfl)
    · exact h.inHand q hq hin
    · exact hnot (.inr hq)
  · rw [hqueue, List.mem_append, List.mem_singleton]
    rintro (hin | rfl)
    · exact h.erased q hq hin
    · exact hnerased hq
  · rw [hset]
    split_ifs with hqp
    · exact ⟨_, rfl⟩
    · exact h.alive q (((hwaits q).mp hq).resolve_right hqp)
  · rw [hset] at hq
    have hor := mt (hwaits q).mpr hw
    rw [not_or] at hor
    rw [if_neg hor.2] at hq
    exact h.loc q e hq hor.1 hpc

/-! ### The flush worker -/

/-- A step that leaves the entries and the LRU cache as they are, and all that waits. -/
theorem Server.Sound.stay (h : s.Sound) (hent : t.Entries) (hlru : t.db.memLRU = s.db.memLRU)
    (hentries : t.db.entries = s.db.entries) (hwaits : ∀ q, t.Waits q ↔ s.Waits q)
    (hsub : t.db.memQueue.Sublist s.db.memQueue) (hhand : ∀ q, t.bworker.inHand = some q → q ∉ t.db.memQueue)
    (hpc : ∀ q, t.bworker ≠ .erased q) (hpc' : ∀ q, s.bworker ≠ .erased q) : t.Sound := by
  have hsame : ∀ q, t.db.entry q = s.db.entry q := fun q => by rw [KvDb.entry, hentries]; rfl
  have hpending := Server.pending_congr hwaits fun q _ => congrArg (Option.map HashEntry.key) (hsame q)
  refine ⟨hent, hlru ▸ h.lru.congr hpending, h.nodup.sublist hsub, hhand, fun q hq => absurd hq (hpc q),
    fun q hq => ?_, fun q e hq hw _ => ?_⟩
  · obtain ⟨e, he⟩ := h.alive q ((hwaits q).mp hq)
    exact ⟨e, (hsame q).trans he⟩
  · exact h.loc q e ((hsame q).symm.trans hq) (fun hw' => hw ((hwaits q).mpr hw')) (hpc' q)

/-- **The key of the entry in hand** is erased, and does not wait any more. -/
theorem Server.Sound.erase (h : s.Sound) {he : HashEntry} (hin : s.bworker.inHand = some p) (hpc : ∀ q, s.bworker ≠ .erased q)
    (hp : s.db.entry p = some he)
    (hent : Server.Entries { s with db := { s.db with memLRU := s.db.memLRU.erase (cString he.key) }, bworker := .erased p }) :
    Server.Sound { s with db := { s.db with memLRU := s.db.memLRU.erase (cString he.key) }, bworker := .erased p } := by
  have hwaits : ∀ q, s.Waits q ↔ q ∈ s.db.memQueue ∨ q = p := by
    intro q
    rw [Server.Waits, hin, Option.some.injEq, @eq_comm _ p q]
  have hpending : ∀ k, (s.Pending k ∧ k ≠ cString he.key) ↔ Server.Pending
      { s with db := { s.db with memLRU := s.db.memLRU.erase (cString he.key) }, bworker := .erased p } k := by
    intro k
    constructor
    · rintro ⟨⟨q, e, hw, hq, rfl⟩, hne⟩
      rcases (hwaits q).mp hw with hqueue | rfl
      · exact ⟨q, e, .inl hqueue, hq, rfl⟩
      · exact absurd (congrArg (fun e => cString e.key) (Option.some.inj (hq.symm.trans hp))) hne
    · rintro ⟨q, e, hw, hq, rfl⟩
      have hqueue : q ∈ s.db.memQueue := hw.resolve_right fun hin' => by cases hin'
      have hw' : s.Waits q := .inl hqueue
      refine ⟨⟨q, e, hw', hq, rfl⟩, fun heq => ?_⟩
      have hfound := h.find_of_waits hw' hq
      rw [heq, h.find_of_waits (.inr hin) hp] at hfound
      exact h.inHand p hin (Option.some.inj hfound ▸ hqueue)
  refine ⟨hent, (h.lru.erase ⟨p, he, .inr hin, hp, rfl⟩).congr hpending, h.nodup, fun q hq => ?_,
    fun q hq => ?_, fun q hq => ?_, fun q e hq hw hne => ?_⟩
  · cases hq
  · obtain rfl := BworkerPc.erased.inj hq
    exact h.inHand p hin
  · exact h.alive q (.inl (hq.resolve_right fun hin' => by cases hin'))
  · have hqp : q ≠ p := fun heq => hne (congrArg BworkerPc.erased heq.symm)
    have hnot : ¬ s.Waits q := fun hw' => hw (.inl (((hwaits q).mp hw').resolve_right hqp))
    exact h.loc q e hq hnot (hpc q)

/-- **The erased entry is freed**: it does not wait, and no other one is touched. -/
theorem Server.Sound.unlock (h : s.Sound) (hpc : s.bworker = .erased p)
    (hent : Server.Entries { s with db := { s.db with entries := s.db.entries.set p none }, bworker := .waiting }) :
    Server.Sound { s with db := { s.db with entries := s.db.entries.set p none }, bworker := .waiting } := by
  have hnotin := h.erased p hpc
  have hentry : ∀ q, q ≠ p → (s.db.entries.set p none)[q]?.join = s.db.entry q := by
    intro q hq
    rw [List.getElem?_set, if_neg (Ne.symm hq)]
    rfl
  have hwaits : ∀ q, Server.Waits { s with db := { s.db with entries := s.db.entries.set p none }, bworker := .waiting } q ↔
      s.Waits q := by
    intro q
    rw [Server.Waits, Server.Waits, hpc]
    rfl
  have hne : ∀ q, s.Waits q → q ≠ p := by
    rintro q hw rfl
    rcases hw with hq | hin
    · exact hnotin hq
    · rw [hpc] at hin
      cases hin
  have hpending := Server.pending_congr hwaits fun q hq => by
    rw [KvDb.entry, hentry q (hne q hq)]
  refine ⟨hent, h.lru.congr hpending, h.nodup, fun q hq => ?_, fun q hq => ?_, fun q hq => ?_,
    fun q e hq hw _ => ?_⟩
  · cases hq
  · cases hq
  · obtain ⟨e, he⟩ := h.alive q ((hwaits q).mp hq)
    exact ⟨e, by rw [KvDb.entry, hentry q (hne q ((hwaits q).mp hq))]; exact he⟩
  · by_cases hqp : q = p
    · rw [KvDb.entry, hqp, List.getElem?_set, if_pos rfl] at hq
      split_ifs at hq <;> cases hq
    · rw [KvDb.entry, hentry q hqp] at hq
      refine h.loc q e hq (fun hw' => hw ((hwaits q).mpr hw')) ?_
      rw [hpc]
      exact fun heq => hqp (BworkerPc.erased.inj heq).symm

/-- **The flush worker** keeps the invariant: a key waits until it is erased. -/
theorem Server.Sound.bworker (h : s.Sound) {a : BworkerAct} (hs : BworkerStep crc mode s a t) : t.Sound := by
  have hent := h.toEntries.bworker hs
  cases hs with
  | @dequeue p queue hpc hq =>
    have hnodup := h.nodup
    rw [hq, List.nodup_cons] at hnodup
    refine h.stay hent rfl rfl (fun q => ?_) (by rw [hq]; exact List.sublist_cons_self p queue) (fun q hin => ?_)
      (fun q => by simp) (fun q => by simp [hpc])
    · simp only [Server.Waits, hpc, hq, BworkerPc.inHand, List.mem_cons, Option.some.injEq, reduceCtorEq, or_false]
      exact ⟨fun hor => hor.elim .inr fun heq => .inl heq.symm, fun hor => hor.elim (fun heq => .inr heq.symm) .inl⟩
    · obtain rfl := Option.some.inj hin
      exact hnodup.1
  | @read p he hpc hp =>
    exact h.stay hent rfl rfl (fun q => by rw [Server.Waits, Server.Waits, hpc]; rfl) (List.Sublist.refl _)
      (fun q hin => h.inHand q (by rw [hpc]; exact hin)) (fun q => by simp) (fun q => by simp [hpc])
  | @lock p v hpc =>
    exact h.stay hent rfl rfl (fun q => by rw [Server.Waits, Server.Waits, hpc]; rfl) (List.Sublist.refl _)
      (fun q hin => h.inHand q (by rw [hpc]; exact hin)) (fun q => by simp) (fun q => by simp [hpc])
  | @insert p v he writes r flashCache hpc hp hr =>
    exact h.stay hent rfl rfl (fun q => by rw [Server.Waits, Server.Waits, hpc]; rfl) (List.Sublist.refl _)
      (fun q hin => h.inHand q (by rw [hpc]; exact hin)) (fun q => by simp) (fun q => by simp [hpc])
  | erase hpc hp => exact h.erase (by rw [hpc]; rfl) (fun q => by simp [hpc]) hp hent
  | unlock hpc => exact h.unlock hpc hent

/-! ### Runs -/

/-- **The condition**: no command is for a key that waits for the flush, and nothing is
evicted while all keys in memory wait. -/
def ServerAct.Clear (s : Server) : ServerAct → Prop
  | .set key _ | .get key _ => ¬ s.Pending (cString key)
  | .evict => ∃ key, s.db.memLRU.find key ≠ none ∧ ¬ s.Pending key
  | _ => True

/-- **Every step that meets the condition keeps the invariant.** -/
theorem ServerStep.sound {a : ServerAct} (hs : ServerStep crc mode d s a t) (ha : a.Clear s) (h : s.Sound) :
    t.Sound := by
  cases hs with
  | set hfree hr =>
    obtain ⟨heffect, hqueue⟩ := KvDb.setCommand_effect hr
    exact h.effect ha hfree heffect (hqueue.trans (KvDb.memQueue_touch _ _ _))
  | get hfree hr =>
    obtain ⟨heffect, hqueue⟩ := KvDb.getCommand_effect hr
    exact h.effect ha hfree heffect (hqueue.trans (KvDb.memQueue_touch _ _ _))
  | block => exact { h with toEntries := ⟨h.found, h.kept, h.gone⟩ }
  | evict hr => exact (h.evict hr).1
  | bworker hb => exact h.bworker hb
  | writer hf hw => exact { h with toEntries := ⟨h.found, h.kept, h.gone⟩ }

/-- The keys that do not wait have nodes, and only they. -/
theorem Server.Sound.list_ne_nil (h : s.Sound) :
    s.db.memLRU.list ≠ [] ↔ ∃ key, s.db.memLRU.find key ≠ none ∧ ¬ s.Pending key := by
  constructor
  · intro hne
    obtain ⟨⟨n, k⟩, hmem⟩ := List.exists_mem_of_ne_nil _ hne
    obtain ⟨hlive, v, hv⟩ := h.lru.entry n k hmem
    exact ⟨k, by rw [Ne, LruCache.find_eq_none, hv]; simp, hlive⟩
  · rintro ⟨key, hfind, hlive⟩
    obtain ⟨p, hp⟩ := Option.ne_none_iff_exists'.mp hfind
    obtain ⟨n, hn⟩ := LruCache.find_eq_some.mp hp
    exact List.ne_nil_of_mem (h.lru.node key p n hn hlive)

/-- **A step that uses no node that is gone meets the condition.** -/
theorem ServerStep.clear {a : ServerAct} (hs : ServerStep crc mode .undefined s a t) (h : s.Sound) : a.Clear s := by
  have command : ∀ {key : Bytes} {w : Option Bytes} {db : KvDb}, MemEffect s.db key w db →
      ¬ s.Pending (cString key) := by
    intro key w db he hp
    have hfind := h.find_ne_none hp
    cases he with
    | used _ hget _ => exact hfind (h.lru.find_of_get hget hp)
    | replaced _ _ hget _ _ => exact hfind (h.lru.find_of_get hget hp)
    | added hnone _ _ => exact hfind hnone
    | missed hnone _ _ => exact hfind hnone
  cases hs with
  | set hfree hr => exact command (KvDb.setCommand_effect hr).1
  | get hfree hr => exact command (KvDb.getCommand_effect hr).1
  | evict hr =>
    obtain ⟨p, he, hev, -⟩ := KvDb.evictOne_effect hr
    apply h.list_ne_nil.mp
    intro hnil
    rw [LruCache.evict, hnil] at hev
    cases hev
  | block | bworker | writer => trivial

/-- **No node that is gone is used**: in every state reached by steps that meet the
condition, the keys of the nodes are distinct and in the map, the iterator of a key
denotes its node exactly if the key does not wait for the flush, and there is a node to
evict exactly if not all keys wait. -/
theorem reach_live {flashCache : FlashCache}
    (h : Reach (ServerStep crc mode d) (fun s a => a.Clear s) (.start flashCache) s) :
    (s.db.memLRU.list.map Prod.snd).Nodup ∧
      (∀ n k, (n, k) ∈ s.db.memLRU.list → ∃ p, s.db.memLRU.map.lookup k = some (p, n)) ∧
      (∀ k p n, s.db.memLRU.map.lookup k = some (p, n) → ((n, k) ∈ s.db.memLRU.list ↔ ¬ s.Pending k)) ∧
      (s.db.memLRU.list ≠ [] ↔ ∃ k, s.db.memLRU.find k ≠ none ∧ ¬ s.Pending k) := by
  have hs : s.Sound := by
    apply h.invariant (P := Server.Sound) (Server.sound_start _)
    intro s a t hs ha hstep
    exact hstep.sound ha hs
  refine ⟨hs.lru.keys_nodup, fun n k hmem => (hs.lru.entry n k hmem).2, fun k p n hk => ⟨fun hmem => ?_, ?_⟩,
    hs.list_ne_nil⟩
  · exact (hs.lru.entry n k hmem).1
  · exact hs.lru.node k p n hk

/-- A key that is set, evicted, flushed and set again. -/
theorem reach_live_again : ∃ s : Server, s.db.memLRU.map.lookup [97] = some (1, 1) ∧
    ((1, [97]) ∈ s.db.memLRU.list ↔ ¬ s.Pending [97]) := by
  have h0 := Reach.refl (R := ServerStep (fun _ => 0) .direct .undefined) (C := fun s a => a.Clear s)
    (.start (.openEmpty ⟨20, 0, 1000⟩ 0))
  have idle : ∀ (db : KvDb) (key : Bytes), db.memQueue = [] → ¬ Server.Pending { db } key := by
    rintro db key hq ⟨p, he, hw | hin, -⟩
    · rw [hq] at hw
      cases hw
    · cases hin
  have h1 := h0.step (a := ServerAct.set [97] [1]) (idle _ _ rfl) (.set rfl rfl rfl)
  have h2 := h1.step (a := ServerAct.evict) ⟨[97], Option.some_ne_none 0, idle _ _ rfl⟩ (.evict rfl)
  have h3 := h2.step (a := ServerAct.bworker .dequeue) trivial (.bworker (.dequeue rfl rfl))
  have h4 := h3.step (a := ServerAct.bworker .read) trivial (.bworker (.read rfl rfl))
  have h5 := h4.step (a := ServerAct.bworker .lock) trivial (.bworker (.lock rfl rfl))
  have h6 := h5.step (a := ServerAct.bworker (.insert 0)) trivial (.bworker (.insert rfl rfl
    (show FlashCache.insert (fun _ => 0) .direct [.moved 99] _ [97] [1] = .ok (0, _) from rfl)))
  have h7 := h6.step (a := ServerAct.bworker .erase) trivial (.bworker (.erase rfl rfl))
  have h8 := h7.step (a := ServerAct.bworker .unlock) trivial (.bworker (.unlock rfl))
  have h9 := h8.step (a := ServerAct.set [97] [2]) (idle _ _ rfl) (.set rfl rfl rfl)
  exact ⟨_, rfl, (reach_live h9).2.2.1 [97] 1 1 rfl⟩

/-- A key that is evicted is still in the map, and its iterator denotes no node: using
the key again is undefined. -/
theorem dead_node_used : ∃ s : Server,
    Reach (ServerStep (fun _ => 0) .direct .undefined) Always (.start (.openEmpty ⟨20, 0, 1000⟩ 0)) s ∧
      s.db.memLRU.find [97] = some 0 ∧ s.db.memLRU.get [97] = .error .undefined := by
  have h0 := Reach.refl (R := ServerStep (fun _ => 0) .direct .undefined) (C := Always)
    (.start (.openEmpty ⟨20, 0, 1000⟩ 0))
  have h1 := h0.step (a := ServerAct.set [97] [1]) trivial (.set rfl rfl rfl)
  have h2 := h1.step (a := ServerAct.evict) trivial (.evict rfl)
  exact ⟨_, h2, rfl, rfl⟩

end EmbeddedKv.Tiers
