import EmbeddedKv.Store.Recency
import EmbeddedKv.Tiers.Flush

/-!
# Which entry is evicted

The memory tier as an LRU cache: SET and GET of a key use it, whether it is in memory, comes
back from flash, or is new.

## What is proved

`evicts_least_used`: whatever was done before, the key that `memUsedCheck` evicts is the one of
the keys in memory whose last SET or GET is the longest ago, and it is the only key that leaves
memory. For this the list of `memLRU` is kept in the order of use (`InOrder`), one lemma for
each command.
-/

namespace EmbeddedKv.Tiers

open EmbeddedKv.Library EmbeddedKv.Flash EmbeddedKv.Store

variable {crc : Bytes → UInt32} {mode : FlashcacheMode} {s s' : KvDb} {key : Bytes} {w : Option Bytes}
  {acts : List KvAct} {us : List (Option Bytes)}

/-- The key that an action uses. -/
def KvAct.uses : KvAct → Option Bytes
  | .set key _ | .get key _ => some (cString key)
  | _ => none

/-- **The time of the last SET or GET of a key.** -/
def lastUsed (acts : List KvAct) (key : Bytes) : ℕ := UsedMap.lastUse (acts.map KvAct.uses) key

/-- **The memory tier is in the order of use.** -/
structure InOrder (us : List (Option Bytes)) (s : KvDb) : Prop where
  /-- The entries of the keys. -/
  entries : Server.Entries ⟨s, .waiting, false⟩
  /-- Nothing waits for the flush. -/
  queue : s.memQueue = []
  /-- The list has the keys by last use. -/
  order : ∃ m : UsedMap Bytes ℕ, s.memLRU.Ordered m ∧ m.Dated us

theorem inOrder_start (flashCache : FlashCache) : InOrder [] { flashCache } where
  entries := Server.entries_start flashCache
  queue := rfl
  order := ⟨.after [], LruCache.ordered_empty, rfl, by simp [UsedMap.after]⟩

/-- **SET and GET** use their key. -/
theorem InOrder.effect (h : InOrder us s) (he : MemEffect s key w s') (hq : s'.memQueue = s.memQueue) :
    InOrder (us ++ [some (cString key)]) s' := by
  refine ⟨h.entries.effect (d := .undefined) rfl he, hq.trans h.queue, ?_⟩
  obtain ⟨m, hm, hdate⟩ := h.order
  -- a key that is found has a time
  have hused : ∀ p, s.memLRU.find (cString key) = some p → ∃ t, m.entry (cString key) = some (p, t) := by
    intro p hp
    rw [hm.find] at hp
    obtain ⟨⟨v, t⟩, ht, rfl⟩ := Option.map_eq_some_iff.mp hp
    exact ⟨t, ht⟩
  have hunused : s.memLRU.find (cString key) = none → m.entry (cString key) = none := fun hnone =>
    hm.entry_eq_none.mpr (LruCache.find_eq_none.mp hnone)
  cases he with
  | used hfind hget hentries =>
    obtain ⟨t, ht⟩ := hused _ hfind
    refine ⟨_, hm.get hget, ?_⟩
    rw [UsedMap.step, ht]
    exact hdate.use _ _
  | replaced hw hfind hget hp hentries =>
    obtain ⟨t, ht⟩ := hused _ hfind
    refine ⟨_, hm.get hget, ?_⟩
    rw [UsedMap.step, ht]
    exact hdate.use _ _
  | added hfind hlru hentries =>
    rw [hlru]
    refine ⟨_, hm.insert _ _, ?_⟩
    rw [UsedMap.step, hunused hfind]
    exact hdate.use _ _
  | missed hfind hlru hentries =>
    rw [hlru]
    refine ⟨m.tick, ⟨hm.linked, hm.find, hm.recent.tick⟩, hdate.tick fun k hk => ?_⟩
    rw [← Option.some.inj hk]
    exact hunused hfind

/-- What has nothing to do with the memory tier uses no key. -/
theorem InOrder.flashCache (h : InOrder us s) (flashCache : FlashCache) :
    InOrder (us ++ [none]) { s with flashCache } := by
  obtain ⟨m, hm, hdate⟩ := h.order
  exact ⟨h.entries.congr (fun _ => Iff.rfl) (fun _ => rfl) fun _ => rfl, h.queue, m.tick,
    ⟨hm.linked, hm.find, hm.recent.tick⟩, hdate.tick (by simp)⟩

/-- The flush worker keeps the entries, however many steps it takes. -/
theorem Server.Entries.bworkers {t u : Server} (h : t.Entries)
    (hs : Relation.ReflTransGen (fun t u => ∃ a, BworkerStep crc mode t a u) t u) : u.Entries := by
  induction hs with
  | refl => exact h
  | tail _ hs ih =>
    obtain ⟨a, ha⟩ := hs
    exact ih.bworker ha

/-- **Eviction and flush** take the key out that was used least recently. -/
theorem InOrder.evictFlush (h : InOrder us s) {s₁ s₂ : KvDb} {writes : List IoResult}
    (hkey : s.memLRU.list.getLast?.map Prod.snd = some key) (hevict : s.evictEntry = .ok s₁)
    (hflush : s₁.flush crc mode writes = .ok s₂) :
    InOrder (us ++ [none]) s₂ ∧ (∀ k, s₂.memLRU.find k = if k = key then none else s.memLRU.find k) ∧
      s.memLRU.find key ≠ none ∧ 0 < UsedMap.lastUse us key ∧
      ∀ k, s.memLRU.find k ≠ none → k ≠ key → UsedMap.lastUse us key < UsedMap.lastUse us k := by
  obtain ⟨m, hm, hdate⟩ := h.order
  have hne : s.memLRU.list ≠ [] := by
    intro hnil
    rw [hnil] at hkey
    cases hkey
  obtain ⟨k, p, lru, hpop, hlast, hfind, -, hrest⟩ := hm.linked.evict hne
  obtain rfl : key = k := Option.some.inj (hkey.symm.trans hlast)
  obtain ⟨he, hentry, hname⟩ := h.entries.found key p hfind
  obtain ⟨hold, hordered⟩ := hm.evict hkey hpop
  -- nothing is flushed if nothing was queued
  have hempty : ∀ t : KvDb, t.memQueue = [] → t.flush crc mode writes ≠ .ok s₂ := by
    intro t ht hr
    rw [KvDb.flush, ht] at hr
    cases hr
  rw [KvDb.evictEntry_eq] at hevict
  split_ifs at hevict with hsize
  · cases hevict
    exact absurd hflush (hempty s h.queue)
  obtain ⟨q, he', hpop', hentry', hcache, ⟨-, hqueue, hentries⟩ | ⟨-, hqueue, -⟩⟩ := KvDb.evictOne_effect hevict
  · obtain ⟨rfl, hlru⟩ := Prod.mk.inj (Except.ok.inj (hpop.symm.trans hpop'))
    obtain rfl := Option.some.inj (hentry.symm.trans hentry')
    have hstep : ServerStep crc mode .undefined ⟨s, .waiting, false⟩ .evict ⟨s₁, .waiting, false⟩ := .evict hevict
    have hevicted : Server.Entries ⟨s₁, .waiting, false⟩ := hstep.entries h.entries
    have hflushed : s₂.memQueue = [] ∧ s₂.memLRU = lru.erase key := by
      have hhead : s₁.entry p = some { he with val := { he.val with loc := .flushing } } := by
        rw [KvDb.entry, hentries, KvDb.join_set (KvDb.lt_of_entry hentry), if_pos rfl]
      rw [KvDb.flush, hqueue, h.queue, List.nil_append] at hflush
      simp only [hhead, hname] at hflush
      split at hflush
      · cases hflush
      · cases hflush
        rw [hlru]
        exact ⟨rfl, rfl⟩
    obtain ⟨hqueue₂, hlru₂⟩ := hflushed
    obtain ⟨hused, holder⟩ := hdate.oldest hold
    refine ⟨⟨hevicted.bworkers (flush_steps hflush), hqueue₂, _, ?_, hdate.forget key⟩, fun k => ?_, by simp [hfind], hused,
      fun k hk => holder k ?_⟩
    · rw [hlru₂]
      exact hordered
    · rw [hlru₂]
      exact hrest k
    · rw [← hm.find]
      exact hk
  · exact absurd hflush (hempty s₁ (hqueue.trans h.queue))

/-! ### Runs -/

/-- **One action.** -/
theorem KvStep.inOrder {a : KvAct} (hs : KvStep crc mode s a s') (h : InOrder us s) : InOrder (us ++ [a.uses]) s' := by
  cases hs with
  | set hr =>
    obtain ⟨heffect, hq⟩ := KvDb.setCommand_effect hr
    exact h.effect heffect hq
  | get hr =>
    obtain ⟨heffect, hq⟩ := KvDb.getCommand_effect hr
    exact h.effect heffect hq
  | evictFlush hkey hevict hflush => exact (h.evictFlush hkey hevict hflush).1
  | writer hf hw => exact h.flashCache _

/-- **Every run.** -/
theorem run_inOrder {C : List KvAct → KvDb → KvAct → Prop} {flashCache : FlashCache}
    (h : Run (KvStep crc mode) C { flashCache } acts s) : InOrder (acts.map KvAct.uses) s := by
  refine h.invariant (P := fun acts s => InOrder (acts.map KvAct.uses) s) (inOrder_start flashCache) ?_
  intro acts s a s' ih _ hs
  rw [List.map_append]
  exact hs.inOrder ih

/-- **The least recently used key is evicted**: after any commands, evictions and flushes on any
flash cache, when an entry is evicted and flushed, its key is in memory and was used, the last
SET or GET of it was before that of every other key in memory, and no other key leaves memory. -/
theorem evicts_least_used {C : List KvAct → KvDb → KvAct → Prop} {flashCache : FlashCache}
    (h : Run (KvStep crc mode) C { flashCache } acts s) (hs : KvStep crc mode s (.evictFlush key) s') :
    s.memLRU.find key ≠ none ∧ 0 < lastUsed acts key ∧
      (∀ k, s.memLRU.find k ≠ none → k ≠ key → lastUsed acts key < lastUsed acts k) ∧
      ∀ k, s'.memLRU.find k = if k = key then none else s.memLRU.find k := by
  cases hs with
  | evictFlush hkey hevict hflush =>
    obtain ⟨-, hleft, hfound, hused, holder⟩ := (run_inOrder h).evictFlush hkey hevict hflush
    exact ⟨hfound, hused, holder, hleft⟩

/-- Two keys are set, and the first one is read: the second one is evicted. -/
theorem evicts_least_used_read : ∃ s s' : KvDb, KvStep (fun _ => 0) .direct s (.evictFlush [98]) s' ∧
    s.memLRU.find [97] ≠ none ∧ s'.memLRU.find [97] = s.memLRU.find [97] ∧ s'.memLRU.find [98] = none := by
  have h0 := Run.nil (R := KvStep (fun _ => 0) .direct) (C := fun _ _ _ => True)
    { flashCache := .openEmpty ⟨20, 0, 1000⟩ 0 }
  have h1 := h0.snoc (a := KvAct.set [97] [1]) trivial (KvStep.set rfl)
  have h2 := h1.snoc (a := KvAct.set [98] [2]) trivial (KvStep.set rfl)
  have h3 := h2.snoc (a := KvAct.get [97] ⟨[], [], false, []⟩) trivial
    (KvStep.get (show KvDb.getCommand (fun _ => 0) .direct ⟨[], [], false, []⟩ _ [97] = .ok (some [1], _) from rfl))
  obtain ⟨s, h, hmem, s', hs⟩ : ∃ s, Run (KvStep (fun _ => 0) .direct) (fun _ _ _ => True)
      { flashCache := .openEmpty ⟨20, 0, 1000⟩ 0 } _ s ∧ s.memLRU.find [97] ≠ none ∧
      ∃ s', KvStep (fun _ => 0) .direct s (.evictFlush [98]) s' :=
    ⟨_, h3, by decide, _,
      KvStep.evictFlush rfl rfl (show KvDb.flush (fun _ => 0) .direct [.moved 99] _ = .ok _ from rfl)⟩
  obtain ⟨-, -, -, hleft⟩ := evicts_least_used h hs
  exact ⟨s, s', hs, hmem, (hleft [97]).trans (if_neg (by decide)), (hleft [98]).trans (if_pos rfl)⟩

end EmbeddedKv.Tiers
