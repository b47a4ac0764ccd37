import EmbeddedKv.Tiers.Window

/-!
# The memory tier alone

As long as nothing is evicted, the flush worker has nothing to do and no key is in flash.
The memory tier is a map from zero-terminated strings to values then: `setCommand` writes
the value under the string that the key is read as, and `getCommand` returns what is under
it (`Server.Unevicted.value_set`, `Server.Unevicted.getCommand_cases`).
-/

namespace EmbeddedKv.Tiers

open EmbeddedKv.Library EmbeddedKv.Flash EmbeddedKv.Store

variable {crc : Bytes → UInt32} {mode : FlashcacheMode} {d : DeadNode} {s t : Server} {db : KvDb} {key val : Bytes}
  {opt : FlashCacheConfig} {size : UInt64}

/-- The value under a string in memory. -/
def KvDb.value (s : KvDb) (k : Bytes) : Option Bytes :=
  (s.memLRU.find k).bind fun p => (s.entry p).map fun he => he.val.ptr

/-- **Nothing was evicted.** -/
structure Server.Unevicted (s : Server) : Prop extends s.Sound where
  /-- The flush worker waits. -/
  waiting : s.bworker = .waiting
  /-- No entry is queued. -/
  queue : s.db.memQueue = []
  /-- No key is in flash. -/
  index : ∀ key, s.db.flashCache.metadata.lookup key = none

theorem Server.unevicted_start (opt : FlashCacheConfig) (size : UInt64) :
    (start (.openEmpty opt size)).Unevicted where
  toSound := sound_start _
  waiting := rfl
  queue := rfl
  index _ := rfl

/-- No key waits for the flush. -/
theorem Server.Unevicted.not_pending (h : s.Unevicted) (k : Bytes) : ¬ s.Pending k := by
  rintro ⟨p, he, hq | hin, -⟩
  · rw [h.queue] at hq
    cases hq
  · rw [h.waiting] at hin
    cases hin

/-- The flush worker has nothing to do. -/
theorem Server.Unevicted.not_bworker (h : s.Unevicted) {a : BworkerAct} : ¬ BworkerStep crc mode s a t := by
  intro hs
  cases hs with
  | dequeue _ hq =>
    rw [h.queue] at hq
    cases hq
  | read hpc | lock hpc | insert hpc | erase hpc | unlock hpc =>
    rw [h.waiting] at hpc
    cases hpc

/-! ### The values -/

theorem KvDb.value_of_find {s : KvDb} {k : Bytes} {p : ℕ} (hf : s.memLRU.find k = some p) :
    s.value k = (s.entry p).map fun he => he.val.ptr := by
  rw [value, hf, Option.bind_some]

theorem KvDb.value_of_find_none {s : KvDb} {k : Bytes} (hf : s.memLRU.find k = none) : s.value k = none := by
  rw [value, hf, Option.bind_none]

/-- A key has a value if it has an entry. -/
theorem Server.Unevicted.find_eq_none (h : s.Unevicted) (k : Bytes) : s.db.memLRU.find k = none ↔ s.db.value k = none := by
  constructor
  · exact KvDb.value_of_find_none
  · intro hv
    by_contra hne
    obtain ⟨p, hp⟩ := Option.ne_none_iff_exists'.mp hne
    obtain ⟨he, hhe, -⟩ := h.found k p hp
    rw [KvDb.value_of_find hp, hhe] at hv
    cases hv

/-- A key is looked up. -/
theorem Server.Unevicted.get (h : s.Unevicted) (k : Bytes) :
    ∃ lru, s.db.memLRU.get k = .ok (s.db.memLRU.find k, lru) ∧ ∀ j, lru.find j = s.db.memLRU.find j := by
  obtain ⟨lru, hget, -, hfind⟩ := h.lru.get fun hp => absurd hp (h.not_pending k)
  exact ⟨lru, hget, hfind⟩

/-- **SET** writes the value under the string that the key is read as. -/
theorem Server.Unevicted.value_set (h : s.Unevicted) (key val : Bytes) :
    ∃ db, s.db.setCommand key val = .ok db ∧ db.flashCache = s.db.flashCache ∧
      ∀ k, db.value k = if k = cString key then some val else s.db.value k := by
  obtain ⟨lru, hget, hfind⟩ := h.get (cString key)
  unfold KvDb.setCommand KvDb.cacheAdd
  rw [hget]
  cases hf : s.db.memLRU.find (cString key) with
  | none =>
    refine ⟨_, rfl, rfl, fun k => ?_⟩
    have hnew : (lru.insert (cString key) s.db.entries.length).find k =
        if k = cString key then some s.db.entries.length else s.db.memLRU.find k := by
      rw [LruCache.find_insert, hfind, hfind, hf, Option.getD_none]
    split_ifs with hk
    · rw [if_pos hk] at hnew
      rw [KvDb.value_of_find hnew]
      simp [KvDb.entry, createObject]
    · rw [if_neg hk] at hnew
      cases hfk : s.db.memLRU.find k with
      | none => rw [KvDb.value_of_find_none (hnew.trans hfk), KvDb.value_of_find_none hfk]
      | some q =>
        obtain ⟨he, hq, -⟩ := h.found k q hfk
        rw [KvDb.value_of_find (hnew.trans hfk), KvDb.value_of_find hfk, KvDb.entry,
          List.getElem?_append_left (KvDb.lt_of_entry hq)]
        rfl
  | some p =>
    obtain ⟨he, hp, hkey⟩ := h.found _ p hf
    simp only [hp]
    refine ⟨_, rfl, rfl, fun k => ?_⟩
    split_ifs with hk
    · rw [KvDb.value_of_find ((hfind k).trans (hk ▸ hf)), KvDb.entry, KvDb.join_set (KvDb.lt_of_entry hp), if_pos rfl]
      rfl
    · cases hfk : s.db.memLRU.find k with
      | none => rw [KvDb.value_of_find_none ((hfind k).trans hfk), KvDb.value_of_find_none hfk]
      | some q =>
        obtain ⟨he', hq, hkey'⟩ := h.found k q hfk
        -- another string has another entry
        have hqp : q ≠ p := by
          rintro rfl
          obtain rfl := Option.some.inj (hp.symm.trans hq)
          exact hk (hkey'.symm.trans hkey)
        rw [KvDb.value_of_find ((hfind k).trans hfk), KvDb.value_of_find hfk, KvDb.entry,
          KvDb.join_set (KvDb.lt_of_entry hp), if_neg hqp]

variable (crc mode) in
/-- **GET** returns the value under the string that the key is read as. If there is none it
looks into the flash cache, and leaves `fcache_mutex` locked. -/
theorem Server.Unevicted.getCommand_cases (h : s.Unevicted) (env : Environment) (key : Bytes) :
    (∃ val lru, s.db.value (cString key) = some val ∧
      s.db.getCommand crc mode env key = .ok (some val, { s.db with memLRU := lru })) ∨
    (s.db.value (cString key) = none ∧ s.db.flashCache.fcacheMutex = true ∧
      s.db.getCommand crc mode env key = .error .blocked) ∨
    ∃ lru, s.db.value (cString key) = none ∧ s.db.flashCache.fcacheMutex = false ∧
      s.db.getCommand crc mode env key =
        .ok (none, { s.db with memLRU := lru, flashCache := { s.db.flashCache with fcacheMutex := true } }) := by
  obtain ⟨lru, hget, -⟩ := h.get (cString key)
  unfold KvDb.getCommand
  rw [hget]
  cases hf : s.db.memLRU.find (cString key) with
  | some p =>
    obtain ⟨he, hp, -⟩ := h.found _ p hf
    refine .inl ⟨he.val.ptr, lru, ?_, by simp only [hp]⟩
    rw [KvDb.value_of_find hf, hp]
    rfl
  | none =>
    have hnone := KvDb.value_of_find_none hf
    cases hm : s.db.flashCache.fcacheMutex with
    | true => exact .inr (.inl ⟨hnone, rfl, by simp [FlashCache.lookup, hm]⟩)
    | false => exact .inr (.inr ⟨lru, hnone, rfl, by simp [FlashCache.lookup, hm, h.index]⟩)

/-! ### Runs -/

/-- **Steps that evict nothing** keep the invariant. -/
theorem ServerStep.unevicted {a : ServerAct} (hs : ServerStep crc mode d s a t) (ha : a ≠ .evict) (h : s.Unevicted) :
    t.Unevicted := by
  have hclear : a.Clear s := by
    cases a with
    | set | get => exact h.not_pending _
    | evict => exact absurd rfl ha
    | block | bworker | writer => trivial
  have hsound := hs.sound hclear h.toSound
  cases hs with
  | @set db key val hfree hr =>
    obtain ⟨db', hr', hflash, -⟩ := h.value_set key val
    have hqueue := (KvDb.setCommand_effect hr).2
    rw [h.touch_eq (h.not_pending _)] at hr hqueue
    obtain rfl := Except.ok.inj (hr.symm.trans hr')
    exact ⟨hsound, h.waiting, hqueue.trans h.queue, fun k => hflash ▸ h.index k⟩
  | @get db key env r hfree hr =>
    have hqueue := (KvDb.getCommand_effect hr).2
    rw [h.touch_eq (h.not_pending _)] at hr hqueue
    refine ⟨hsound, h.waiting, hqueue.trans h.queue, fun k => ?_⟩
    obtain ⟨val, lru, -, heq⟩ | ⟨-, -, heq⟩ | ⟨lru, -, -, heq⟩ := h.getCommand_cases crc mode env key
    · cases hr.symm.trans heq
      exact h.index k
    · cases hr.symm.trans heq
    · cases hr.symm.trans heq
      exact h.index k
  | block => exact ⟨hsound, h.waiting, h.queue, h.index⟩
  | evict => exact absurd rfl ha
  | bworker hb => exact absurd hb h.not_bworker
  | writer => exact ⟨hsound, h.waiting, h.queue, h.index⟩

/-- **In every state reached without evictions** nothing was evicted. -/
theorem reach_unevicted (h : Reach (ServerStep crc mode d) (fun _ a => a ≠ .evict) (.start (.openEmpty opt size)) s) :
    s.Unevicted := by
  refine h.invariant (P := Server.Unevicted) (Server.unevicted_start opt size) ?_
  intro s a t hs ha hstep
  exact hstep.unevicted ha hs

end EmbeddedKv.Tiers
