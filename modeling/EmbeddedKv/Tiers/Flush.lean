import EmbeddedKv.Tiers.Server

/-!
# What the flush writes

The flush worker reads the value of an entry before it locks the mutex, and frees the
entry under the mutex; SET may give the entry a new value in between, which is then
lost.

## What is proved

`reach_flush_value`: in every flush the value written is the one that the entry has
when it is erased, in runs in which no SET changes the value of a key while the worker
has read it and has not got the mutex yet. `set_lost` shows that the condition is
needed.
-/

namespace EmbeddedKv.Tiers

open EmbeddedKv.Library EmbeddedKv.Flash EmbeddedKv.Store

variable {crc : Bytes → UInt32} {mode : FlashcacheMode} {d : DeadNode} {s t : Server} {db : KvDb}
  {key : Bytes} {p : ℕ}

/-! ### The entries -/

/-- **The map has the entries**: the pointer of a key denotes an entry of this key, and
an entry that is not freed is the one of its key, or has just been erased. -/
structure Server.Entries (s : Server) : Prop where
  /-- The pointer of a key denotes its entry. -/
  found : ∀ key p, s.db.memLRU.find key = some p → ∃ he, s.db.entry p = some he ∧ cString he.key = key
  /-- An entry is found under its key. -/
  kept : ∀ p he, s.db.entry p = some he → s.bworker ≠ .erased p → s.db.memLRU.find (cString he.key) = some p
  /-- An erased entry is not found. -/
  gone : ∀ p, s.bworker = .erased p → ∀ key, s.db.memLRU.find key ≠ some p

theorem Server.entries_start (flashCache : FlashCache) : (start flashCache).Entries where
  found key p h := by simp [start] at h
  kept p he h := by simp [start, KvDb.entry] at h
  gone p h := by simp [start] at h

/-- Entries that only have other values. -/
theorem Server.Entries.congr (h : s.Entries) (hpc : ∀ p, t.bworker = .erased p ↔ s.bworker = .erased p)
    (hfind : ∀ k, t.db.memLRU.find k = s.db.memLRU.find k)
    (hentry : ∀ p, (t.db.entry p).map HashEntry.key = (s.db.entry p).map HashEntry.key) : t.Entries where
  found := by
    intro key p hp
    rw [hfind] at hp
    obtain ⟨he, hhe, hkey⟩ := h.found key p hp
    have hsame := hentry p
    rw [hhe, Option.map_some] at hsame
    obtain ⟨he', hhe', hkey'⟩ := Option.map_eq_some_iff.mp hsame
    exact ⟨he', hhe', by rw [hkey', hkey]⟩
  kept := by
    intro p he hp hne
    have hsame := hentry p
    rw [hp, Option.map_some] at hsame
    obtain ⟨he', hhe', hkey'⟩ := Option.map_eq_some_iff.mp hsame.symm
    rw [hfind, ← hkey']
    exact h.kept p he' hhe' fun heq => hne ((hpc p).mpr heq)
  gone := by
    intro p hp key
    rw [hfind]
    exact h.gone p ((hpc p).mp hp) key

/-- An entry that gets another value keeps its key. -/
theorem KvDb.key_set {s : KvDb} {he : HashEntry} (hp : s.entry p = some he) (val : KvObject) (q : ℕ) :
    ((s.entries.set p (some { he with val }))[q]?.join).map HashEntry.key = (s.entry q).map HashEntry.key := by
  rw [KvDb.join_set (KvDb.lt_of_entry hp)]
  split_ifs with hq
  · rw [hq, hp]
    rfl
  · rfl

/-- **Commands keep the entries.** -/
theorem Server.Entries.effect (h : s.Entries) (hfree : s.bworker.holdsMutex = false) {w : Option Bytes}
    (he : MemEffect (s.db.touch d key) key w db) : Server.Entries { s with db } := by
  cases he with
  | used hfind hget hentries =>
    refine h.congr (fun _ => Iff.rfl) (fun k => ?_) fun q => ?_
    · rw [LruCache.find_get hget, KvDb.find_touch]
    · rw [KvDb.entry, hentries, KvDb.entries_touch]
      rfl
  | @replaced p he val hw hfind hget hp hentries =>
    refine h.congr (fun _ => Iff.rfl) (fun k => ?_) fun q => ?_
    · rw [LruCache.find_get hget, KvDb.find_touch]
    · rw [KvDb.entry, hentries, KvDb.entries_touch]
      rw [KvDb.entry_touch] at hp
      exact KvDb.key_set hp _ q
  | missed hfind hlru hentries =>
    refine h.congr (fun _ => Iff.rfl) (fun k => ?_) fun q => ?_
    · rw [hlru, KvDb.find_touch]
    · rw [KvDb.entry, hentries, KvDb.entries_touch]
      rfl
  | @added val hfind hlru hentries =>
    rw [KvDb.find_touch] at hfind
    rw [KvDb.entries_touch] at hlru hentries
    have hnew : ∀ k, db.memLRU.find k =
        if k = cString key then some s.db.entries.length else s.db.memLRU.find k := by
      intro k
      rw [hlru, LruCache.find_insert, KvDb.find_touch, KvDb.find_touch, hfind, Option.getD_none]
    have hentry : ∀ q, db.entry q = if q = s.db.entries.length then some ⟨key, createObject val⟩ else s.db.entry q := by
      intro q
      rw [KvDb.entry, hentries]
      rcases Nat.lt_trichotomy q s.db.entries.length with hlt | rfl | hgt
      · rw [List.getElem?_append_left hlt, if_neg (Nat.ne_of_lt hlt)]
        rfl
      · simp
      · rw [List.getElem?_append_right (Nat.le_of_lt hgt), if_neg (Nat.ne_of_gt hgt), KvDb.entry,
          List.getElem?_eq_none (Nat.le_of_lt hgt), List.getElem?_eq_none (by simp; omega)]
    refine ⟨fun k q hq => ?_, fun q he hq hne => ?_, fun q hq k => ?_⟩
    · rw [hnew] at hq
      by_cases hk : k = cString key
      · rw [if_pos hk, Option.some.injEq] at hq
        exact ⟨⟨key, createObject val⟩, by rw [hentry, if_pos hq.symm], hk.symm⟩
      · rw [if_neg hk] at hq
        obtain ⟨he, hhe, hkey⟩ := h.found k q hq
        exact ⟨he, by rw [hentry, if_neg (Nat.ne_of_lt (KvDb.lt_of_entry hhe))]; exact hhe, hkey⟩
    · rw [hentry] at hq
      rw [hnew]
      by_cases hlen : q = s.db.entries.length
      · rw [if_pos hlen, Option.some.injEq] at hq
        rw [← hq, if_pos rfl, hlen]
      · rw [if_neg hlen] at hq
        have hold := h.kept q he hq hne
        have hother : cString he.key ≠ cString key := by
          intro heq
          rw [heq, hfind] at hold
          cases hold
        rw [if_neg hother]
        exact hold
    · -- while an entry is erased no command runs
      rw [hq] at hfree
      cases hfree

/-- **The flush worker keeps the entries.** -/
theorem Server.Entries.bworker (h : s.Entries) {a : BworkerAct} (hs : BworkerStep crc mode s a t) : t.Entries := by
  cases hs with
  | dequeue hpc hq => exact h.congr (fun _ => by simp [hpc]) (fun _ => rfl) fun _ => rfl
  | read hpc hp => exact h.congr (fun _ => by simp [hpc]) (fun _ => rfl) fun _ => rfl
  | lock hpc => exact h.congr (fun _ => by simp [hpc]) (fun _ => rfl) fun _ => rfl
  | insert hpc hp hr => exact h.congr (fun _ => by simp [hpc]) (fun _ => rfl) fun _ => rfl
  | @erase p valueObj he hpc hp =>
    have hkept : ∀ q e, s.db.entry q = some e → s.db.memLRU.find (cString e.key) = some q := fun q e hq =>
      h.kept q e hq (by simp [hpc])
    refine ⟨fun k q hq => ?_, fun q e hq hne => ?_, fun q hq k hk => ?_⟩
    · simp only [LruCache.find_erase] at hq
      split_ifs at hq
      exact h.found k q hq
    · have hqp : q ≠ p := fun heq => hne (congrArg BworkerPc.erased heq.symm)
      simp only [LruCache.find_erase]
      rw [if_neg]
      · exact hkept q e hq
      · intro heq
        have hsame := hkept q e hq
        rw [heq, hkept p he hp] at hsame
        exact hqp (Option.some.inj hsame).symm
    · obtain rfl := BworkerPc.erased.inj hq
      simp only [LruCache.find_erase] at hk
      split_ifs at hk with heq
      obtain ⟨e, hentry, hkey⟩ := h.found k p hk
      rw [hp, Option.some.injEq] at hentry
      rw [hentry] at heq
      exact heq hkey.symm
  | @unlock p hpc =>
    have hentry : ∀ q, q ≠ p → (s.db.entries.set p none)[q]?.join = s.db.entry q := by
      intro q hq
      rw [List.getElem?_set, if_neg (Ne.symm hq)]
      rfl
    refine ⟨fun k q hq => ?_, fun q e hq _ => ?_, fun q hq => by cases hq⟩
    · have hqp : q ≠ p := by
        rintro rfl
        exact h.gone q hpc k hq
      obtain ⟨e, he, hkey⟩ := h.found k q hq
      exact ⟨e, by rw [KvDb.entry, hentry q hqp]; exact he, hkey⟩
    · by_cases hqp : q = p
      · rw [KvDb.entry, hqp, List.getElem?_set, if_pos rfl] at hq
        split_ifs at hq <;> cases hq
      · rw [KvDb.entry, hentry q hqp] at hq
        apply h.kept q e hq
        rw [hpc]
        exact fun heq => hqp (BworkerPc.erased.inj heq).symm

/-- **Every step keeps the entries.** -/
theorem ServerStep.entries {a : ServerAct} (hs : ServerStep crc mode d s a t) (h : s.Entries) : t.Entries := by
  cases hs with
  | set hfree hr => exact h.effect hfree (KvDb.setCommand_effect hr).1
  | get hfree hr => exact h.effect hfree (KvDb.getCommand_effect hr).1
  | block => exact h.congr (fun _ => Iff.rfl) (fun _ => rfl) fun _ => rfl
  | evict hr =>
    obtain ⟨p, he, hev, hp, -, ⟨-, -, hentries⟩ | ⟨-, -, hentries⟩⟩ := KvDb.evictOne_effect hr
    · refine h.congr (fun _ => Iff.rfl) (LruCache.find_evict hev).1 fun q => ?_
      rw [KvDb.entry, hentries]
      exact KvDb.key_set hp _ q
    · refine h.congr (fun _ => Iff.rfl) (LruCache.find_evict hev).1 fun q => ?_
      rw [KvDb.entry, hentries]
      rfl
  | bworker hb => exact h.bworker hb
  | writer hf hw => exact h.congr (fun _ => Iff.rfl) (fun _ => rfl) fun _ => rfl

/-! ### The value that is written -/

/-- The entry that the worker is flushing, and the value it has read. -/
def BworkerPc.job : BworkerPc → Option (ℕ × Bytes)
  | .read he valueObj | .locked he valueObj | .inserted he valueObj => some (he, valueObj)
  | _ => none

/-- **The value that was read is the value of the entry.** -/
def Server.Current (s : Server) : Prop :=
  ∀ p valueObj, s.bworker.job = some (p, valueObj) → ∃ he, s.db.entry p = some he ∧ he.val.ptr = valueObj

/-- **The condition on SET**: while the worker has read the value of the key and not
locked the mutex yet, it sets no other value. -/
def ServerAct.KeepsValue (s : Server) : ServerAct → Prop
  | .set key val => ∀ p valueObj he, s.bworker = .read p valueObj → s.db.entry p = some he →
      cString he.key = cString key → val = valueObj
  | _ => True

/-- A value that an eviction or a command leaves alone. -/
theorem Server.Current.congr (h : s.Current) (hpc : t.bworker = s.bworker)
    (hentry : ∀ p he, s.db.entry p = some he → s.bworker.job = some (p, he.val.ptr) →
      ∃ he', t.db.entry p = some he' ∧ he'.val.ptr = he.val.ptr) : t.Current := by
  intro p valueObj hjob
  rw [hpc] at hjob
  obtain ⟨he, hp, rfl⟩ := h p valueObj hjob
  exact hentry p he hp hjob

/-- **Commands keep it**, if SET meets the condition. -/
theorem Server.Current.effect (h : s.Current) (hent : s.Entries) (hfree : s.bworker.holdsMutex = false)
    {w : Option Bytes} (he : MemEffect (s.db.touch d key) key w db)
    (hw : ∀ val p valueObj he, w = some val → s.bworker = .read p valueObj → s.db.entry p = some he →
      cString he.key = cString key → val = valueObj) : Server.Current { s with db } := by
  cases he with
  | used hfind hget hentries =>
    refine h.congr rfl fun q he hq _ => ⟨he, ?_, rfl⟩
    rw [KvDb.entry, hentries, KvDb.entries_touch]
    exact hq
  | missed hfind hlru hentries =>
    refine h.congr rfl fun q he hq _ => ⟨he, ?_, rfl⟩
    rw [KvDb.entry, hentries, KvDb.entries_touch]
    exact hq
  | added hfind hlru hentries =>
    refine h.congr rfl fun q he hq _ => ⟨he, ?_, rfl⟩
    rw [KvDb.entry, hentries, KvDb.entries_touch, List.getElem?_append_left (KvDb.lt_of_entry hq)]
    exact hq
  | @replaced p he val hval hfind hget hp hentries =>
    rw [KvDb.entry_touch] at hp
    rw [KvDb.find_touch] at hfind
    refine h.congr rfl fun q e hq hjob => ?_
    rw [KvDb.entry, hentries, KvDb.entries_touch, KvDb.join_set (KvDb.lt_of_entry hp)]
    by_cases hqp : q = p
    · -- the entry of the key is the one that the worker has read
      subst hqp
      obtain rfl : he = e := Option.some.inj (hp.symm.trans hq)
      obtain ⟨he', hp', hkey⟩ := hent.found _ q hfind
      obtain rfl : he = he' := Option.some.inj (hp.symm.trans hp')
      rw [if_pos rfl]
      refine ⟨_, rfl, ?_⟩
      cases hpc : s.bworker with
      | read p' valueObj =>
        rw [hpc] at hjob
        obtain ⟨rfl, rfl⟩ := Prod.mk.inj (Option.some.inj hjob)
        exact hw val p' _ he hval hpc hp hkey
      | locked p' valueObj => rw [hpc] at hfree; cases hfree
      | inserted p' valueObj => rw [hpc] at hfree; cases hfree
      | waiting => rw [hpc] at hjob; cases hjob
      | dequeued p' => rw [hpc] at hjob; cases hjob
      | erased p' => rw [hpc] at hjob; cases hjob
    · rw [if_neg hqp]
      exact ⟨e, hq, rfl⟩

/-- **Every step keeps it**, if SET meets the condition. -/
theorem ServerStep.current {a : ServerAct} (hs : ServerStep crc mode d s a t) (ha : a.KeepsValue s)
    (hent : s.Entries) (h : s.Current) : t.Current := by
  cases hs with
  | @set db key val hfree hr =>
    refine h.effect hent hfree (KvDb.setCommand_effect hr).1 fun val' p valueObj he hw hpc hp hkey => ?_
    rw [← Option.some.inj hw]
    exact ha p valueObj he hpc hp hkey
  | get hfree hr =>
    apply h.effect hent hfree (KvDb.getCommand_effect hr).1
    intro val p valueObj he hw
    cases hw
  | block => exact h.congr rfl fun q he hq _ => ⟨he, hq, rfl⟩
  | evict hr =>
    obtain ⟨p, he, -, hp, -, ⟨-, -, hentries⟩ | ⟨-, -, hentries⟩⟩ := KvDb.evictOne_effect hr
    · refine h.congr rfl fun q e hq _ => ?_
      rw [KvDb.entry, hentries, KvDb.join_set (KvDb.lt_of_entry hp)]
      split_ifs with hqp
      · rw [hqp, hp, Option.some.injEq] at hq
        exact ⟨_, rfl, by rw [← hq]⟩
      · exact ⟨e, hq, rfl⟩
    · refine h.congr rfl fun q e hq _ => ⟨e, ?_, rfl⟩
      rw [KvDb.entry, hentries]
      exact hq
  | bworker hb =>
    cases hb with
    | dequeue hpc hq => intro p valueObj hjob; cases hjob
    | read hpc hp =>
      intro p valueObj hjob
      obtain ⟨rfl, rfl⟩ := Prod.mk.inj (Option.some.inj hjob)
      exact ⟨_, hp, rfl⟩
    | lock hpc =>
      intro p valueObj hjob
      exact h p valueObj (by rw [hpc]; exact hjob)
    | insert hpc hp hr =>
      intro p valueObj hjob
      exact h p valueObj (by rw [hpc]; exact hjob)
    | erase hpc hp => intro p valueObj hjob; cases hjob
    | unlock hpc => intro p valueObj hjob; cases hjob
  | writer hf hw => exact h.congr rfl fun q he hq _ => ⟨he, hq, rfl⟩

/-- **No update is lost by the flush**: when the worker has inserted a value into the
flash cache and is about to erase the entry, the entry is the one of its key, and has
this value, in every state reached by steps of which no SET changes the value of a key
between the worker's read and its lock. -/
theorem reach_flush_value {flashCache : FlashCache}
    (h : Reach (ServerStep crc mode d) (fun s a => a.KeepsValue s) (.start flashCache) s) {valueObj : Bytes}
    (hpc : s.bworker = .inserted p valueObj) : ∃ he, s.db.entry p = some he ∧
      s.db.memLRU.find (cString he.key) = some p ∧ he.val.ptr = valueObj := by
  have hboth : s.Entries ∧ s.Current := by
    refine h.invariant (P := fun s => s.Entries ∧ s.Current) ⟨Server.entries_start _, ?_⟩ ?_
    · intro p valueObj hjob
      cases hjob
    · rintro s a t ⟨hent, hcur⟩ ha hs
      exact ⟨hs.entries hent, hs.current ha hent hcur⟩
  obtain ⟨hent, hcur⟩ := hboth
  obtain ⟨he, hp, hval⟩ := hcur p valueObj (by rw [hpc]; rfl)
  exact ⟨he, hp, hent.kept p he hp (by rw [hpc]; simp), hval⟩

/-- A key that is set again after its eviction, and another one that is set while the
worker waits for the mutex. -/
theorem reach_flush_value_again : ∃ (s : Server) (he : HashEntry), s.bworker = .inserted 0 [2] ∧
    s.db.entry 0 = some he ∧ s.db.memLRU.find (cString he.key) = some 0 ∧ he.val.ptr = [2] := by
  have h0 := Reach.refl (R := ServerStep (fun _ => 0) .direct .noEffect) (C := fun s a => a.KeepsValue s)
    (.start (.openEmpty ⟨20, 0, 1000⟩ 0))
  have h1 := h0.step (a := ServerAct.set [97] [1]) (fun p v he hpc => by cases hpc) (.set rfl rfl rfl)
  have h2 := h1.step (a := ServerAct.evict) trivial (.evict rfl)
  have h3 := h2.step (a := ServerAct.set [97] [2]) (fun p v he hpc => by cases hpc) (.set rfl rfl rfl)
  have h4 := h3.step (a := ServerAct.bworker .dequeue) trivial (.bworker (.dequeue rfl rfl))
  have h5 := h4.step (a := ServerAct.bworker .read) trivial (.bworker (.read rfl rfl))
  have h6 := h5.step (a := ServerAct.set [98] [5])
    (fun p v he hpc hp hkey => by
      obtain ⟨rfl, rfl⟩ := BworkerPc.read.inj hpc
      obtain rfl := Option.some.inj hp
      exact absurd hkey (by decide))
    (.set rfl rfl rfl)
  have h7 := h6.step (a := ServerAct.bworker .lock) trivial (.bworker (.lock rfl rfl))
  have h8 := h7.step (a := ServerAct.bworker (.insert 0)) trivial (.bworker (.insert rfl rfl
    (show FlashCache.insert (fun _ => 0) .direct [.moved 99] _ [97] [2] = .ok (0, _) from rfl)))
  obtain ⟨he, hp, hfind, hval⟩ := reach_flush_value h8 rfl
  exact ⟨_, he, rfl, hp, hfind, hval⟩

/-- A key that is set again after the worker has read its value: the old value is
written, and the entry with the new one is about to be erased. -/
theorem set_lost : ∃ (s : Server) (he : HashEntry),
    Reach (ServerStep (fun _ => 0) .direct .noEffect) Always (.start (.openEmpty ⟨20, 0, 1000⟩ 0)) s ∧
      s.bworker = .inserted 0 [1] ∧ s.db.entry 0 = some he ∧ he.key = [97] ∧ he.val.ptr = [2] := by
  have h0 := Reach.refl (R := ServerStep (fun _ => 0) .direct .noEffect) (C := Always)
    (.start (.openEmpty ⟨20, 0, 1000⟩ 0))
  have h1 := h0.step (a := ServerAct.set [97] [1]) trivial (.set rfl rfl rfl)
  have h2 := h1.step (a := ServerAct.evict) trivial (.evict rfl)
  have h3 := h2.step (a := ServerAct.bworker .dequeue) trivial (.bworker (.dequeue rfl rfl))
  have h4 := h3.step (a := ServerAct.bworker .read) trivial (.bworker (.read rfl rfl))
  have h5 := h4.step (a := ServerAct.set [97] [2]) trivial (.set rfl rfl rfl)
  have h6 := h5.step (a := ServerAct.bworker .lock) trivial (.bworker (.lock rfl rfl))
  have h7 := h6.step (a := ServerAct.bworker (.insert 0)) trivial (.bworker (.insert rfl rfl
    (show FlashCache.insert (fun _ => 0) .direct [.moved 99] _ [97] [1] = .ok (0, _) from rfl)))
  exact ⟨_, _, h7, rfl, rfl, rfl, rfl⟩

end EmbeddedKv.Tiers
