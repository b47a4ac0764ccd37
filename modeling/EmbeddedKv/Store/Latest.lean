import EmbeddedKv.Store.Mutex
import EmbeddedKv.Store.Refinement

/-!
# Looking up the latest value

The flash cache in direct mode is the finite map one expects of it, on histories that
do not insert another value for a key that is there (`lookup_latest`). `Metadata::Insert`
keeps the entry of a key that is there, so on other histories `Lookup` returns an old
value (`lookup_stale`), and after a `Lookup` that does not find its key no call gets the
mutex any more (`mutex_kept_by_lookup`).
-/

namespace EmbeddedKv.Store

open EmbeddedKv.Library EmbeddedKv.Flash WriteableCacheFile

variable {crc : Bytes → UInt32} {opt : FlashCacheConfig} {size : UInt64} {acts : List CacheAct}
  {key val : Bytes} {c c' : FlashCache} {logs : ℕ → Bytes} {m : Bytes → Option Bytes}

/-- The value of the latest `Insert` of a key since its last `DeleteMetaData`. -/
def latestValue (acts : List CacheAct) : Bytes → Option Bytes := latest (acts.filterMap CacheAct.event)

/-- **The calls after which the cache is still a map**: an `Insert` for which there is
a place, of a key that is not there or has the same value, and a `Lookup` of a key that
is there. No file is evicted. -/
def CacheAct.Plain (acts : List CacheAct) (c : FlashCache) : CacheAct → Prop
  | .insert key val => NulFree key ∧ NulFree val ∧ Fits .direct c key val ∧
    (latestValue acts key = none ∨ latestValue acts key = some val)
  | .lookup key => latestValue acts key ≠ none
  | .evict _ => False
  | _ => True

instance (acts : List CacheAct) (c : FlashCache) : DecidablePred (CacheAct.Plain acts c)
  | .insert key val => inferInstanceAs (Decidable (NulFree key ∧ NulFree val ∧ Fits .direct c key val ∧ (_ ∨ _)))
  | .lookup key => inferInstanceAs (Decidable (latestValue acts key ≠ none))
  | .deleteMetaData _ => .isTrue trivial
  | .evict _ => .isFalse id
  | .writer _ => .isTrue trivial

/-- Such a call does the same whether a value that is there is kept or replaced. -/
theorem kept_eq_latest_snoc {a : CacheAct} (h : kept (acts.filterMap CacheAct.event) = latestValue acts)
    (ha : a.Plain acts c) :
    kept ((acts ++ [a]).filterMap CacheAct.event) = latestValue (acts ++ [a]) := by
  rw [latestValue, List.filterMap_append]
  cases hev : a.event with
  | none =>
    rw [List.filterMap_cons_none hev, List.filterMap_nil, List.append_nil]
    exact h
  | some e =>
    rw [List.filterMap_cons_some hev, List.filterMap_nil, kept_snoc, latest_snoc, h]
    apply MapEvent.keep_eq_replace
    intro k v he
    cases a with
    | insert key val =>
      rw [he] at hev
      obtain ⟨rfl, rfl⟩ := MapEvent.put.inj (Option.some.inj hev)
      exact ha.2.2.2
    | deleteMetaData key =>
      rw [he] at hev
      cases hev
    | lookup key => cases hev
    | evict n => cases hev
    | writer p => cases hev

/-- Such a call gives the mutex back. -/
theorem CacheStep.free_of_plain {a : CacheAct} (hs : CacheStep crc .direct c a c') (ha : a.Plain acts c)
    (h : CacheSound .direct logs c) (hm : Refines crc logs c (latestValue acts)) (hfree : c.fcacheMutex = false) :
    c'.fcacheMutex = false := by
  cases hs with
  | @insert c' key val writes r hr => exact (h.insert ha.2.2.1 hr).1
  | @lookup c' key env r hr =>
    apply (FlashCache.lookup_mutex hr).mpr
    cases hl : c.metadata.lookup key with
    | none => exact absurd (hm.eq_none hl) ha
    | some lba =>
      obtain ⟨val, -, ⟨p, hp, -⟩, -⟩ := hm.stores hl
      exact ⟨lba, p, hl, hp⟩
  | deleteMetaData => exact hfree
  | evict hr => cases ha
  | writer hf hw => exact hfree

/-- **`Lookup` returns the value of the latest `Insert`** made since the last
`DeleteMetaData` of the key, and `NULL` exactly if there is none, in every state reached
by such calls. -/
theorem lookup_latest (h : Run (CacheStep crc .direct) CacheAct.Plain (.openEmpty opt size) acts c)
    (key : Bytes) (env : Environment)
    (hio : ∀ lba, c.metadata.lookup key = some lba → Enough env.preads lba.size.toNat) :
    ∃ c', c.lookup crc .direct env key = .ok (latestValue acts key, c') := by
  obtain ⟨logs, hs, hm, hfree⟩ : ∃ logs, CacheSound .direct logs c ∧ Refines crc logs c (latestValue acts) ∧
      c.fcacheMutex = false := by
    have hall : kept (acts.filterMap CacheAct.event) = latestValue acts ∧ ∃ logs, CacheSound .direct logs c ∧
        Refines crc logs c (latestValue acts) ∧ c.fcacheMutex = false := by
      refine h.invariant (P := fun acts c => kept (acts.filterMap CacheAct.event) = latestValue acts ∧
        ∃ logs, CacheSound .direct logs c ∧ Refines crc logs c (latestValue acts) ∧ c.fcacheMutex = false) ?_ ?_
      · obtain ⟨logs, hs, hm⟩ := openEmpty_refines crc .direct opt size (by simp)
        exact ⟨rfl, logs, hs, hm, rfl⟩
      · rintro acts c a c' ⟨hkept, logs, hs, hm, hfree⟩ ha hstep
        have hadm : a.Admissible .direct c := by
          cases a with
          | insert key val => exact ⟨ha.1, ha.2.1, ha.2.2.1⟩
          | lookup key => trivial
          | deleteMetaData key => trivial
          | evict size => exact ha
          | writer p => trivial
        have hnext := kept_eq_latest_snoc hkept ha
        have hk : Refines crc logs c (kept (acts.filterMap CacheAct.event)) := by
          rw [hkept]
          exact hm
        obtain ⟨logs', hs', hm'⟩ := hstep.refines hadm hs hk
        rw [hnext] at hm'
        exact ⟨hnext, logs', hs', hm', hstep.free_of_plain ha hs hm hfree⟩
    exact hall.2
  cases hl : c.metadata.lookup key with
  | none =>
    rw [hm.eq_none hl]
    exact ⟨_, FlashCache.lookup_absent hfree hl crc .direct env⟩
  | some lba =>
    obtain ⟨val, hval, hst⟩ := hm.stores hl
    rw [hval]
    obtain ⟨c', hlook, -⟩ := hs.lookup_stored hfree hl hst (hio lba hl) (by simp)
    exact ⟨c', hlook⟩

/-- A key that is inserted, inserted again with the same value, deleted, and inserted
with another value, over two files. -/
theorem lookup_latest_deleted : ∃ c c' : FlashCache, c.cacheFile = 1 ∧
    c.lookup (fun _ => 0) .direct ⟨[], List.replicate 18 (.moved 0), false, []⟩ [97] = .ok (some [3], c') := by
  have h0 := Run.nil (R := CacheStep (fun _ => 0) .direct) (C := CacheAct.Plain) (.openEmpty ⟨20, 0, 1000⟩ 0)
  have h1 := h0.snoc (a := .insert [97] [1]) (by decide) (.insert
    (show FlashCache.insert (fun _ => 0) .direct [.moved 99] _ [97] [1] = .ok (0, _) from rfl))
  have h2 := h1.snoc (a := .insert [97] [1]) (by decide) (.insert
    (show FlashCache.insert (fun _ => 0) .direct [.moved 99] _ [97] [1] = .ok (0, _) from rfl))
  have h3 := h2.snoc (a := .deleteMetaData [97]) (by decide) .deleteMetaData
  have h4 := h3.snoc (a := .insert [97] [3]) (by decide) (.insert
    (show FlashCache.insert (fun _ => 0) .direct [.moved 99] _ [97] [3] = .ok (0, _) from rfl))
  obtain ⟨c, h, hfile, hentry⟩ : ∃ c, Run (CacheStep (fun _ => 0) .direct) CacheAct.Plain
      (.openEmpty ⟨20, 0, 1000⟩ 0)
      [.insert [97] [1], .insert [97] [1], .deleteMetaData [97], .insert [97] [3]] c ∧
      c.cacheFile = 1 ∧ c.metadata.lookup [97] = some ⟨1, 0, 18⟩ := ⟨_, h4, rfl, rfl⟩
  obtain ⟨c', hlook⟩ := lookup_latest h [97] ⟨[], List.replicate 18 (.moved 0), false, []⟩ fun lba hl => by
    obtain rfl := Option.some.inj (hentry.symm.trans hl)
    exact enough_replicate 18
  exact ⟨c, c', hfile, hlook⟩

/-- After two insertions of a key its old value is found. -/
theorem lookup_stale : ∃ c c' : FlashCache,
    Run (CacheStep (fun _ => 0) .direct) (fun _ _ _ => True) (.openEmpty ⟨20, 0, 1000⟩ 0)
      [.insert [97] [1], .insert [97] [2]] c ∧
    latestValue [.insert [97] [1], .insert [97] [2]] [97] = some [2] ∧
    c.lookup (fun _ => 0) .direct ⟨[], [.moved 99], false, []⟩ [97] = .ok (some [1], c') := by
  have h0 := Run.nil (R := CacheStep (fun _ => 0) .direct) (C := fun _ _ _ => True) (.openEmpty ⟨20, 0, 1000⟩ 0)
  have h1 := h0.snoc (a := .insert [97] [1]) trivial (.insert
    (show FlashCache.insert (fun _ => 0) .direct [.moved 99] _ [97] [1] = .ok (0, _) from rfl))
  have h2 := h1.snoc (a := .insert [97] [2]) trivial (.insert
    (show FlashCache.insert (fun _ => 0) .direct [.moved 99] _ [97] [2] = .ok (0, _) from rfl))
  exact ⟨_, _, h2, by decide, rfl⟩

end EmbeddedKv.Store
