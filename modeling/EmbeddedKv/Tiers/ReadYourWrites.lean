import EmbeddedKv.Library.Runs
import EmbeddedKv.Tiers.Simulation

/-!
# Read your writes

GET obtains the value of the latest SET of its key, wherever the key is and however
often it has moved (`read_your_writes`), in runs in which the flush of a key finds no
other value of it in flash. Such a value stays behind when a key is set again after it
was flushed; the flush then keeps the old one (`read_old_write`).
-/

namespace EmbeddedKv.Tiers

open EmbeddedKv.Library EmbeddedKv.Flash EmbeddedKv.Store WriteableCacheFile

variable {crc : Bytes → UInt32} {mode : FlashcacheMode} {opt : FlashCacheConfig} {size : UInt64}
  {acts : List KvAct} {s s' : KvDb} {logs : ℕ → Bytes}

/-! ### Histories -/

/-- What an action does to the tiers. -/
def KvAct.event : KvAct → Option (TierEvent Bytes Bytes)
  | .set key val => some (.set key val)
  | .get key _ => some (.get key)
  | .evictFlush key => some (.flush key)
  | .writer _ => none

/-- What an action does to the map. -/
def KvAct.write : KvAct → Option (MapEvent Bytes Bytes)
  | .set key val => some (.put key val)
  | _ => none

/-- The two tiers after a history. -/
def tiers (acts : List KvAct) : TwoTier Bytes Bytes := .after (acts.filterMap KvAct.event)

/-- **The value of the latest SET** of a key. -/
def latestSet (acts : List KvAct) : Bytes → Option Bytes := latest (acts.filterMap KvAct.write)

/-- One more action. -/
theorem tiers_snoc (acts : List KvAct) (a : KvAct) :
    tiers (acts ++ [a]) = (a.event.map (tiers acts).step).getD (tiers acts) := by
  rw [tiers, List.filterMap_append]
  cases hev : a.event with
  | none =>
    rw [List.filterMap_cons_none hev, List.filterMap_nil, List.append_nil]
    rfl
  | some e =>
    rw [List.filterMap_cons_some hev, List.filterMap_nil, TwoTier.after_snoc]
    rfl

/-- One more action. -/
theorem latestSet_snoc (acts : List KvAct) (a : KvAct) :
    latestSet (acts ++ [a]) = (a.write.map (MapEvent.replace (latestSet acts))).getD (latestSet acts) := by
  rw [latestSet, List.filterMap_append]
  cases hev : a.write with
  | none =>
    rw [List.filterMap_cons_none hev, List.filterMap_nil, List.append_nil]
    rfl
  | some e =>
    rw [List.filterMap_cons_some hev, List.filterMap_nil, latest_snoc]
    rfl

/-! ### Runs -/

/-- **The actions after which reads still find the latest writes**: SET of strings without zero
bytes, in a record of less than `2 ^ 31` bytes; GET of a key that was set, if the disk
gives its record back; and the flush of a key for whose record there is a place, and of
which flash has no other value. -/
def KvAct.Plain (mode : FlashcacheMode) (acts : List KvAct) (s : KvDb) : KvAct → Prop
  | .set key val => Storable key val
  | .get key env => NulFree key ∧ latestSet acts key ≠ none ∧ ReadSucceeds mode env s key
  | .evictFlush key => ∀ val, (tiers acts).mem key = some val → Fits mode s.flashCache key val ∧
    ((tiers acts).flash key = none ∨ (tiers acts).flash key = some val)
  | .writer _ => True

/-- **One such action**: the store is the two tiers, their value is the latest one, and
the mutex of the flash cache is free. -/
theorem KvStep.plain {a : KvAct} (hs : KvStep crc mode s a s') (ha : a.Plain mode acts s)
    (h : Represents crc mode logs s (tiers acts)) (hvalue : (tiers acts).value = latestSet acts)
    (hfree : s.flashCache.fcacheMutex = false) :
    (∃ logs', Represents crc mode logs' s' (tiers (acts ++ [a]))) ∧
      (tiers (acts ++ [a])).value = latestSet (acts ++ [a]) ∧ s'.flashCache.fcacheMutex = false := by
  rw [tiers_snoc, latestSet_snoc]
  cases hs with
  | @set s' key val hr =>
    obtain ⟨s₁, hset, hcache, hrep⟩ := h.setCommand ha
    rw [hset] at hr
    cases hr
    refine ⟨⟨logs, hrep⟩, ?_, by rw [hcache]; exact hfree⟩
    show ((tiers acts).step (.set key val)).value = MapEvent.replace (latestSet acts) (.put key val)
    rw [TwoTier.value_set, hvalue]
    rfl
  | @get s' key env r hr =>
    obtain ⟨hk, hset, hread⟩ := ha
    obtain ⟨s₁, hget, hrep, hfree₁⟩ := h.getCommand hfree hk hread
    rw [hget] at hr
    cases hr
    refine ⟨⟨logs, hrep⟩, ?_, hfree₁ (by rw [hvalue]; exact hset)⟩
    show ((tiers acts).step (.get key)).value = latestSet acts
    rw [TwoTier.value_get, hvalue]
  | @evictFlush s₁ s₂ key writes hkey hevict hflush =>
    obtain ⟨hfree₂, logs', hrep⟩ := h.evictFlush (fun val hm => (ha val hm).1) hkey hevict hflush
    refine ⟨⟨logs', hrep⟩, ?_, hfree₂⟩
    show ((tiers acts).step (.flush key)).value = latestSet acts
    rw [TwoTier.value_flush _ _ fun val hm => (ha val hm).2, hvalue]
  | @writer p f g hf hw => exact ⟨⟨logs, h.writer hf hw.1⟩, hvalue, hfree⟩

/-- **Read your writes**: in every state reached by such actions GET obtains the value
of the latest SET of its key, whether the key is in memory, in flash, or was moved. -/
theorem read_your_writes (hc : mode = .writeBuffer → 0 < opt.writeBufferSize.toNat)
    (h : Run (KvStep crc mode) (KvAct.Plain mode) { flashCache := .openEmpty opt size } acts s)
    (key : Bytes) (hk : NulFree key) (env : Environment) (hread : ReadSucceeds mode env s key) :
    ∃ s', s.getCommand crc mode env key = .ok (latestSet acts key, s') := by
  obtain ⟨⟨logs, hrep⟩, hvalue, hfree⟩ : (∃ logs, Represents crc mode logs s (tiers acts)) ∧
      (tiers acts).value = latestSet acts ∧ s.flashCache.fcacheMutex = false := by
    refine h.invariant (P := fun acts s => (∃ logs, Represents crc mode logs s (tiers acts)) ∧
      (tiers acts).value = latestSet acts ∧ s.flashCache.fcacheMutex = false) ?_ ?_
    · exact ⟨represents_openEmpty crc mode opt size hc, rfl, rfl⟩
    · rintro acts s a s' ⟨⟨logs, hrep⟩, hvalue, hfree⟩ ha hstep
      exact hstep.plain ha hrep hvalue hfree
  obtain ⟨s', hget, -⟩ := hrep.getCommand hfree hk hread
  rw [hvalue] at hget
  exact ⟨s', hget⟩

/-- A key that is set, flushed, read and thereby moved back, set again, flushed again
into a second file, and read. -/
theorem read_your_writes_moved : ∃ s s' : KvDb, s.memLRU.find [97] = none ∧
    s.flashCache.metadata.lookup [97] = some ⟨1, 0, 18⟩ ∧
    s.getCommand (fun _ => 0) .direct ⟨[], List.replicate 18 (.moved 99), false, []⟩ [97] = .ok (some [2], s') := by
  have h0 := Run.nil (R := KvStep (fun _ => 0) .direct) (C := KvAct.Plain .direct)
    { flashCache := .openEmpty ⟨18, 0, 1000⟩ 0 }
  have h1 := h0.snoc (a := KvAct.set [97] [1]) ⟨by decide, by decide, by decide⟩ (KvStep.set rfl)
  have h2 := h1.snoc (a := KvAct.evictFlush [97])
    (fun val hm => by
      obtain rfl := Option.some.inj hm
      exact ⟨by decide, .inl rfl⟩)
    (KvStep.evictFlush rfl rfl (show KvDb.flush (fun _ => 0) .direct [.moved 99] _ = .ok _ from rfl))
  have h3 := h2.snoc (a := KvAct.get [97] ⟨[], List.replicate 18 (.moved 99), false, []⟩)
    ⟨by decide, by decide, fun _ lba hl => by
      have hs : (some ⟨0, 0, 18⟩ : Option LBA) = some lba := hl
      rw [← Option.some.inj hs]
      exact ⟨enough_replicate 18, by simp⟩⟩
    (KvStep.get (show KvDb.getCommand (fun _ => 0) .direct
      ⟨[], List.replicate 18 (.moved 99), false, []⟩ _ [97] = .ok (some [1], _) from rfl))
  have h4 := h3.snoc (a := KvAct.set [97] [2]) ⟨by decide, by decide, by decide⟩ (KvStep.set rfl)
  have h5 := h4.snoc (a := KvAct.evictFlush [97])
    (fun val hm => by
      have hs : (some [2] : Option Bytes) = some val := hm
      rw [← Option.some.inj hs]
      exact ⟨by decide, .inl rfl⟩)
    (KvStep.evictFlush rfl rfl (show KvDb.flush (fun _ => 0) .direct [.moved 99] _ = .ok _ from rfl))
  obtain ⟨s', hget⟩ := read_your_writes (by simp) h5 [97] (by decide)
    ⟨[], List.replicate 18 (.moved 99), false, []⟩ fun _ lba hl => by
      have hs : (some ⟨1, 0, 18⟩ : Option LBA) = some lba := hl
      rw [← Option.some.inj hs]
      exact ⟨enough_replicate 18, by simp⟩
  exact ⟨_, s', rfl, rfl, hget⟩

/-- A key that is set and flushed twice: its old value is read. -/
theorem read_old_write : ∃ s s' : KvDb,
    Run (KvStep (fun _ => 0) .direct) (fun _ _ _ => True) { flashCache := .openEmpty ⟨20, 0, 1000⟩ 0 }
      [.set [97] [1], .evictFlush [97], .set [97] [2], .evictFlush [97]] s ∧
    latestSet [.set [97] [1], .evictFlush [97], .set [97] [2], .evictFlush [97]] [97] = some [2] ∧
    s.getCommand (fun _ => 0) .direct ⟨[], [.moved 99], false, []⟩ [97] = .ok (some [1], s') := by
  have h0 := Run.nil (R := KvStep (fun _ => 0) .direct) (C := fun _ _ _ => True)
    { flashCache := .openEmpty ⟨20, 0, 1000⟩ 0 }
  have h1 := h0.snoc (a := KvAct.set [97] [1]) trivial (KvStep.set rfl)
  have h2 := h1.snoc (a := KvAct.evictFlush [97]) trivial
    (KvStep.evictFlush rfl rfl (show KvDb.flush (fun _ => 0) .direct [.moved 99] _ = .ok _ from rfl))
  have h3 := h2.snoc (a := KvAct.set [97] [2]) trivial (KvStep.set rfl)
  have h4 := h3.snoc (a := KvAct.evictFlush [97]) trivial
    (KvStep.evictFlush rfl rfl (show KvDb.flush (fun _ => 0) .direct [.moved 99] _ = .ok _ from rfl))
  exact ⟨_, _, h4, by decide, rfl⟩

end EmbeddedKv.Tiers
