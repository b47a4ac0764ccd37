import EmbeddedKv.Tiers.ReadYourWrites

/-!
# No key vanishes between the tiers

A key that was set is in the memory index or in `block_index_` in every state reached,
and a GET of it that completes obtains a value that some SET stored under it
(`no_key_vanishes`). Unlike in `read_your_writes`, a flush may find another value of its
key in flash, and a GET may look for a key that was never set; it leaves the mutex of the
flash cache locked, so that later GETs of keys that are not in memory do not complete.

The disk has to give the records back. In write-buffer mode it does not if the last
buffer of a file was dropped: GET obtains the empty string then, and that is what memory
has for the key from then on (`value_vanishes`).
-/

namespace EmbeddedKv.Tiers

open EmbeddedKv.Library EmbeddedKv.Flash EmbeddedKv.Store WriteableCacheFile

variable {crc : Bytes → UInt32} {mode : FlashcacheMode} {opt : FlashCacheConfig} {size : UInt64}
  {acts : List KvAct} {s s' : KvDb} {t : TwoTier Bytes Bytes} {logs : ℕ → Bytes} {key val : Bytes}

/-! ### Steps -/

/-- A GET that completes, whether the mutex of the flash cache was free or not. -/
theorem Represents.of_getCommand (h : Represents crc mode logs s t) (hk : NulFree key) {env : Environment}
    (hread : ReadSucceeds mode env s key) {r : Option Bytes}
    (hr : s.getCommand crc mode env key = .ok (r, s')) :
    r = t.value key ∧ Represents crc mode logs s' (t.step (.get key)) := by
  cases hf : s.memLRU.find key with
  | some p =>
    obtain ⟨s₁, hget, hrep, -⟩ := h.getCommand_mem hk hf env
    rw [hget] at hr
    cases hr
    exact ⟨rfl, hrep⟩
  | none =>
    cases hfree : s.flashCache.fcacheMutex with
    | false =>
      obtain ⟨s₁, hget, hrep, -⟩ := h.getCommand hfree hk hread
      rw [hget] at hr
      cases hr
      exact ⟨rfl, hrep⟩
    | true =>
      -- the lookup in the flash cache waits for the mutex
      obtain ⟨lru, hget, -⟩ := h.linked.get key
      rw [KvDb.getCommand, cString_of_nulFree hk, hget, hf] at hr
      simp only [FlashCache.lookup, hfree, if_true] at hr
      cases hr

/-- **The actions in which no record is lost**: SET of strings without zero bytes, in a
record of less than `2 ^ 31` bytes; GET of a key, if the disk gives its record back where
it is needed; and the flush of a key for whose record there is a place. -/
def KvAct.Preserving (mode : FlashcacheMode) (s : KvDb) : KvAct → Prop
  | .set key val => Storable key val
  | .get key env => NulFree key ∧ ReadSucceeds mode env s key
  | .evictFlush key => ∀ p he, s.memLRU.find key = some p → s.entry p = some he →
      Fits mode s.flashCache key he.val.ptr
  | .writer _ => True

/-- **One such action** is one of the tiers. -/
theorem KvStep.represents {a : KvAct} (hs : KvStep crc mode s a s') (ha : a.Preserving mode s)
    (h : Represents crc mode logs s (tiers acts)) :
    ∃ logs', Represents crc mode logs' s' (tiers (acts ++ [a])) := by
  rw [tiers_snoc]
  cases hs with
  | @set s' key val hr =>
    obtain ⟨s₁, hset, -, hrep⟩ := h.setCommand ha
    rw [hset] at hr
    cases hr
    exact ⟨logs, hrep⟩
  | @get s' key env r hr => exact ⟨logs, (h.of_getCommand ha.1 ha.2 hr).2⟩
  | @evictFlush s₁ s₂ key writes hkey hevict hflush =>
    refine (h.evictFlush (fun val hm => ?_) hkey hevict hflush).2
    cases hf : s.memLRU.find key with
    | none =>
      rw [h.find_eq_none.mp hf] at hm
      cases hm
    | some p =>
      obtain ⟨w, hentry, hw, -⟩ := h.entry_of_find hf
      rw [hw, Option.some.injEq] at hm
      exact hm ▸ ha p _ hf hentry
  | @writer p f g hf hw => exact ⟨logs, h.writer hf hw.1⟩

/-- A run of such actions is a history of the tiers, and sets keys without zero bytes. -/
theorem represents_of_run (hc : mode = .writeBuffer → 0 < opt.writeBufferSize.toNat)
    (h : Run (KvStep crc mode) (fun _ => KvAct.Preserving mode) { flashCache := .openEmpty opt size } acts s) :
    (∃ logs, Represents crc mode logs s (tiers acts)) ∧ ∀ key val, .set key val ∈ acts → NulFree key := by
  refine h.invariant (P := fun acts s => (∃ logs, Represents crc mode logs s (tiers acts)) ∧
    ∀ key val, .set key val ∈ acts → NulFree key) ?_ ?_
  · exact ⟨represents_openEmpty crc mode opt size hc, fun key val hm => by cases hm⟩
  · rintro acts s a s' ⟨⟨logs, hrep⟩, hkeys⟩ ha hstep
    refine ⟨hstep.represents ha hrep, fun key val hm => ?_⟩
    rcases List.mem_append.mp hm with hm | hm
    · exact hkeys key val hm
    · obtain rfl := List.mem_singleton.mp hm
      exact ha.1

/-! ### Presence -/

/-- What was set in the tiers was set in the store. -/
theorem set_mem_iff : TierEvent.set key val ∈ acts.filterMap KvAct.event ↔ .set key val ∈ acts := by
  rw [List.mem_filterMap]
  constructor
  · rintro ⟨a, hm, ha⟩
    cases a with
    | set k v =>
      rw [KvAct.event, Option.some.injEq, TierEvent.set.injEq] at ha
      rw [← ha.1, ← ha.2]
      exact hm
    | _ => cases ha
  · intro hm
    exact ⟨_, hm, rfl⟩

/-- **No key vanishes**: in every state reached by such actions a key that was set is in
memory or in flash, and a GET of it that completes obtains a value that a SET stored
under exactly this key. -/
theorem no_key_vanishes (hc : mode = .writeBuffer → 0 < opt.writeBufferSize.toNat)
    (h : Run (KvStep crc mode) (fun _ => KvAct.Preserving mode) { flashCache := .openEmpty opt size } acts s)
    (hset : .set key val ∈ acts) :
    (s.memLRU.find key ≠ none ∨ s.flashCache.metadata.lookup key ≠ none) ∧
      ∀ env r s', ReadSucceeds mode env s key → s.getCommand crc mode env key = .ok (r, s') →
        ∃ v, r = some v ∧ .set key v ∈ acts := by
  obtain ⟨⟨logs, hrep⟩, hkeys⟩ := represents_of_run hc h
  have hvalue : (tiers acts).value key ≠ none := TwoTier.value_of_set (set_mem_iff.mpr hset)
  constructor
  · by_contra hno
    obtain ⟨hmem, hflash⟩ := not_or.mp hno
    refine hvalue ?_
    rw [TwoTier.value, hrep.find_eq_none.mp (not_not.mp hmem), hrep.index.eq_none (not_not.mp hflash)]
    rfl
  · intro env r s' hread hr
    obtain ⟨rfl, -⟩ := hrep.of_getCommand (hkeys key val hset) hread hr
    obtain ⟨v, hv⟩ := Option.ne_none_iff_exists'.mp hvalue
    refine ⟨v, hv, set_mem_iff.mp (TwoTier.set_of_value ?_)⟩
    rw [TwoTier.value, Option.or_eq_some_iff] at hv
    exact hv.imp id And.right


/-- A store whose entries, all of the key `a`, were flushed into its first file. -/
def flushedTo (flushed : ℕ) (file : Bytes) (eof : Bool) : KvDb :=
  ⟨{ next := flushed }, List.replicate flushed none, [],
    { size := UInt64.ofNat file.length, writerCacheId := 1, opt := ⟨20, 0, 1000⟩, dir := [0],
      metadata := ⟨.insert {} 0 0, .insert [97] ⟨0, 0, 18⟩ ∅⟩,
      heap := [some { (WriteableCacheFile.new 0 20 0).created false 0 with
        fd := some file, filesize := UInt32.ofNat file.length, diskWoff := UInt32.ofNat file.length, eof,
        keyLists := List.replicate flushed [97] }] }⟩

/-- A key that is flushed twice, with two values: one of them is read. -/
theorem no_key_vanishes_twice : ∃ s s' : KvDb, ∃ v,
    s.getCommand (fun _ => 0) .direct ⟨[], List.replicate 18 (.moved 99), false, []⟩ [97] = .ok (some v, s') ∧
    KvAct.set [97] v ∈ [KvAct.set [97] [1], .evictFlush [97], .set [97] [2], .evictFlush [97]] := by
  have h0 := Run.nil (R := KvStep (fun _ => 0) .direct) (C := fun _ => KvAct.Preserving .direct)
    { flashCache := .openEmpty ⟨20, 0, 1000⟩ 0 }
  have h1 := h0.snoc (a := KvAct.set [97] [1]) ⟨by decide, by decide, by decide⟩ (KvStep.set rfl)
  have h2 : Run _ _ _ _ (flushedTo 1 (image (fun _ => 0) [97] [1]) false) :=
    h1.snoc (a := KvAct.evictFlush [97])
      (fun p he hf hentry => by
        obtain rfl := Option.some.inj hf
        obtain rfl := Option.some.inj hentry
        decide)
      (KvStep.evictFlush rfl rfl (show KvDb.flush (fun _ => 0) .direct [.moved 99] _ = .ok _ from rfl))
  have h3 := h2.snoc (a := KvAct.set [97] [2]) ⟨by decide, by decide, by decide⟩ (KvStep.set rfl)
  have h4 : Run _ _ _ _ (flushedTo 2 (image (fun _ => 0) [97] [1] ++ image (fun _ => 0) [97] [2]) true) :=
    h3.snoc (a := KvAct.evictFlush [97])
      (fun p he hf hentry => by
        obtain rfl := Option.some.inj hf
        obtain rfl := Option.some.inj hentry
        decide)
      (KvStep.evictFlush rfl rfl (show KvDb.flush (fun _ => 0) .direct [.moved 99] _ = .ok _ from rfl))
  obtain ⟨v, hv, hmem⟩ := (no_key_vanishes (by simp) h4 (show KvAct.set [97] [2] ∈ _ by simp)).2
    ⟨[], List.replicate 18 (.moved 99), false, []⟩ (some [1]) _
    (fun _ lba hl => by
      obtain rfl := Option.some.inj hl
      exact ⟨enough_replicate 18, by simp⟩) rfl
  rw [← Option.some.inj hv] at hmem
  exact ⟨flushedTo 2 (image (fun _ => 0) [97] [1] ++ image (fun _ => 0) [97] [2]) true, _, [1], rfl, hmem⟩

/-- What the commands are about: strings without zero bytes. -/
def KvAct.Textual : KvAct → Prop
  | .set key val => NulFree key ∧ NulFree val
  | .get key _ => NulFree key
  | _ => True

/-- A step of the writer changes the file behind its pointer. -/
theorem run_writer {s₀ : KvDb} {p : ℕ} {f g : WriteableCacheFile} (hp : p < s.flashCache.heap.length)
    (hw : s.flashCache.Writes f g)
    (h : Run (KvStep crc mode) (fun _ _ a => a.Textual) s₀ acts { s with flashCache := s.flashCache.store p f }) :
    Run (KvStep crc mode) (fun _ _ a => a.Textual) s₀ (acts ++ [.writer p])
      { s with flashCache := s.flashCache.store p g } := by
  have hderef : (s.flashCache.store p f).deref p = some f := by
    rw [FlashCache.deref, FlashCache.store, List.getElem?_set_self hp]
    rfl
  have hstore : (s.flashCache.store p f).store p g = s.flashCache.store p g := by
    rw [FlashCache.store, FlashCache.store, List.set_set]
    rfl
  have hstep := h.snoc (a := .writer p) (by trivial)
    (KvStep.writer (s := { s with flashCache := s.flashCache.store p f }) hderef hw)
  rw [← hstore]
  exact hstep

/-- A file with two records in its buffers, the second of which ends the file; the writer
is awake since the first. -/
def twoRecords : WriteableCacheFile :=
  { (WriteableCacheFile.new 0 30 20).created false 0 with
    keyLists := [[97], [98]], eof := true, diskWoff := 38, bufWoff := 1, isWriterRunning := true, semWriter := 1,
    bufs := [⟨20, image (fun _ => 0) [97] [1, 2, 3], by decide⟩, ⟨20, image (fun _ => 0) [98] [1], by decide⟩] }

/-- The store with this file. -/
def twoFlushed : KvDb :=
  ⟨{ next := 2 }, [none, none], [],
    { size := 38, writerCacheId := 1, opt := ⟨30, 20, 1000⟩, dir := [0], heap := [some twoRecords],
      metadata := ⟨.insert {} 0 0, .insert [98] ⟨0, 20, 18⟩ (.insert [97] ⟨0, 0, 20⟩ ∅)⟩ }⟩

/-- It is what two keys leave that are set and flushed. -/
theorem run_twoFlushed : Run (KvStep (fun _ => 0) .writeBuffer) (fun _ _ a => a.Textual)
    { flashCache := .openEmpty ⟨30, 20, 1000⟩ 0 }
    [.set [97] [1, 2, 3], .evictFlush [97], .set [98] [1], .evictFlush [98]] twoFlushed := by
  have h0 := Run.nil (R := KvStep (fun _ => 0) .writeBuffer) (C := fun _ _ a => a.Textual)
    { flashCache := .openEmpty ⟨30, 20, 1000⟩ 0 }
  have h1 := h0.snoc (a := KvAct.set [97] [1, 2, 3]) ⟨by decide, by decide⟩ (KvStep.set rfl)
  have h2 : Run _ _ _ _ (⟨{ next := 1 }, [none], [],
      { size := 20, writerCacheId := 1, opt := ⟨30, 20, 1000⟩, dir := [0],
        metadata := ⟨.insert {} 0 0, .insert [97] ⟨0, 0, 20⟩ ∅⟩,
        heap := [some { twoRecords with
          keyLists := [[97]], eof := false, diskWoff := 20,
          bufs := [⟨20, image (fun _ => 0) [97] [1, 2, 3], by decide⟩] }] }⟩ : KvDb) :=
    h1.snoc (a := KvAct.evictFlush [97]) trivial
      (KvStep.evictFlush rfl rfl (show KvDb.flush (fun _ => 0) .writeBuffer [] _ = .ok _ from rfl))
  have h3 := h2.snoc (a := KvAct.set [98] [1]) ⟨by decide, by decide⟩ (KvStep.set rfl)
  exact h3.snoc (a := KvAct.evictFlush [98]) trivial
    (KvStep.evictFlush rfl rfl (show KvDb.flush (fun _ => 0) .writeBuffer [] _ = .ok twoFlushed from rfl))

/-- The second record is in the last buffer, which the writer drops: the disk gives
nothing at its address, and GET obtains the empty string. -/
theorem value_vanishes : ∃ s s' : KvDb,
    Run (KvStep (fun _ => 0) .writeBuffer) (fun _ _ a => a.Textual) { flashCache := .openEmpty ⟨30, 20, 1000⟩ 0 }
      ([.set [97] [1, 2, 3], .evictFlush [97], .set [98] [1], .evictFlush [98]] ++ List.replicate 9 (.writer 0)) s ∧
    s.flashCache.metadata.lookup [98] = some ⟨0, 20, 18⟩ ∧
    s.getCommand (fun _ => 0) .writeBuffer ⟨[], List.replicate 18 (.moved 99), false, []⟩ [98] =
      .ok (some [], s') := by
  have hp : 0 < twoFlushed.flashCache.heap.length := Nat.one_pos
  have h1 := run_writer (f := twoRecords) hp ⟨.semWait rfl Nat.one_pos, fun b hb => by cases hb.1⟩ run_twoFlushed
  have h2 := run_writer hp ⟨.fetch rfl Nat.one_pos rfl, fun b hb => by
    obtain rfl := Option.some.inj hb.2.2
    rfl⟩ h1
  have h3 := run_writer hp
    ⟨.write (n := 20) rfl (by decide) (by decide) rfl rfl, fun b hb => by cases hb.1⟩ h2
  have h4 := run_writer hp ⟨.advance rfl rfl, fun b hb => by cases hb.1⟩ h3
  have h5 := run_writer hp ⟨.leave rfl (Nat.lt_irrefl 1), fun b hb => absurd hb.2.1 (Nat.lt_irrefl 1)⟩ h4
  have h6 := run_writer hp ⟨.exit rfl rfl, fun b hb => by cases hb.1⟩ h5
  have h7 := run_writer hp ⟨.pop rfl (by decide), fun b hb => by cases hb.1⟩ h6
  have h8 := run_writer hp ⟨.pop rfl (by decide), fun b hb => by cases hb.1⟩ h7
  have h9 := run_writer hp ⟨.finish rfl rfl, fun b hb => by cases hb.1⟩ h8
  exact ⟨_, _, h9, rfl, rfl⟩

end EmbeddedKv.Tiers
