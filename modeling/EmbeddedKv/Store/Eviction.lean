import EmbeddedKv.Store.Ids
import EmbeddedKv.Store.Mutex
import Mathlib.Data.UInt

/-!
# Eviction

`Evict` takes the file that was used least recently out of the indices and erases the
index entries of all keys that were ever appended to it, whatever file they lead to by
now.

## What is proved

* `evict_frame`: a round of `Evict` leaves the entries of the other files, and what
  `Lookup` finds behind them, alone exactly if no key of the evicted file has an entry
  that leads to another file. `reach_own_keys`: this is so as long as no key is appended
  while another file has it.
* `reach_tracked`: an entry leads to a file that is there and has the key.
* `reach_current`: the file that is appended to is there and in the index, as long as it is
  not the least recently used one when a file is evicted.

`entry_of_other_file_erased` and `current_file_evicted` are runs that show that the
conditions are needed.
-/

namespace EmbeddedKv.Store

open EmbeddedKv.Library EmbeddedKv.Flash WriteableCacheFile Relation

variable {crc : Bytes → UInt32} {mode : FlashcacheMode} {c c' c₀ : FlashCache} {f g : WriteableCacheFile}
  {key val : Bytes} {p : ℕ} {lba : LBA} {size : UInt64} {garbage : UInt32 → ℕ → ℕ → UInt8} {opt : FlashCacheConfig}
  {files : List (UInt32 × Bytes)} {b : RoundAct}

/-! ### Entries and files -/

/-- **Entries lead to files that have their keys**, and the file that is appended to, if
it is there, is in the index. -/
structure Tracked (c : FlashCache) : Prop extends Filed c where
  /-- An entry leads to a file that has the key. -/
  entries : ∀ key lba, c.metadata.lookup key = some lba →
    ∃ p f, c.metadata.cacheFileIndex.find lba.cacheId = some p ∧ c.deref p = some f ∧ key ∈ f.keyLists
  /-- The current file is found under its id. -/
  current : ∀ f, c.deref c.cacheFile = some f → c.metadata.cacheFileIndex.find f.cacheId = some c.cacheFile

/-- The same files and entries. -/
theorem Tracked.congr (h : Tracked c) (hfiled : Filed c')
    (hfind : ∀ id, c'.metadata.cacheFileIndex.find id = c.metadata.cacheFileIndex.find id) (hheap : c'.heap = c.heap)
    (hcur : c'.cacheFile = c.cacheFile)
    (hlookup : ∀ key lba, c'.metadata.lookup key = some lba → c.metadata.lookup key = some lba) : Tracked c' := by
  have hderef : ∀ p, c'.deref p = c.deref p := fun p => by rw [FlashCache.deref, hheap]; rfl
  refine ⟨hfiled, fun key lba hl => ?_, fun f hf => ?_⟩
  · obtain ⟨p, f, hp, hf, hkey⟩ := h.entries key lba (hlookup key lba hl)
    exact ⟨p, f, (hfind _).trans hp, (hderef p).trans hf, hkey⟩
  · rw [hcur, hderef] at hf
    rw [hfind, hcur]
    exact h.current f hf

/-- A file gets more keys. -/
theorem Tracked.store (h : Tracked c) (hf : c.deref p = some f) (hid : g.cacheId = f.cacheId)
    (hkeys : f.keyLists ⊆ g.keyLists) : Tracked (c.store p g) := by
  refine ⟨h.toFiled.store hf hid, fun key lba hl => ?_, fun e he => ?_⟩
  · obtain ⟨q, e, hq, he, hkey⟩ := h.entries key lba hl
    by_cases hqp : q = p
    · rw [hqp, hf] at he
      obtain rfl := Option.some.inj he
      exact ⟨q, g, hq, by rw [FlashCache.deref_store hf, if_pos hqp], hkeys hkey⟩
    · exact ⟨q, e, hq, by rw [FlashCache.deref_store hf, if_neg hqp]; exact he, hkey⟩
  · rw [FlashCache.deref_store hf] at he
    split_ifs at he with hcur
    · rw [← Option.some.inj he, hid]
      exact h.current f (by rw [show c.cacheFile = p from hcur]; exact hf)
    · exact h.current e he

/-- A new file under an id that is not in use. -/
theorem Tracked.withNewFile (h : Tracked c) (hid : c.metadata.cacheFileIndex.find c.writerCacheId = none) :
    Tracked c.withNewFile := by
  refine ⟨h.toFiled.withNewFile, fun key lba hl => ?_, fun e he => ?_⟩
  · obtain ⟨q, e, hq, he, hkey⟩ := h.entries key lba hl
    have hne : lba.cacheId ≠ c.writerCacheId := by
      intro heq
      rw [heq, hid] at hq
      cases hq
    refine ⟨q, e, by rw [find_withNewFile, if_neg hne]; exact hq, ?_, hkey⟩
    rw [FlashCache.deref_withNewFile, if_neg (Nat.ne_of_lt (FlashCache.lt_of_deref he))]
    exact he
  · rw [FlashCache.deref_withNewFile, show c.withNewFile.cacheFile = c.heap.length from rfl, if_pos rfl] at he
    rw [← Option.some.inj he, cacheId_created, find_withNewFile, if_pos rfl, hid]
    rfl

/-- The file that gets the record of an `Insert`. -/
theorem Tracked.target {c₁ : FlashCache} (h : Tracked c) (ht : FlashCache.Target mode c c₁)
    (hnew : NoCollision c) : Tracked c₁ := by
  cases ht with
  | current => exact { h with }
  | rolled =>
    have hlocked : Tracked { c with fcacheMutex := true } := { h with }
    exact hlocked.withNewFile hnew.index

/-- **`Insert`.** -/
theorem Tracked.insert (h : Tracked c) (hnew : NoCollision c) {key val : Bytes}
    {writes : List IoResult} {r : Int} (hr : c.insert crc mode writes key val = .ok (r, c')) : Tracked c' := by
  obtain ⟨c₁, f, g, lba, lba', ok, ht, hf, -, ha, ⟨rfl, rfl⟩ | ⟨rfl, rfl⟩⟩ := FlashCache.insert_cases hr
  · have h₁ := h.target ht hnew
    obtain ⟨hid, hok, -⟩ := append_keys ha
    obtain ⟨hlba, hkeys⟩ := hok rfl
    have hs : Tracked (c₁.store c₁.cacheFile g) := h₁.store hf hid (by rw [hkeys]; exact List.subset_append_left _ _)
    have hderef : (c₁.store c₁.cacheFile g).deref c₁.cacheFile = some g := by
      rw [FlashCache.deref_store hf, if_pos rfl]
    have hindex : (c₁.booked g key lba').metadata.cacheFileIndex = c₁.metadata.cacheFileIndex :=
      Metadata.cacheFileIndex_insert _ _ _
    refine ⟨hs.toFiled.congr (by rw [hindex]; exact hs.linked) (fun id => by rw [hindex]; rfl) rfl rfl,
      fun k l hl => ?_, fun e he => ?_⟩
    · rw [hindex]
      rw [FlashCache.booked, Metadata.lookup_insert] at hl
      by_cases hk : k = key
      · cases hold : c₁.metadata.lookup key with
        | some l' =>
          rw [if_pos hk, hold, Option.getD_some, Option.some.injEq] at hl
          rw [hk, ← hl]
          exact hs.entries key l' hold
        | none =>
          rw [if_pos hk, hold, Option.getD_none, Option.some.injEq] at hl
          refine ⟨c₁.cacheFile, g, ?_, hderef, by rw [hkeys, hk]; simp⟩
          rw [← hl, hlba]
          exact h₁.current f hf
      · rw [if_neg hk] at hl
        exact hs.entries k l hl
    · rw [hindex]
      exact hs.current e he
  · obtain ⟨hid, -, hkeys⟩ := append_keys ha
    exact (h.target ht hnew).store hf hid (by rw [hkeys rfl]; exact List.Subset.refl _)

/-- **A round of `Evict`.** -/
theorem Tracked.evictRound (h : Tracked c) (hr : FlashCache.EvictRound mode size c c') : Tracked c' := by
  obtain ⟨id, p, f, -, hp, hf, hid, hfind, hderef, hlookup, hcur, -, hfiled⟩ := h.toFiled.evictRound hr
  refine ⟨hfiled, fun key lba hl => ?_, fun e he => ?_⟩
  · rw [hlookup] at hl
    split_ifs at hl with hkey
    obtain ⟨q, e, hq, he, hmem⟩ := h.entries key lba hl
    have hne : lba.cacheId ≠ id := by
      intro heq
      rw [heq, hp, Option.some.injEq] at hq
      rw [← hq, hf, Option.some.injEq] at he
      exact hkey (he ▸ hmem)
    obtain ⟨-, e', he', hcid⟩ := h.indexed _ q hq
    have hqp : q ≠ p := by
      rintro rfl
      rw [hf, Option.some.injEq] at he'
      exact hne (by rw [← hcid, ← he', hid])
    exact ⟨q, e, by rw [hfind, if_neg hne]; exact hq, by rw [hderef, if_neg hqp]; exact he, hmem⟩
  · rw [hcur, hderef] at he
    split_ifs at he with hcp
    have hold := h.current e he
    have hne : e.cacheId ≠ id := by
      intro heq
      rw [heq, hp] at hold
      exact hcp (Option.some.inj hold).symm
    rw [hfind, if_neg hne, hcur]
    exact hold

/-- **Every step.** -/
theorem RoundStep.tracked (hs : RoundStep crc mode c b c') (hnew : NoCollision c) (h : Tracked c) : Tracked c' := by
  cases hs with
  | round hr => exact h.evictRound hr
  | call ha hs =>
    cases hs with
    | insert hr => exact h.insert hnew hr
    | lookup hr =>
      obtain ⟨hlinked, hfind, hblock, hdir, -⟩ := lookup_effect h.linked hr
      obtain ⟨-, hcur, hheap⟩ := FlashCache.lookup_frame hr
      apply h.congr (h.toFiled.congr hlinked hfind hheap hdir) hfind hheap hcur
      intro key lba hl
      rwa [Metadata.lookup, hblock] at hl
    | @deleteMetaData key =>
      refine h.congr { h.toFiled with } (fun _ => rfl) rfl rfl fun k lba hl => ?_
      rw [show (c.deleteMetaData key).metadata.lookup k = _ from Metadata.lookup_erase _ _ _] at hl
      split_ifs at hl
      exact hl
    | evict hr => exact absurd rfl (ha _)
    | writer hf hw => exact h.store hf hw.1.cacheId (by rw [hw.1.keyLists]; exact List.Subset.refl _)

/-! ### Opening a directory -/

/-- A file that is found in the directory. -/
theorem Tracked.recover (h : Tracked c) {entry : UInt32 × Bytes} (hdir : entry.1 ∈ c.dir)
    (hnew : c.metadata.cacheFileIndex.find entry.1 = none) (hr : c.recover garbage entry = .ok c') : Tracked c' ∧
      (∀ k, c'.metadata.cacheFileIndex.find k =
        if k = entry.1 then some c.heap.length else c.metadata.cacheFileIndex.find k) ∧ c'.dir = c.dir := by
  obtain ⟨calls, f, hrep, rfl, hderef, -, hlookup, -, -, hdir', -, hcur, -⟩ := FlashCache.recover_cases hr
  obtain ⟨hfiled, hfind, old⟩ := h.toFiled.recover hdir hnew hr
  refine ⟨⟨hfiled, fun key lba hl => ?_, fun e he => ?_⟩, hfind, hdir'⟩
  · rw [hlookup] at hl
    rw [hfind]
    cases hold : c.metadata.lookup key with
    | some lba' =>
      rw [hold, Option.some_or, Option.some.injEq] at hl
      obtain ⟨q, e, hq, he, hkey⟩ := h.entries key lba' hold
      obtain ⟨hk, hne⟩ := old _ q hq
      rw [← hl, if_neg hk]
      exact ⟨q, e, hq, by rw [hderef, if_neg hne]; exact he, hkey⟩
    | none =>
      rw [hold, Option.none_or] at hl
      obtain ⟨before, after, hcalls, -⟩ := List.lookup_eq_some_iff.mp hl
      have hmem : (key, lba) ∈ calls := by rw [hcalls]; simp
      have hid : lba.cacheId = entry.1 := cacheId_repair hrep _ hmem
      rw [if_pos hid]
      exact ⟨c.heap.length, _, rfl, by rw [hderef, if_pos rfl], List.mem_map_of_mem hmem⟩
  · rw [hcur, hderef] at he
    rw [hfind, hcur]
    split_ifs at he with hlen
    · rw [← Option.some.inj he, hlen]
      exact if_pos rfl
    · have hold := h.current e he
      rw [if_neg (old _ _ hold).1]
      exact hold

/-- All files that are found in the directory. -/
theorem Tracked.recoverAll (h : Tracked c) (hdir : ∀ entry ∈ files, entry.1 ∈ c.dir)
    (hnew : ∀ entry ∈ files, c.metadata.cacheFileIndex.find entry.1 = none) (hnodup : (files.map Prod.fst).Nodup)
    (hr : FlashCache.recoverAll garbage c files = .ok c') : Tracked c' := by
  induction files generalizing c with
  | nil =>
    cases hr
    exact h
  | cons entry files ih =>
    rw [FlashCache.recoverAll] at hr
    cases hrec : c.recover garbage entry with
    | error e => rw [hrec] at hr; cases hr
    | ok c₁ =>
      rw [hrec] at hr
      rw [List.map_cons, List.nodup_cons] at hnodup
      obtain ⟨h₁, hfind, hdir₁⟩ := h.recover (hdir _ List.mem_cons_self) (hnew _ List.mem_cons_self) hrec
      refine ih h₁ ?_ ?_ hnodup.2 hr
      · intro e he
        rw [hdir₁]
        exact hdir e (List.mem_cons_of_mem _ he)
      · intro e he
        have hne : e.1 ≠ entry.1 := fun heq => hnodup.1 (heq ▸ List.mem_map_of_mem he)
        rw [hfind, if_neg hne]
        exact hnew e (List.mem_cons_of_mem _ he)

/-- **`Open`**: entries lead to files that have their keys, and the new file is there. -/
theorem openDir_tracked (hfiles : Listing files) (ho : FlashCache.openDir garbage opt size files = .ok c) :
    Tracked c ∧ ∃ f, c.deref c.cacheFile = some f := by
  obtain ⟨c₁, hr, -, rfl⟩ := FlashCache.openDir_inv ho
  have hempty : Tracked { size, opt, dir := files.map Prod.fst } := by
    refine ⟨⟨LruCache.linked_empty, fun id p hp => ?_⟩, fun key lba hl => ?_, fun f hf => ?_⟩
    · rw [LruCache.find_empty] at hp
      cases hp
    · cases hl
    · cases hf
  have h₁ := hempty.recoverAll (fun e he => List.mem_map_of_mem he) (fun e _ => LruCache.find_empty _) hfiles.1 hr
  obtain ⟨-, -, -, hnew⟩ := hfiles.scan hr
  refine ⟨h₁.withNewFile hnew.index, ?_⟩
  rw [FlashCache.deref_withNewFile]
  exact ⟨_, if_pos rfl⟩

/-- The next id is above all that are there. -/
theorem openDir_numbered (hfiles : Listing files) (ho : FlashCache.openDir garbage opt size files = .ok c) :
    Numbered c := by
  have hfiled := (openDir_tracked hfiles ho).1.toFiled
  obtain ⟨c₁, hr, hcreate, rfl⟩ := FlashCache.openDir_inv ho
  obtain ⟨-, habove, hbound, hnew⟩ := hfiles.scan hr
  have hlt := (hnew.creatable_iff (by omega)).mp hcreate
  have hsucc : c₁.withNewFile.writerCacheId.toNat = c₁.writerCacheId.toNat + 1 := by
    show (c₁.writerCacheId + 1).toNat = _
    rw [UInt32.toNat_add]
    exact Nat.mod_eq_of_lt (by simp; omega)
  refine ⟨hfiled, fun id hid => UInt32.lt_iff_toNat_lt.mpr ?_, by omega⟩
  rcases (mem_dir_withNewFile c₁ id).mp hid with hold | rfl
  · have := UInt32.lt_iff_toNat_lt.mp (habove id hold)
    omega
  · omega

/-- **In every state that is reached from `Open`** entries lead to files that have their
keys, and the next id is above all that are there. -/
theorem reach_numbered {C : FlashCache → RoundAct → Prop} (hfiles : Listing files)
    (ho : FlashCache.openDir garbage opt size files = .ok c₀) (h : Reach (RoundStep crc mode) C c₀ c) :
    Tracked c ∧ Numbered c := by
  apply h.invariant ⟨(openDir_tracked hfiles ho).1, openDir_numbered hfiles ho⟩
  rintro c b c' ⟨ht, hnum⟩ - hs
  exact ⟨hs.tracked hnum.noCollision ht, hs.numbered hnum⟩

/-! ### The index of the keys -/

/-- A key whose file is found is looked up: `Lookup` does not return `NULL`. -/
theorem Tracked.lookup_ne_none (h : Tracked c) (hl : c.metadata.lookup key = some lba) {env : Environment}
    {r : Option Bytes} (hr : c.lookup crc mode env key = .ok (r, c')) : r ≠ none := by
  obtain ⟨p, f, hp, -⟩ := h.entries key lba hl
  cases FlashCache.Looked.of_lookup hr with
  | absent habsent =>
    rw [hl] at habsent
    cases habsent
  | noFile hl' hget =>
    obtain rfl := Option.some.inj (hl'.symm.trans hl)
    have hnone := LruCache.get_eq_find hget
    rw [hp] at hnone
    cases hnone
  | read hl' hget hf hread => exact Option.some_ne_none _

/-- **The index of the keys never dangles**: in every state reached from `Open` by calls,
rounds of `Evict` and steps of the writers, an entry names the id of a file that is there
and has the key, and `Lookup` of the key does not return `NULL`. -/
theorem reach_tracked (hfiles : Listing files) (ho : FlashCache.openDir garbage opt size files = .ok c₀)
    (h : Reach (RoundStep crc mode) Always c₀ c) (hl : c.metadata.lookup key = some lba) :
    (∃ p f, c.metadata.cacheFileIndex.find lba.cacheId = some p ∧ c.deref p = some f ∧ f.cacheId = lba.cacheId ∧
      key ∈ f.keyLists) ∧ ∀ env c', c.lookup crc mode env key ≠ .ok (none, c') := by
  obtain ⟨ht, -⟩ := reach_numbered hfiles ho h
  obtain ⟨p, f, hp, hf, hkey⟩ := ht.entries key lba hl
  obtain ⟨-, e, he, hid⟩ := ht.indexed _ p hp
  rw [hf, Option.some.injEq] at he
  refine ⟨⟨p, f, hp, hf, by rw [he]; exact hid, hkey⟩, fun env c' hr => ?_⟩
  exact ht.lookup_ne_none hl hr rfl

/-- A file from an earlier run, an insertion, and the eviction of the old file. -/
theorem reach_tracked_evicted : ∃ (c : FlashCache) (p : ℕ) (f : WriteableCacheFile), c.metadata.lookup [97] = none ∧
    c.metadata.lookup [99] = some ⟨4, 0, 18⟩ ∧ c.metadata.cacheFileIndex.find 4 = some p ∧ c.deref p = some f ∧
      [99] ∈ f.keyLists := by
  have ho : FlashCache.openDir (fun _ _ _ => 0) ⟨20, 0, 20⟩ 0 [(3, images (fun _ => 0) [([97], [98])])] = .ok _ := rfl
  have start : ∀ {c₀}, FlashCache.openDir (fun _ _ _ => 0) ⟨20, 0, 20⟩ 0 [(3, images (fun _ => 0) [([97], [98])])] =
      .ok c₀ → Reach (RoundStep (fun _ => 0) .direct) Always c₀ c₀ := fun _ => .refl _
  have h0 := start ho
  have h1 := h0.step (a := .call (.insert [99] [3])) trivial (.call (by simp) (.insert
    (show FlashCache.insert (fun _ => 0) .direct [.moved 99] _ [99] [3] = .ok (0, _) from rfl)))
  have h2 := h1.step (a := .round 0) trivial (.round (.round true rfl rfl rfl rfl (.noWriter rfl rfl)))
  obtain ⟨⟨p, f, hp, hf, -, hkey⟩, -⟩ := reach_tracked (by decide) ho h2
    (show Metadata.lookup _ [99] = some (⟨4, 0, 18⟩ : LBA) from rfl)
  exact ⟨_, p, f, rfl, rfl, hp, hf, hkey⟩

/-! ### The file that is appended to -/

/-- **The file that is appended to is not the least recently used one** when a file is
evicted. -/
def RoundAct.KeepsCurrent (c : FlashCache) : RoundAct → Prop
  | .round _ => ∀ f, c.deref c.cacheFile = some f →
    c.metadata.cacheFileIndex.list.getLast?.map Prod.snd ≠ some f.cacheId
  | _ => True

/-- **Such a step leaves the file that is appended to where it is**, or puts a new one in
its place. -/
theorem RoundStep.current (hs : RoundStep crc mode c b c') (h : Tracked c) (hb : b.KeepsCurrent c)
    (hcur : ∃ f, c.deref c.cacheFile = some f) : ∃ f, c'.deref c'.cacheFile = some f := by
  obtain ⟨f, hf⟩ := hcur
  cases hs with
  | round hr =>
    obtain ⟨id, p, e, hlast, hp, he, hid, -, hderef, -, hcur, -⟩ := h.toFiled.evictRound hr
    refine ⟨f, ?_⟩
    rw [hcur, hderef, if_neg]
    · exact hf
    · intro heq
      rw [heq, he, Option.some.injEq] at hf
      exact hb e (by rw [heq]; exact he) (by rw [hlast, hid])
  | call ha hs =>
    cases hs with
    | insert hr =>
      obtain ⟨c₁, f₁, g, lba, lba', ok, -, hf₁, -, -, ⟨-, rfl⟩ | ⟨-, rfl⟩⟩ := FlashCache.insert_cases hr
      · exact ⟨g, (FlashCache.deref_store hf₁ g _).trans (if_pos rfl)⟩
      · exact ⟨g, (FlashCache.deref_store hf₁ g _).trans (if_pos rfl)⟩
    | lookup hr =>
      obtain ⟨-, hcur, hheap⟩ := FlashCache.lookup_frame hr
      exact ⟨f, by rw [FlashCache.deref, hheap, hcur]; exact hf⟩
    | deleteMetaData => exact ⟨f, hf⟩
    | evict hr => exact absurd rfl (ha _)
    | @writer p e g he hw =>
      rw [FlashCache.deref_store he]
      split_ifs
      · exact ⟨g, rfl⟩
      · exact ⟨f, hf⟩

/-- **The file that is appended to is never evicted**: in every state reached from `Open`
by calls and rounds of `Evict` of which none takes the current file, the current file is
there and in the index under its id. -/
theorem reach_current (hfiles : Listing files) (ho : FlashCache.openDir garbage opt size files = .ok c₀)
    (h : Reach (RoundStep crc mode) (fun c b => b.KeepsCurrent c) c₀ c) :
    ∃ f, c.deref c.cacheFile = some f ∧ c.metadata.cacheFileIndex.find f.cacheId = some c.cacheFile := by
  have hboth : (Tracked c ∧ Numbered c) ∧ ∃ f, c.deref c.cacheFile = some f := by
    obtain ⟨ht, hcur⟩ := openDir_tracked hfiles ho
    apply h.invariant ⟨⟨ht, openDir_numbered hfiles ho⟩, hcur⟩
    rintro c b c' ⟨⟨ht, hnum⟩, hcur⟩ hkeep hs
    exact ⟨⟨hs.tracked hnum.noCollision ht, hs.numbered hnum⟩, hs.current ht hkeep hcur⟩
  obtain ⟨⟨ht, -⟩, f, hf⟩ := hboth
  exact ⟨f, hf, ht.current f hf⟩

/-- A file from an earlier run is evicted, and the new one gets another record. -/
theorem reach_current_evicted : ∃ (c : FlashCache) (f : WriteableCacheFile), c.deref 0 = none ∧
    c.deref c.cacheFile = some f ∧ c.metadata.cacheFileIndex.find f.cacheId = some c.cacheFile := by
  have ho : FlashCache.openDir (fun _ _ _ => 0) ⟨20, 0, 20⟩ 0 [(3, images (fun _ => 0) [([97], [98])])] = .ok _ := rfl
  have start : ∀ {c₀}, FlashCache.openDir (fun _ _ _ => 0) ⟨20, 0, 20⟩ 0 [(3, images (fun _ => 0) [([97], [98])])] =
      .ok c₀ → Reach (RoundStep (fun _ => 0) .direct) (fun c b => b.KeepsCurrent c) c₀ c₀ := fun _ => .refl _
  have h0 := start ho
  have h1 := h0.step (a := .call (.insert [99] [3])) trivial (.call (by simp) (.insert
    (show FlashCache.insert (fun _ => 0) .direct [.moved 99] _ [99] [3] = .ok (0, _) from rfl)))
  have h2 := h1.step (a := .round 0) (fun f hf => by cases hf; decide)
    (.round (.round true rfl rfl rfl rfl (.noWriter rfl rfl)))
  have h3 := h2.step (a := .call (.insert [97] [4])) trivial (.call (by simp) (.insert
    (show FlashCache.insert (fun _ => 0) .direct [.moved 99] _ [97] [4] = .ok (0, _) from rfl)))
  obtain ⟨f, hf, hfind⟩ := reach_current (by decide) ho h3
  exact ⟨_, f, rfl, hf, hfind⟩

/-- The only file is evicted, and `cache_file_` denotes nothing any more. -/
theorem current_file_evicted : ∃ c : FlashCache,
    Reach (RoundStep (fun _ => 0) .direct) Always (.openEmpty ⟨20, 0, 0⟩ 0) c ∧ c.deref c.cacheFile = none ∧
      ∀ writes key val, c.insert (fun _ => 0) .direct writes key val = .error .undefined := by
  have h0 := Reach.refl (R := RoundStep (fun _ => 0) .direct) (C := Always) (.openEmpty ⟨20, 0, 0⟩ 0)
  have h1 := h0.step (a := .call (.insert [97] [1])) trivial (.call (by simp) (.insert
    (show FlashCache.insert (fun _ => 0) .direct [.moved 99] _ [97] [1] = .ok (0, _) from rfl)))
  have h2 := h1.step (a := .round 0) trivial
    (.round (.round true rfl rfl rfl rfl (FlashCache.close_direct rfl (by decide) rfl)))
  exact ⟨_, h2, rfl, fun writes key val => rfl⟩

/-! ### What a round leaves alone -/

/-- `Lookup` depends on the entry of the key and on its file. -/
theorem lookup_congr (h' : c'.metadata.cacheFileIndex.Linked)
    (hmutex : c'.fcacheMutex = c.fcacheMutex) (hl : c.metadata.lookup key = some lba)
    (hl' : c'.metadata.lookup key = some lba)
    (hfind : c'.metadata.cacheFileIndex.find lba.cacheId = c.metadata.cacheFileIndex.find lba.cacheId)
    (hderef : ∀ p, c.metadata.cacheFileIndex.find lba.cacheId = some p → c'.deref p = c.deref p) {env : Environment}
    {r : Option Bytes} {c₁ : FlashCache} (hr : c.lookup crc mode env key = .ok (r, c₁)) :
    ∃ c₂, c'.lookup crc mode env key = .ok (r, c₂) := by
  obtain ⟨hfree, hlook⟩ := FlashCache.lookup_iff.mp hr
  rw [← hmutex] at hfree
  obtain ⟨index', hget', -, -⟩ := h'.get lba.cacheId
  rw [hfind] at hget'
  cases hlook with
  | absent habsent =>
    rw [hl] at habsent
    cases habsent
  | noFile hl₁ hget =>
    obtain rfl := Option.some.inj (hl₁.symm.trans hl)
    rw [← LruCache.get_eq_find hget] at hget'
    exact ⟨_, FlashCache.lookup_iff.mpr ⟨hfree, .noFile hl' hget'⟩⟩
  | @read lba₁ index p f out hl₁ hget hf hread =>
    obtain rfl := Option.some.inj (hl₁.symm.trans hl)
    have hp := LruCache.get_eq_find hget
    rw [← hp] at hget'
    exact ⟨_, FlashCache.lookup_iff.mpr ⟨hfree, .read hl' hget' ((hderef p hp.symm).trans hf) hread⟩⟩

/-- **Evicting a file touches only its records** exactly if no key that was appended to it
has an entry that leads to another file: then, and only then, a round of `Evict`, in any
state reached from `Open` by calls and rounds, leaves the entries that lead to other files
and what `Lookup` returns for their keys. -/
theorem evict_frame (hfiles : Listing files) (ho : FlashCache.openDir garbage opt size files = .ok c₀)
    (h : Reach (RoundStep crc mode) Always c₀ c) {n : UInt64} (hr : FlashCache.EvictRound mode n c c') :
    ∃ id p f, c.metadata.cacheFileIndex.list.getLast?.map Prod.snd = some id ∧
      c.metadata.cacheFileIndex.find id = some p ∧ c.deref p = some f ∧ f.cacheId = id ∧ c'.deref p = none ∧
      ((∀ key lba, c.metadata.lookup key = some lba → lba.cacheId ≠ id → c'.metadata.lookup key = some lba ∧
          ∀ env r c₁, c.lookup crc mode env key = .ok (r, c₁) → ∃ c₂, c'.lookup crc mode env key = .ok (r, c₂)) ↔
        ∀ key ∈ f.keyLists, ∀ lba, c.metadata.lookup key = some lba → lba.cacheId = id) := by
  have hfiled : Filed c := by
    apply h.invariant (openDir_tracked hfiles ho).1.toFiled
    intro c b c' hf _ hs
    exact hs.filed hf
  have hmutex : c'.fcacheMutex = c.fcacheMutex := by
    cases hr with
    | round => rfl
  obtain ⟨id, p, f, hlast, hp, hf, hid, hfind, hderef, hlookup, -, -, hfiled'⟩ := hfiled.evictRound hr
  refine ⟨id, p, f, hlast, hp, hf, hid, by rw [hderef, if_pos rfl], ?_⟩
  constructor
  · intro hframe key hkey lba hl
    by_contra hne
    obtain ⟨hkept, -⟩ := hframe key lba hl hne
    rw [hlookup, if_pos hkey] at hkept
    cases hkept
  · intro hown key lba hl hne
    have hkey : key ∉ f.keyLists := fun hin => hne (hown key hin lba hl)
    have hl' : c'.metadata.lookup key = some lba := by rw [hlookup, if_neg hkey, hl]
    have hsame : c'.metadata.cacheFileIndex.find lba.cacheId = c.metadata.cacheFileIndex.find lba.cacheId := by
      rw [hfind, if_neg hne]
    refine ⟨hl', fun env r c₁ hr => ?_⟩
    apply lookup_congr hfiled'.linked hmutex hl hl' hsame ?_ hr
    intro q hq
    obtain ⟨-, e, he, hcid⟩ := hfiled.indexed _ q hq
    have hqp : q ≠ p := by
      rintro rfl
      rw [hf, Option.some.injEq] at he
      exact hne (by rw [← hcid, ← he, hid])
    rw [hderef, if_neg hqp]

/-- Two files with keys of their own: the eviction of the first leaves the entry of a key
of the second. -/
theorem evict_frame_two_files : ∃ c c' : FlashCache,
    Reach (RoundStep (fun _ => 0) .direct) Always (.openEmpty ⟨20, 0, 40⟩ 0) c ∧ c'.deref 0 = none ∧
      c.metadata.lookup [99] = some ⟨1, 0, 18⟩ ∧ c'.metadata.lookup [99] = some ⟨1, 0, 18⟩ := by
  have h0 := Reach.refl (R := RoundStep (fun _ => 0) .direct) (C := Always) (.openEmpty ⟨20, 0, 40⟩ 0)
  have h1 := h0.step (a := .call (.insert [97] [1])) trivial (.call (by simp) (.insert
    (show FlashCache.insert (fun _ => 0) .direct [.moved 99] _ [97] [1] = .ok (0, _) from rfl)))
  have h2 := h1.step (a := .call (.insert [98] [2])) trivial (.call (by simp) (.insert
    (show FlashCache.insert (fun _ => 0) .direct [.moved 99] _ [98] [2] = .ok (0, _) from rfl)))
  have h3 := h2.step (a := .call (.insert [99] [3])) trivial (.call (by simp) (.insert
    (show FlashCache.insert (fun _ => 0) .direct [.moved 99] _ [99] [3] = .ok (0, _) from rfl)))
  obtain ⟨id, p, f, hlast, hfind, hf, -, hgone, hiff⟩ := evict_frame (n := 0) (by decide)
    (FlashCache.openDir_nil (fun _ _ _ => 0) _ _) h3
    (.round true rfl rfl rfl rfl (FlashCache.close_direct rfl (by decide) rfl))
  obtain rfl : 0 = id := Option.some.inj hlast
  obtain rfl : 0 = p := Option.some.inj hfind
  have hkeys : f.keyLists = [[97], [98]] := by
    rw [← Option.some.inj hf]
    rfl
  have hframe := hiff.mpr fun key hkey lba hl => by
    rw [hkeys, List.mem_cons, List.mem_singleton] at hkey
    rcases hkey with rfl | rfl
    · exact (Option.some.inj hl).symm ▸ rfl
    · exact (Option.some.inj hl).symm ▸ rfl
  exact ⟨_, _, h3, hgone, rfl, (hframe [99] ⟨1, 0, 18⟩ rfl (by decide)).1⟩

/-- A key is deleted and inserted again, into the next file: the eviction of the first
file erases the entry that leads to the second. -/
theorem entry_of_other_file_erased : ∃ c c' : FlashCache,
    Reach (RoundStep (fun _ => 0) .direct) Always (.openEmpty ⟨20, 0, 40⟩ 0) c ∧
      FlashCache.EvictRound .direct 0 c c' ∧ c.metadata.cacheFileIndex.list.getLast?.map Prod.snd = some 0 ∧
      c.metadata.lookup [97] = some ⟨1, 0, 18⟩ ∧ c'.metadata.lookup [97] = none := by
  have h0 := Reach.refl (R := RoundStep (fun _ => 0) .direct) (C := Always) (.openEmpty ⟨20, 0, 40⟩ 0)
  have h1 := h0.step (a := .call (.insert [97] [1])) trivial (.call (by simp) (.insert
    (show FlashCache.insert (fun _ => 0) .direct [.moved 99] _ [97] [1] = .ok (0, _) from rfl)))
  have h2 := h1.step (a := .call (.insert [98] [2])) trivial (.call (by simp) (.insert
    (show FlashCache.insert (fun _ => 0) .direct [.moved 99] _ [98] [2] = .ok (0, _) from rfl)))
  have h3 := h2.step (a := .call (.deleteMetaData [97])) trivial (.call (by simp) .deleteMetaData)
  have h4 := h3.step (a := .call (.insert [97] [3])) trivial (.call (by simp) (.insert
    (show FlashCache.insert (fun _ => 0) .direct [.moved 99] _ [97] [3] = .ok (0, _) from rfl)))
  exact ⟨_, _, h4, .round true rfl rfl rfl rfl (FlashCache.close_direct rfl (by decide) rfl), rfl, rfl, rfl⟩

/-! ### Keys in one file only -/

/-- No key has been appended to two files of the index. -/
def Apart (c : FlashCache) : Prop :=
  ∀ id p f id' p' f', c.metadata.cacheFileIndex.find id = some p → c.deref p = some f →
    c.metadata.cacheFileIndex.find id' = some p' → c.deref p' = some f' →
      ∀ key, key ∈ f.keyLists → key ∈ f'.keyLists → id = id'

/-- **A key is inserted only while no other file has it** than the one that gets the
record. -/
def RoundAct.OneFile (c : FlashCache) : RoundAct → Prop
  | .call (.insert key _) => ∀ id p g f, c.metadata.cacheFileIndex.find id = some p → c.deref p = some g →
    key ∈ g.keyLists → c.deref c.cacheFile = some f → p = c.cacheFile ∧ f.eof = false
  | _ => True

/-- A new file has no keys. -/
theorem keyLists_create (cacheId maxSize writeBufferSize : UInt32) (fileExists : Bool) :
    ((WriteableCacheFile.new cacheId maxSize writeBufferSize).created fileExists 0).keyLists = [] := by
  rw [created]
  split_ifs <;> rfl

/-- Fewer files with fewer keys. -/
theorem Apart.mono (h : Apart c) (hold : ∀ id p f key, c'.metadata.cacheFileIndex.find id = some p →
    c'.deref p = some f → key ∈ f.keyLists →
      ∃ g, c.metadata.cacheFileIndex.find id = some p ∧ c.deref p = some g ∧ key ∈ g.keyLists) : Apart c' := by
  intro id p f id' p' f' hp hf hp' hf' key hkey hkey'
  obtain ⟨g, hq, hg, hin⟩ := hold id p f key hp hf hkey
  obtain ⟨g', hq', hg', hin'⟩ := hold id' p' f' key hp' hf' hkey'
  exact h id p g id' p' g' hq hg hq' hg' key hin hin'

/-- The file that gets the record: only this one may have the key already. -/
theorem Apart.target {c₁ : FlashCache} (h : Apart c) (ht : FlashCache.Target mode c c₁)
    (hone : RoundAct.OneFile c (.call (.insert key val))) (hcur : ∃ f, c.deref c.cacheFile = some f) :
    Apart c₁ ∧ ∀ id p f, c₁.metadata.cacheFileIndex.find id = some p → c₁.deref p = some f → key ∈ f.keyLists →
      p = c₁.cacheFile := by
  cases ht with
  | current =>
    obtain ⟨f, hf⟩ := hcur
    exact ⟨h, fun id p g hp hg hkey => (hone id p g f hp hg hkey hf).1⟩
  | @rolled f hf he hnew =>
    have old : ∀ id p g k, ({ c with fcacheMutex := true } : FlashCache).withNewFile.metadata.cacheFileIndex.find id =
        some p → ({ c with fcacheMutex := true } : FlashCache).withNewFile.deref p = some g → k ∈ g.keyLists →
          c.metadata.cacheFileIndex.find id = some p ∧ c.deref p = some g := by
      intro id p g k hp hg hk
      rw [FlashCache.deref_withNewFile] at hg
      split_ifs at hg with hlen
      · rw [← Option.some.inj hg, keyLists_create] at hk
        cases hk
      · refine ⟨?_, hg⟩
        rw [find_withNewFile] at hp
        split_ifs at hp with hid
        · cases hfind : ({ c with fcacheMutex := true } : FlashCache).metadata.cacheFileIndex.find id with
          | some q =>
            rw [hfind, Option.getD_some] at hp
            exact hp
          | none =>
            rw [hfind, Option.getD_none] at hp
            exact absurd (Option.some.inj hp).symm hlen
        · exact hp
    refine ⟨h.mono fun id p g k hp hg hk => ?_, fun id p g hp hg hk => ?_⟩
    · obtain ⟨hp', hg'⟩ := old id p g k hp hg hk
      exact ⟨g, hp', hg', hk⟩
    · obtain ⟨hp', hg'⟩ := old id p g key hp hg hk
      rw [(hone id p g f hp' hg' hk hf).2] at he
      cases he

/-- A file may take a key that no other file has. -/
theorem Apart.store (h : Apart c) (hc : Tracked c) (hf : c.deref c.cacheFile = some f)
    (hkeys : ∀ k, k ∈ g.keyLists → k ∈ f.keyLists ∨ k = key)
    (htarget : ∀ id p e, c.metadata.cacheFileIndex.find id = some p → c.deref p = some e → key ∈ e.keyLists →
      p = c.cacheFile) : Apart (c.store c.cacheFile g) := by
  intro id p e id' p' e' hp he hp' he' k hk hk'
  rw [FlashCache.deref_store hf] at he he'
  have other : ∀ q x, c.deref q = some x → q ≠ c.cacheFile → ∀ i, c.metadata.cacheFileIndex.find i = some q →
      k ∈ x.keyLists → k ∈ g.keyLists → i = f.cacheId := by
    intro q x hx hq i hi hkx hkg
    rcases hkeys k hkg with hkf | rfl
    · exact h i q x f.cacheId c.cacheFile f hi hx (hc.current f hf) hf k hkx hkf
    · exact absurd (htarget i q x hi hx hkx) hq
  have own : ∀ i, c.metadata.cacheFileIndex.find i = some c.cacheFile → i = f.cacheId := by
    intro i hi
    obtain ⟨-, x, hx, hxid⟩ := hc.indexed i _ hi
    rw [hf, Option.some.injEq] at hx
    rw [← hxid, hx]
  split_ifs at he he' with hq hq' hq'
  · rw [own id (by rw [← hq]; exact hp), own id' (by rw [← hq']; exact hp')]
  · rw [own id (by rw [← hq]; exact hp)]
    exact (other p' e' he' hq' id' hp' hk' (Option.some.inj he ▸ hk)).symm
  · rw [own id' (by rw [← hq']; exact hp')]
    exact other p e he hq id hp hk (Option.some.inj he' ▸ hk')
  · exact h id p e id' p' e' hp he hp' he' k hk hk'

/-- **Every such step.** -/
theorem RoundStep.apart (hs : RoundStep crc mode c b c') (hc : Tracked c) (hnew : NoCollision c)
    (hone : b.OneFile c) (h : Apart c) : Apart c' := by
  cases hs with
  | round hr =>
    obtain ⟨id, p, f, -, hp, hf, -, hfind, hderef, -⟩ := hc.toFiled.evictRound hr
    apply h.mono
    intro k q e key hq he hkey
    rw [hfind] at hq
    rw [hderef] at he
    split_ifs at hq he
    exact ⟨e, hq, he, hkey⟩
  | call ha hs =>
    cases hs with
    | @insert c' key val writes r hr =>
      obtain ⟨c₁, f, g, lba, lba', ok, ht, hf, -, ha, hcases⟩ := FlashCache.insert_cases hr
      have hcur : ∃ f, c.deref c.cacheFile = some f := by
        cases ht with
        | current => exact ⟨f, hf⟩
        | rolled hf₀ => exact ⟨_, hf₀⟩
      obtain ⟨h₁, htarget⟩ := h.target ht hone hcur
      have ht₁ := hc.target ht hnew
      obtain ⟨hid, hok, hrefused⟩ := append_keys ha
      -- the keys of the changed file are the old ones and, if it took the record, the new one
      have hkeys : ∀ k, k ∈ g.keyLists → k ∈ f.keyLists ∨ k = key := by
        intro k hk
        cases ok with
        | true =>
          rw [(hok rfl).2, List.mem_append, List.mem_singleton] at hk
          exact hk
        | false =>
          rw [hrefused rfl] at hk
          exact .inl hk
      have hs : Apart (c₁.store c₁.cacheFile g) := h₁.store ht₁ hf hkeys htarget
      rcases hcases with ⟨-, rfl⟩ | ⟨-, rfl⟩
      · refine hs.mono fun id p e k hp he hk => ⟨e, ?_, he, hk⟩
        rwa [FlashCache.booked, Metadata.cacheFileIndex_insert] at hp
      · exact hs
    | lookup hr =>
      obtain ⟨-, hfind, -⟩ := lookup_effect hc.linked hr
      obtain ⟨-, -, hheap⟩ := FlashCache.lookup_frame hr
      refine h.mono fun id p f key hp hf hkey => ⟨f, (hfind id).symm.trans hp, ?_, hkey⟩
      rwa [FlashCache.deref, hheap] at hf
    | deleteMetaData => exact h
    | evict hr => exact absurd rfl (ha _)
    | @writer p e g he hw =>
      apply h.mono
      intro id q f key hq hf hkey
      rw [FlashCache.deref_store he] at hf
      split_ifs at hf with hqp
      · rw [← Option.some.inj hf, hw.1.keyLists] at hkey
        exact ⟨e, hq, by rw [hqp]; exact he, hkey⟩
      · exact ⟨f, hq, hf, hkey⟩

/-- **Evictions touch only the records of their file** in runs in which a key is inserted
only while no other file has it: the entries of the keys of a file lead to that file. -/
theorem reach_own_keys (hfiles : Listing files) (ho : FlashCache.openDir garbage opt size files = .ok c₀)
    (hapart : Apart c₀) (h : Reach (RoundStep crc mode) (fun c b => b.OneFile c) c₀ c) {id : UInt32}
    (hp : c.metadata.cacheFileIndex.find id = some p) (hf : c.deref p = some f) (hkey : key ∈ f.keyLists)
    (hl : c.metadata.lookup key = some lba) : lba.cacheId = id := by
  have hall : (Tracked c ∧ Numbered c) ∧ Apart c := by
    apply h.invariant ⟨⟨(openDir_tracked hfiles ho).1, openDir_numbered hfiles ho⟩, hapart⟩
    rintro c b c' ⟨⟨ht, hnum⟩, ha⟩ hone hs
    exact ⟨⟨hs.tracked hnum.noCollision ht, hs.numbered hnum⟩, hs.apart ht hnum.noCollision hone ha⟩
  obtain ⟨⟨ht, -⟩, ha⟩ := hall
  obtain ⟨q, e, hq, he, hin⟩ := ht.entries key lba hl
  exact ha _ q e id p f hq he hp hf key hin hkey

end EmbeddedKv.Store
