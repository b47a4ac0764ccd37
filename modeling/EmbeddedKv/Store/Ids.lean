import EmbeddedKv.Store.Open

/-!
# Ids of files

`writer_cache_id_`, the id of the next file, from `Open` on.

## What is proved

After `Open` has gone through the directory the next id is above all ids that are there
(`Listing.scan`), and it stays so: only a roll-over takes an id (`RoundStep.ids`), and from
1000 on `Create()` does not return (`Numbered`). So the file that `NewCacheFile` makes never
has the id of another one (`Numbered.noCollision`).
-/

namespace EmbeddedKv.Store

open EmbeddedKv.Library EmbeddedKv.Flash WriteableCacheFile

variable {crc : Bytes → UInt32} {mode : FlashcacheMode} {garbage : UInt32 → ℕ → ℕ → UInt8} {opt : FlashCacheConfig}
  {size : UInt64} {c c' c₀ : FlashCache} {id : UInt32}

/-! ### The running maximum -/

/-- `writer_cache_id_` after files with the given ids. -/
def nextId (w : UInt32) (ids : List UInt32) : UInt32 := ids.foldl (fun w id => if w ≤ id then id + 1 else w) w

/-- **It is above all ids**, and an `int` as they are. -/
theorem nextId_spec {ids : List UInt32} (hids : ∀ id ∈ ids, id.toNat + 1 < 2 ^ 31) {w : UInt32} (hw : w.toNat < 2 ^ 31) :
    w ≤ nextId w ids ∧ (∀ id ∈ ids, id < nextId w ids) ∧ (nextId w ids).toNat < 2 ^ 31 := by
  induction ids generalizing w with
  | nil => exact ⟨UInt32.le_refl w, fun _ hid => absurd hid List.not_mem_nil, hw⟩
  | cons id ids ih =>
    obtain ⟨hid, hids⟩ := List.forall_mem_cons.mp hids
    have hsucc : (id + 1).toNat = id.toNat + 1 := by
      rw [UInt32.toNat_add]
      exact Nat.mod_eq_of_lt (by simp; omega)
    -- the number after this file
    obtain ⟨w₁, hw₁⟩ : ∃ w₁, w₁ = if w ≤ id then id + 1 else w := ⟨_, rfl⟩
    have hstep : w.toNat ≤ w₁.toNat ∧ id.toNat < w₁.toNat ∧ w₁.toNat < 2 ^ 31 := by
      rw [hw₁]
      split_ifs with hle <;> rw [UInt32.le_iff_toNat_le] at hle <;> omega
    obtain ⟨hle, hlt, hbound⟩ := ih hids hstep.2.2
    rw [UInt32.le_iff_toNat_le] at hle
    rw [show nextId w (id :: ids) = nextId w₁ ids by rw [hw₁]; rfl]
    refine ⟨UInt32.le_iff_toNat_le.mpr (by omega), fun id' hid' => ?_, hbound⟩
    rcases List.mem_cons.mp hid' with rfl | hid'
    · exact UInt32.lt_iff_toNat_lt.mpr (by omega)
    · exact hlt id' hid'

/-- It is one more than some id, at most. -/
theorem nextId_le {ids : List UInt32} {n : ℕ} (hn : n < 2 ^ 32) (hids : ∀ id ∈ ids, id.toNat < n) {w : UInt32}
    (hw : w.toNat ≤ n) : (nextId w ids).toNat ≤ n := by
  induction ids generalizing w with
  | nil => exact hw
  | cons id ids ih =>
    obtain ⟨hid, hids⟩ := List.forall_mem_cons.mp hids
    refine ih hids ?_
    dsimp only
    split_ifs
    · rw [UInt32.toNat_add, Nat.mod_eq_of_lt (by simp; omega)]
      exact hid
    · exact hw

/-- What is recovered is in the index, and counts for the next id. -/
theorem recoverAll_ids {entries : List (UInt32 × Bytes)} (hr : FlashCache.recoverAll garbage c entries = .ok c') :
    c'.opt = c.opt ∧ c'.dir = c.dir ∧ c'.writerCacheId = nextId c.writerCacheId (entries.map Prod.fst) ∧
      ∀ id, c'.metadata.cacheFileIndex.find id ≠ none →
        c.metadata.cacheFileIndex.find id ≠ none ∨ id ∈ entries.map Prod.fst := by
  induction entries generalizing c with
  | nil =>
    cases hr
    exact ⟨rfl, rfl, rfl, fun _ hid => .inl hid⟩
  | cons entry entries ih =>
    rw [FlashCache.recoverAll] at hr
    cases hrec : c.recover garbage entry with
    | error e => rw [hrec] at hr; cases hr
    | ok c₁ =>
      rw [hrec] at hr
      obtain ⟨calls, f, -, -, -, hindex, -, hwriter, -, hdir, hopt, -⟩ := FlashCache.recover_cases hrec
      obtain ⟨hopt', hdir', hwriter', hids⟩ := ih hr
      refine ⟨hopt'.trans hopt, hdir'.trans hdir, by rw [hwriter', hwriter]; rfl, fun id hid => ?_⟩
      rw [List.map_cons, List.mem_cons]
      rcases hids id hid with hfind | hin
      · rw [hindex, LruCache.find_insert] at hfind
        split_ifs at hfind with heq
        · exact .inr (.inl heq)
        · exact .inl hfind
      · exact .inr (.inr hin)

/-! ### Collisions -/

/-- **`NewCacheFile` makes a new file**: there is none with its id, neither in the
directory, where `Create` would leave it alone, nor in the index, where it would stay. -/
structure NoCollision (c : FlashCache) : Prop where
  /-- No file of the directory has the id. -/
  dir : c.writerCacheId ∉ c.dir
  /-- No file of the index has the id. -/
  index : c.metadata.cacheFileIndex.find c.writerCacheId = none

/-- The new file is created, and is found under its id. -/
theorem NoCollision.found (h : NoCollision c) : ∃ f, c.withNewFile.deref c.withNewFile.cacheFile = some f ∧
    f.fd = some [] ∧ f.cacheId = c.writerCacheId ∧
      c.withNewFile.metadata.cacheFileIndex.find c.writerCacheId = some c.withNewFile.cacheFile := by
  refine ⟨_, (FlashCache.deref_withNewFile c _).trans (if_pos rfl), ?_, cacheId_created _ _ _ _, ?_⟩
  · rw [created, if_neg (by simpa using h.dir)]
  · rw [find_withNewFile, if_pos rfl, h.index]
    rfl

/-- **After the scan** the next id is above all ids of the directory, and an `int`. -/
theorem Listing.scan {files : List (UInt32 × Bytes)} (h : Listing files)
    (hr : FlashCache.recoverAll garbage { size, opt, dir := files.map Prod.fst } files = .ok c) :
    c.dir = files.map Prod.fst ∧ (∀ id ∈ c.dir, id < c.writerCacheId) ∧ c.writerCacheId.toNat < 2 ^ 31 ∧
      NoCollision c := by
  obtain ⟨-, hdir, hwriter, hids⟩ := recoverAll_ids hr
  have hint : ∀ id ∈ files.map Prod.fst, id.toNat + 1 < 2 ^ 31 := by
    intro id hid
    obtain ⟨entry, hentry, rfl⟩ := List.mem_map.mp hid
    exact h.2 entry hentry
  obtain ⟨-, habove, hbound⟩ := nextId_spec hint (w := 0) (by decide)
  rw [show nextId 0 _ = c.writerCacheId from hwriter.symm] at habove hbound
  refine ⟨hdir, by rw [hdir]; exact habove, hbound, ⟨fun hin => ?_, ?_⟩⟩
  · rw [hdir] at hin
    exact UInt32.lt_irrefl _ (habove _ hin)
  · by_contra hfind
    rcases hids _ hfind with hempty | hin
    · exact hempty (LruCache.find_empty _)
    · exact UInt32.lt_irrefl _ (habove _ hin)

/-! ### Roll-overs -/

/-- `Insert` finds the current file at its end. -/
def RoundAct.RollsOver (c : FlashCache) : RoundAct → Prop
  | .call (.insert _ _) => ∃ f, c.deref c.cacheFile = some f ∧ f.eof = true
  | _ => False

/-- Only a roll-over adds a file to the directory, and takes an id for it. -/
theorem RoundStep.ids {b : RoundAct} (hs : RoundStep crc mode c b c') (h : Filed c) :
    (c'.dir ⊆ c.dir ∧ c'.writerCacheId = c.writerCacheId) ∨
      b.RollsOver c ∧ c.Creatable ∧ (∀ id ∈ c'.dir, id ∈ c.dir ∨ id = c.writerCacheId) ∧
        c'.writerCacheId = c.writerCacheId + 1 := by
  cases hs with
  | round hr =>
    cases hr with
    | round unlinked hover hlock hevict hf hclose =>
      refine .inl ⟨?_, rfl⟩
      show (if unlinked then c.dir.erase _ else c.dir) ⊆ c.dir
      split_ifs
      · exact List.erase_subset
      · exact List.Subset.refl _
  | call ha hs =>
    cases hs with
    | insert hr =>
      obtain ⟨c₁, f, g, lba, lba', ok, ht, -, -, -, hstate⟩ := FlashCache.insert_cases hr
      have hsame : c'.dir = c₁.dir ∧ c'.writerCacheId = c₁.writerCacheId := by
        rcases hstate with ⟨-, rfl⟩ | ⟨-, rfl⟩
        · exact ⟨rfl, rfl⟩
        · exact ⟨rfl, rfl⟩
      rw [hsame.1, hsame.2]
      cases ht with
      | current => exact .inl ⟨List.Subset.refl _, rfl⟩
      | rolled hf he hnew hcreate =>
        exact .inr ⟨⟨_, hf, he⟩, hcreate, fun id => (mem_dir_withNewFile { c with fcacheMutex := true } id).mp, rfl⟩
    | lookup hr =>
      obtain ⟨-, -, -, hdir, hwriter⟩ := lookup_effect h.linked hr
      exact .inl ⟨hdir ▸ List.Subset.refl _, hwriter⟩
    | deleteMetaData => exact .inl ⟨List.Subset.refl _, rfl⟩
    | evict hr => exact absurd rfl (ha _)
    | writer hf hw => exact .inl ⟨List.Subset.refl _, rfl⟩

/-- **Ids are given out in ascending order**, and not all of them. -/
structure Numbered (c : FlashCache) : Prop extends Filed c where
  /-- The next id is above the ids of the directory. -/
  above : ∀ id ∈ c.dir, id < c.writerCacheId
  /-- `Create()` returns for ids below 1000 only. -/
  bound : c.writerCacheId.toNat ≤ 1000

/-- **A new file never has the id of another one.** -/
theorem Numbered.noCollision (h : Numbered c) : NoCollision c := by
  have hdir : c.writerCacheId ∉ c.dir := fun hin => UInt32.lt_irrefl _ (h.above _ hin)
  refine ⟨hdir, Option.eq_none_iff_forall_ne_some.mpr fun p hp => ?_⟩
  exact hdir (h.indexed _ p hp).1

/-- Whether `Create()` of the next file returns depends on the id. -/
theorem NoCollision.creatable_iff (h : NoCollision c) (hint : c.writerCacheId.toNat ≤ 2 ^ 31) :
    c.Creatable ↔ c.writerCacheId.toNat < 1000 := by
  have hiff : c.Creatable ↔ SemNameFits c.writerCacheId := ⟨fun hc => hc h.dir, fun hfits _ => hfits⟩
  rw [hiff, semNameFits_iff]
  omega

/-- **Every step**. -/
theorem RoundStep.numbered {b : RoundAct} (hs : RoundStep crc mode c b c') (h : Numbered c) : Numbered c' := by
  have hbound := h.bound
  rcases hs.ids h.toFiled with ⟨hdir, hwriter⟩ | ⟨-, hcreate, hdir, hwriter⟩
  · exact ⟨hs.filed h.toFiled, fun id hid => by rw [hwriter]; exact h.above id (hdir hid), by rw [hwriter]; exact hbound⟩
  · have hlt := (h.noCollision.creatable_iff (by omega)).mp hcreate
    have hsucc : c'.writerCacheId.toNat = c.writerCacheId.toNat + 1 := by
      rw [hwriter, UInt32.toNat_add]
      exact Nat.mod_eq_of_lt (by simp; omega)
    refine ⟨hs.filed h.toFiled, fun id hid => UInt32.lt_iff_toNat_lt.mpr ?_, by omega⟩
    rcases hdir id hid with hold | rfl
    · have := UInt32.lt_iff_toNat_lt.mp (h.above id hold)
      omega
    · omega

end EmbeddedKv.Store
