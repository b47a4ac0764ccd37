import EmbeddedKv.Store.Eviction

/-!
# Ids of new files

`FlashCache::Open` goes through the names in the cache directory in the order in which
`readdir` gives them, and puts `writer_cache_id_` above the numbers that it finds.

## The model

A directory is the list of its files with their names and bytes. `Open` recovers those
whose names end in `.rc` and are longer than that: the number in front goes through `atoi`
into an `int` and from there into a `uint32_t`, and the file that is then opened is the one
that `Path()` names (`openLoop`). In a `DirListing` every name that ends in `.rc` is a
number written as `Path()` writes it.

A roll-over is an `Insert` that finds the current file at its end. `RollOvers n` has the
states that are reached with `n` of them, by calls and rounds of `Evict`.

## What is proved

`new_files_never_collide`: no file is recovered under an id that is in the index, and for
fewer than `2 ^ 31` roll-overs no file is made with an id that is in the directory or in
the index (`NoCollision`).
-/

namespace EmbeddedKv.Store

open EmbeddedKv.Library EmbeddedKv.Flash WriteableCacheFile

variable {crc : Bytes → UInt32} {mode : FlashcacheMode} {garbage : UInt32 → ℕ → ℕ → UInt8} {opt : FlashCacheConfig}
  {size : UInt64} {entries files : List (Bytes × Bytes)} {c c' c₀ : FlashCache} {id : UInt32} {n : ℕ}

/-! ### Names -/

/-- `.rc`. -/
def rcExt : Bytes := [46, 114, 99]

/-- The name in `Path()`. -/
def rcName (id : UInt32) : Bytes := decimal id.toNat ++ rcExt

/-- `it.size() > 3 && it.substr(it.length() - 3, 3) == ".rc"`. -/
def IsCacheFileName (name : Bytes) : Prop := 3 < name.length ∧ name.drop (name.length - 3) = rcExt

instance (name : Bytes) : Decidable (IsCacheFileName name) := inferInstanceAs (Decidable (_ ∧ _))

/-- `atoi(it.substr(0, it.length() - 3).c_str())`, as a `uint32_t`. -/
def cacheIdOf (name : Bytes) : UInt32 := UInt32.ofInt (atoi (name.take (name.length - 3)))

theorem rcName_injective : Function.Injective rcName := by
  intro id id' h
  exact UInt32.toNat_inj.mp (decimal_injective (List.append_cancel_right h))

theorem isCacheFileName_rcName (id : UInt32) : IsCacheFileName (rcName id) := by
  have hpos : 0 < (decimal id.toNat).length := List.length_pos_of_ne_nil (decimal_ne_nil _)
  refine ⟨?_, ?_⟩
  · rw [rcName, List.length_append, rcExt]
    simpa using hpos
  · rw [rcName, List.length_append]
    exact List.drop_left

/-- **The number in a name** is read back. -/
theorem cacheIdOf_rcName (hid : id.toNat < 2 ^ 31) : cacheIdOf (rcName id) = id := by
  have hprefix : (rcName id).take ((rcName id).length - 3) = decimal id.toNat := by
    rw [rcName, List.length_append]
    exact List.take_left
  have hint : ((id.toNat : ℤ) % 2 ^ 32).toNat = id.toNat := by omega
  rw [cacheIdOf, hprefix, atoi_decimal hid, UInt32.ofInt, hint, UInt32.ofNat_toNat]

/-- **What the directory of a cache holds**: files with distinct names, of which those that
end in `.rc` are numbers below `2 ^ 31 - 1` as `Path()` writes them. -/
structure DirListing (entries : List (Bytes × Bytes)) : Prop where
  /-- Names are distinct. -/
  nodup : (entries.map Prod.fst).Nodup
  /-- A name is the one of a cache file, or has another ending. -/
  named : ∀ name ∈ entries.map Prod.fst,
    (∃ id : UInt32, id.toNat < 2 ^ 31 - 1 ∧ name = rcName id) ∨ ¬ rcExt <:+ name

/-! ### Open -/

/-- The loop of `Open()` over the names in the directory. -/
def openLoop (garbage : UInt32 → ℕ → ℕ → UInt8) (entries : List (Bytes × Bytes)) :
    FlashCache → List Bytes → Except Stop FlashCache
  | c, [] => .ok c
  | c, name :: names =>
    if IsCacheFileName name then
      match entries.lookup (rcName (cacheIdOf name)) with
      -- `fopen` returns `NULL`
      | none => .error .undefined
      | some bytes =>
        match c.recover garbage (cacheIdOf name, bytes) with
        | .error e => .error e
        | .ok c => openLoop garbage entries c names
    else openLoop garbage entries c names

/-- The ids of the cache files with the given names. -/
def dirIds (names : List Bytes) : List UInt32 :=
  (names.filter (fun name => IsCacheFileName name ∧ rcName (cacheIdOf name) = name)).map cacheIdOf

/-- `FlashCache(opt)`, in a directory with the given files. -/
def FlashCache.onDir (opt : FlashCacheConfig) (size : UInt64) (entries : List (Bytes × Bytes)) : FlashCache :=
  { size, opt, dir := dirIds (entries.map Prod.fst) }

/-- `FlashCache(opt)` and `Open()`. -/
def openNamed (garbage : UInt32 → ℕ → ℕ → UInt8) (opt : FlashCacheConfig) (size : UInt64)
    (entries : List (Bytes × Bytes)) : Except Stop FlashCache :=
  match openLoop garbage entries (.onDir opt size entries) (entries.map Prod.fst) with
  | .error e => .error e
  | .ok c => c.newCacheFile

/-- The cache files among the files, with their ids. -/
def cacheFiles (files : List (Bytes × Bytes)) : List (UInt32 × Bytes) :=
  (files.filter (fun file => IsCacheFileName file.1)).map (fun file => (cacheIdOf file.1, file.2))

namespace DirListing

/-- Part of a directory. -/
theorem sublist (h : DirListing entries) (hsub : files.Sublist entries) : DirListing files :=
  ⟨h.nodup.sublist (hsub.map _), fun name hname => h.named name ((hsub.map _).subset hname)⟩

/-- A name that `Open` takes for the one of a cache file is one. -/
theorem exists_id (h : DirListing entries) {name : Bytes} (hname : name ∈ entries.map Prod.fst)
    (his : IsCacheFileName name) : ∃ id : UInt32, id.toNat < 2 ^ 31 - 1 ∧ name = rcName id ∧ cacheIdOf name = id := by
  rcases h.named name hname with ⟨id, hid, rfl⟩ | hext
  · exact ⟨id, hid, rfl, cacheIdOf_rcName (by omega)⟩
  · exact absurd (his.2 ▸ List.drop_suffix _ _) hext

theorem mem_dirIds (h : DirListing entries) :
    id ∈ dirIds (entries.map Prod.fst) ↔ rcName id ∈ entries.map Prod.fst := by
  simp only [dirIds, List.mem_map (f := cacheIdOf), List.mem_filter, decide_eq_true_eq]
  constructor
  · rintro ⟨name, ⟨hname, -, heq⟩, rfl⟩
    rw [heq]
    exact hname
  · intro hname
    obtain ⟨id', -, hid', hread⟩ := h.exists_id hname (isCacheFileName_rcName id)
    rw [← rcName_injective hid'] at hread
    exact ⟨rcName id, ⟨hname, isCacheFileName_rcName id, by rw [hread]⟩, hread⟩

/-- The ids of the cache files. -/
theorem map_cacheFiles (h : DirListing entries) : (cacheFiles entries).map Prod.fst = dirIds (entries.map Prod.fst) := by
  rw [cacheFiles, dirIds, List.filter_map, List.map_map, List.map_map]
  refine congrArg _ (List.filter_congr fun file hfile => decide_eq_decide.mpr ⟨fun his => ⟨his, ?_⟩, And.left⟩)
  obtain ⟨id, -, hname, hread⟩ := h.exists_id (List.mem_map_of_mem hfile) his
  rw [hread, hname]

/-- **Ids are distinct**, and one more than an id is an `int`. -/
theorem listing (h : DirListing entries) : Listing (cacheFiles entries) := by
  refine ⟨?_, ?_⟩
  · rw [h.map_cacheFiles, dirIds]
    refine List.Nodup.map_on ?_ (h.nodup.filter _)
    intro name hname name' hname' heq
    simp only [List.mem_filter, decide_eq_true_eq] at hname hname'
    rw [← hname.2.2, ← hname'.2.2, heq]
  · intro entry hentry
    obtain ⟨file, hfile, rfl⟩ := List.mem_map.mp hentry
    rw [List.mem_filter, decide_eq_true_eq] at hfile
    obtain ⟨id, hid, -, hread⟩ := h.exists_id (List.mem_map_of_mem hfile.1) hfile.2
    simp only [hread]
    omega

/-- The file that `Path()` names is the one whose name was read. -/
theorem lookup_path (h : DirListing entries) {file : Bytes × Bytes} (hfile : file ∈ entries)
    (his : IsCacheFileName file.1) : entries.lookup (rcName (cacheIdOf file.1)) = some file.2 := by
  obtain ⟨id, -, hname, hread⟩ := h.exists_id (List.mem_map_of_mem hfile) his
  rw [hread, ← hname]
  obtain ⟨before, after, rfl⟩ := List.append_of_mem hfile
  refine List.lookup_eq_some_iff.mpr ⟨before, after, rfl, fun file' hfile' => ?_⟩
  have hnodup := h.nodup
  rw [List.map_append, List.map_cons, List.nodup_append] at hnodup
  exact bne_iff_ne.mpr (Ne.symm (hnodup.2.2 _ (List.mem_map_of_mem hfile') _ List.mem_cons_self))

/-- **The loop over the names** recovers the cache files. -/
theorem openLoop_eq (h : DirListing entries) (garbage : UInt32 → ℕ → ℕ → UInt8) (hfiles : files ⊆ entries)
    (c : FlashCache) : openLoop garbage entries c (files.map Prod.fst) =
      FlashCache.recoverAll garbage c (cacheFiles files) := by
  induction files generalizing c with
  | nil => rfl
  | cons file files ih =>
    obtain ⟨hfile, hrest⟩ := List.cons_subset.mp hfiles
    rw [List.map_cons, openLoop, cacheFiles]
    split_ifs with his
    · rw [List.filter_cons_of_pos (by simpa using his), List.map_cons, FlashCache.recoverAll, h.lookup_path hfile his]
      simp only
      cases c.recover garbage (cacheIdOf file.1, file.2) with
      | error e => rfl
      | ok c₁ => exact ih hrest c₁
    · rw [List.filter_cons_of_neg (by simpa using his)]
      exact ih hrest c

end DirListing

/-- Opening the directory is recovering its cache files. -/
theorem DirListing.openNamed_eq (h : DirListing entries) (garbage : UInt32 → ℕ → ℕ → UInt8) (opt : FlashCacheConfig)
    (size : UInt64) : openNamed garbage opt size entries = FlashCache.openDir garbage opt size (cacheFiles entries) := by
  rw [openNamed, FlashCache.openDir, h.openLoop_eq garbage (List.Subset.refl _), FlashCache.onDir]
  exact h.map_cacheFiles ▸ rfl

/-! ### Roll-overs -/

/-- **What is reached with `n` roll-overs.** -/
inductive RollOvers (crc : Bytes → UInt32) (mode : FlashcacheMode) (c₀ : FlashCache) : ℕ → FlashCache → Prop where
  /-- Nothing done. -/
  | start : RollOvers crc mode c₀ 0 c₀
  /-- A step without a new file. -/
  | stays {n : ℕ} {c c' : FlashCache} {b : RoundAct} (h : RollOvers crc mode c₀ n c) (hb : ¬ b.RollsOver c)
      (hs : RoundStep crc mode c b c') : RollOvers crc mode c₀ n c'
  /-- A roll-over. -/
  | rolls {n : ℕ} {c c' : FlashCache} {b : RoundAct} (h : RollOvers crc mode c₀ n c) (hb : b.RollsOver c)
      (hs : RoundStep crc mode c b c') : RollOvers crc mode c₀ (n + 1) c'

/-- **In every run** the next id is above all ids of the directory. -/
theorem RollOvers.numbered (h : RollOvers crc mode c₀ n c) (h₀ : Numbered c₀) : Numbered c := by
  induction h with
  | start => exact h₀
  | stays h hb hs ih => exact hs.numbered ih
  | rolls h hb hs ih => exact hs.numbered ih

/-! ### From Open on -/

theorem DirListing.scan (h : DirListing entries) (hr : openLoop garbage entries (.onDir opt size entries)
    (entries.map Prod.fst) = .ok c) : c.dir = dirIds (entries.map Prod.fst) ∧
      (∀ id ∈ c.dir, id < c.writerCacheId) ∧ c.writerCacheId.toNat < 2 ^ 31 ∧ NoCollision c := by
  rw [h.openLoop_eq garbage (List.Subset.refl _), FlashCache.onDir, ← h.map_cacheFiles] at hr
  rw [← h.map_cacheFiles]
  exact h.listing.scan hr

/-- No file is recovered under an id that is in the index. -/
theorem DirListing.recovered_new (h : DirListing entries) {before after : List Bytes} {name : Bytes}
    (hnames : entries.map Prod.fst = before ++ name :: after) (his : IsCacheFileName name)
    (hr : openLoop garbage entries (.onDir opt size entries) before = .ok c) :
    c.metadata.cacheFileIndex.find (cacheIdOf name) = none := by
  obtain ⟨files, rest, hentries, rfl, hrest⟩ := List.map_eq_append_iff.mp hnames
  obtain ⟨file, files', rfl, rfl, rfl⟩ := List.map_eq_cons_iff.mp hrest
  rw [h.openLoop_eq garbage (hentries ▸ List.subset_append_left _ _)] at hr
  obtain ⟨-, -, -, hids⟩ := recoverAll_ids hr
  by_contra hfind
  rcases hids _ hfind with hempty | hin
  · exact hempty (LruCache.find_empty _)
  · have hnodup := h.listing.1
    rw [hentries, cacheFiles, List.filter_append, List.filter_cons_of_pos (by simpa using his), List.map_append,
      List.map_append, List.nodup_append] at hnodup
    exact hnodup.2.2 _ hin _ List.mem_cons_self rfl

/-- `Open` returns with the next id above all ids of the directory. -/
theorem DirListing.opened (h : DirListing entries) (ho : openNamed garbage opt size entries = .ok c₀) :
    (∀ id, rcName id ∈ entries.map Prod.fst → id < c₀.writerCacheId) ∧ Numbered c₀ := by
  rw [h.openNamed_eq] at ho
  have hnum := openDir_numbered h.listing ho
  obtain ⟨c, hr, -, rfl⟩ := FlashCache.openDir_inv ho
  refine ⟨fun id hid => hnum.above id ((mem_dir_withNewFile c id).mpr (.inl ?_)), hnum⟩
  rw [(h.listing.scan hr).1, h.map_cacheFiles, h.mem_dirIds]
  exact hid

/-- **New files never collide with existing ones**: no file is recovered under an id that
is in the index; after the scan and in every state that is reached from `Open` with fewer
than `2 ^ 31` roll-overs, the next file has an id that is neither in the directory nor in
the index, and `Open` puts it above all ids that were there. -/
theorem new_files_never_collide (h : DirListing entries) (garbage : UInt32 → ℕ → ℕ → UInt8) (opt : FlashCacheConfig)
    (size : UInt64) (crc : Bytes → UInt32) (mode : FlashcacheMode) :
    (∀ before name after c, entries.map Prod.fst = before ++ name :: after → IsCacheFileName name →
      openLoop garbage entries (.onDir opt size entries) before = .ok c →
        c.metadata.cacheFileIndex.find (cacheIdOf name) = none) ∧
      (∀ c, openLoop garbage entries (.onDir opt size entries) (entries.map Prod.fst) = .ok c → NoCollision c) ∧
      ∀ c₀, openNamed garbage opt size entries = .ok c₀ →
        (∀ id, rcName id ∈ entries.map Prod.fst → id < c₀.writerCacheId) ∧
          ∀ n c, RollOvers crc mode c₀ n c → n < 2 ^ 31 → NoCollision c := by
  refine ⟨fun before name after c hnames his hr => h.recovered_new hnames his hr, fun c hr => (h.scan hr).2.2.2, ?_⟩
  intro c₀ ho
  obtain ⟨habove, h₀⟩ := h.opened ho
  exact ⟨habove, fun n c hrun _ => (hrun.numbered h₀).noCollision⟩

/-- A directory with the files `7.rc` and `0.rc`, which are empty, and two other names. -/
def twoFiles : List (Bytes × Bytes) :=
  [([55, 46, 114, 99], []), ([46, 46], []), ([48, 46, 114, 99], []), ([97, 46, 116, 120, 116], [65])]

theorem dirListing_twoFiles : DirListing twoFiles := by
  refine ⟨by decide, fun name hname => ?_⟩
  simp only [twoFiles, List.map_cons, List.map_nil, List.mem_cons, List.not_mem_nil, or_false] at hname
  rcases hname with rfl | rfl | rfl | rfl
  · exact .inl ⟨7, by decide, rfl⟩
  · exact .inr (by decide)
  · exact .inl ⟨0, by decide, rfl⟩
  · exact .inr (by decide)

/-- The next file gets the number 8, and the one after it 9. -/
theorem new_files_never_collide_two : ∃ c₀, openNamed (fun _ _ _ => 0) ⟨1, 1, 1⟩ 0 twoFiles = .ok c₀ ∧
    c₀.dir = [8, 7, 0] ∧ c₀.writerCacheId = 9 ∧ NoCollision c₀ := by
  obtain ⟨-, -, hopen⟩ := new_files_never_collide dirListing_twoFiles (fun _ _ _ => 0) ⟨1, 1, 1⟩ 0 (fun _ => 0) .direct
  refine ⟨_, rfl, rfl, rfl, ?_⟩
  exact (hopen _ rfl).2 0 _ .start (by decide)

end EmbeddedKv.Store
