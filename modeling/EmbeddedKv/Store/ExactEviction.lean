import EmbeddedKv.Library.Draining
import EmbeddedKv.Store.Capacity
import EmbeddedKv.Store.Eviction

/-!
# The loop of Evict

`FlashCache::Evict(size)` round by round, with the test of the capacity in exact
arithmetic and an `unlink` that succeeds. Only the writers in write-buffer mode call it.

## The model

The loop looks at `size_` and at the capacity, and never at the index: it drains the list
of the indexed files, the least recently used one first. The size of a file is `filesize_`
with what is in its buffers, since `Delete` closes the file before it reads `filesize_`. A
writer that has to join itself does not come back from `Close`.

## What is proved

`evicts_minimally_iff`: from a state in which `size_` is the sum of the sizes, the loop
comes to its end without an empty index, and removes no more files than it has to, exactly
if there is room already, or if the size is at most the capacity, the mutex is free, the
files that have to go can be closed, and their sizes fit into the `int` that `Delete`
returns. (Each size that does not makes `size_` greater by `2 ^ 32` than it should be, and
only `2 ^ 32` of them, as many as there are ids, make no difference.) By
`evictsMinimally_iff_counted` it does so for any other measure `m` exactly if `size_` is
counted down to the capacity with the last file that has to go.
-/

namespace EmbeddedKv.Store

open EmbeddedKv.Library EmbeddedKv.Flash WriteableCacheFile Relation

variable {m : WriteableCacheFile → ℕ} {c c' c₀ : FlashCache} {f g : WriteableCacheFile} {n j k k' p : ℕ}

namespace FlashCache

/-! ### Rounds -/

/-- **One round of the loop of `Evict(n)`.** -/
inductive ExactRound (n : ℕ) : FlashCache → FlashCache → Prop where
  /-- The least recently used file is taken out of the indices and deleted. -/
  | round {c : FlashCache} {p : ℕ} {f g : WriteableCacheFile} {metadata : Metadata}
      (hover : c.Exceeds n) (hlock : c.fcacheMutex = false)
      (hevict : c.metadata.evict (fun p => (c.deref p).map WriteableCacheFile.cacheId) = .ok (p, metadata))
      (hf : c.deref p = some f) (hclose : c.ClosesExactly f g) : ExactRound n c (c.removed metadata p g true)

/-- The file with an id in the index. -/
def fileAt (c : FlashCache) (id : UInt32) : Option WriteableCacheFile := (c.metadata.cacheFileIndex.find id).bind c.deref

/-- **The indexed files**, the least recently used one first. -/
def lruFiles (c : FlashCache) : List WriteableCacheFile :=
  (c.metadata.cacheFileIndex.list.map Prod.snd).reverse.filterMap c.fileAt

/-- `k` is the number of files that have to go: without them there is room, and there is
none without fewer. -/
def Shortest (m : WriteableCacheFile → ℕ) (n : ℕ) (c : FlashCache) (k : ℕ) : Prop :=
  k ≤ c.lruFiles.length ∧ n + ((c.lruFiles.drop k).map m).sum ≤ c.opt.cacheSize.toNat ∧
    ∀ j, j < k → c.opt.cacheSize.toNat < n + ((c.lruFiles.drop j).map m).sum

/-- **The loop is safe and minimal.** -/
structure EvictsMinimally (m : WriteableCacheFile → ℕ) (n : ℕ) (c : FlashCache) : Prop where
  /-- When there is no room, the index is not empty, and the round comes to its end. -/
  goesOn : ∀ c', ReflTransGen (ExactRound n) c c' → c'.Exceeds n →
    c'.metadata.cacheFileIndex.list ≠ [] ∧ ∃ c'', ExactRound n c' c''
  /-- There is no endless run. -/
  ends : Acc (fun c'' c' => ExactRound n c' c'') c
  /-- At the end there is room, and the files that had to go are gone. -/
  minimal : ∀ c', ReflTransGen (ExactRound n) c c' → ¬ c'.Exceeds n → n + c'.size.toNat ≤ c.opt.cacheSize.toNat ∧
    ∃ k, c.Shortest m n k ∧ c'.lruFiles = c.lruFiles.drop k

/-- The size of a file, with what is in its buffers: `filesize_` as `Close` leaves it. -/
def fullSize (f : WriteableCacheFile) : ℕ := (startClose .writeBuffer f).flushed.toNat

/-- What `Delete` returns for it, as it is subtracted from `size_`. -/
def deleted (f : WriteableCacheFile) : UInt64 := (startClose .writeBuffer f).flushed.toInt32.toInt64.toUInt64

/-- `size_` without the first `j` files. -/
def sizeWithout (c : FlashCache) (j : ℕ) : UInt64 :=
  (c.lruFiles.take j).foldl (fun size f => size - deleted f) c.size

/-- **Each of the first `k` files can be closed** when its turn comes: what its writer has
to write finds room. -/
def Closable (c : FlashCache) (k : ℕ) : Prop :=
  ∀ j f, j < k → c.lruFiles[j]? = some f → ∃ g, ({ c with size := c.sizeWithout j } : FlashCache).ClosesExactly f g

/-- **The sizes of the first `k` files are counted**: each fits into an `int`, or the
errors add up to `2 ^ 64`. -/
def Counted (c : FlashCache) (k : ℕ) : Prop :=
  (∀ f ∈ c.lruFiles.take k, fullSize f < 2 ^ 31) ∨ k = 2 ^ 32 ∧ ∀ f ∈ c.lruFiles.take k, 2 ^ 31 ≤ fullSize f

/-! ### Closing -/

/-- `Close` depends on the capacity and on `size_`. -/
theorem ClosesExactly.congr (h : c.ClosesExactly f g) (hopt : c'.opt = c.opt) (hsize : c'.size = c.size) :
    c'.ClosesExactly f g := by
  cases h with
  | @join g htid hrun hjoin =>
    refine .join htid (hrun.lift id fun f g hw => ?_) hjoin
    refine ⟨hw.1, fun b hb => ?_⟩
    rw [Exceeds, hopt, hsize]
    exact hw.2 b hb
  | noWriter htid hfd => exact .noWriter htid hfd

/-- It leaves a file of known size, and the id and the keys. -/
theorem ClosesExactly.frame (h : c.ClosesExactly f g) :
    g.cacheId = f.cacheId ∧ g.keyLists = f.keyLists ∧ g.filesize = (startClose .writeBuffer f).flushed := by
  cases h with
  | @join g htid hrun hjoin =>
    have hsame : g.cacheId = f.cacheId ∧ g.keyLists = f.keyLists ∧ g.eof = true ∧
        g.flushed = (startClose .writeBuffer f).flushed := by
      clear hjoin
      induction hrun with
      | refl => exact ⟨rfl, rfl, rfl, rfl⟩
      | tail _ hw ih =>
        obtain ⟨hid, hkeys, heof, hflushed⟩ := ih
        exact ⟨hw.1.cacheId.trans hid, hw.1.keyLists.trans hkeys, hw.1.frame.1.trans heof,
          (hw.1.flushed heof).trans hflushed⟩
    obtain ⟨hid, hkeys, -, hflushed⟩ := hsame
    refine ⟨hid, hkeys, ?_⟩
    rw [← hflushed]
    simp [flushed, pending, hjoin]
  | noWriter htid hfd => exact ⟨rfl, rfl, by simp [flushed, pending, startClose, htid]⟩

/-- A removal takes what `Delete` returns out of `size_`. -/
theorem ClosesExactly.size_removed (h : c.ClosesExactly f g) (metadata : Metadata) (p : ℕ) :
    (c.removed metadata p g true).size = c.size - deleted f := by
  rw [removed, if_pos rfl, h.frame.2.2, deleted]

end FlashCache

/-! ### The index -/

/-- The list loses its last node. -/
theorem LruCache.list_evict {K V : Type*} [DecidableEq K] {index index' : LruCache K V} {v : V}
    (hr : index.evict = .ok (v, index')) : index.list ≠ [] ∧ index'.list = index.list.dropLast := by
  unfold LruCache.evict at hr
  cases hlast : index.list.getLast? with
  | none =>
    rw [hlast] at hr
    cases hr
  | some q =>
    rw [hlast] at hr
    simp only at hr
    split at hr
    · cases hr
    · cases hr
      refine ⟨fun hnil => ?_, rfl⟩
      rw [hnil] at hlast
      cases hlast

theorem Metadata.list_evict {metadata metadata' : Metadata} {cacheid : ℕ → Option UInt32}
    (hr : metadata.evict cacheid = .ok (p, metadata')) : metadata.cacheFileIndex.list ≠ [] ∧
      metadata'.cacheFileIndex.list = metadata.cacheFileIndex.list.dropLast := by
  unfold Metadata.evict at hr
  split at hr
  · cases hr
  · next heq =>
    split at hr
    · cases hr
    · cases hr
      obtain ⟨hne, hlist⟩ := LruCache.list_evict heq
      exact ⟨hne, hlist⟩

/-- **The first file goes.** -/
theorem Filed.lruFiles_removed (h : Filed c) {metadata : Metadata}
    (hevict : c.metadata.evict (fun p => (c.deref p).map WriteableCacheFile.cacheId) = .ok (p, metadata))
    (hf : c.deref p = some f) (hgid : g.cacheId = f.cacheId) (hgkeys : g.keyLists = f.keyLists) :
    c.lruFiles = f :: (c.removed metadata p g true).lruFiles ∧ Filed (c.removed metadata p g true) := by
  obtain ⟨hlast, hfind, hfinds, hderef, -, hfiled⟩ := h.removed hevict hf hgid hgkeys true
  refine ⟨?_, hfiled⟩
  obtain ⟨hne, hlist⟩ := Metadata.list_evict hevict
  have hrest : (c.removed metadata p g true).metadata.cacheFileIndex.list = c.metadata.cacheFileIndex.list.dropLast := by
    rw [FlashCache.removed, (Metadata.foldl_erase g.keyLists metadata).1, hlist]
  obtain ⟨⟨node, id⟩, hnode⟩ := Option.ne_none_iff_exists'.mp (mt List.getLast?_eq_none_iff.mp hne)
  obtain rfl : id = f.cacheId := by
    rw [hnode] at hlast
    exact Option.some.inj hlast
  have hsplit : c.metadata.cacheFileIndex.list = c.metadata.cacheFileIndex.list.dropLast ++ [(node, f.cacheId)] :=
    (List.dropLast_append_getLast? _ hnode).symm
  have hnodup := (LruCache.linked_iff.mp h.linked).keys_nodup
  rw [hsplit, List.map_append, List.nodup_append] at hnodup
  have hself : c.fileAt f.cacheId = some f := by rw [FlashCache.fileAt, hfind, Option.bind_some, hf]
  -- the other files are found as before
  have hother : ∀ id ∈ (c.metadata.cacheFileIndex.list.dropLast.map Prod.snd).reverse,
      c.fileAt id = (c.removed metadata p g true).fileAt id := by
    intro id hid
    have hne : id ≠ f.cacheId := hnodup.2.2 id (List.mem_reverse.mp hid) _ (by simp)
    rw [FlashCache.fileAt, FlashCache.fileAt, hfinds, if_neg hne]
    cases hq : c.metadata.cacheFileIndex.find id with
    | none => rfl
    | some q =>
      obtain ⟨-, e, he, heid⟩ := h.indexed id q hq
      have hqp : q ≠ p := by
        rintro rfl
        obtain rfl := Option.some.inj (he.symm.trans hf)
        exact hne heid.symm
      rw [Option.bind_some, Option.bind_some, hderef, if_neg hqp]
  rw [FlashCache.lruFiles, FlashCache.lruFiles, hrest]
  conv_lhs => rw [hsplit]
  rw [List.map_append, List.reverse_append, List.filterMap_append]
  show (List.filterMap c.fileAt [f.cacheId]) ++ _ = _
  rw [List.filterMap_cons_some hself, List.filterMap_nil, List.filterMap_congr hother]
  rfl

/-! ### The loop drains the files -/

namespace FlashCache

/-- The loop of `Evict(n)` on `size_` and the indexed files. -/
def drain (n : ℕ) (c : FlashCache) : Drain UInt64 WriteableCacheFile where
  exceeds size := c.opt.cacheSize.toNat < n + size.toNat
  takes size f := c.fcacheMutex = false ∧ ∃ g, ({ c with size } : FlashCache).ClosesExactly f g
  after size f := size - deleted f

/-- A state in which the loop is that has started at `c₀`. -/
structure Looping (c₀ c : FlashCache) : Prop where
  /-- The index of the files is in order. -/
  filed : Filed c
  /-- The options are not changed. -/
  opt_eq : c.opt = c₀.opt
  /-- Between the rounds the mutex is as it was. -/
  mutex_eq : c.fcacheMutex = c₀.fcacheMutex

theorem drains_lruFiles (n : ℕ) (c₀ : FlashCache) :
    (c₀.drain n).Drains (ExactRound n) (Looping c₀) fun c => (c.size, c.lruFiles) where
  step c c' h hr := by
    cases hr with
    | @round p f g metadata hover hlock hevict hf hclose =>
      obtain ⟨hgid, hgkeys, -⟩ := hclose.frame
      obtain ⟨hfiles, hfiled⟩ := h.filed.lruFiles_removed hevict hf hgid hgkeys
      refine ⟨?_, hfiled, h.opt_eq, h.mutex_eq⟩
      rw [hfiles, hclose.size_removed]
      refine .take ?_ ⟨h.mutex_eq.symm.trans hlock, g, hclose.congr h.opt_eq.symm rfl⟩
      show c₀.opt.cacheSize.toNat < _
      rw [← h.opt_eq]
      exact hover
  lift c u h hs := by
    generalize hview : (c.size, c.lruFiles) = s at hs
    cases hs with
    | @take size f files hover htakes =>
      obtain ⟨rfl, hfiles⟩ := Prod.mk.inj hview
      obtain ⟨hlock, g, hclose⟩ := htakes
      have hne : c.metadata.cacheFileIndex.list ≠ [] := by
        intro hnil
        rw [lruFiles, hnil] at hfiles
        cases hfiles
      obtain ⟨id, p, index, hpop, -, hfind, -⟩ := h.filed.linked.evict hne
      obtain ⟨-, e, he, -⟩ := h.filed.indexed id p hfind
      have hevict := evict_of_index hpop he
      obtain rfl : e = f := by
        obtain ⟨hhead, -⟩ := h.filed.lruFiles_removed (g := e) hevict he rfl rfl
        exact (List.cons.inj (hhead.symm.trans hfiles)).1
      have hclose' : c.ClosesExactly e g := hclose.congr h.opt_eq rfl
      obtain ⟨hgid, hgkeys, -⟩ := hclose'.frame
      obtain ⟨hrest, -⟩ := h.filed.lruFiles_removed hevict he hgid hgkeys
      refine ⟨_, .round ?_ (h.mutex_eq.trans hlock) hevict he hclose', ?_⟩
      · show c.opt.cacheSize.toNat < _
        rw [h.opt_eq]
        exact hover
      · rw [hclose'.size_removed, ← (List.cons.inj (hrest.symm.trans hfiles)).2]
        rfl

/-- There is one number of files that have to go. -/
theorem Shortest.unique (h : c.Shortest m n k) (h' : c.Shortest m n k') : k = k' := by
  obtain ⟨-, hroom, hmin⟩ := h
  obtain ⟨-, hroom', hmin'⟩ := h'
  rcases Nat.lt_trichotomy k k' with hlt | rfl | hlt
  · exact absurd (hmin' k hlt) (Nat.not_lt.mpr hroom)
  · rfl
  · exact absurd (hmin k' hlt) (Nat.not_lt.mpr hroom')

/-- There is one if the size is at most the capacity. -/
theorem exists_shortest (m : WriteableCacheFile → ℕ) (hn : n ≤ c.opt.cacheSize.toNat) : ∃ k, c.Shortest m n k := by
  have hall : n + ((c.lruFiles.drop c.lruFiles.length).map m).sum ≤ c.opt.cacheSize.toNat := by
    rw [List.drop_length]
    exact hn
  have hex : ∃ k, n + ((c.lruFiles.drop k).map m).sum ≤ c.opt.cacheSize.toNat := ⟨_, hall⟩
  exact ⟨Nat.find hex, Nat.find_min' hex hall, Nat.find_spec hex, fun j hj => Nat.not_le.mp (Nat.find_min hex hj)⟩

/-! ### What is counted -/

/-- A size that does not fit into an `int` counts as `2 ^ 32` less. -/
theorem toNat_deleted (f : WriteableCacheFile) : (deleted f).toNat =
    if fullSize f < 2 ^ 31 then fullSize f else 2 ^ 64 - 2 ^ 32 + fullSize f := toNat_int _

theorem fullSize_lt (f : WriteableCacheFile) : fullSize f < 2 ^ 32 := UInt32.toNat_lt _

/-- The number of files with such a size. -/
def oversized (files : List WriteableCacheFile) : ℕ := files.countP fun f => 2 ^ 31 ≤ fullSize f

theorem toNat_foldl_deleted (files : List WriteableCacheFile) {size : UInt64} {r : ℕ}
    (hsize : size.toNat = ((files.map fullSize).sum + r) % 2 ^ 64) :
    (files.foldl (fun size f => size - deleted f) size).toNat = (r + 2 ^ 32 * oversized files) % 2 ^ 64 := by
  induction files generalizing size r with
  | nil => simpa [oversized] using hsize
  | cons f files ih =>
    have hlt := fullSize_lt f
    have hdeleted := toNat_deleted f
    rw [List.map_cons, List.sum_cons] at hsize
    rw [List.foldl_cons]
    by_cases hbig : 2 ^ 31 ≤ fullSize f
    · have hone : (size - deleted f).toNat = ((files.map fullSize).sum + (r + 2 ^ 32)) % 2 ^ 64 := by
        rw [if_neg (Nat.not_lt.mpr hbig)] at hdeleted
        rw [UInt64.toNat_sub]
        omega
      have hcount : oversized (f :: files) = oversized files + 1 := List.countP_cons_of_pos (decide_eq_true hbig)
      rw [ih hone, hcount]
      congr 1
      omega
    · have hone : (size - deleted f).toNat = ((files.map fullSize).sum + r) % 2 ^ 64 := by
        rw [if_pos (Nat.not_le.mp hbig)] at hdeleted
        rw [UInt64.toNat_sub]
        omega
      have hcount : oversized (f :: files) = oversized files := List.countP_cons_of_neg (mt of_decide_eq_true hbig)
      rw [ih hone, hcount]

/-- `size_` without the first `j` files is the size of the others, up to the errors. -/
theorem toNat_sizeWithout (hsize : c.size.toNat = (c.lruFiles.map fullSize).sum) (j : ℕ) : (c.sizeWithout j).toNat =
    (((c.lruFiles.drop j).map fullSize).sum + 2 ^ 32 * oversized (c.lruFiles.take j)) % 2 ^ 64 := by
  apply toNat_foldl_deleted
  rw [← List.sum_append, ← List.map_append, List.take_append_drop, ← hsize]
  exact (Nat.mod_eq_of_lt (UInt64.toNat_lt _)).symm

theorem sum_fullSize_le (files : List WriteableCacheFile) : (files.map fullSize).sum ≤ files.length * (2 ^ 32 - 1) := by
  have hsum := List.sum_le_card_nsmul (files.map fullSize) (2 ^ 32 - 1) fun size hs => by
    obtain ⟨f, -, rfl⟩ := List.mem_map.mp hs
    exact Nat.le_pred_of_lt (fullSize_lt f)
  rw [List.length_map] at hsum
  exact hsum

end FlashCache

/-- There are no more files than ids. -/
theorem Filed.length_lruFiles_le (h : Filed c) : c.lruFiles.length ≤ 2 ^ 32 := by
  have hnodup : ((c.metadata.cacheFileIndex.list.map Prod.snd).map UInt32.toNat).Nodup :=
    (LruCache.linked_iff.mp h.linked).keys_nodup.map fun _ _ => UInt32.toNat_inj.mp
  have hsub : (c.metadata.cacheFileIndex.list.map Prod.snd).map UInt32.toNat ⊆ List.range (2 ^ 32) := by
    intro n hn
    obtain ⟨id, -, rfl⟩ := List.mem_map.mp hn
    exact List.mem_range.mpr (UInt32.toNat_lt id)
  have hids := (hnodup.subperm hsub).length_le
  rw [List.length_map, List.length_range] at hids
  have hfiles : c.lruFiles.length ≤ (c.metadata.cacheFileIndex.list.map Prod.snd).reverse.length :=
    List.length_filterMap_le _ _
  rw [List.length_reverse] at hfiles
  exact hfiles.trans hids

namespace FlashCache

/-- What is left of `size_`, with the errors, fits into 64 bits, except at the end of
`2 ^ 32` errors. -/
theorem rest_lt (h : Filed c) (hj : j < c.lruFiles.length) :
    ((c.lruFiles.drop j).map fullSize).sum + 2 ^ 32 * oversized (c.lruFiles.take j) < 2 ^ 64 := by
  have hids := h.length_lruFiles_le
  have hrest := sum_fullSize_le (c.lruFiles.drop j)
  have herrors : oversized (c.lruFiles.take j) ≤ (c.lruFiles.take j).length := List.countP_le_length
  rw [List.length_drop] at hrest
  rw [List.length_take] at herrors
  omega

/-- Before the last file that has to go there is no room, whatever the errors are. -/
theorem Shortest.no_room (hk : c.Shortest fullSize n k) (h : Filed c) (hsize : c.size.toNat = (c.lruFiles.map fullSize).sum)
    (hj : j < k) : c.opt.cacheSize.toNat < n + (c.sizeWithout j).toNat := by
  have hover := hk.2.2 j hj
  rw [toNat_sizeWithout hsize, Nat.mod_eq_of_lt (rest_lt h (hj.trans_le hk.1))]
  omega

/-- Behind it there is room exactly if the files are counted: an error is more than the
last of them has. -/
theorem Shortest.room_iff (hk : c.Shortest fullSize n k) (h : Filed c)
    (hsize : c.size.toNat = (c.lruFiles.map fullSize).sum) :
    n + (c.sizeWithout k).toNat ≤ c.opt.cacheSize.toNat ↔ c.Counted k := by
  obtain ⟨hlen, hroom, hmin⟩ := hk
  have hids := h.length_lruFiles_le
  have hrest := sum_fullSize_le (c.lruFiles.drop k)
  have htake : (c.lruFiles.take k).length = k := List.length_take_of_le hlen
  have herrors : oversized (c.lruFiles.take k) ≤ (c.lruFiles.take k).length := List.countP_le_length
  rw [List.length_drop] at hrest
  rw [toNat_sizeWithout hsize]
  constructor
  · intro hstop
    by_contra hnot
    obtain ⟨hsmall, hlast⟩ := not_or.mp hnot
    simp only [not_forall, Nat.not_lt] at hsmall
    obtain ⟨f, hf, hbig⟩ := hsmall
    have herror : 0 < oversized (c.lruFiles.take k) := List.countP_pos_iff.mpr ⟨f, hf, decide_eq_true hbig⟩
    by_cases hwrap : ((c.lruFiles.drop k).map fullSize).sum + 2 ^ 32 * oversized (c.lruFiles.take k) < 2 ^ 64
    · obtain ⟨k, rfl⟩ : ∃ i, k = i + 1 := Nat.exists_eq_add_one_of_ne_zero (by omega)
      have hover := hmin k (Nat.lt_succ_self k)
      rw [List.drop_eq_getElem_cons hlen, List.map_cons, List.sum_cons] at hover
      have hlt := fullSize_lt c.lruFiles[k]
      rw [Nat.mod_eq_of_lt hwrap] at hstop
      omega
    · have hk : k = 2 ^ 32 := by omega
      have hall : oversized (c.lruFiles.take k) = (c.lruFiles.take k).length := by omega
      exact hlast ⟨hk, fun f hf => of_decide_eq_true (List.countP_eq_length.mp hall f hf)⟩
  · rintro (hsmall | ⟨hall, hbig⟩)
    · have hnone : oversized (c.lruFiles.take k) = 0 :=
        List.countP_eq_zero.mpr fun f hf hbig => Nat.not_lt.mpr (of_decide_eq_true hbig) (hsmall f hf)
      rw [hnone, Nat.mod_eq_of_lt (by omega)]
      exact hroom
    · have hevery : oversized (c.lruFiles.take k) = (c.lruFiles.take k).length :=
        List.countP_eq_length.mpr fun f hf => decide_eq_true (hbig f hf)
      omega

/-- **When the loop stops** with the last file that has to go, and not before. -/
theorem counted_iff (h : Filed c) (hsize : c.size.toNat = (c.lruFiles.map fullSize).sum) (hk : c.Shortest fullSize n k) :
    (∀ j, j ≤ k → (c.opt.cacheSize.toNat < n + (c.sizeWithout j).toNat ↔ j < k)) ↔ c.Counted k := by
  rw [← hk.room_iff h hsize]
  constructor
  · intro hloop
    exact Nat.not_lt.mp fun hover => Nat.lt_irrefl k ((hloop k (Nat.le_refl k)).mp hover)
  · intro hroom j hj
    rcases Nat.lt_or_eq_of_le hj with hlt | rfl
    · exact iff_of_true (hk.no_room h hsize hlt) hlt
    · exact iff_of_false (Nat.not_lt.mpr hroom) (Nat.lt_irrefl j)

end FlashCache

/-! ### The loop -/

theorem FlashCache.Looping.exceeds_iff (h : c₀.Looping c) : c.Exceeds n ↔ (c₀.drain n).exceeds c.size := by
  rw [Exceeds, h.opt_eq]
  exact Iff.rfl

theorem FlashCache.ExactRound.list_ne_nil (hr : FlashCache.ExactRound n c c') : c.metadata.cacheFileIndex.list ≠ [] := by
  cases hr with
  | round _ _ hevict _ _ => exact (Metadata.list_evict hevict).1

/-- **When the loop is safe and minimal**, whatever counts as the size of a file: `size_`
is counted down to the capacity with the last file that has to go, and not before. -/
theorem evictsMinimally_iff_counted (h : Filed c) : c.EvictsMinimally m n ↔ ∃ k, c.Shortest m n k ∧
    ∀ j, j ≤ k → (c.opt.cacheSize.toNat < n + (c.sizeWithout j).toNat ↔ j < k) ∧
      ∀ f, j < k → c.lruFiles[j]? = some f →
        c.fcacheMutex = false ∧ ∃ g, ({ c with size := c.sizeWithout j } : FlashCache).ClosesExactly f g := by
  have hloop : c.Looping c := ⟨h, rfl, rfl⟩
  have hdrains := FlashCache.drains_lruFiles n c
  have hexceeds : ∀ {c'}, ReflTransGen (FlashCache.ExactRound n) c c' → (c'.Exceeds n ↔ (c.drain n).exceeds c'.size) :=
    fun hc' => (hdrains.reach hloop hc').2.exceeds_iff
  have hdrain : c.EvictsMinimally m n ↔ ∃ k, c.Shortest m n k ∧
      ((c.drain n).GoesOn (c.size, c.lruFiles) ∧ (c.drain n).StopsAt (c.size, c.lruFiles) (c.lruFiles.drop k)) := by
    constructor
    · intro hmin
      have hgo : (c.drain n).GoesOn (c.size, c.lruFiles) :=
        (hdrains.goesOn_iff hloop).mpr fun c' hc' hover => (hmin.goesOn c' hc' ((hexceeds hc').mpr hover)).2
      obtain ⟨t, ht, hend⟩ := hgo.exists_stop
      obtain ⟨c', hc', rfl⟩ := hdrains.reach_lift hloop ht
      obtain ⟨-, k, hk, -⟩ := hmin.minimal c' hc' (mt (hexceeds hc').mp hend)
      refine ⟨k, hk, hgo, (hdrains.stopsAt_iff hloop).mpr fun c'' hc'' hover => ?_⟩
      obtain ⟨-, k', hk', hfiles⟩ := hmin.minimal c'' hc'' (mt (hexceeds hc'').mp hover)
      rw [hk.unique hk']
      exact hfiles
    · rintro ⟨k, hk, hgo, hstop⟩
      refine ⟨fun c' hc' hover => ?_, hdrains.acc hloop, fun c' hc' hnot => ⟨?_, k, hk, ?_⟩⟩
      · obtain ⟨c'', hround⟩ := (hdrains.goesOn_iff hloop).mp hgo c' hc' ((hexceeds hc').mp hover)
        exact ⟨hround.list_ne_nil, c'', hround⟩
      · exact Nat.not_lt.mp (mt (hexceeds hc').mpr hnot)
      · exact (hdrains.stopsAt_iff hloop).mp hstop c' hc' (mt (hexceeds hc').mpr hnot)
  rw [hdrain]
  exact exists_congr fun k => and_congr_right fun hk => Drain.drains_iff hk.1

/-- **When the loop is safe and minimal**: if there is room already, or if the size is at
most the capacity, the mutex is free, and the files that have to go can be closed and are
counted. -/
theorem evicts_minimally_iff (h : Filed c) (hsize : c.size.toNat = (c.lruFiles.map FlashCache.fullSize).sum) :
    c.EvictsMinimally FlashCache.fullSize n ↔ ¬ c.Exceeds n ∨ n ≤ c.opt.cacheSize.toNat ∧ c.fcacheMutex = false ∧
      ∀ k, c.Shortest FlashCache.fullSize n k → c.Closable k ∧ c.Counted k := by
  rw [evictsMinimally_iff_counted h]
  constructor
  · rintro ⟨k, hk, hall⟩
    have hcounted := (FlashCache.counted_iff h hsize hk).mp fun j hj => (hall j hj).1
    by_cases hover : c.Exceeds n
    · have hpos : 0 < k := ((hall 0 (Nat.zero_le k)).1.mp hover)
      obtain ⟨f, hf⟩ : ∃ f, c.lruFiles[0]? = some f := ⟨_, List.getElem?_eq_getElem (hpos.trans_le hk.1)⟩
      refine .inr ⟨(Nat.le_add_right n _).trans hk.2.1, ((hall 0 (Nat.zero_le k)).2 f hpos hf).1, fun k' hk' => ?_⟩
      obtain rfl := hk.unique hk'
      exact ⟨fun j f hj hf => ((hall j (Nat.le_of_lt hj)).2 f hj hf).2, hcounted⟩
    · exact .inl hover
  · rintro (hroom | ⟨hn, hlock, hall⟩)
    · refine ⟨0, ⟨Nat.zero_le _, ?_, fun j hj => nomatch hj⟩, fun j hj => ?_⟩
      · rw [List.drop_zero, ← hsize]
        exact Nat.not_lt.mp hroom
      · obtain rfl := Nat.le_zero.mp hj
        exact ⟨iff_of_false hroom (Nat.lt_irrefl 0), fun f hlt => absurd hlt (Nat.lt_irrefl 0)⟩
    · obtain ⟨k, hk⟩ := FlashCache.exists_shortest FlashCache.fullSize hn
      obtain ⟨hclose, hcounted⟩ := hall k hk
      have hloop := (FlashCache.counted_iff h hsize hk).mpr hcounted
      exact ⟨k, hk, fun j hj => ⟨hloop j hj, fun f hlt hf => ⟨hlock, hclose j f hlt hf⟩⟩⟩

/-- Two files of 18 bytes on disk, and room for 40: to make room for 18 bytes the first
one has to go. -/
theorem evicts_minimally_first : ∃ c : FlashCache, c.Exceeds 18 ∧ c.EvictsMinimally FlashCache.fullSize 18 := by
  obtain ⟨c, f, files, ho, hfiles, hfirst, hrest, hsize, hcap, hlock, htid, hfd⟩ : ∃ c f files,
      FlashCache.openDir (fun _ _ _ => 0) ⟨18, 32, 40⟩ 0
          [(0, images (fun _ => 0) [([97], [1])]), (1, images (fun _ => 0) [([98], [1])])] = .ok c ∧
        c.lruFiles = f :: files ∧ FlashCache.fullSize f = 18 ∧ (files.map FlashCache.fullSize).sum = 18 ∧ c.size = 36 ∧
        c.opt.cacheSize = 40 ∧ c.fcacheMutex = false ∧ f.tid = none ∧ f.fd.isSome :=
    ⟨_, _, _, rfl, rfl, rfl, rfl, rfl, rfl, rfl, rfl, rfl⟩
  have hfiled := (openDir_tracked (by decide) ho).1.toFiled
  have htotal : c.size.toNat = (c.lruFiles.map FlashCache.fullSize).sum := by
    rw [hfiles, List.map_cons, List.sum_cons, hfirst, hrest, hsize]
    rfl
  have hone : c.Shortest FlashCache.fullSize 18 1 := by
    refine ⟨?_, ?_, fun j hj => ?_⟩
    · rw [hfiles]
      exact Nat.le_add_left 1 _
    · rw [hfiles, List.drop_succ_cons, List.drop_zero, hrest, hcap]
      decide
    · obtain rfl := Nat.lt_one_iff.mp hj
      rw [hfiles, List.drop_zero, List.map_cons, List.sum_cons, hfirst, hrest, hcap]
      decide
  refine ⟨c, ?_, (evicts_minimally_iff hfiled htotal).mpr (.inr ⟨?_, hlock, fun k hk => ?_⟩)⟩
  · rw [FlashCache.Exceeds, hsize, hcap]
    decide
  · rw [hcap]
    decide
  · obtain rfl := hone.unique hk
    refine ⟨fun j g hj hg => ?_, .inl fun g hg => ?_⟩
    · obtain rfl := Nat.lt_one_iff.mp hj
      rw [hfiles] at hg
      obtain rfl : f = g := Option.some.inj hg
      exact ⟨_, .noWriter htid hfd⟩
    · rw [hfiles, List.take_succ_cons, List.take_zero, List.mem_singleton] at hg
      rw [hg, hfirst]
      decide

/-- The writer of a record of 18 bytes in a cache with room for 16: there is no room for its
buffer, however many files are removed. -/
theorem evict_finds_no_room : ∃ c f b, Reach (FlushStep fun _ => 0) Always (.start ⟨18, 32, 16⟩) { cache := c } ∧
    c.deref c.cacheFile = some f ∧ FlashCache.Fetches f b ∧ c.size.toNat = (c.lruFiles.map FlashCache.fullSize).sum ∧
      ¬ c.EvictsMinimally FlashCache.fullSize b.used := by
  have h0 := Reach.refl (R := FlushStep fun _ => 0) (C := fun s a => a.Accounted s) (.start ⟨18, 32, 16⟩)
  have h1 := h0.step (a := .insert [97] [1])
    ⟨by decide, of_decide_eq_true rfl, fun f hf he => by cases hf; cases he⟩
    (.insert (show FlashCache.insert (fun _ => 0) .writeBuffer [] _ [97] [1] = .ok (0, _) from rfl))
  have h2 := reach_writes h1 (p := 0) List.not_mem_nil rfl
    (.single ⟨⟨.semWait rfl Nat.one_pos, fun b hb => nomatch hb.1⟩, fun hret => nomatch hret⟩)
  obtain ⟨c, f, b, h, hf, hb, hused, hsize, hcap⟩ : ∃ c f b,
      Reach (FlushStep fun _ => 0) (fun s a => a.Accounted s) (.start ⟨18, 32, 16⟩) { cache := c } ∧
        c.deref c.cacheFile = some f ∧ FlashCache.Fetches f b ∧ b.used = 18 ∧
        c.size.toNat = (c.lruFiles.map FlashCache.fullSize).sum ∧ c.opt.cacheSize = 16 :=
    ⟨_, _, _, h2, rfl, ⟨rfl, Nat.one_pos, rfl⟩, rfl, rfl, rfl⟩
  refine ⟨c, f, b, h.mono fun _ _ _ => trivial, hf, hb, hsize, fun hmin => ?_⟩
  have hinv : Flushing.Invariant ⟨18, 32, 16⟩ { cache := c } :=
    h.invariant (Flushing.invariant_start (by decide)) fun s a t hs ha hstep => hstep.invariant ha hs
  obtain ⟨logs, hlogs⟩ := hinv.balanced.intact
  obtain ⟨k, hk, -⟩ := (evictsMinimally_iff_counted hlogs.filed).mp hmin
  have hroom : b.used ≤ c.opt.cacheSize.toNat := (Nat.le_add_right _ _).trans hk.2.1
  rw [hused, hcap] at hroom
  exact absurd hroom (by decide)
end EmbeddedKv.Store
