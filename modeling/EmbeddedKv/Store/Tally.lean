import EmbeddedKv.Flash.Held
import EmbeddedKv.Library.Totals
import EmbeddedKv.Store.Open

/-!
# The books of the flash cache

`size_` against the bytes that the files in the index hold.

## The model

What is known of a single file and its log is a parameter `P`: here it only matters that
such a file holds its log (`hheld`), and what `Append` does to it.

## What is proved

`Tallied` says that all files of the heap are in the index and have logs; new files,
changed files and removed files keep it, and change the total by what these hold.
`Reconciled` adds that `size_` is the total: `Insert` books what it puts into a file
(`Reconciled.insert`), and `Evict` takes out what the file held (`Reconciled.removed`) as
long as that is an `int`.
-/

namespace EmbeddedKv.Store

open EmbeddedKv.Library EmbeddedKv.Flash WriteableCacheFile

namespace FlashCache

/-- The bytes held by the file behind a pointer, if it is in the index. -/
def heldAt (c : FlashCache) (p : ℕ) : ℕ :=
  match c.deref p with
  | some f => if c.metadata.cacheFileIndex.find f.cacheId = some p then f.held else 0
  | none => 0

/-- **The record bytes that the indexed files hold**, on disk or in buffers. -/
def held (c : FlashCache) : ℕ := ∑ p ∈ Finset.range c.heap.length, c.heldAt p

end FlashCache

variable {crc : Bytes → UInt32} {mode : FlashcacheMode} {f g : WriteableCacheFile} {log key val : Bytes}
  {c c' : FlashCache} {p : ℕ} {logs : ℕ → Bytes} {P : WriteableCacheFile → Bytes → Prop}

/-- If only one file is changed, the total changes by what that file holds. -/
theorem held_update (c c' : FlashCache) (hlen : c'.heap.length = c.heap.length) (hp : p < c.heap.length)
    (hrest : ∀ q, q ≠ p → c'.heldAt q = c.heldAt q) : c'.held + c.heldAt p = c.held + c'.heldAt p := by
  rw [FlashCache.held, FlashCache.held, hlen]
  exact total_update c.heldAt c'.heldAt hp hrest

/-! ### The conversions -/

/-- What `Delete` returns as an `int`, as an `uint64_t`. -/
theorem toNat_int (x : UInt32) : x.toInt32.toInt64.toUInt64.toNat =
    if x.toNat < 2 ^ 31 then x.toNat else 2 ^ 64 - 2 ^ 32 + x.toNat := by
  have hbits : x.toInt32.toInt64.toUInt64.toNat = (x.toBitVec.signExtend 64).toNat := rfl
  have hlt := x.toNat_lt
  rw [hbits, BitVec.toNat_signExtend, BitVec.toNat_setWidth, BitVec.msb_eq_decide]
  simp only [UInt32.toNat_toBitVec]
  split_ifs with h <;> simp at * <;> omega

/-- Up to `INT_MAX` it is what it was. -/
theorem toNat_int_of_lt {n : ℕ} (hn : n < 2 ^ 31) : (UInt32.ofNat n).toInt32.toInt64.toUInt64.toNat = n := by
  have hmod : (UInt32.ofNat n).toNat = n := UInt32.toNat_ofNat_of_lt' (hn.trans (by decide))
  rw [toNat_int, hmod, if_pos hn]

/-! ### The files -/

/-- **All files are in the index, and have logs.** -/
structure Tallied (P : WriteableCacheFile → Bytes → Prop) (logs : ℕ → Bytes) (c : FlashCache) : Prop where
  /-- The index of the files is in order. -/
  filed : Filed c
  /-- Every file is in it. -/
  indexed : ∀ p f, c.deref p = some f → c.metadata.cacheFileIndex.find f.cacheId = some p
  /-- Every file has its log. -/
  files : ∀ p f, c.deref p = some f → P f (logs p)

/-- The same files under the same ids. -/
theorem Tallied.congr (h : Tallied P logs c) (c' : FlashCache) (hlinked : c'.metadata.cacheFileIndex.Linked)
    (hfind : ∀ id, c'.metadata.cacheFileIndex.find id = c.metadata.cacheFileIndex.find id) (hheap : c'.heap = c.heap)
    (hdir : c'.dir = c.dir) : Tallied P logs c' ∧ c'.held = c.held := by
  have hderef : ∀ q, c'.deref q = c.deref q := fun q => by rw [FlashCache.deref, hheap, FlashCache.deref]
  refine ⟨⟨h.filed.congr hlinked hfind hheap hdir, fun q e he => ?_, fun q e he => ?_⟩, ?_⟩
  · rw [hfind]
    exact h.indexed q e ((hderef q).symm.trans he)
  · exact h.files q e ((hderef q).symm.trans he)
  · rw [FlashCache.held, FlashCache.held, hheap]
    apply Finset.sum_congr rfl
    intro q _
    rw [FlashCache.heldAt, FlashCache.heldAt, hderef]
    cases c.deref q with
    | none => rfl
    | some e => simp only [hfind]

section Held

variable (hheld : ∀ f log, P f log → f.held = log.length)

include hheld

/-- A file holds its log. -/
theorem Tallied.heldAt_eq (h : Tallied P logs c) (hf : c.deref p = some f) : c.heldAt p = (logs p).length := by
  rw [FlashCache.heldAt, hf]
  simp only [h.indexed p f hf, if_true]
  exact hheld f _ (h.files p f hf)

/-- **A file is changed**, and its log grows. -/
theorem Tallied.store (h : Tallied P logs c) (hf : c.deref p = some f) {more : Bytes} (hg : P g (logs p ++ more))
    (hid : g.cacheId = f.cacheId) : Tallied P (Function.update logs p (logs p ++ more)) (c.store p g) ∧
      (c.store p g).held = c.held + more.length := by
  have hderef := FlashCache.deref_store hf g
  have hself : (c.store p g).deref p = some g := (hderef p).trans (if_pos rfl)
  have hother : ∀ {q}, q ≠ p → (c.store p g).deref q = c.deref q := fun hq => (hderef _).trans (if_neg hq)
  have hnew : Tallied P (Function.update logs p (logs p ++ more)) (c.store p g) := by
    refine ⟨h.filed.store hf hid, fun q e he => ?_, fun q e he => ?_⟩
    · by_cases hq : q = p
      · subst hq
        obtain rfl := Option.some.inj (hself.symm.trans he)
        rw [hid]
        exact h.indexed q f hf
      · rw [hother hq] at he
        exact h.indexed q e he
    · by_cases hq : q = p
      · subst hq
        obtain rfl := Option.some.inj (hself.symm.trans he)
        rw [Function.update_self]
        exact hg
      · rw [hother hq] at he
        rw [Function.update_of_ne hq]
        exact h.files q e he
  have hsum := held_update c (c.store p g) List.length_set (FlashCache.lt_of_deref hf) fun q hq => by
    rw [FlashCache.heldAt, FlashCache.heldAt, hother hq]
    rfl
  rw [h.heldAt_eq hheld hf, hnew.heldAt_eq hheld hself, Function.update_self, List.length_append] at hsum
  exact ⟨hnew, by omega⟩

/-- **A file is added** behind a new pointer, under an id that is not in use. -/
theorem Tallied.add (h : Tallied P logs c) (hfiled : Filed c') (hlen : c'.heap.length = c.heap.length + 1)
    (hderef : ∀ q, c'.deref q = if q = c.heap.length then some f else c.deref q)
    (hfind : ∀ id, c'.metadata.cacheFileIndex.find id =
      if id = f.cacheId then some c.heap.length else c.metadata.cacheFileIndex.find id)
    (hfree : c.metadata.cacheFileIndex.find f.cacheId = none) (hf : P f log) :
    Tallied P (Function.update logs c.heap.length log) c' ∧ c'.held = c.held + log.length := by
  have hself : c'.deref c.heap.length = some f := (hderef _).trans (if_pos rfl)
  have hother : ∀ {q}, q ≠ c.heap.length → c'.deref q = c.deref q := fun hq => (hderef _).trans (if_neg hq)
  -- the files that were there are found as before
  have hold : ∀ {q e}, c.deref q = some e → c'.metadata.cacheFileIndex.find e.cacheId = some q := by
    intro q e he
    have hq := h.indexed q e he
    rw [hfind, if_neg]
    · exact hq
    · intro heq
      rw [heq, hfree] at hq
      cases hq
  have hnew : Tallied P (Function.update logs c.heap.length log) c' := by
    refine ⟨hfiled, fun q e he => ?_, fun q e he => ?_⟩
    · by_cases hq : q = c.heap.length
      · subst hq
        obtain rfl := Option.some.inj (hself.symm.trans he)
        rw [hfind, if_pos rfl]
      · exact hold ((hother hq).symm.trans he)
    · by_cases hq : q = c.heap.length
      · subst hq
        obtain rfl := Option.some.inj (hself.symm.trans he)
        rw [Function.update_self]
        exact hf
      · rw [hother hq] at he
        rw [Function.update_of_ne hq]
        exact h.files q e he
  refine ⟨hnew, ?_⟩
  rw [FlashCache.held, hlen, total_succ c.heldAt c'.heldAt, hnew.heldAt_eq hheld hself, Function.update_self,
    FlashCache.held]
  intro q hlt
  rw [FlashCache.heldAt, FlashCache.heldAt, hother (Nat.ne_of_lt hlt)]
  cases he : c.deref q with
  | none => rfl
  | some e => simp only [hold he, h.indexed q e he]

/-- **A new file**, under an id that is not in use, holds nothing. -/
theorem Tallied.withNewFile (h : Tallied P logs c) (hid : c.writerCacheId ∉ c.dir)
    (hnew : P (fresh c.writerCacheId c.opt.cacheFileSize c.opt.writeBufferSize) []) :
    Tallied P (Function.update logs c.heap.length []) c.withNewFile ∧ c.withNewFile.held = c.held := by
  have hderef := c.deref_withNewFile
  rw [decide_eq_false hid] at hderef
  have hfree : c.metadata.cacheFileIndex.find c.writerCacheId = none := by
    by_contra hne
    obtain ⟨q, hq⟩ := Option.ne_none_iff_exists'.mp hne
    exact hid (h.filed.indexed _ q hq).1
  have hfind : ∀ id, c.withNewFile.metadata.cacheFileIndex.find id =
      if id = c.writerCacheId then some c.heap.length else c.metadata.cacheFileIndex.find id := by
    intro id
    rw [find_withNewFile]
    split_ifs with heq
    · rw [heq, hfree, Option.getD_none]
    · rfl
  exact h.add hheld h.filed.withNewFile List.length_append hderef hfind hfree hnew

/-- **A removed file** takes what it held out of the total. -/
theorem Tallied.removed (h : Tallied P logs c) {metadata : Metadata}
    (hevict : c.metadata.evict (fun p => (c.deref p).map WriteableCacheFile.cacheId) = .ok (p, metadata))
    (hf : c.deref p = some f) (hgid : g.cacheId = f.cacheId) (hgkeys : g.keyLists = f.keyLists) (unlinked : Bool) :
    Tallied P logs (c.removed metadata p g unlinked) ∧
      (c.removed metadata p g unlinked).held + (logs p).length = c.held := by
  obtain ⟨-, hfind, hfinds, hderef, -, hfiled⟩ := h.filed.removed hevict hf hgid hgkeys unlinked
  have hother : ∀ {q e}, (c.removed metadata p g unlinked).deref q = some e → q ≠ p ∧ c.deref q = some e := by
    intro q e he
    rw [hderef] at he
    split_ifs at he with hq
    exact ⟨hq, he⟩
  -- another file has another id, and is found as before
  have hsame : ∀ {q e}, q ≠ p → c.deref q = some e →
      (c.removed metadata p g unlinked).metadata.cacheFileIndex.find e.cacheId = some q := by
    intro q e hq he
    have hfound := h.indexed q e he
    rw [hfinds, if_neg]
    · exact hfound
    · intro heq
      rw [heq, hfind] at hfound
      exact hq (Option.some.inj hfound).symm
  have hgone : (c.removed metadata p g unlinked).heldAt p = 0 := by
    rw [FlashCache.heldAt, hderef, if_pos rfl]
  have hsum := held_update c (c.removed metadata p g unlinked) List.length_set (FlashCache.lt_of_deref hf)
    fun q hq => by
      rw [FlashCache.heldAt, FlashCache.heldAt, hderef, if_neg hq]
      cases he : c.deref q with
      | none => rfl
      | some e => simp only [hsame hq he, h.indexed q e he]
  rw [h.heldAt_eq hheld hf, hgone] at hsum
  refine ⟨⟨hfiled, fun q e he => ?_, fun q e he => h.files q e (hother he).2⟩, hsum⟩
  obtain ⟨hq, he⟩ := hother he
  exact hsame hq he

/-! ### The books -/

/-- The file that gets the record of an `Insert`, if it is new, adds nothing. -/
theorem Tallied.target {c₁ : FlashCache} (h : Tallied P logs c)
    (hfresh : ∀ f, c.deref c.cacheFile = some f → f.eof = true → c.writerCacheId ∉ c.dir)
    (hnew : P (fresh c.writerCacheId c.opt.cacheFileSize c.opt.writeBufferSize) [])
    (ht : FlashCache.Target mode c c₁) : ∃ logs₁, Tallied P logs₁ c₁ ∧ c₁.held = c.held ∧ c₁.size = c.size := by
  obtain ⟨hlocked, hsame⟩ := h.congr { c with fcacheMutex := true } h.filed.linked (fun _ => rfl) rfl rfl
  cases ht with
  | current => exact ⟨logs, hlocked, rfl, rfl⟩
  | rolled hfull he hunused =>
    obtain ⟨hadded, hzero⟩ := hlocked.withNewFile hheld (hfresh _ hfull he) hnew
    exact ⟨_, hadded, hzero.trans hsame, rfl⟩

omit hheld in
/-- **The books are right**: all files have their logs, and `size_` is what they hold. -/
def Reconciled (P : WriteableCacheFile → Bytes → Prop) (c : FlashCache) : Prop :=
  ∃ logs, Tallied P logs c ∧ c.size.toNat = c.held

/-- **`Insert`** books the bytes that it puts into the file. -/
theorem Reconciled.insert (h : Reconciled P c) {writes : List IoResult} {r : Int}
    (hnew : P (fresh c.writerCacheId c.opt.cacheFileSize c.opt.writeBufferSize) [])
    (happend : ∀ {f g log lba lba' ok}, P f log → f.eof = false →
      f.append crc mode writes key val lba = .ok (ok, lba', g) → ok = true ∧ P g (log ++ image crc key val) ∧
        recordSize key val < 2 ^ 32 ∧ lba'.size = CacheRecord.calcSize key val)
    (hfresh : ∀ f, c.deref c.cacheFile = some f → f.eof = true → c.writerCacheId ∉ c.dir)
    (hsum : c.held + recordSize key val < 2 ^ 64) (hr : c.insert crc mode writes key val = .ok (r, c')) :
    Reconciled P c' ∧ c'.held = c.held + recordSize key val := by
  obtain ⟨logs, hlogs, hsize⟩ := h
  obtain ⟨c₁, f, g, lba, lba', ok, ht, hf, heof, ha, hstate⟩ := FlashCache.insert_cases hr
  obtain ⟨logs₁, h₁, hheld₁, hsize₁⟩ := hlogs.target hheld hfresh hnew ht
  obtain ⟨rfl, hg, hsmall, hlba⟩ := happend (h₁.files _ f hf) heof ha
  obtain ⟨-, rfl⟩ | ⟨hok, -⟩ := hstate
  · obtain ⟨hstored, hgrow⟩ := h₁.store hheld hf hg (append_keys ha).1
    rw [length_image, hheld₁] at hgrow
    have hindex : (c₁.booked g key lba').metadata.cacheFileIndex = (c₁.store c₁.cacheFile g).metadata.cacheFileIndex :=
      Metadata.cacheFileIndex_insert _ _ _
    obtain ⟨hbooked, hsame⟩ := hstored.congr (c₁.booked g key lba') (by rw [hindex]; exact hstored.filed.linked)
      (fun _ => by rw [hindex]) rfl rfl
    refine ⟨⟨_, hbooked, ?_⟩, hsame.trans hgrow⟩
    rw [hsame, hgrow, ← hsize]
    show (c₁.size + lba'.size.toUInt64).toNat = _
    rw [← hsize] at hsum
    rw [hsize₁, hlba, UInt64.toNat_add, UInt32.toNat_toUInt64, CacheRecord.toNat_calcSize_of_lt hsmall,
      Nat.mod_eq_of_lt hsum]
  · cases hok

/-- **A file is changed** and holds what it held. -/
theorem Reconciled.store (h : Reconciled P c) (hf : c.deref p = some f) (hg : ∀ log, P f log → P g log)
    (hid : g.cacheId = f.cacheId) : Reconciled P (c.store p g) ∧ (c.store p g).held = c.held := by
  obtain ⟨logs, hlogs, hsize⟩ := h
  have hwhole : P g (logs p ++ []) := by
    rw [List.append_nil]
    exact hg _ (hlogs.files p f hf)
  obtain ⟨hnew, hsame⟩ := hlogs.store hheld hf hwhole hid
  exact ⟨⟨_, hnew, hsize.trans hsame.symm⟩, hsame⟩

/-- **A removed file** takes what it held out of the books. -/
theorem Reconciled.removed (h : Reconciled P c) {metadata : Metadata}
    (hevict : c.metadata.evict (fun p => (c.deref p).map WriteableCacheFile.cacheId) = .ok (p, metadata))
    (hf : c.deref p = some f) (hgid : g.cacheId = f.cacheId) (hgkeys : g.keyLists = f.keyLists)
    (hfilesize : ∀ log, P f log → g.filesize = UInt32.ofNat log.length) (hint : f.held < 2 ^ 31) :
    Reconciled P (c.removed metadata p g true) := by
  obtain ⟨logs, hlogs, hsize⟩ := h
  obtain ⟨hnew, hsum⟩ := hlogs.removed hheld hevict hf hgid hgkeys true
  refine ⟨logs, hnew, ?_⟩
  rw [hheld f _ (hlogs.files p f hf)] at hint
  have hsub : g.filesize.toInt32.toInt64.toUInt64.toNat = (logs p).length := by
    rw [hfilesize _ (hlogs.files p f hf), toNat_int_of_lt hint]
  show (c.size - g.filesize.toInt32.toInt64.toUInt64).toNat = _
  have hfits : g.filesize.toInt32.toInt64.toUInt64 ≤ c.size := by
    rw [UInt64.le_iff_toNat_le, hsub, hsize]
    omega
  rw [UInt64.toNat_sub_of_le _ _ hfits, hsub, hsize]
  omega

end Held

end EmbeddedKv.Store
