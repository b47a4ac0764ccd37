import EmbeddedKv.Flash.Torn
import EmbeddedKv.Store.FreshIds
import EmbeddedKv.Store.Restart

/-!
# Crashes

A store that may crash at any time and is opened again on what is left in its directory.

## The model

`Host` is the store that runs, and the files that it has deleted. A crash (`Leaves`) leaves
some of the files, each with a prefix of the bytes that were written to it: the buffers are
lost, the last write may be cut anywhere, and a file that was deleted may be there again.
A crash in the middle of a call is one after the call, since what the call has written by
then is a prefix of what it writes. `Open` reads the directory in any order, and memory
that it allocates holds anything.

## What is proved

- `lookup_after_crashes`: whatever was called, evicted and written, and however often the
  store has crashed and was opened again, a `Lookup` returns `NULL`, the empty value, or a
  value that was inserted under its key. `Open` returns exactly if all ids that are left
  are below 999.
- `open_finds_whole`: a record that is whole on the disk is not lost: after `Open` its key
  has a value that was inserted under it, unless an address of the key was found before it
  that ends behind the end of its file.
-/

namespace EmbeddedKv.Store

open EmbeddedKv.Library EmbeddedKv.Flash WriteableCacheFile

variable {crc : Bytes → UInt32} {mode : FlashcacheMode} {put put' : Bytes → Bytes → Prop} {f g : WriteableCacheFile}
  {file key val : Bytes} {recs more : List (Bytes × Bytes)} {lba : LBA} {p : ℕ}

/-! ### Files -/

/-- A file that `Open` has found: it is at its end, and no thread writes to it. -/
structure Found (f : WriteableCacheFile) (file : Bytes) : Prop where
  /-- It takes no more records. -/
  eof : f.eof = true
  /-- It has no buffers. -/
  bufs : f.bufs = []
  /-- It has no writer. -/
  tid : f.tid = none
  /-- Its bytes. -/
  fd : f.fd = some file

/-- It is read from the disk. -/
theorem Found.closed (h : Found f file) (mode : FlashcacheMode) : f.closed mode = true := by
  cases mode with
  | direct => rfl
  | writeBuffer => simp [WriteableCacheFile.closed, h.eof, h.bufs]

/-- No thread writes to it. -/
theorem Found.not_writer (h : Found f file) (hw : f.WriterStep g) : False := by
  have htid := h.tid
  cases hw <;> simp_all

/-- A cache file that has the records of a list, those that are not written yet included, or
a part of their bytes. -/
inductive Keeps (crc : Bytes → UInt32) (mode : FlashcacheMode) (f : WriteableCacheFile) (recs : List (Bytes × Bytes)) :
    Prop where
  /-- A file of the cache that runs. -/
  | live (h : FileSound mode f (images crc recs))
  /-- A file that was found. -/
  | found {file : Bytes} (h : Found f file) (hpre : file <+: images crc recs)

theorem FileSound.holds {log : Bytes} (h : FileSound mode f log) : f.Holds log := by
  cases mode with
  | direct =>
    obtain ⟨hfd, hbufs, -⟩ := h.direct rfl
    exact ⟨⟨log, hfd, List.prefix_refl _⟩, by rw [hbufs]; exact Cut.nil _ _⟩
  | writeBuffer => exact (h.buffered rfl).holds

theorem Keeps.holds (h : Keeps crc mode f recs) : f.Holds (images crc recs) := by
  cases h with
  | live h => exact h.holds
  | found h hpre => exact ⟨⟨_, h.fd, hpre⟩, by rw [h.bufs]; exact Cut.nil _ _⟩

/-- What is written is a prefix of the records. -/
theorem Keeps.written (h : Keeps crc mode f recs) (hfd : f.fd = some file) : file <+: images crc recs := by
  obtain ⟨d, hd, hpre⟩ := h.holds.file
  rwa [Option.some.inj (hfd.symm.trans hd)]

/-- Only a file of the cache that runs is written to. -/
theorem Keeps.writer (h : Keeps crc mode f recs) (hw : f.WriterStep g) : Keeps crc mode g recs := by
  cases h with
  | live h => exact .live (h.writer hw)
  | found h => exact (h.not_writer hw).elim

/-- **The way from a key to its record**: the record is there, or what is there is torn. -/
inductive Leads (crc : Bytes → UInt32) (f : WriteableCacheFile) (recs : List (Bytes × Bytes)) (key : Bytes) (lba : LBA) :
    Prop where
  /-- A record of the key. -/
  | whole (hin : (key, lba) ∈ located lba.cacheId 0 recs)
  /-- A part of some record, at the end of a file that was found. -/
  | torn {file : Bytes} (h : Found f file) (hend : file.length < lba.off.toNat + lba.size.toNat) (htorn : Torn crc file lba)

/-- More records come behind it. -/
theorem Leads.grow (h : Leads crc f recs key lba) (hlive : ∀ file, ¬ Found f file) (g : WriteableCacheFile)
    (more : List (Bytes × Bytes)) : Leads crc g (recs ++ more) key lba := by
  cases h with
  | whole hin =>
    refine .whole ?_
    rw [located_append]
    exact List.mem_append_left _ hin
  | torn h => exact absurd h (hlive _)

/-- **The records of a file are known**: they were put there, and they fit into a file. -/
structure Known (put : Bytes → Bytes → Prop) (recs : List (Bytes × Bytes)) : Prop where
  /-- They fit. -/
  size : imagesSize recs < 2 ^ 32
  /-- They were put there, and hold no zero byte. -/
  put : ∀ r ∈ recs, NulFree r.1 ∧ NulFree r.2 ∧ put r.1 r.2

theorem Known.mono (h : Known put recs) (himp : ∀ key val, put key val → put' key val) : Known put' recs :=
  ⟨h.size, fun r hr => ⟨(h.put r hr).1, (h.put r hr).2.1, himp _ _ (h.put r hr).2.2⟩⟩

/-- Records are all of their log. -/
theorem images_self (crc : Bytes → UInt32) (recs : List (Bytes × Bytes)) :
    (images crc recs).drop 0 = images crc recs ++ [] := (List.append_nil _).symm

/-- **What `Read` returns** for the address of a key is what was put under the key. -/
theorem Leads.read (h : Leads crc f recs key lba) (hfile : Keeps crc mode f recs) (hknown : Known put recs)
    {env : Environment} {r : Bytes × Bytes} (hr : f.read crc mode env lba = .ok (some r)) : put key r.2 := by
  cases h with
  | whole hin =>
    obtain ⟨-, val, hrec, hsize, hat⟩ := at_of_located (images_self crc recs) (by simpa using hknown.size) hin
    obtain ⟨hk, hv, hput⟩ := hknown.put _ hrec
    rw [read_stored hfile.holds hat hk hv hsize hr]
    exact hput
  | torn h hend htorn => cases htorn.read (h.closed mode) h.fd hr

/-! ### The cache -/

/-- **What always holds of a store that may have crashed**: its files keep records that were
put there, and the index leads to them, or to what is torn. Ids are below `next`. -/
structure CrashSound (crc : Bytes → UInt32) (mode : FlashcacheMode) (put : Bytes → Bytes → Prop)
    (recs : ℕ → List (Bytes × Bytes)) (next : UInt32) (c : FlashCache) : Prop extends Filed c where
  /-- The ids of the directory. -/
  above : ∀ id ∈ c.dir, id < next
  /-- The files. -/
  files : ∀ p f, c.deref p = some f → Keeps crc mode f (recs p) ∧ Known put (recs p)
  /-- The index of the keys. -/
  entries : ∀ key lba, c.metadata.lookup key = some lba → lba.cacheId < next ∧
    ∀ p f, c.metadata.cacheFileIndex.find lba.cacheId = some p → c.deref p = some f → Leads crc f (recs p) key lba

/-- The file that is appended to is the one that is found under its id. -/
def Current (c : FlashCache) : Prop :=
  ∀ f, c.deref c.cacheFile = some f → f.cacheId < c.writerCacheId ∧
    ∀ p, c.metadata.cacheFileIndex.find f.cacheId = some p → p = c.cacheFile

variable {recs : ℕ → List (Bytes × Bytes)} {next : UInt32} {c c' : FlashCache}

theorem CrashSound.mono (h : CrashSound crc mode put recs next c) (himp : ∀ key val, put key val → put' key val) :
    CrashSound crc mode put' recs next c :=
  { h with files := fun p f hf => ⟨(h.files p f hf).1, (h.files p f hf).2.mono himp⟩ }

/-- **A `Lookup`** returns what was put under its key, or nothing. -/
theorem CrashSound.lookup_put (h : CrashSound crc mode put recs next c) {env : Environment}
    (hr : c.lookup crc mode env key = .ok (some val, c')) : val = [] ∨ put key val := by
  cases FlashCache.Looked.of_lookup hr with
  | @read lba index p f out hl hget hf hread =>
    cases out with
    | none => exact .inl rfl
    | some r =>
      have hp := (LruCache.get_eq_find hget).symm
      obtain ⟨hfile, hknown⟩ := h.files p f hf
      exact .inr (((h.entries key lba hl).2 p f hp hf).read hfile hknown hread)

/-- A file is changed that is no file that was found. -/
theorem CrashSound.store (h : CrashSound crc mode put recs next c) (hf : c.deref p = some f)
    (hlive : ∀ file, ¬ Found f file) {more : List (Bytes × Bytes)} (hg : Keeps crc mode g (recs p ++ more))
    (hknown : Known put (recs p ++ more)) (hid : g.cacheId = f.cacheId) :
    CrashSound crc mode put (Function.update recs p (recs p ++ more)) next (c.store p g) := by
  have hderef := fun q => FlashCache.deref_store hf g q
  refine ⟨h.toFiled.store hf hid, h.above, fun q e he => ?_, fun k l hl => ⟨(h.entries k l hl).1, fun q e hq he => ?_⟩⟩
  · rw [hderef] at he
    by_cases hqp : q = p
    · rw [if_pos hqp] at he
      obtain rfl := Option.some.inj he
      rw [hqp, Function.update_self]
      exact ⟨hg, hknown⟩
    · rw [if_neg hqp] at he
      rw [Function.update_of_ne hqp]
      exact h.files q e he
  · rw [hderef] at he
    by_cases hqp : q = p
    · rw [if_pos hqp] at he
      obtain rfl := Option.some.inj he
      subst hqp
      rw [Function.update_self]
      exact ((h.entries k l hl).2 q f hq hf).grow hlive g more
    · rw [if_neg hqp] at he
      rw [Function.update_of_ne hqp]
      exact (h.entries k l hl).2 q e hq he

/-- A new file, if ids do not run out. -/
theorem CrashSound.withNewFile (h : CrashSound crc mode put recs c.writerCacheId c)
    (hroom : mode = .writeBuffer → 0 < c.opt.writeBufferSize.toNat) (hid : c.writerCacheId.toNat + 1 < 2 ^ 32) :
    CrashSound crc mode put (Function.update recs c.heap.length []) (c.writerCacheId + 1) c.withNewFile ∧
      Current c.withNewFile := by
  have hfresh : c.writerCacheId ∉ c.dir := fun hin => UInt32.lt_irrefl _ (h.above _ hin)
  have hsucc : (c.writerCacheId + 1).toNat = c.writerCacheId.toNat + 1 := by
    rw [UInt32.toNat_add]
    exact Nat.mod_eq_of_lt (by simp; omega)
  have hlt : ∀ id : UInt32, id < c.writerCacheId → id < c.writerCacheId + 1 := by
    intro id hid
    rw [UInt32.lt_iff_toNat_lt] at hid ⊢
    omega
  have hnone : c.metadata.cacheFileIndex.find c.writerCacheId = none := by
    by_contra hne
    obtain ⟨q, hq⟩ := Option.ne_none_iff_exists'.mp hne
    exact hfresh (h.indexed _ q hq).1
  have hfind : ∀ id, c.withNewFile.metadata.cacheFileIndex.find id =
      if id = c.writerCacheId then some c.heap.length else c.metadata.cacheFileIndex.find id := by
    intro id
    rw [find_withNewFile]
    split_ifs with heq
    · rw [heq, hnone, Option.getD_none]
    · rfl
  have hderef := c.deref_withNewFile
  rw [decide_eq_false hfresh] at hderef
  refine ⟨⟨h.toFiled.withNewFile, fun id hin => ?_, fun q e he => ?_, fun k l hl => ⟨?_, fun q e hq he => ?_⟩⟩,
    fun e he => ?_⟩
  · rcases (mem_dir_withNewFile c id).mp hin with hold | rfl
    · exact hlt id (h.above id hold)
    · rw [UInt32.lt_iff_toNat_lt]
      omega
  · rw [hderef] at he
    by_cases hq : q = c.heap.length
    · rw [if_pos hq] at he
      obtain rfl := Option.some.inj he
      rw [hq, Function.update_self]
      exact ⟨.live (fileSound_fresh mode _ _ hroom), ⟨by simp, by simp⟩⟩
    · rw [if_neg hq] at he
      rw [Function.update_of_ne hq]
      exact h.files q e he
  · exact hlt _ (h.entries k l hl).1
  · have hne : l.cacheId ≠ c.writerCacheId := fun heq => UInt32.lt_irrefl _ (heq ▸ (h.entries k l hl).1)
    rw [hfind, if_neg hne] at hq
    obtain ⟨-, e', he', -⟩ := h.indexed _ q hq
    have hold : q ≠ c.heap.length := Nat.ne_of_lt (FlashCache.lt_of_deref he')
    rw [hderef, if_neg hold] at he
    rw [Function.update_of_ne hold]
    exact (h.entries k l hl).2 q e hq he
  · rw [hderef, show c.withNewFile.cacheFile = c.heap.length from rfl, if_pos rfl] at he
    obtain rfl := Option.some.inj he
    refine ⟨UInt32.lt_iff_toNat_lt.mpr (show c.writerCacheId.toNat < (c.writerCacheId + 1).toNat by omega), fun q hq => ?_⟩
    rw [hfind] at hq
    exact (Option.some.inj ((if_pos rfl).symm.trans hq)).symm

/-- A key gets an address. -/
theorem CrashSound.book (h : CrashSound crc mode put recs next c) (hlt : lba.cacheId < next)
    (hleads : ∀ p f, c.metadata.cacheFileIndex.find lba.cacheId = some p → c.deref p = some f →
      Leads crc f (recs p) key lba) (size : UInt64) (locked : Bool) :
    CrashSound crc mode put recs next { c with size, metadata := c.metadata.insert key lba, fcacheMutex := locked } := by
  have hindex := Metadata.cacheFileIndex_insert c.metadata key lba
  refine ⟨?_, h.above, h.files, fun k l hl => ?_⟩
  · exact h.toFiled.congr (by rw [hindex]; exact h.linked) (fun id => by rw [hindex]) rfl rfl
  · rw [Metadata.lookup_insert] at hl
    rw [hindex]
    split_ifs at hl with hk
    · subst hk
      cases hold : c.metadata.lookup k with
      | some lba' =>
        rw [hold, Option.getD_some] at hl
        exact h.entries k l (hold.trans hl)
      | none =>
        rw [hold, Option.getD_none] at hl
        obtain rfl := Option.some.inj hl
        exact ⟨hlt, hleads⟩
    · exact h.entries k l hl

/-- The index of the files changes its order, and the mutex is taken or given back. -/
theorem CrashSound.touch (h : CrashSound crc mode put recs next c) (hlinked : c'.metadata.cacheFileIndex.Linked)
    (hfind : ∀ id, c'.metadata.cacheFileIndex.find id = c.metadata.cacheFileIndex.find id)
    (hblock : c'.metadata.blockIndex = c.metadata.blockIndex) (hheap : c'.heap = c.heap) (hdir : c'.dir = c.dir) :
    CrashSound crc mode put recs next c' := by
  have hderef : ∀ q, c'.deref q = c.deref q := fun q => by rw [FlashCache.deref, FlashCache.deref, hheap]
  refine ⟨h.toFiled.congr hlinked hfind hheap hdir, by rw [hdir]; exact h.above, fun q f hf => ?_, fun k l hl => ?_⟩
  · rw [hderef] at hf
    exact h.files q f hf
  · rw [Metadata.lookup, hblock] at hl
    refine ⟨(h.entries k l hl).1, fun q f hq hf => ?_⟩
    rw [hfind] at hq
    rw [hderef] at hf
    exact (h.entries k l hl).2 q f hq hf

/-! ### The calls -/

/-- **There is a place for a record**: its end is within 32 bits, and if a new file is needed,
ids do not run out. -/
def Room (c : FlashCache) (key val : Bytes) : Prop :=
  recordSize key val < 2 ^ 32 ∧ ∀ f, c.deref c.cacheFile = some f →
    (f.eof = false → f.diskWoff.toNat + recordSize key val < 2 ^ 32) ∧ (f.eof = true → c.writerCacheId.toNat + 1 < 2 ^ 32)

instance (c : FlashCache) (key val : Bytes) : Decidable (Room c key val) :=
  match hf : c.deref c.cacheFile with
  | none => decidable_of_iff (recordSize key val < 2 ^ 32)
      ⟨fun h => ⟨h, fun f hf' => by rw [hf] at hf'; cases hf'⟩, And.left⟩
  | some f => decidable_of_iff (recordSize key val < 2 ^ 32 ∧
        (f.eof = false → f.diskWoff.toNat + recordSize key val < 2 ^ 32) ∧
        (f.eof = true → c.writerCacheId.toNat + 1 < 2 ^ 32))
      ⟨fun h => ⟨h.1, fun g hg => by rw [hf] at hg; cases hg; exact h.2⟩, fun h => ⟨h.1, h.2 f hf⟩⟩

/-- Buffers have room. -/
def Buffers (mode : FlashcacheMode) (opt : FlashCacheConfig) : Prop := mode = .writeBuffer → 0 < opt.writeBufferSize.toNat

instance (mode : FlashcacheMode) (opt : FlashCacheConfig) : Decidable (Buffers mode opt) :=
  inferInstanceAs (Decidable (_ → _))

/-- A file before its end is one of the cache that runs. -/
theorem Keeps.fileSound (h : Keeps crc mode f more) (he : f.eof = false) : FileSound mode f (images crc more) := by
  cases h with
  | live h => exact h
  | found h => exact absurd (he.symm.trans h.eof) Bool.false_ne_true

/-- **`Insert`**. -/
theorem CrashSound.insert (h : CrashSound crc mode put recs c.writerCacheId c) (hcur : Current c)
    (hbuf : Buffers mode c.opt) (hk : NulFree key) (hv : NulFree val) (hroom : Room c key val)
    {writes : List IoResult} {r : Int} (hr : c.insert crc mode writes key val = .ok (r, c')) :
    ∃ recs', CrashSound crc mode (fun k v => put k v ∨ k = key ∧ v = val) recs' c'.writerCacheId c' ∧ Current c' ∧
      c'.fcacheMutex = false := by
  obtain ⟨c₁, f, g, lba, lba', ok, ht, hf, heof, ha, hstate⟩ := FlashCache.insert_cases hr
  have hlocked : CrashSound crc mode put recs ({ c with fcacheMutex := true } : FlashCache).writerCacheId
      { c with fcacheMutex := true } := h.touch h.linked (fun _ => rfl) rfl rfl rfl
  -- the file that gets the record
  obtain ⟨recs₁, h₁, hcur₁, hend⟩ : ∃ recs₁, CrashSound crc mode put recs₁ c₁.writerCacheId c₁ ∧ Current c₁ ∧
      imagesSize (recs₁ c₁.cacheFile) + recordSize key val < 2 ^ 32 := by
    cases ht with
    | current =>
      refine ⟨recs, hlocked, hcur, ?_⟩
      obtain ⟨hfile, hknown⟩ := h.files _ f hf
      have hbooked := (hfile.fileSound heof).booked
      have hplace := (hroom.2 f hf).1 heof
      rw [hbooked, length_images, UInt32.toNat_ofNat', Nat.mod_eq_of_lt hknown.size] at hplace
      exact hplace
    | rolled hf₀ he₀ hnew =>
      obtain ⟨hs, hc⟩ := hlocked.withNewFile hbuf ((hroom.2 _ hf₀).2 he₀)
      refine ⟨_, hs, hc, ?_⟩
      show imagesSize (Function.update recs c.heap.length [] c.heap.length) + _ < _
      rw [Function.update_self, imagesSize_nil]
      have hsize := hroom.1
      omega
  obtain ⟨hfile, hknown⟩ := h₁.files _ f hf
  have hput : ∀ k v, put k v → put k v ∨ k = key ∧ v = val := fun _ _ => .inl
  rcases (hfile.fileSound heof).append (fun _ => hroom.1) ha with ⟨he, -⟩ | ⟨-, rfl, hsize, hg, rfl, hid⟩
  · exact absurd (heof.symm.trans he) Bool.false_ne_true
  have himages : images crc (recs₁ c₁.cacheFile ++ [(key, val)]) = images crc (recs₁ c₁.cacheFile) ++ image crc key val := by
    rw [images_append, images, images, List.flatMap_singleton]
  rw [← himages] at hg
  have hknown' : Known (fun k v => put k v ∨ k = key ∧ v = val) (recs₁ c₁.cacheFile ++ [(key, val)]) := by
    refine ⟨?_, fun r hr => ?_⟩
    · rw [imagesSize_append, imagesSize_cons, imagesSize_nil]
      exact hend
    · rcases List.mem_append.mp hr with hr | hr
      · exact (hknown.mono hput).put r hr
      · obtain rfl := List.mem_singleton.mp hr
        exact ⟨hk, hv, .inr ⟨rfl, rfl⟩⟩
  have hlive : ∀ file, ¬ Found f file := fun file hfound => Bool.false_ne_true (heof.symm.trans hfound.eof)
  have hs := (h₁.mono hput).store hf hlive (.live hg) hknown' hid
  have hderef := fun q => FlashCache.deref_store hf g q
  obtain ⟨hbelow, hunique⟩ := hcur₁ f hf
  have hcur' : Current (c₁.store c₁.cacheFile g) := by
    intro e he
    rw [show (c₁.store c₁.cacheFile g).cacheFile = c₁.cacheFile from rfl, hderef, if_pos rfl] at he
    obtain rfl := Option.some.inj he
    rw [hid]
    exact ⟨hbelow, hunique⟩
  obtain ⟨-, rfl⟩ | ⟨hok, -⟩ := hstate
  · -- the address is the end of the file before
    have hplace : (key, ⟨f.cacheId, f.diskWoff, CacheRecord.calcSize key val⟩) ∈
        located f.cacheId 0 (recs₁ c₁.cacheFile ++ [(key, val)]) := by
      rw [located_append, Nat.zero_add, (hfile.fileSound heof).booked, length_images]
      exact List.mem_append_right _ List.mem_cons_self
    refine ⟨_, hs.book hbelow (fun q e hq he => ?_) (c₁.size + (CacheRecord.calcSize key val).toUInt64) false,
      fun e he => ?_, rfl⟩
    · obtain rfl := hunique q hq
      rw [Function.update_self]
      exact .whole hplace
    · obtain ⟨hlt, hone⟩ := hcur' e he
      refine ⟨hlt, fun q hq => hone q ?_⟩
      rw [FlashCache.booked, Metadata.cacheFileIndex_insert] at hq
      exact hq
  · cases hok

/-- **`Lookup`**. -/
theorem CrashSound.lookup (h : CrashSound crc mode put recs next c) {env : Environment} {r : Option Bytes}
    (hr : c.lookup crc mode env key = .ok (r, c')) : CrashSound crc mode put recs next c' := by
  obtain ⟨hlinked, hfind, hblock, hdir, -⟩ := lookup_effect h.linked hr
  exact h.touch hlinked hfind hblock (FlashCache.lookup_frame hr).2.2 hdir

/-- **`DeleteMetaData`**. -/
theorem CrashSound.deleteMetaData (h : CrashSound crc mode put recs next c) (key : Bytes) :
    CrashSound crc mode put recs next (c.deleteMetaData key) := by
  refine ⟨{ h.toFiled with }, h.above, h.files, fun k l hl => ?_⟩
  rw [show (c.deleteMetaData key).metadata.lookup k = _ from Metadata.lookup_erase _ _ _] at hl
  split_ifs at hl
  exact h.entries k l hl

/-- **A step of the writer** of a file. -/
theorem CrashSound.writer (h : CrashSound crc mode put recs next c) (hf : c.deref p = some f) (hw : f.WriterStep g) :
    CrashSound crc mode put recs next (c.store p g) := by
  obtain ⟨hfile, hknown⟩ := h.files p f hf
  have hsame : Keeps crc mode g (recs p ++ []) ∧ Known put (recs p ++ []) := by
    rw [List.append_nil]
    exact ⟨hfile.writer hw, hknown⟩
  have hs := h.store hf (fun file hfound => hfound.not_writer hw) hsame.1 hsame.2 hw.cacheId
  rwa [List.append_nil, Function.update_eq_self] at hs

/-- The first steps of `Close` keep the buffers and the log together. -/
theorem consistent_startClose {log : Bytes} (h : f.Consistent log) :
    (FlashCache.startClose .writeBuffer f).Consistent log :=
  { h with
    eof_of_left := fun _ => rfl
    woff := fun he => absurd he.symm Bool.false_ne_true
    le_woff := Nat.le_succ_of_le h.le_woff
    doff_le := Nat.le_succ_of_le h.doff_le
    within := fun src left heq => ⟨Nat.lt_succ_of_lt (h.within src left heq).1, (h.within src left heq).2⟩ }

/-- **`Close`** writes nothing else than the records. -/
theorem Keeps.close (h : Keeps crc mode f more) (hc : FlashCache.Close mode c f g) (hfd : g.fd = some file) :
    file <+: images crc more := by
  cases hc with
  | noWriter htid hopen => exact h.written hfd
  | @join g htid hrun hjoin =>
    cases h with
    | found hfound => simp [hfound.tid] at htid
    | live h =>
      cases mode with
      | direct =>
        obtain ⟨hlog, hbufs, -, hwait, -⟩ := h.direct rfl
        have hquiet : Quiet f := ⟨hbufs, by simp [hwait]⟩
        obtain ⟨-, hsame, -⟩ := hquiet.close (.join htid hrun hjoin)
        rw [hfd, hlog] at hsame
        rw [Option.some.inj hsame]
      | writeBuffer =>
        have hcons : g.Consistent (images crc more) := by
          clear hjoin hfd
          induction hrun with
          | refl => exact consistent_startClose (h.buffered rfl)
          | tail _ hw ih => exact hw.1.consistent ih
        obtain ⟨d, hd, hpre⟩ := hcons.holds.file
        rw [Option.some.inj (hfd.symm.trans hd)]
        exact hpre

/-- **A round of `Evict`**. -/
theorem CrashSound.removed (h : CrashSound crc mode put recs next c) (hcur : Current c) {metadata : Metadata}
    (hevict : c.metadata.evict (fun p => (c.deref p).map WriteableCacheFile.cacheId) = .ok (p, metadata))
    (hf : c.deref p = some f) (hgid : g.cacheId = f.cacheId) (hgkeys : g.keyLists = f.keyLists) (unlinked : Bool) :
    CrashSound crc mode put recs next (c.removed metadata p g unlinked) ∧ Current (c.removed metadata p g unlinked) := by
  obtain ⟨-, -, hfind, hderef, hlookup, hfiled⟩ := h.toFiled.removed hevict hf hgid hgkeys unlinked
  have hold : ∀ {q e}, (c.removed metadata p g unlinked).deref q = some e → c.deref q = some e := by
    intro q e he
    rw [hderef] at he
    split_ifs at he
    exact he
  have hfound : ∀ {id q}, (c.removed metadata p g unlinked).metadata.cacheFileIndex.find id = some q →
      c.metadata.cacheFileIndex.find id = some q := by
    intro id q hq
    rw [hfind] at hq
    split_ifs at hq
    exact hq
  refine ⟨⟨hfiled, fun id hid => h.above id ?_, fun q e he => h.files q e (hold he), fun k l hl => ?_⟩, fun e he => ?_⟩
  · rw [FlashCache.removed] at hid
    simp only at hid
    split_ifs at hid
    · exact List.mem_of_mem_erase hid
    · exact hid
  · rw [hlookup] at hl
    split_ifs at hl
    obtain ⟨hlt, hleads⟩ := h.entries k l hl
    exact ⟨hlt, fun q e hq he => hleads q e (hfound hq) (hold he)⟩
  · obtain ⟨hlt, hone⟩ := hcur e (hold he)
    exact ⟨hlt, fun q hq => hone q (hfound hq)⟩

/-! ### Open -/

/-- The bytes of a file that may be left of known records. -/
def Part (crc : Bytes → UInt32) (put : Bytes → Bytes → Prop) (file : Bytes) : Prop :=
  ∃ recs, file <+: images crc recs ∧ Known put recs

/-- **What `Repair` finds** leads to records, or is torn. -/
theorem leads_of_repair {more : List (Bytes × Bytes)} {id : UInt32} {tail : List (Bytes × LBA)} {start : ℕ}
    (htail : TornTail crc id file start tail) (hfound : Found f file) {call : Bytes × LBA}
    (hc : call ∈ located id 0 (complete file.length more) ++ tail) (hid : call.2.cacheId = id) :
    Leads crc f more call.1 call.2 := by
  rcases List.mem_append.mp hc with hc | hc
  · obtain ⟨rest, hrest⟩ := complete_isPrefix file.length more
    refine .whole ?_
    rw [← hrest, located_append, hid]
    exact List.mem_append_left _ hc
  · obtain ⟨-, hend, htorn⟩ := htail.torn hc
    exact .torn hfound hend htorn

/-- What is given to the index of the keys for a file. -/
def offers (garbage : UInt32 → ℕ → ℕ → UInt8) (entry : UInt32 × Bytes) : List (Bytes × LBA) :=
  match (WriteableCacheFile.opened entry.1 entry.2).repair (garbage entry.1) with
  | .ok calls => calls
  | .error _ => []

theorem cacheId_offers {garbage : UInt32 → ℕ → ℕ → UInt8} {entry : UInt32 × Bytes} {call : Bytes × LBA}
    (hc : call ∈ offers garbage entry) : call.2.cacheId = entry.1 := by
  unfold offers at hc
  cases hr : (WriteableCacheFile.opened entry.1 entry.2).repair (garbage entry.1) with
  | error e =>
    rw [hr] at hc
    cases hc
  | ok calls =>
    rw [hr] at hc
    exact cacheId_repair hr call hc

/-- **What is known in the loop of `Open`**, after the given files. -/
structure Opening (crc : Bytes → UInt32) (mode : FlashcacheMode) (put : Bytes → Bytes → Prop)
    (garbage : UInt32 → ℕ → ℕ → UInt8) (recs : ℕ → List (Bytes × Bytes)) (next : UInt32) (done : List (UInt32 × Bytes))
    (c : FlashCache) : Prop extends CrashSound crc mode put recs next c where
  /-- The files are there. -/
  placed : ∀ entry ∈ done, ∃ p f, c.metadata.cacheFileIndex.find entry.1 = some p ∧ c.deref p = some f ∧ Found f entry.2
  /-- The first address of a key is in the index. -/
  first : ∀ key, c.metadata.lookup key = (done.flatMap (offers garbage)).lookup key
  /-- The mutex is free. -/
  free : c.fcacheMutex = false

variable {garbage : UInt32 → ℕ → ℕ → UInt8} {done files : List (UInt32 × Bytes)} {entry : UInt32 × Bytes}

/-- An address leads to the file in which it was found. -/
theorem Opening.offered (h : Opening crc mode put garbage recs next done c) (hl : c.metadata.lookup key = some lba) :
    ∃ entry ∈ done, (key, lba) ∈ offers garbage entry ∧ lba.cacheId = entry.1 := by
  rw [h.first] at hl
  obtain ⟨before, after, heq, -⟩ := List.lookup_eq_some_iff.mp hl
  have hin : (key, lba) ∈ done.flatMap (offers garbage) := by rw [heq]; simp
  obtain ⟨entry, hentry, hc⟩ := List.mem_flatMap.mp hin
  exact ⟨entry, hentry, hc, cacheId_offers hc⟩

/-- **One more file**, with which the loop goes on. -/
theorem Opening.recover (h : Opening crc mode put garbage recs next done c) (hpart : Part crc put entry.2)
    (hdir : entry.1 ∈ c.dir) (hnew : c.metadata.cacheFileIndex.find entry.1 = none) :
    ∃ c' recs', c.recover garbage entry = .ok c' ∧ Opening crc mode put garbage recs' next (done ++ [entry]) c' ∧
      c'.dir = c.dir ∧
      ∀ id, id ≠ entry.1 → c'.metadata.cacheFileIndex.find id = c.metadata.cacheFileIndex.find id := by
  obtain ⟨more, hpre, hknown⟩ := hpart
  obtain ⟨tail, hrepair, htail⟩ := repair_of_cut (garbage entry.1) entry.1 hpre hknown.size
  obtain ⟨c', hr⟩ : ∃ c', c.recover garbage entry = .ok c' := by
    unfold FlashCache.recover
    simp only [hrepair]
    exact ⟨_, rfl⟩
  obtain ⟨hfiled, hfind, hold⟩ := h.toFiled.recover hdir hnew hr
  obtain ⟨calls, f, hcalls, hf, hderef, -, hlookup, -, -, hdir', -, -, hmutex⟩ := FlashCache.recover_cases hr
  obtain rfl := Except.ok.inj (hrepair.symm.trans hcalls)
  have hoffers : offers garbage entry = located entry.1 0 (complete entry.2.length more) ++ tail := by
    rw [offers, hrepair]
  rw [← hoffers] at hlookup
  have hfound : Found f entry.2 := by
    rw [hf]
    exact ⟨rfl, rfl, rfl, rfl⟩
  have hnewFile : c'.metadata.cacheFileIndex.find entry.1 = some c.heap.length ∧ c'.deref c.heap.length = some f :=
    ⟨by rw [hfind, if_pos rfl], by rw [hderef, if_pos rfl]⟩
  refine ⟨c', Function.update recs c.heap.length more, hr, ⟨⟨hfiled, by rw [hdir']; exact h.above, fun q e he => ?_,
    fun k l hl => ?_⟩, fun e he => ?_, fun k => ?_, hmutex.trans h.free⟩, hdir', fun id hid => by rw [hfind, if_neg hid]⟩
  · rw [hderef] at he
    by_cases hq : q = c.heap.length
    · rw [if_pos hq] at he
      obtain rfl := Option.some.inj he
      rw [hq, Function.update_self]
      exact ⟨.found hfound hpre, hknown⟩
    · rw [if_neg hq] at he
      rw [Function.update_of_ne hq]
      exact h.files q e he
  · rw [hlookup, Option.or_eq_some_iff] at hl
    rcases hl with hl | ⟨-, hl⟩
    · -- the file of the entry is there already
      obtain ⟨hlt, hleads⟩ := h.entries k l hl
      obtain ⟨d, hd, -, hid⟩ := h.offered hl
      obtain ⟨q', f', hq', -⟩ := h.placed d hd
      rw [← hid] at hq'
      obtain ⟨hother, hne⟩ := hold _ q' hq'
      refine ⟨hlt, fun q e hq he => ?_⟩
      rw [hfind, if_neg hother] at hq
      obtain rfl := Option.some.inj (hq'.symm.trans hq)
      rw [hderef, if_neg hne] at he
      rw [Function.update_of_ne hne]
      exact hleads q' e hq he
    · obtain ⟨before, after, heq, -⟩ := List.lookup_eq_some_iff.mp hl
      have hin : (k, l) ∈ offers garbage entry := by rw [heq]; simp
      have hid : l.cacheId = entry.1 := cacheId_offers hin
      refine ⟨by rw [hid]; exact h.above _ hdir, fun q e hq he => ?_⟩
      rw [hid, hnewFile.1] at hq
      obtain rfl := Option.some.inj hq
      rw [hnewFile.2] at he
      obtain rfl := Option.some.inj he
      rw [Function.update_self]
      rw [hoffers] at hin
      exact leads_of_repair htail hfound hin hid
  · rcases List.mem_append.mp he with he | he
    · obtain ⟨q, f', hq, hf', hfound'⟩ := h.placed e he
      obtain ⟨hid, hne⟩ := hold _ q hq
      exact ⟨q, f', by rw [hfind, if_neg hid]; exact hq, by rw [hderef, if_neg hne]; exact hf', hfound'⟩
    · obtain rfl := List.mem_singleton.mp he
      exact ⟨_, f, hnewFile.1, hnewFile.2, hfound⟩
  · rw [hlookup, h.first, List.flatMap_append, List.lookup_append, List.flatMap_singleton]

/-- **The loop of `Open`** returns. -/
theorem Opening.recoverAll (h : Opening crc mode put garbage recs next done c)
    (hparts : ∀ entry ∈ files, Part crc put entry.2 ∧ entry.1 ∈ c.dir) (hnodup : (files.map Prod.fst).Nodup)
    (hnew : ∀ entry ∈ files, c.metadata.cacheFileIndex.find entry.1 = none) :
    ∃ c' recs', FlashCache.recoverAll garbage c files = .ok c' ∧
      Opening crc mode put garbage recs' next (done ++ files) c' := by
  induction files generalizing c recs done with
  | nil => exact ⟨c, recs, rfl, by rwa [List.append_nil]⟩
  | cons entry files ih =>
    rw [List.map_cons, List.nodup_cons] at hnodup
    obtain ⟨⟨hpart, hdir⟩, hparts⟩ := List.forall_mem_cons.mp hparts
    obtain ⟨c₁, recs₁, hr, h₁, hdir₁, hfind₁⟩ := h.recover hpart hdir (hnew entry List.mem_cons_self)
    obtain ⟨c', recs', hr', h'⟩ := ih h₁ (fun e he => by rw [hdir₁]; exact hparts e he) hnodup.2 fun e he => by
      have hne : e.1 ≠ entry.1 := fun heq => hnodup.1 (heq ▸ List.mem_map_of_mem he)
      rw [hfind₁ _ hne]
      exact hnew e (List.mem_cons_of_mem _ he)
    refine ⟨c', recs', by rw [FlashCache.recoverAll, hr]; exact hr', ?_⟩
    rwa [List.append_assoc] at h'

/-- **`Open`** on what is left of known records gets to its new file. -/
theorem openDir_opening {mode : FlashcacheMode} {opt : FlashCacheConfig} (hbuf : Buffers mode opt) (hlist : Listing files)
    (hparts : ∀ entry ∈ files, Part crc put entry.2) (garbage : UInt32 → ℕ → ℕ → UInt8) (size : UInt64) :
    ∃ (c : FlashCache) (recs : _), FlashCache.openDir garbage opt size files = c.newCacheFile ∧
      (c.Creatable ↔ ∀ entry ∈ files, entry.1.toNat < 999) ∧
      Opening crc mode put garbage recs c.withNewFile.writerCacheId files c.withNewFile ∧ Current c.withNewFile ∧
      c.withNewFile.opt = opt := by
  have hint : ∀ id ∈ files.map Prod.fst, id.toNat + 1 < 2 ^ 31 := by
    intro id hid
    obtain ⟨entry, hentry, rfl⟩ := List.mem_map.mp hid
    exact hlist.2 entry hentry
  obtain ⟨-, habove, hbound⟩ := nextId_spec hint (w := 0) (by decide)
  have hstart : Opening crc mode put garbage (fun _ => []) (nextId 0 (files.map Prod.fst)) []
      { size, opt, dir := files.map Prod.fst } := by
    refine ⟨⟨⟨LruCache.linked_empty, fun id p hp => ?_⟩, habove, fun p f hf => ?_, fun key lba hl => ?_⟩, by simp,
      fun key => rfl, rfl⟩
    · rw [LruCache.find_empty] at hp
      cases hp
    · cases hf
    · cases hl
  obtain ⟨c, recs, hr, h⟩ := hstart.recoverAll (fun entry hin => ⟨hparts entry hin, List.mem_map_of_mem hin⟩) hlist.1
    (fun entry _ => LruCache.find_empty _)
  obtain ⟨hopt, -, hwriter, -⟩ := recoverAll_ids hr
  obtain ⟨-, -, -, hcollide⟩ := hlist.scan hr
  have hnext : c.writerCacheId = nextId 0 (files.map Prod.fst) := hwriter
  have hcreate : c.Creatable ↔ ∀ entry ∈ files, entry.1.toNat < 999 := by
    rw [hcollide.creatable_iff (by rw [hnext]; exact Nat.le_of_lt hbound), hnext]
    constructor
    · intro hlt entry hin
      have := UInt32.lt_iff_toNat_lt.mp (habove _ (List.mem_map_of_mem hin))
      omega
    · intro hall
      have hle := nextId_le (n := 999) (by decide) (fun id hid => by
        obtain ⟨entry, hentry, rfl⟩ := List.mem_map.mp hid
        exact hall entry hentry) (w := 0) (by decide)
      omega
  rw [← hnext] at h hbound
  have hroom : mode = .writeBuffer → 0 < c.opt.writeBufferSize.toNat := by
    rw [hopt]
    exact hbuf
  obtain ⟨hnew, hcur⟩ := h.toCrashSound.withNewFile hroom (by omega)
  refine ⟨c, _, by rw [FlashCache.openDir, hr], hcreate, ⟨hnew, fun entry hin => ?_, h.first, h.free⟩, hcur, hopt⟩
  obtain ⟨p, f, hp, hf, hfound⟩ := h.placed entry hin
  refine ⟨p, f, ?_, ?_, hfound⟩
  · rw [find_withNewFile, hp]
    split_ifs <;> rfl
  · rw [FlashCache.deref_withNewFile, if_neg (Nat.ne_of_lt (FlashCache.lt_of_deref hf))]
    exact hf

/-- If it returns, all of that is known of the cache. -/
theorem opening_of_openDir {mode : FlashcacheMode} {opt : FlashCacheConfig} (hbuf : Buffers mode opt)
    (hlist : Listing files) (hparts : ∀ entry ∈ files, Part crc put entry.2) {size : UInt64}
    (ho : FlashCache.openDir garbage opt size files = .ok c) :
    ∃ recs, Opening crc mode put garbage recs c.writerCacheId files c ∧ Current c ∧ c.opt = opt := by
  obtain ⟨c₁, recs, hopen, -, h⟩ := openDir_opening hbuf hlist hparts garbage size
  obtain ⟨-, rfl⟩ := FlashCache.newCacheFile_iff.mp (hopen.symm.trans ho)
  exact ⟨recs, h⟩

/-! ### The store and its crashes -/

/-- A store that runs. -/
structure Host where
  /-- The cache. -/
  cache : FlashCache
  /-- The ids and the bytes of the files that it has deleted. -/
  deleted : List (UInt32 × Bytes) := []

/-- **What a crash may leave** in the directory. -/
def Host.Leaves (s : Host) (files : List (UInt32 × Bytes)) : Prop :=
  Listing files ∧ ∀ entry ∈ files,
    (∃ p f file, s.cache.deref p = some f ∧ f.cacheId = entry.1 ∧ f.fd = some file ∧ entry.2 <+: file) ∨
      ∃ file, (entry.1, file) ∈ s.deleted ∧ entry.2 <+: file

/-- One file may be left, with a part of what was written to it. -/
theorem Host.leaves_one {s : Host} {id : UInt32} {written : Bytes} (hf : s.cache.deref p = some f) (hid : f.cacheId = id)
    (hfd : f.fd = some written) (hpre : file <+: written) (hint : id.toNat + 1 < 2 ^ 31) : s.Leaves [(id, file)] := by
  refine ⟨⟨List.nodup_singleton _, fun entry hin => ?_⟩, fun entry hin => .inl ⟨p, f, written, hf, ?_, hfd, ?_⟩⟩
  all_goals rw [List.mem_singleton.mp hin]
  · exact hint
  · exact hid
  · exact hpre

/-- What happens to it. -/
inductive HostAct where
  /-- A call that is not `Evict`, or a step of a writer. -/
  | call (a : CacheAct)
  /-- A round of `Evict(size)`. -/
  | round (size : UInt64)
  /-- A crash, after which the store is opened with the given options. -/
  | crash (opt : FlashCacheConfig)

/-- **One call, one round of `Evict`, or a crash.** -/
inductive HostStep (crc : Bytes → UInt32) (mode : FlashcacheMode) : Host → HostAct → Host → Prop where
  /-- A call that is not `Evict`, or a step of a writer. -/
  | call {s : Host} {c' : FlashCache} {a : CacheAct} (ha : ∀ size, a ≠ .evict size) (hs : CacheStep crc mode s.cache a c') :
      HostStep crc mode s (.call a) { s with cache := c' }
  /-- A round of `Evict`. -/
  | round {s : Host} {p : ℕ} {f g : WriteableCacheFile} {metadata : Metadata} {size : UInt64} (unlinked : Bool)
      (hover : s.cache.overfull size = true) (hlock : s.cache.fcacheMutex = false)
      (hevict : s.cache.metadata.evict (fun p => (s.cache.deref p).map WriteableCacheFile.cacheId) = .ok (p, metadata))
      (hf : s.cache.deref p = some f) (hclose : FlashCache.Close mode s.cache f g) :
      HostStep crc mode s (.round size) ⟨s.cache.removed metadata p g unlinked, (g.cacheId, g.fd.getD []) :: s.deleted⟩
  /-- A crash, and `Open` on what it has left. -/
  | crash {s : Host} {c : FlashCache} {files : List (UInt32 × Bytes)} {garbage : UInt32 → ℕ → ℕ → UInt8}
      {opt : FlashCacheConfig} {size : UInt64} (hleft : s.Leaves files)
      (ho : FlashCache.openDir garbage opt size files = .ok c) : HostStep crc mode s (.crash opt) ⟨c, []⟩

/-- **The steps considered**: strings without zero bytes for which there is a place, and
buffers with room. -/
def HostAct.Within (mode : FlashcacheMode) (s : Host) : HostAct → Prop
  | .call (.insert key val) => NulFree key ∧ NulFree val ∧ Room s.cache key val
  | .crash opt => Buffers mode opt
  | _ => True

instance (mode : FlashcacheMode) (s : Host) : DecidablePred (HostAct.Within mode s)
  | .call (.insert key val) => inferInstanceAs (Decidable (NulFree key ∧ NulFree val ∧ Room s.cache key val))
  | .call (.lookup _) => .isTrue trivial
  | .call (.deleteMetaData _) => .isTrue trivial
  | .call (.evict _) => .isTrue trivial
  | .call (.writer _) => .isTrue trivial
  | .round _ => .isTrue trivial
  | .crash opt => inferInstanceAs (Decidable (Buffers mode opt))

/-- **What always holds** of a store and what it has deleted. -/
structure HostSound (crc : Bytes → UInt32) (mode : FlashcacheMode) (put : Bytes → Bytes → Prop)
    (recs : ℕ → List (Bytes × Bytes)) (s : Host) : Prop extends
    CrashSound crc mode put recs s.cache.writerCacheId s.cache where
  /-- The file that is appended to is found. -/
  current : Current s.cache
  /-- Buffers have room. -/
  buffers : Buffers mode s.cache.opt
  /-- Files that were deleted hold records that were put there. -/
  deleted : ∀ entry ∈ s.deleted, Part crc put entry.2

variable {s s' : Host} {opt : FlashCacheConfig} {size : UInt64} {a : HostAct} {acts : List HostAct}

/-- **What a crash leaves** are parts of records that were put there. -/
theorem HostSound.part (h : HostSound crc mode put recs s) (hleft : s.Leaves files) :
    ∀ entry ∈ files, Part crc put entry.2 := by
  intro entry hin
  rcases hleft.2 entry hin with ⟨p, f, file, hf, -, hfd, hpre⟩ | ⟨file, hdel, hpre⟩
  · obtain ⟨hfile, hknown⟩ := h.files p f hf
    exact ⟨recs p, hpre.trans (hfile.written hfd), hknown⟩
  · obtain ⟨more, hpre', hknown⟩ := h.deleted _ hdel
    exact ⟨more, hpre.trans hpre', hknown⟩

theorem Part.mono (h : Part crc put file) (himp : ∀ key val, put key val → put' key val) : Part crc put' file := by
  obtain ⟨more, hpre, hknown⟩ := h
  exact ⟨more, hpre, hknown.mono himp⟩

theorem HostSound.mono (h : HostSound crc mode put recs s) (himp : ∀ key val, put key val → put' key val) :
    HostSound crc mode put' recs s :=
  ⟨h.toCrashSound.mono himp, h.current, h.buffers, fun entry hin => (h.deleted entry hin).mono himp⟩

/-- **Every step** keeps what always holds. -/
theorem HostStep.sound (hs : HostStep crc mode s a s') (ha : a.Within mode s) (h : HostSound crc mode put recs s) :
    ∃ recs', HostSound crc mode (fun key val => put key val ∨ a = .call (.insert key val)) recs' s' := by
  have himp : ∀ key val, put key val → put key val ∨ a = .call (.insert key val) := fun _ _ => .inl
  have hdeleted : ∀ entry ∈ s.deleted, Part crc (fun key val => put key val ∨ a = .call (.insert key val)) entry.2 :=
    fun entry hin => (h.deleted entry hin).mono himp
  cases hs with
  | call hnot hs =>
    cases hs with
    | @insert c' key val writes r hr =>
      obtain ⟨hk, hv, hroom⟩ := ha
      obtain ⟨recs', hs', hcur, -⟩ := h.toCrashSound.insert h.current h.buffers hk hv hroom hr
      refine ⟨recs', hs'.mono ?_, hcur, ?_, hdeleted⟩
      · rintro k v (hput | ⟨rfl, rfl⟩)
        · exact .inl hput
        · exact .inr rfl
      · rw [FlashCache.insert_opt hr]
        exact h.buffers
    | @lookup c' key env r hr =>
      obtain ⟨-, hfind, -, -, hwriter⟩ := lookup_effect h.linked hr
      obtain ⟨hopt, hcur, hheap⟩ := FlashCache.lookup_frame hr
      refine ⟨recs, by rw [hwriter]; exact (h.toCrashSound.lookup hr).mono himp, fun f hf => ?_,
        by rw [hopt]; exact h.buffers,
        hdeleted⟩
      rw [FlashCache.deref, hheap, hcur] at hf
      rw [hwriter, hcur]
      obtain ⟨hlt, hone⟩ := h.current f hf
      exact ⟨hlt, fun p hp => hone p ((hfind _).symm.trans hp)⟩
    | @deleteMetaData key =>
      exact ⟨recs, (h.toCrashSound.deleteMetaData key).mono himp, h.current, h.buffers, hdeleted⟩
    | evict hr => exact absurd rfl (hnot _)
    | @writer p f g hf hw =>
      refine ⟨recs, (h.toCrashSound.writer hf hw.1).mono himp, fun e he => ?_, h.buffers, hdeleted⟩
      rw [show (s.cache.store p g).cacheFile = s.cache.cacheFile from rfl, FlashCache.deref_store hf] at he
      split_ifs at he with hp
      · obtain rfl := Option.some.inj he
        rw [hw.1.cacheId]
        exact h.current f (hp ▸ hf)
      · exact h.current e he
  | @round p f g metadata size unlinked hover hlock hevict hf hclose =>
    obtain ⟨hgid, hgkeys⟩ := hclose.frame
    obtain ⟨hs', hcur⟩ := h.toCrashSound.removed h.current hevict hf hgid hgkeys unlinked
    refine ⟨recs, hs'.mono himp, hcur, h.buffers, fun entry hin => ?_⟩
    rcases List.mem_cons.mp hin with rfl | hin
    · obtain ⟨hfile, hknown⟩ := h.files p f hf
      refine Part.mono ⟨recs p, ?_, hknown⟩ himp
      cases hfd : g.fd with
      | none => exact List.nil_prefix
      | some file => exact hfile.close hclose hfd
    · exact hdeleted entry hin
  | @crash c files garbage opt size hleft ho =>
    obtain ⟨recs', hopen, hcur, hopt⟩ := opening_of_openDir (show Buffers mode opt from ha) hleft.1 (h.part hleft) ho
    exact ⟨recs', hopen.toCrashSound.mono himp, hcur, by rw [hopt]; exact ha, by simp⟩

/-- A call that inserts nothing new. -/
theorem HostSound.call {deleted : List (UInt32 × Bytes)} {a : CacheAct} (h : HostSound crc mode put recs ⟨c, deleted⟩)
    (hnot : ∀ size, a ≠ .evict size) (hs : CacheStep crc mode c a c') (ha : HostAct.Within mode ⟨c, deleted⟩ (.call a))
    (hput : ∀ key val, a = .insert key val → put key val) : ∃ recs', HostSound crc mode put recs' ⟨c', deleted⟩ := by
  obtain ⟨recs', h'⟩ := (HostStep.call hnot hs).sound ha h
  refine ⟨recs', h'.mono ?_⟩
  rintro k v (hold | hnew)
  · exact hold
  · exact hput k v (HostAct.call.inj hnew)

/-- A store on an empty directory. -/
theorem hostSound_openEmpty (crc : Bytes → UInt32) (hbuf : Buffers mode opt) (size : UInt64) :
    ∃ recs, HostSound crc mode (fun _ _ => False) recs ⟨.openEmpty opt size, []⟩ := by
  have hlist : Listing [] := ⟨List.nodup_nil, by simp⟩
  have hnone : ∀ entry ∈ ([] : List (UInt32 × Bytes)), Part crc (fun _ _ => False) entry.2 := by simp
  obtain ⟨recs, hopen, hcur, hopt⟩ := opening_of_openDir hbuf hlist hnone
    (FlashCache.openDir_nil (fun _ _ _ => 0) opt size)
  exact ⟨recs, hopen.toCrashSound, hcur, by rw [hopt]; exact hbuf, by simp⟩

/-- **In every run** with crashes. -/
theorem run_hostSound (hbuf : Buffers mode opt)
    (h : Run (HostStep crc mode) (fun _ => HostAct.Within mode) ⟨.openEmpty opt size, []⟩ acts s) :
    ∃ recs, HostSound crc mode (fun key val => .call (.insert key val) ∈ acts) recs s := by
  refine h.invariant (P := fun acts s => ∃ recs, HostSound crc mode (fun key val => .call (.insert key val) ∈ acts) recs s)
    ?_ ?_
  · obtain ⟨recs, hs⟩ := hostSound_openEmpty crc hbuf size
    exact ⟨recs, by simpa using hs⟩
  · rintro acts s a s' ⟨recs, hs⟩ ha hstep
    obtain ⟨recs', hs'⟩ := hstep.sound ha hs
    refine ⟨recs', ?_⟩
    simpa only [List.mem_append, List.mem_singleton, eq_comm] using hs'

/-- **The store never makes up a value**: whatever was called, evicted and written, and however
often the store has crashed and was opened again on what was left, a `Lookup` that returns a
value returns the empty one or one that was inserted under its key; and whatever a crash leaves
next, `Open` returns exactly if all ids that are left are below 999. -/
theorem lookup_after_crashes (hbuf : Buffers mode opt)
    (h : Run (HostStep crc mode) (fun _ => HostAct.Within mode) ⟨.openEmpty opt size, []⟩ acts s) :
    (∀ key env val c', s.cache.lookup crc mode env key = .ok (some val, c') →
      val = [] ∨ .call (.insert key val) ∈ acts) ∧
    ∀ files garbage opt' size', s.Leaves files →
      ((∃ c, FlashCache.openDir garbage opt' size' files = .ok c) ↔ ∀ entry ∈ files, entry.1.toNat < 999) := by
  obtain ⟨recs, hs⟩ := run_hostSound hbuf h
  refine ⟨fun key env val c' hr => hs.toCrashSound.lookup_put hr, fun files garbage opt' size' hleft => ?_⟩
  -- what is found does not depend on the mode
  have hany : Buffers .direct opt' := by simp [Buffers]
  obtain ⟨c, -, hopen, hcreate, -⟩ := openDir_opening hany hleft.1 (hs.part hleft) garbage size'
  rw [hopen, ← hcreate]
  constructor
  · rintro ⟨c', hc'⟩
    exact (FlashCache.newCacheFile_iff.mp hc').1
  · exact fun hc => ⟨_, FlashCache.newCacheFile_iff.mpr ⟨hc, rfl⟩⟩

/-- A record is inserted, and the crash cuts its last byte off: the value is lost, and no other
is found. -/
theorem lookup_after_crashes_torn : ∃ (s : Host) (c' : FlashCache),
    Run (HostStep (fun _ => 0) .direct) (fun _ => HostAct.Within .direct) ⟨.openEmpty ⟨100, 0, 1000⟩ 0, []⟩
      [.call (.insert [97] [98]), .crash ⟨100, 0, 1000⟩] s ∧
    s.cache.lookup (fun _ => 0) .direct ⟨[], [.moved 99, .moved 0], false, []⟩ [97] = .ok (some [], c') ∧
    ∀ env val c', s.cache.lookup (fun _ => 0) .direct env [97] = .ok (some val, c') → val = [] ∨ val = [98] := by
  have h0 := Run.nil (R := HostStep (fun _ => 0) .direct) (C := fun _ => HostAct.Within .direct)
    ⟨.openEmpty ⟨100, 0, 1000⟩ 0, []⟩
  have h1 := h0.snoc (a := .call (.insert [97] [98])) (by decide) (.call (by simp) (.insert
    (show FlashCache.insert (fun _ => 0) .direct [.moved 99] _ [97] [98] = .ok (0, _) from rfl)))
  obtain ⟨s, f, h, hf, hid, hfd⟩ : ∃ s f, Run (HostStep (fun _ => 0) .direct) (fun _ => HostAct.Within .direct)
      ⟨.openEmpty ⟨100, 0, 1000⟩ 0, []⟩ [.call (.insert [97] [98])] s ∧ s.cache.deref 0 = some f ∧ f.cacheId = 0 ∧
      f.fd = some (image (fun _ => 0) [97] [98]) := ⟨_, _, h1, rfl, rfl, rfl⟩
  have hleft := Host.leaves_one hf hid hfd (List.take_prefix 17 (image (fun _ => 0) [97] [98])) (by decide)
  obtain ⟨c, c', ho, hlook⟩ : ∃ c c', FlashCache.openDir (fun _ _ _ => 0) ⟨100, 0, 1000⟩ 0
      [(0, (image (fun _ => 0) [97] [98]).take 17)] = .ok c ∧
      c.lookup (fun _ => 0) .direct ⟨[], [.moved 99, .moved 0], false, []⟩ [97] = .ok (some [], c') := ⟨_, _, rfl, rfl⟩
  have h2 := h.snoc (a := .crash ⟨100, 0, 1000⟩) (by simp [HostAct.Within, Buffers]) (.crash hleft ho)
  refine ⟨_, c', h2, hlook, fun env val c' hr => ?_⟩
  simpa using (lookup_after_crashes (by decide) h2).1 [97] env val c' hr

end EmbeddedKv.Store
