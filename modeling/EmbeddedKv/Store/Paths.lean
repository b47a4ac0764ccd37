import EmbeddedKv.Flash.Paths
import EmbeddedKv.Store.Crash
import EmbeddedKv.Store.Integrity
import EmbeddedKv.Store.OneRecord

/-!
# The two modes of the flash cache agree

The flash cache in direct mode and in write-buffer mode, under the same calls. What the
writers of the buffered files do in between does not show.

## What is proved

* `write_buffer_follows`: after the same calls both caches have the same indices, ids and
  offsets, and every buffered file has a prefix of the direct one on disk; an `Insert` that
  returns in direct mode returns the same in write-buffer mode; and `Lookup` finds the same
  value, unless the hand-over of the buffers of a full file is in its way.

The relation that every call keeps is `Twins`: there are logs that both caches have.
-/

namespace EmbeddedKv.Store

open EmbeddedKv.Library EmbeddedKv.Flash WriteableCacheFile

variable {crc : Bytes → UInt32} {mode : FlashcacheMode} {f g : WriteableCacheFile} {key val log : Bytes} {lba : LBA}
  {logs logs₁ logs₂ : ℕ → Bytes} {c c' c₁ e e' : FlashCache} {p : ℕ} {opt : FlashCacheConfig} {size : UInt64}

/-! ### Bookkeeping -/

/-- What a file keeps in both modes. -/
structure Books where
  /-- `cache_id_`. -/
  cacheId : UInt32
  /-- `max_size_`. -/
  maxSize : UInt32
  /-- `eof_`. -/
  eof : Bool
  /-- `disk_woff_`. -/
  diskWoff : UInt32
  /-- `key_lists_`. -/
  keyLists : List Bytes
  deriving DecidableEq, Repr

/-- The books of a file. -/
def books (f : WriteableCacheFile) : Books := ⟨f.cacheId, f.maxSize, f.eof, f.diskWoff, f.keyLists⟩

/-- The cache without its files. -/
def FlashCache.bare (c : FlashCache) : FlashCache := { c with heap := [] }

/-- The books of its files. -/
def FlashCache.books (c : FlashCache) : List (Option Books) := c.heap.map (Option.map Store.books)

/-- The writer does not touch the books. -/
theorem books_writer (hw : f.WriterStep g) : books g = books f := by
  cases hw <;> rfl

/-- **The two caches have the same logs**, and keep the same books. -/
structure Twins (logs : ℕ → Bytes) (c e : FlashCache) : Prop where
  /-- The cache in direct mode. -/
  direct : CacheSound .direct logs c
  /-- The cache in write-buffer mode. -/
  buffered : CacheSound .writeBuffer logs e
  /-- The indices, the ids and the mutex. -/
  bare : c.bare = e.bare
  /-- The files. -/
  books : c.books = e.books

/-- Only the files differ. -/
theorem Twins.exists_heap (h : Twins logs c e) : ∃ heap, e = { c with heap } := by
  have hbare := h.bare
  simp only [FlashCache.bare, FlashCache.mk.injEq] at hbare
  obtain ⟨h₁, h₂, h₃, h₄, h₅, h₆, -, h₇⟩ := hbare
  exact ⟨e.heap, by cases e; simp_all⟩

theorem Twins.length (h : Twins logs c e) : c.heap.length = e.heap.length := by
  have hlen := congrArg List.length h.books
  simpa [FlashCache.books] using hlen

/-- A file has a twin. -/
theorem Twins.deref (h : Twins logs c e) (hf : c.deref p = some f) :
    ∃ g, e.deref p = some g ∧ Store.books g = Store.books f := by
  have hbooks : c.books[p]?.join = e.books[p]?.join := by rw [h.books]
  have hderef : ∀ x : FlashCache, x.books[p]?.join = (x.deref p).map Store.books := by
    intro x
    rw [FlashCache.books, FlashCache.deref, List.getElem?_map]
    cases x.heap[p]? with
    | none => rfl
    | some v => rfl
  rw [hderef, hderef, hf] at hbooks
  obtain ⟨g, hg, heq⟩ := Option.map_eq_some_iff.mp hbooks.symm
  exact ⟨g, hg, heq⟩

/-! ### The calls -/

/-- Nothing but the bare cache changes. -/
theorem Twins.of_bare (h : Twins logs c e) (hc : CacheSound .direct logs c') (he : CacheSound .writeBuffer logs e')
    (hbare : c'.bare = e'.bare) (hheap : c'.heap = c.heap) (hheap' : e'.heap = e.heap) : Twins logs c' e' := by
  refine ⟨hc, he, hbare, ?_⟩
  rw [FlashCache.books, FlashCache.books, hheap, hheap']
  exact h.books

/-- A file and its twin get more. -/
theorem Twins.store {f' g' : WriteableCacheFile} (h : Twins logs c e) (hf : c.deref p = some f) (hg : e.deref p = some g)
    {more : Bytes} (hs : FileSound .direct f' (logs p ++ more)) (hs' : FileSound .writeBuffer g' (logs p ++ more))
    (hbooks : Store.books f' = Store.books g') (hid : f'.cacheId = f.cacheId) (hid' : g'.cacheId = g.cacheId) :
    Twins (Function.update logs p (logs p ++ more)) (c.store p f') (e.store p g') := by
  refine ⟨(h.direct.store hf hs hid).1, (h.buffered.store hg hs' hid').1, h.bare, ?_⟩
  have hall := h.books
  rw [FlashCache.books, FlashCache.books] at hall
  simp only [FlashCache.books, FlashCache.store, List.map_set, hall, Option.map_some, hbooks]

/-- A new file, under an id that is not in use. -/
theorem Twins.withNewFile (h : Twins logs c e) (hid : c.writerCacheId ∉ c.dir) :
    Twins (Function.update logs c.heap.length []) c.withNewFile e.withNewFile := by
  have hlen := h.length
  obtain ⟨heap, rfl⟩ := h.exists_heap
  refine ⟨(h.direct.withNewFile hid).1, ?_, ?_, ?_⟩
  · rw [hlen]
    exact (h.buffered.withNewFile hid).1
  · simp only [FlashCache.bare, FlashCache.withNewFile, hlen]
  · have hall := h.books
    rw [FlashCache.books, FlashCache.books] at hall
    simp only [FlashCache.books, FlashCache.withNewFile, List.map_append, hall]

/-- The mutex is locked, or given back. -/
theorem Twins.mutex (h : Twins logs c e) (b : Bool) :
    Twins logs { c with fcacheMutex := b } { e with fcacheMutex := b } := by
  obtain ⟨heap, rfl⟩ := h.exists_heap
  exact h.of_bare { h.direct with } { h.buffered with } rfl rfl rfl

/-- The file that gets the record has a twin that does. -/
theorem Twins.target (h : Twins logs c e) (ht : FlashCache.Target .direct c c₁) :
    ∃ logs₁ e₁, FlashCache.Target .writeBuffer e e₁ ∧ Twins logs₁ c₁ e₁ := by
  cases ht with
  | current => exact ⟨logs, _, .current, h.mutex true⟩
  | @rolled f hf he hnew hcreate =>
    obtain ⟨g, hg, hbooks⟩ := h.deref hf
    have hend : g.eof = true := (congrArg Books.eof hbooks).trans he
    refine ⟨_, _, .rolled ?_ hend (by simp) ?_, (h.mutex true).withNewFile (hnew rfl)⟩ <;>
      obtain ⟨heap, rfl⟩ := h.exists_heap
    · exact hg
    · exact hcreate

/-- A file that takes records agrees with its twin. -/
theorem agree_of_twins (hf : FileSound .direct f log) (hg : FileSound .writeBuffer g log)
    (hbooks : Store.books g = Store.books f)
    (he : f.eof = false) : Agree f g := by
  obtain ⟨hfd, -, hfile, -⟩ := hf.direct rfl
  simp only [Store.books, Books.mk.injEq] at hbooks
  obtain ⟨hid, hmax, heof, hoff, hkeys⟩ := hbooks
  exact ⟨hid.symm, hmax.symm, heof.symm, hoff.symm, hkeys.symm, hfile, log, hfd, hg.buffered rfl,
    hg.not_left (heof.trans he)⟩

/-- The address that is passed does not matter before the end of a file. -/
theorem append_direct_lba (he : f.eof = false) (writes : List IoResult) (lba lba' : LBA) :
    f.append crc .direct writes key val lba = f.append crc .direct writes key val lba' := by
  simp only [WriteableCacheFile.append, appendDirect, he, Bool.false_eq_true, if_false]

/-- The address is booked. -/
theorem CacheSound.booked (h : CacheSound mode logs (c.store c.cacheFile g)) (key : Bytes) (lba : LBA) :
    CacheSound mode logs (c.booked g key lba) := by
  have hindex := Metadata.cacheFileIndex_insert c.metadata key lba
  refine ⟨?_, ?_, ?_, h.files, h.room⟩ <;> rw [FlashCache.booked, hindex]
  · exact h.linked
  · exact h.indexed
  · exact h.current

theorem Twins.booked (h : Twins logs (c.store c.cacheFile f) (e.store e.cacheFile g)) (key : Bytes) (lba : LBA) :
    Twins logs (c.booked f key lba) (e.booked g key lba) := by
  refine ⟨h.direct.booked key lba, h.buffered.booked key lba, ?_, h.books⟩
  have hbare := h.bare
  simp only [FlashCache.bare, FlashCache.store, FlashCache.mk.injEq] at hbare
  simp only [FlashCache.bare, FlashCache.booked, FlashCache.store, hbare]

/-- **`Insert`** does the same in both modes. -/
theorem Twins.insert (h : Twins logs c e) (hfit : Fits .direct c key val) {writes : List IoResult} {r : Int}
    (hr : c.insert crc .direct writes key val = .ok (r, c')) (writes' : List IoResult) :
    ∃ logs' e', e.insert crc .writeBuffer writes' key val = .ok (r, e') ∧ Twins logs' c' e' := by
  have hfree : c.fcacheMutex = false := by
    by_contra hlocked
    rw [FlashCache.insert, if_pos (Bool.eq_true_of_not_eq_false hlocked)] at hr
    cases hr
  have hfree' : e.fcacheMutex = false := by
    obtain ⟨heap, rfl⟩ := h.exists_heap
    exact hfree
  obtain ⟨c₁, f, f', lba, lba', ok, ht, hf, he, ha, -⟩ := FlashCache.insert_cases hr
  obtain ⟨logs₁, e₁, ht', h₁⟩ := h.target ht
  obtain ⟨g, hg, hbooks⟩ := h₁.deref hf
  have hfile := h₁.direct.files _ f hf
  have hfile' := h₁.buffered.files _ g hg
  have hagree := agree_of_twins hfile hfile' hbooks he
  obtain ⟨hint, -⟩ := size_of_appendDirect he ha
  -- the record is appended to both files
  rcases hfile.append hfit.1 ha with ⟨hend, -⟩ | ⟨-, rfl, hsmall, hs, -, hid⟩
  · exact absurd (he.symm.trans hend) Bool.false_ne_true
  rw [append_direct_lba he writes lba {}] at ha
  obtain ⟨g', ha', hagree'⟩ := hagree.append hint writes' ha
  rcases hfile'.append (fun _ => hsmall) ha' with ⟨hend, -⟩ | ⟨-, -, -, hs', -, hid'⟩
  · exact absurd (hagree.eof.symm.trans he |>.symm.trans hend) Bool.false_ne_true
  cases hr.symm.trans (FlashCache.insert_of_target hfree ht hf ha)
  have hcur : e₁.cacheFile = c₁.cacheFile := by
    obtain ⟨heap, rfl⟩ := h₁.exists_heap
    rfl
  have hsame : Store.books f' = Store.books g' := by
    simp only [Store.books, hagree'.cacheId, hagree'.maxSize, hagree'.eof, hagree'.diskWoff, hagree'.keyLists]
  have hstored : Twins (Function.update logs₁ c₁.cacheFile (logs₁ c₁.cacheFile ++ image crc key val))
      (c₁.store c₁.cacheFile f') (e₁.store e₁.cacheFile g') := by
    rw [hcur]
    exact h₁.store hf hg hs hs' hsame hid hid'
  rw [← hcur] at hg
  exact ⟨_, _, FlashCache.insert_of_target hfree' ht' hg ha', hstored.booked key lba'⟩

/-- **`Lookup`** changes the same in both modes. -/
theorem Twins.lookup (h : Twins logs c e) {env env' : Environment} {r r' : Option Bytes}
    (hr : c.lookup crc .direct env key = .ok (r, c')) (hr' : e.lookup crc .writeBuffer env' key = .ok (r', e')) :
    Twins logs c' e' := by
  obtain ⟨hc, -, -⟩ := h.direct.lookup hr
  obtain ⟨he, -, -⟩ := h.buffered.lookup hr'
  obtain ⟨heap, rfl⟩ := h.exists_heap
  refine h.of_bare hc he ?_ (FlashCache.lookup_frame hr).2.2 (FlashCache.lookup_frame hr').2.2
  cases FlashCache.Looked.of_lookup hr with
  | absent hl =>
    cases FlashCache.Looked.of_lookup hr' with
    | absent => rfl
    | noFile hl' | read hl' => cases hl.symm.trans hl'
  | noFile hl hget =>
    cases FlashCache.Looked.of_lookup hr' with
    | absent hl' => cases hl.symm.trans hl'
    | noFile hl' hget' =>
      cases hl.symm.trans hl'
      cases hget.symm.trans hget'
      rfl
    | read hl' hget' =>
      cases hl.symm.trans hl'
      cases hget.symm.trans hget'
  | read hl hget =>
    cases FlashCache.Looked.of_lookup hr' with
    | absent hl' => cases hl.symm.trans hl'
    | noFile hl' hget' =>
      cases hl.symm.trans hl'
      cases hget.symm.trans hget'
    | read hl' hget' =>
      cases hl.symm.trans hl'
      cases hget.symm.trans hget'
      rfl

/-- `DeleteMetaData` deletes the key in both modes. -/
theorem Twins.deleteMetaData (h : Twins logs c e) (key : Bytes) :
    Twins logs (c.deleteMetaData key) (e.deleteMetaData key) := by
  obtain ⟨heap, rfl⟩ := h.exists_heap
  exact h.of_bare { h.direct with } { h.buffered with } rfl rfl rfl

/-- **The writers** of the buffered files do not show. -/
theorem Twins.writer (h : Twins logs c e) (hg : e.deref p = some f) (hw : f.WriterStep g) : Twins logs c (e.store p g) := by
  refine ⟨h.direct, (h.buffered.writer hg hw).1, h.bare, ?_⟩
  have hall := h.books
  rw [FlashCache.books, FlashCache.books] at hall
  have hsome : (e.heap.map (Option.map Store.books))[p]? = some (some (Store.books f)) := by
    rw [FlashCache.deref] at hg
    rw [List.getElem?_map, Option.join_eq_some_iff.mp hg]
    rfl
  obtain ⟨hlt, hget⟩ := List.getElem?_eq_some_iff.mp hsome
  simp only [FlashCache.books, FlashCache.store, List.map_set, hall, Option.map_some, books_writer hw]
  rw [← hget, List.set_getElem_self]

/-- In direct mode the writers sleep. -/
theorem CacheSound.not_writer (h : CacheSound .direct logs c) (hf : c.deref p = some f) : ¬ f.WriterStep g := by
  obtain ⟨-, -, -, htid, hsem⟩ := (h.files p f hf).direct rfl
  intro hw
  cases hw <;> simp_all

/-! ### Runs -/

/-- A call, and no step of a writer. -/
def CacheAct.isCall : CacheAct → Bool
  | .writer _ => false
  | _ => true

/-- Both caches start with the same empty logs. -/
theorem twins_openEmpty (opt : FlashCacheConfig) (size : UInt64) (hbuf : 0 < opt.writeBufferSize.toNat) :
    Twins (fun _ => []) (.openEmpty opt size) (.openEmpty opt size) := by
  have hlogs : ∀ {mode : FlashcacheMode} {logs : ℕ → Bytes}, CacheSound mode logs (.openEmpty opt size) →
      CacheSound mode (fun _ => []) (.openEmpty opt size) := by
    intro mode logs h
    refine ⟨h.linked, h.indexed, h.current, fun p f hf => ?_, h.room⟩
    rw [FlashCache.openEmpty, FlashCache.deref_withNewFile] at hf
    split_ifs at hf
    · rw [← Option.some.inj hf]
      exact fileSound_fresh mode _ _ fun _ => hbuf
    · cases hf
  obtain ⟨logs, hs, -⟩ := openEmpty_refines (fun _ => 0) .direct opt size (by simp)
  obtain ⟨logs', hs', -⟩ := openEmpty_refines (fun _ => 0) .writeBuffer opt size fun _ => hbuf
  exact ⟨hlogs hs, hlogs hs', rfl, rfl⟩

theorem short_openEmpty (opt : FlashCacheConfig) (size : UInt64) : Short opt (.openEmpty opt size) := by
  refine ⟨rfl, fun f hf => ?_⟩
  obtain rfl := Option.some.inj hf
  exact filling_new 0 opt.cacheFileSize opt.writeBufferSize false

/-- The runs that are considered, in one of the modes. -/
abbrev ModeRun (crc : Bytes → UInt32) (mode : FlashcacheMode) (opt : FlashCacheConfig) (size : UInt64) :
    List CacheAct → FlashCache → Prop :=
  Run (CacheStep crc mode) (fun _ _ a => a.InBounds opt) (.openEmpty opt size)

/-- **One call** in both modes. -/
theorem Twins.step {a : CacheAct} (h : Twins logs c e) (hshort : Short opt c) (ha : a.InBounds opt) (hcall : a.isCall = true)
    (hs : CacheStep crc .direct c a c') (hs' : CacheStep crc .writeBuffer e a e') : ∃ logs', Twins logs' c' e' := by
  cases hs with
  | insert hr =>
    cases hs' with
    | @insert _ _ _ writes _ hr' =>
      obtain ⟨logs', e₁, he₁, h₁⟩ := h.insert (h.direct.fits hshort ha.2.2) hr writes
      cases he₁.symm.trans hr'
      exact ⟨logs', h₁⟩
  | lookup hr =>
    cases hs' with
    | lookup hr' => exact ⟨logs, h.lookup hr hr'⟩
  | deleteMetaData =>
    cases hs' with
    | deleteMetaData => exact ⟨logs, h.deleteMetaData _⟩
  | evict => cases ha
  | writer => cases hcall

/-- **In all runs** with the same calls the caches are twins. -/
theorem twins_of_runs {acts : List CacheAct} (hbuf : 0 < opt.writeBufferSize.toNat)
    (hc : ModeRun crc .direct opt size (acts.filter CacheAct.isCall) c) (he : ModeRun crc .writeBuffer opt size acts e) :
    (∃ logs, Twins logs c e) ∧ Short opt c := by
  refine he.invariant (P := fun acts e => ∀ c, ModeRun crc .direct opt size (acts.filter CacheAct.isCall) c →
    (∃ logs, Twins logs c e) ∧ Short opt c) ?_ ?_ c hc
  · intro c hc
    rw [hc.of_nil]
    exact ⟨⟨_, twins_openEmpty opt size hbuf⟩, short_openEmpty opt size⟩
  · intro acts e a e' ih ha hs' c hc
    rw [List.filter_append] at hc
    cases hcall : a.isCall with
    | false =>
      rw [List.filter_cons_of_neg (by simp [hcall]), List.filter_nil, List.append_nil] at hc
      obtain ⟨⟨logs, h⟩, hshort⟩ := ih c hc
      cases hs' with
      | writer hg hw => exact ⟨⟨logs, h.writer hg hw.1⟩, hshort⟩
      | insert | lookup | deleteMetaData | evict => cases hcall
    | true =>
      rw [List.filter_cons_of_pos hcall, List.filter_nil] at hc
      obtain ⟨c₀, hc₀, -, hs⟩ := hc.of_snoc
      obtain ⟨⟨logs, h⟩, hshort⟩ := ih c₀ hc₀
      exact ⟨h.step hshort ha hcall hs hs', hs.short ha h.direct hshort⟩

/-- **In all runs** in direct mode the entries of the index lead to records. -/
theorem run_refines {acts : List CacheAct} (h : ModeRun crc .direct opt size acts c) : Short opt c ∧
    ∃ logs, CacheSound .direct logs c ∧ Refines crc logs c (kept (acts.filterMap CacheAct.event)) := by
  refine h.invariant (P := fun acts c => Short opt c ∧
    ∃ logs, CacheSound .direct logs c ∧ Refines crc logs c (kept (acts.filterMap CacheAct.event))) ?_ ?_
  · obtain ⟨logs, hs, hm⟩ := openEmpty_refines crc .direct opt size (by simp)
    exact ⟨short_openEmpty opt size, logs, hs, hm⟩
  · rintro acts c a c' ⟨hshort, logs, hs, hm⟩ ha hstep
    have hadm : a.Admissible .direct c := by
      cases a with
      | insert key val => exact ⟨ha.1, ha.2.1, hs.fits hshort ha.2.2⟩
      | lookup key => trivial
      | deleteMetaData key => trivial
      | evict size => exact ha
      | writer p => trivial
    exact ⟨hstep.short ha hs hshort, hstep.refines hadm hs hm⟩

/-- In direct mode the log of a file is what the file has. -/
theorem Stores.congr_logs (h : Stores crc logs₁ c lba key val) (h₁ : CacheSound .direct logs₁ c)
    (h₂ : CacheSound .direct logs₂ c) :
    Stores crc logs₂ c lba key val := by
  obtain ⟨⟨p, hp, hat⟩, hrest⟩ := h
  obtain ⟨-, f, hf, -⟩ := h₁.indexed _ p hp
  have heq := ((h₁.files p f hf).direct rfl).1.symm.trans ((h₂.files p f hf).direct rfl).1
  rw [Option.some.inj heq] at hat
  exact ⟨⟨p, hp, hat⟩, hrest⟩

/-- A record can be read before the end of the file, and after it if it is spared. -/
theorem FileSound.readable (h : FileSound .writeBuffer g log) (hat : At log lba (image crc key val))
    (hs : g.eof = true → g.Spared lba) : g.Readable .writeBuffer lba := by
  have hcons := h.buffered rfl
  have hpos := length_image_pos crc key val
  obtain ⟨hsize, hlog⟩ := hat.nonempty hpos
  refine (hcons.readable_iff_spared hlog hsize).mpr ?_
  cases he : g.eof with
  | true => exact hs he
  | false => exact hcons.spared_of_open he hat hpos

/-- **A cache in write-buffer mode follows one in direct mode** under the same calls, whatever its
writers do in between: the indices of keys and files, the ids, the offsets, the ends of the files
and `size_` are the same; on disk every file has a prefix of its twin; an `Insert` that returns
in direct mode returns the same number; and `Lookup` finds the same value, of a file at its end
if the record is spared by the hand-over of its buffers. -/
theorem write_buffer_follows {acts : List CacheAct} (hbuf : 0 < opt.writeBufferSize.toNat)
    (hc : ModeRun crc .direct opt size (acts.filter CacheAct.isCall) c) (he : ModeRun crc .writeBuffer opt size acts e) :
    c.bare = e.bare ∧ c.books = e.books ∧
    (∀ p f g, c.deref p = some f → e.deref p = some g → ∃ whole written, f.fd = some whole ∧ g.fd = some written ∧
      written <+: whole) ∧
    (∀ key val writes writes' r c', opt.cacheFileSize.toNat + recordSize key val < 2 ^ 32 →
      c.insert crc .direct writes key val = .ok (r, c') → ∃ e', e.insert crc .writeBuffer writes' key val = .ok (r, e')) ∧
    ∀ key lba, c.metadata.lookup key = some lba → c.fcacheMutex = false → ∃ val,
      (∀ env, Enough env.preads lba.size.toNat → ∃ c', c.lookup crc .direct env key = .ok (some val, c')) ∧
      ∀ env, Enough env.preads lba.size.toNat → (∀ p g, e.metadata.cacheFileIndex.find lba.cacheId = some p →
        e.deref p = some g → g.eof = true → g.Spared lba) →
        ∃ e', e.lookup crc .writeBuffer env key = .ok (some val, e') := by
  obtain ⟨⟨logs, h⟩, hshort⟩ := twins_of_runs hbuf hc he
  obtain ⟨-, logs', hs, hm⟩ := run_refines hc
  refine ⟨h.bare, h.books, fun p f g hf hg => ?_, fun key val writes writes' r c' hsize hr => ?_, fun key lba hl hfree => ?_⟩
  · obtain ⟨d, hd, hpre⟩ := (h.buffered.files p g hg).holds.file
    exact ⟨logs p, d, ((h.direct.files p f hf).direct rfl).1, hd, hpre⟩
  · obtain ⟨-, e', hr', -⟩ := h.insert (h.direct.fits hshort hsize) hr writes'
    exact ⟨e', hr'⟩
  · obtain ⟨val, -, hstored⟩ := hm.stores hl
    have hstored' := hstored.congr_logs hs h.direct
    refine ⟨val, fun env hio => ?_, fun env hio hread => ?_⟩
    · obtain ⟨c', hr, -⟩ := h.direct.lookup_stored hfree hl hstored' hio (by simp)
      exact ⟨c', hr⟩
    · obtain ⟨heap, rfl⟩ := h.exists_heap
      have hlook := h.buffered.lookup_stored hfree hl hstored' hio fun _ p g hp hg => ?_
      · obtain ⟨e', hr, -⟩ := hlook
        exact ⟨e', hr⟩
      · obtain ⟨⟨q, hq, hat⟩, -⟩ := hstored'
        obtain rfl := Option.some.inj (hp.symm.trans hq)
        exact (h.buffered.files p g hg).readable hat (hread p g hp hg)

/-- Two records, between which the writer of the buffered file wakes up: nothing is on disk yet, and the
second one is found in both caches. -/
theorem write_buffer_follows_two : ∃ (c e : FlashCache) (f g : WriteableCacheFile) (val : Bytes),
    c.deref 0 = some f ∧ e.deref 0 = some g ∧ f.fd = some (image (fun _ => 0) [97] [1] ++ image (fun _ => 0) [98] [2]) ∧
    g.fd = some [] ∧
    (∃ c', c.lookup (fun _ => 0) .direct ⟨[], List.replicate 18 (.moved 0), false, []⟩ [98] = .ok (some val, c')) ∧
    ∃ e', e.lookup (fun _ => 0) .writeBuffer ⟨[], List.replicate 18 (.moved 0), false, []⟩ [98] = .ok (some val, e') := by
  have hin : ∀ a b : UInt8, a ≠ 0 → b ≠ 0 → (CacheAct.insert [a] [b]).InBounds ⟨100, 10, 1000⟩ := fun a b ha hb =>
    ⟨by simpa [NulFree] using ha, by simpa [NulFree] using hb, by simp [recordSize]; decide⟩
  have h0 : ModeRun (fun _ => 0) .direct ⟨100, 10, 1000⟩ 0 [] _ := .nil _
  have h1 := h0.snoc (a := .insert [97] [1]) (hin 97 1 (by decide) (by decide)) (.insert
    (show FlashCache.insert (fun _ => 0) .direct [.moved 99] _ [97] [1] = .ok (0, _) from rfl))
  have h2 := h1.snoc (a := .insert [98] [2]) (hin 98 2 (by decide) (by decide)) (.insert
    (show FlashCache.insert (fun _ => 0) .direct [.moved 99] _ [98] [2] = .ok (0, _) from rfl))
  have k0 : ModeRun (fun _ => 0) .writeBuffer ⟨100, 10, 1000⟩ 0 [] _ := .nil _
  have k1 := k0.snoc (a := .insert [97] [1]) (hin 97 1 (by decide) (by decide)) (.insert
    (show FlashCache.insert (fun _ => 0) .writeBuffer [] _ [97] [1] = .ok (0, _) from rfl))
  have k2 := k1.snoc (a := CacheAct.writer 0) trivial (.writer rfl ⟨.semWait rfl Nat.one_pos, by rintro b ⟨h, -⟩; cases h⟩)
  have k3 := k2.snoc (a := .insert [98] [2]) (hin 98 2 (by decide) (by decide)) (.insert
    (show FlashCache.insert (fun _ => 0) .writeBuffer [] _ [98] [2] = .ok (0, _) from rfl))
  obtain ⟨-, -, -, -, hlook⟩ := write_buffer_follows (by decide) h2 k3
  obtain ⟨val, hdirect, hbuffered⟩ := hlook [98] ⟨0, 18, 18⟩ rfl rfl
  have hio : Enough (List.replicate 18 (IoResult.moved 0)) 18 := ⟨by simp, by decide⟩
  refine ⟨_, _, _, _, val, rfl, rfl, rfl, rfl, hdirect _ hio, hbuffered _ hio ?_⟩
  intro p g hp hg he
  cases hp
  cases hg
  cases he

end EmbeddedKv.Store
