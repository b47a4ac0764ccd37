import EmbeddedKv.Store.Capacity
import EmbeddedKv.Store.Ids

/-!
# The accounts of the flash cache

`size_` and the files in the index, from the constructor on, in both modes.

## The model

`AccountStep` is a call of `Open` or `Insert`, a round of `Evict` whose `unlink` succeeds,
or a step of a writer; an `Evict` that is run to completion is some rounds. `Open` may be
called at any time: the files that it finds are those in the directory, with their bytes.
The constructor does not initialise `size_`.

## What is proved

`reach_size_eq_held`: `size_` is the number of bytes that the indexed files hold, in every
run from an object whose `size_` happens to be zero and whose steps are `Accountable`:
`Open` is called once, first; the numbers fit into the C types; and no buffer is lost.
`garbage_stays` is what happens to another initial value.
-/

namespace EmbeddedKv.Store

open EmbeddedKv.Library EmbeddedKv.Flash WriteableCacheFile Relation

/-! ### The system -/

/-- What happens to the cache. -/
inductive AccountAct where
  /-- `Open()` with these files in the directory. -/
  | openFiles (files : List (UInt32 × Bytes))
  /-- `Insert(key, val)`. -/
  | insert (key val : Bytes)
  /-- A round of `Evict(size)`. -/
  | round (size : UInt64)
  /-- A step of the writer of a file. -/
  | writer (p : ℕ)

/-- **One call, one round, or one step of a writer.** -/
inductive AccountStep (crc : Bytes → UInt32) (garbage : UInt32 → ℕ → ℕ → UInt8) (mode : FlashcacheMode) :
    FlashCache → AccountAct → FlashCache → Prop where
  /-- `Open` returns. -/
  | openFiles {c c₁ c' : FlashCache} {files : List (UInt32 × Bytes)} (hdir : files.map Prod.fst = c.dir)
      (hdisk : ∀ entry ∈ files, ∀ p f, c.deref p = some f → f.cacheId = entry.1 → f.fd = some entry.2)
      (hr : FlashCache.recoverAll garbage c files = .ok c₁) (hnew : c₁.newCacheFile = .ok c') :
      AccountStep crc garbage mode c (.openFiles files) c'
  /-- `Insert` returns. -/
  | insert {c c' : FlashCache} {key val : Bytes} {writes : List IoResult} {r : Int}
      (hr : c.insert crc mode writes key val = .ok (r, c')) : AccountStep crc garbage mode c (.insert key val) c'
  /-- The least recently used file is taken out of the indices and deleted. -/
  | round {c : FlashCache} {size : UInt64} {p : ℕ} {f g : WriteableCacheFile} {metadata : Metadata}
      (hover : c.overfull size = true) (hlock : c.fcacheMutex = false)
      (hevict : c.metadata.evict (fun p => (c.deref p).map WriteableCacheFile.cacheId) = .ok (p, metadata))
      (hf : c.deref p = some f) (hclose : FlashCache.Close mode c f g) :
      AccountStep crc garbage mode c (.round size) (c.removed metadata p g true)
  /-- The writer of a file takes a step. -/
  | writer {c : FlashCache} {p : ℕ} {f g : WriteableCacheFile} (hf : c.deref p = some f) (hw : c.Writes f g) :
      AccountStep crc garbage mode c (.writer p) (c.store p g)

/-- `FlashCache(opt)`, over a directory with files of these ids; `size` is what `size_`
happens to be. -/
def constructed (opt : FlashCacheConfig) (size : UInt64) (dir : List UInt32) : FlashCache := { size, opt, dir }

/-- **The condition.** `Open` is called on an object without files, and finds files of less
than `2 ^ 31` bytes under names that are ids; the record of an `Insert` in write-buffer
mode is of less than `2 ^ 32` bytes, and the id of a new file is not in use; the sum fits
into 64 bits; a removed file is of less than `2 ^ 31` bytes; and in front of an exit from
`writerJobs` everything is written. -/
def AccountAct.Accountable (mode : FlashcacheMode) (c : FlashCache) : AccountAct → Prop
  | .openFiles files => c.heap = [] ∧ Listing files ∧ (∀ entry ∈ files, entry.2.length < 2 ^ 31) ∧
    (files.map fun entry => entry.2.length).sum < 2 ^ 64
  | .insert key val => c.held + recordSize key val < 2 ^ 64 ∧ (mode = .writeBuffer → recordSize key val < 2 ^ 32 ∧
    ∀ f, c.deref c.cacheFile = some f → f.eof = true → c.writerCacheId ∉ c.dir)
  | .round _ => ∀ p metadata,
    c.metadata.evict (fun p => (c.deref p).map WriteableCacheFile.cacheId) = .ok (p, metadata) →
      ∀ f, c.deref p = some f → f.held < 2 ^ 31 ∧ (f.tid = some .returned → f.unwritten = 0)
  | .writer p => ∀ f, c.deref p = some f → f.tid = some .returned → f.eof = true → f.unwritten = 0

variable {crc : Bytes → UInt32} {garbage : UInt32 → ℕ → ℕ → UInt8} {mode : FlashcacheMode} {opt : FlashCacheConfig}
  {f g : WriteableCacheFile} {log key val : Bytes} {lba lba' : LBA} {c c' : FlashCache} {p : ℕ}
  {files : List (UInt32 × Bytes)}

/-! ### One file -/

/-- **A file that has or holds all of its log**, and counts it. -/
inductive Counted (mode : FlashcacheMode) (f : WriteableCacheFile) (log : Bytes) : Prop where
  /-- A file of an earlier run. -/
  | opened (heof : f.eof = true) (htid : f.tid = none) (hbufs : f.bufs = []) (hfd : f.fd = some log)
      (hsize : f.filesize = UInt32.ofNat log.length)
  /-- In direct mode, or without room in the buffers, the writer has nothing to do. -/
  | sleeping (hm : mode = .direct ∨ f.writeBufferSize.toNat = 0 ∧ f.bufWoff = 0) (htid : f.tid = some .waiting)
      (hsem : f.semWriter = 0) (hbufs : f.bufs = []) (hfd : f.fd = some log)
      (hsize : f.filesize = UInt32.ofNat log.length)
  /-- A file in write-buffer mode. -/
  | buffered (hm : mode = .writeBuffer) (h : Whole f log)

theorem Counted.held_eq (h : Counted mode f log) : f.held = log.length := by
  cases h with
  | opened _ _ hbufs hfd _ => simp [held, unwritten, hbufs, hfd]
  | sleeping _ _ _ hbufs hfd _ => simp [held, unwritten, hbufs, hfd]
  | buffered _ h => exact h.held_eq

theorem counted_fresh (mode : FlashcacheMode) (cacheId maxSize writeBufferSize : UInt32) :
    Counted mode (fresh cacheId maxSize writeBufferSize) [] := by
  cases mode with
  | direct => exact .sleeping (.inl rfl) rfl rfl rfl rfl rfl
  | writeBuffer =>
    rcases Nat.eq_zero_or_pos writeBufferSize.toNat with hzero | hpos
    · exact .sleeping (.inr ⟨hzero, rfl⟩) rfl rfl rfl rfl rfl
    · exact .buffered rfl (whole_fresh cacheId maxSize hpos)

/-- **`Append`** before the end of the file. -/
theorem Counted.append (h : Counted mode f log) (he : f.eof = false)
    (hsmall : mode = .writeBuffer → recordSize key val < 2 ^ 32) {writes : List IoResult} {ok : Bool}
    (hr : f.append crc mode writes key val lba = .ok (ok, lba', g)) :
    ok = true ∧ Counted mode g (log ++ image crc key val) ∧ recordSize key val < 2 ^ 32 ∧
      lba'.size = CacheRecord.calcSize key val := by
  cases h with
  | opened heof => exact absurd (he.symm.trans heof) Bool.false_ne_true
  | buffered hm h =>
    subst hm
    obtain ⟨hok, hg, hlt, hlba⟩ := h.append he (hsmall rfl) hr
    exact ⟨hok, .buffered rfl hg, hlt, hlba⟩
  | sleeping hm htid hsem hbufs hfd hsize =>
    cases mode with
    | direct =>
      rw [WriteableCacheFile.append] at hr
      obtain ⟨hint, heq⟩ := appendDirect_ok he hfd hr
      cases heq
      refine ⟨rfl, .sleeping (.inl rfl) htid hsem hbufs rfl ?_, by omega, rfl⟩
      rw [List.length_append, UInt32.ofNat_add, length_image, ← hsize]
      rfl
    | writeBuffer =>
      obtain ⟨hzero, hwoff⟩ := hm.resolve_left (by simp)
      have hshape : Shaped 0 f.bufs f.bufWoff [] := by
        rw [hbufs, hwoff]
        exact Shaped.nil 0
      rw [WriteableCacheFile.append, appendBuffered_of_zero hzero hshape he (hsmall rfl)] at hr
      cases hr

/-- **A writer** that loses nothing. -/
theorem Counted.writer (h : Counted mode f log) (hw : f.WriterStep g)
    (hexit : f.tid = some .returned → f.eof = true → f.unwritten = 0) : Counted mode g log := by
  cases h with
  | opened heof htid => cases hw <;> simp_all
  | sleeping hm htid hsem => cases hw <;> simp_all
  | buffered hm h =>
    exact .buffered hm
      ⟨h.sound.writer hw, hw.kept (h.sound.buffered rfl) h.kept hexit, hw.tid_isSome⟩

/-- A writer without buffers writes nothing. -/
theorem filesize_of_nil (hrun : ReflTransGen WriterStep f g) (hbufs : f.bufs = [])
    (hpc : ∀ src left, f.tid ≠ some (.writing src left)) :
    g.filesize = f.filesize ∧ g.bufs = [] ∧ ∀ src left, g.tid ≠ some (.writing src left) := by
  induction hrun with
  | refl => exact ⟨rfl, hbufs, hpc⟩
  | @tail e g _ hw ih =>
    obtain ⟨hsize, hnil, hout⟩ := ih
    cases hw with
    | fetch _ _ hb => rw [hnil] at hb; cases hb
    | write hat => exact absurd hat (hout _ _)
    | eintr hat => exact absurd hat (hout _ _)
    | advance hat => exact absurd hat (hout _ _)
    | pop _ hne => exact absurd hnil hne
    | _ => exact ⟨hsize, hnil, by simp⟩

/-- **`Close`** leaves a file that counts its log. -/
theorem Counted.close (h : Counted mode f log) (hclose : FlashCache.Close mode c f g)
    (hret : f.tid = some .returned → f.unwritten = 0) : g.filesize = UInt32.ofNat log.length := by
  cases hclose with
  | noWriter hnone _ =>
    cases h with
    | opened _ _ _ _ hsize => exact hsize
    | sleeping _ htid => cases hnone.symm.trans htid
    | buffered _ h =>
      have hstarted := h.started
      rw [hnone] at hstarted
      cases hstarted
  | @join g hstarted hrun hjoin =>
    have hsteps : ReflTransGen WriterStep (FlashCache.startClose mode f) g := hrun.lift id fun _ _ hw => hw.1
    cases h with
    | opened _ htid => rw [htid] at hstarted; cases hstarted
    | sleeping _ htid _ hbufs _ hsize =>
      have hpc : ∀ src left, (FlashCache.startClose mode f).tid ≠ some (.writing src left) := by
        intro src left hat
        cases htid.symm.trans hat
      exact (filesize_of_nil hsteps hbufs hpc).1.trans hsize
    | buffered hm h =>
      subst hm
      exact (joined_filesize hsteps hjoin (h.sound.buffered rfl) h.kept hret).1

/-! ### Open -/

/-- **A file that is found in the directory** is booked with its bytes. -/
theorem Reconciled.recover (h : Reconciled (Counted mode) c) {entry : UInt32 × Bytes} (hdir : entry.1 ∈ c.dir)
    (hnew : c.metadata.cacheFileIndex.find entry.1 = none) (hlen : entry.2.length < 2 ^ 31)
    (hsum : c.held + entry.2.length < 2 ^ 64) (hr : c.recover garbage entry = .ok c') :
    Reconciled (Counted mode) c' ∧ c'.held = c.held + entry.2.length := by
  obtain ⟨logs, hlogs, hsize⟩ := h
  obtain ⟨calls, f, -, rfl, hderef, -, -, -, hheap, -⟩ := FlashCache.recover_cases hr
  obtain ⟨hfiled, hfind, -⟩ := hlogs.filed.recover hdir hnew hr
  obtain ⟨hadded, hheld⟩ := hlogs.add (fun _ _ hf => hf.held_eq) hfiled hheap hderef hfind hnew
    (.opened rfl rfl rfl rfl rfl)
  refine ⟨⟨_, hadded, ?_⟩, hheld⟩
  rw [hheld, FlashCache.recover_size hr, UInt64.toNat_add, toNat_int_of_lt hlen, hsize, Nat.mod_eq_of_lt hsum]

/-- All files that are found in the directory. -/
theorem Reconciled.recoverAll (h : Reconciled (Counted mode) c) (hdir : ∀ entry ∈ files, entry.1 ∈ c.dir)
    (hnew : ∀ entry ∈ files, c.metadata.cacheFileIndex.find entry.1 = none) (hnodup : (files.map Prod.fst).Nodup)
    (hlen : ∀ entry ∈ files, entry.2.length < 2 ^ 31)
    (hsum : c.held + (files.map fun entry => entry.2.length).sum < 2 ^ 64)
    (hr : FlashCache.recoverAll garbage c files = .ok c') : Reconciled (Counted mode) c' := by
  induction files generalizing c with
  | nil =>
    cases hr
    exact h
  | cons entry files ih =>
    rw [FlashCache.recoverAll] at hr
    cases hrec : c.recover garbage entry with
    | error e => rw [hrec] at hr; cases hr
    | ok c₁ =>
      rw [hrec] at hr
      rw [List.map_cons, List.nodup_cons] at hnodup
      rw [List.map_cons, List.sum_cons] at hsum
      have hentry := hnew entry List.mem_cons_self
      obtain ⟨h₁, hheld⟩ := h.recover (hdir _ List.mem_cons_self) hentry (hlen _ List.mem_cons_self) (by omega) hrec
      obtain ⟨logs, hlogs, -⟩ := h
      obtain ⟨-, hfind, -⟩ := hlogs.filed.recover (hdir _ List.mem_cons_self) hentry hrec
      have hdir₁ : c₁.dir = c.dir := by
        obtain ⟨-, -, -, -, -, -, -, -, -, hdir₁, -⟩ := FlashCache.recover_cases hrec
        exact hdir₁
      exact ih h₁ (fun e he => by rw [hdir₁]; exact hdir e (List.mem_cons_of_mem _ he))
        (fun e he => by
          have hne : e.1 ≠ entry.1 := fun heq => hnodup.1 (heq ▸ List.mem_map_of_mem he)
          rw [hfind, if_neg hne]
          exact hnew e (List.mem_cons_of_mem _ he))
        hnodup.2 (fun e he => hlen e (List.mem_cons_of_mem _ he)) (by rw [hheld]; omega) hr

/-- The object that the constructor has made, if `size_` happens to be zero. -/
theorem reconciled_constructed (mode : FlashcacheMode) (opt : FlashCacheConfig) (dir : List UInt32) :
    Reconciled (Counted mode) (constructed opt 0 dir) :=
  ⟨fun _ => [],
    ⟨⟨LruCache.linked_empty, fun _ _ hp => nomatch hp⟩, fun _ _ hf => (nomatch hf), fun _ _ hf => (nomatch hf)⟩, rfl⟩

/-- **`Open`** on that object. -/
theorem reconciled_open {dir : List UInt32} (hdir : files.map Prod.fst = dir) (hfiles : Listing files)
    (hlen : ∀ entry ∈ files, entry.2.length < 2 ^ 31) (hsum : (files.map fun entry => entry.2.length).sum < 2 ^ 64)
    (hr : FlashCache.recoverAll garbage (constructed opt 0 dir) files = .ok c') :
    Reconciled (Counted mode) c'.withNewFile := by
  subst hdir
  have hin : ∀ entry ∈ files, entry.1 ∈ (constructed opt 0 (files.map Prod.fst)).dir :=
    fun e he => List.mem_map_of_mem he
  have hzero : (constructed opt 0 (files.map Prod.fst)).held = 0 := rfl
  obtain ⟨logs, hlogs, hsize⟩ := (reconciled_constructed mode opt _).recoverAll hin (fun e _ => LruCache.find_empty _)
    hfiles.1 hlen (by rw [hzero, Nat.zero_add]; exact hsum) hr
  obtain ⟨-, -, -, hunused⟩ := hfiles.scan hr
  obtain ⟨hnew, hheld⟩ := hlogs.withNewFile (fun _ _ hf => hf.held_eq) hunused.dir (counted_fresh mode _ _ _)
  exact ⟨_, hnew, hsize.trans hheld.symm⟩

/-! ### Runs -/

/-- Every step that meets the condition keeps the books right, and after the first one
there are files. -/
theorem AccountStep.reconciled {a : AccountAct} {dir : List UInt32} (hs : AccountStep crc garbage mode c a c')
    (ha : a.Accountable mode c) (hinit : c = constructed opt 0 dir ∨ c.heap ≠ []) (h : Reconciled (Counted mode) c) :
    c'.heap ≠ [] ∧ Reconciled (Counted mode) c' := by
  have filled : ∀ {c : FlashCache} {p f o}, c.deref p = some f → c.heap.set p o ≠ [] := by
    intro c p f o hf hnil
    have hlen : (c.heap.set p o).length = c.heap.length := List.length_set
    have hlt := FlashCache.lt_of_deref hf
    rw [← hlen, hnil] at hlt
    cases hlt
  cases hs with
  | openFiles hdir hdisk hr hnew =>
    obtain ⟨-, rfl⟩ := FlashCache.newCacheFile_iff.mp hnew
    obtain ⟨hnil, hfiles, hlen, hsum⟩ := ha
    rcases hinit with rfl | hne
    · exact ⟨List.append_ne_nil_of_right_ne_nil _ (List.cons_ne_nil _ _), reconciled_open hdir hfiles hlen hsum hr⟩
    · exact absurd hnil hne
  | insert hr =>
    obtain ⟨hsum, hbuffered⟩ := ha
    obtain ⟨c₁, f₁, g, lba, lba', ok, ht, hf₁, heof, -, hstate⟩ := FlashCache.insert_cases hr
    have hfresh : ∀ f, c.deref c.cacheFile = some f → f.eof = true → c.writerCacheId ∉ c.dir := by
      intro f hf he
      cases ht with
      | current =>
        obtain rfl := Option.some.inj (hf.symm.trans hf₁)
        exact absurd (he.symm.trans heof) (by simp)
      | rolled _ _ hnew =>
        cases mode with
        | direct => exact hnew rfl
        | writeBuffer => exact (hbuffered rfl).2 f hf he
    obtain ⟨hnew, -⟩ := h.insert (fun _ _ hf => hf.held_eq) (counted_fresh mode _ _ _)
      (fun hf he happ => hf.append he (fun hm => (hbuffered hm).1) happ) hfresh hsum hr
    have hheap : c'.heap = (c₁.store c₁.cacheFile g).heap := by
      rcases hstate with ⟨-, rfl⟩ | ⟨-, rfl⟩ <;> rfl
    refine ⟨?_, hnew⟩
    rw [hheap]
    exact filled hf₁
  | @round _ p f g metadata hover hlock hevict hf hclose =>
    obtain ⟨hint, hret⟩ := ha p metadata hevict f hf
    obtain ⟨hgid, hgkeys⟩ := hclose.frame
    refine ⟨filled hf, ?_⟩
    exact h.removed (fun _ _ hf => hf.held_eq) hevict hf hgid hgkeys (fun _ hc => hc.close hclose hret) hint
  | @writer p f g hf hw =>
    refine ⟨filled hf, ?_⟩
    exact (h.store (fun _ _ hf => hf.held_eq) hf (fun log hc => hc.writer hw.1 (ha f hf)) hw.1.cacheId).1

/-- **`size_` is what the files hold** in every state reached from an object whose `size_`
happens to be zero, by steps that meet the condition. -/
theorem reach_size_eq_held {size : UInt64} {dir : List UInt32} (hsize : size = 0)
    (h : Reach (AccountStep crc garbage mode) (fun c a => a.Accountable mode c) (constructed opt size dir) c) :
    c.size.toNat = c.held := by
  subst hsize
  have hinv : (c = constructed opt 0 dir ∨ c.heap ≠ []) ∧ Reconciled (Counted mode) c := by
    apply h.invariant (P := fun c => (c = constructed opt 0 dir ∨ c.heap ≠ []) ∧ Reconciled (Counted mode) c)
      ⟨.inl rfl, reconciled_constructed mode opt dir⟩
    rintro c a c' ⟨hinit, hc⟩ ha hs
    obtain ⟨hne, hc'⟩ := hs.reconciled ha hinit hc
    exact ⟨.inr hne, hc'⟩
  obtain ⟨-, logs, -, heq⟩ := hinv
  exact heq

/-- A file of an earlier run with a record of 18 bytes, and another such record. -/
theorem reach_size_eq_held_opened : ∃ c : FlashCache, c.size = 36 ∧ c.size.toNat = c.held := by
  have h0 := Reach.refl (R := AccountStep (fun _ => 0) (fun _ _ _ => 0) .writeBuffer)
    (C := fun c a => a.Accountable .writeBuffer c) (constructed ⟨18, 32, 100⟩ 0 [3])
  have h1 := h0.step (a := .openFiles [(3, image (fun _ => 0) [97] [1])])
    ⟨rfl, by decide, fun e he => by rw [List.mem_singleton.mp he]; decide, by decide⟩
    (.openFiles rfl (fun _ _ p f hf => nomatch hf) rfl rfl)
  have h2 := h1.step (a := .insert [98] [2])
    ⟨show 18 + 18 < 2 ^ 64 by decide, fun _ => ⟨by decide, fun f hf he => by cases hf; cases he⟩⟩
    (.insert (show FlashCache.insert (fun _ => 0) .writeBuffer [] _ [98] [2] = .ok (0, _) from rfl))
  exact ⟨_, rfl, reach_size_eq_held rfl h2⟩

/-- **What the constructor leaves in `size_` stays in it**: an empty directory is opened. -/
theorem garbage_stays : ∃ c : FlashCache,
    Reach (AccountStep (fun _ => 0) (fun _ _ _ => 0) .writeBuffer) Always (constructed ⟨18, 32, 100⟩ 5 []) c ∧
      c.size = 5 ∧ c.held = 0 := by
  have h0 := Reach.refl (R := AccountStep (fun _ => 0) (fun _ _ _ => 0) .writeBuffer) (C := Always)
    (constructed ⟨18, 32, 100⟩ 5 [])
  have h1 := h0.step (a := .openFiles []) trivial (.openFiles rfl (fun _ _ p f hf => nomatch hf) rfl rfl)
  exact ⟨_, h1, rfl, rfl⟩

end EmbeddedKv.Store
