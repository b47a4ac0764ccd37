import EmbeddedKv.Store.Restart
import EmbeddedKv.Tiers.Origin
import EmbeddedKv.Tiers.Presence

/-!
# What a shutdown leaves

The store after `flashCacheDestroy` and a new start, in direct mode: `Close` of the flash
cache, `Open` on its directory with any options, and GET on an empty memory tier.

## What is proved

The flash cache has the history of the slow tier (`flashed`, `KvStep.settled`), from which
`Open` finds the first record of a key (`Settled.openDir`). So the next server finds exactly
the keys that were flushed, and under each of them a value that was set there, for every
order in which the files are listed (`shutdown_keeps`); and when memory is empty at the
shutdown, as it is after `evictAllCommand` once the flush worker has caught up, these are
all keys that were ever set.
-/

namespace EmbeddedKv.Tiers

open EmbeddedKv.Library EmbeddedKv.Flash EmbeddedKv.Store

variable {crc : Bytes → UInt32} {opt : FlashCacheConfig} {size : UInt64} {acts : List KvAct} {a : KvAct} {s s' s₁ s₂ : KvDb}
  {t : TwoTier Bytes Bytes} {mode : FlashcacheMode} {logs : ℕ → Bytes} {key val : Bytes} {c c' c₁ : FlashCache}
  {es : List (MapEvent Bytes Bytes)}

/-! ### Steps -/

/-- **Eviction and flush** insert the value that memory has. -/
theorem Represents.insert_of_evictFlush (h : Represents crc mode logs s t) {writes : List IoResult}
    (hkey : s.memLRU.list.getLast?.map Prod.snd = some key) (hevict : s.evictEntry = .ok s₁)
    (hflush : s₁.flush crc mode writes = .ok s₂) : ∃ val r, t.mem key = some val ∧ NulFree key ∧ NulFree val ∧
      s.flashCache.insert crc mode writes key val = .ok (r, s₂.flashCache) := by
  have hne : s.memLRU.list ≠ [] := by
    intro hnil
    rw [hnil] at hkey
    cases hkey
  obtain ⟨k, p, lru, hpop, hlast, hfind, -, -⟩ := h.linked.evict hne
  obtain rfl : key = k := Option.some.inj (hkey.symm.trans hlast)
  obtain ⟨val, hentry, hm, hk, hv, -⟩ := h.entry_of_find hfind
  -- the entry is queued, and nothing else is in the queue
  have hnonempty : s.memLRU.empty = false := LruCache.empty_of_find hfind
  have hsize : KvDb.lruCacheSize s.memLRU ≠ 0 := by
    rw [KvDb.lruCacheSize, hnonempty, if_neg Bool.false_ne_true]
    exact mt List.length_eq_zero_iff.mp hne
  have hlru : KvDb.lruCacheEvict s.memLRU = .ok (some p, lru) := by
    rw [KvDb.lruCacheEvict, hnonempty, if_neg Bool.false_ne_true, hpop]
  unfold KvDb.evictEntry at hevict
  rw [if_neg hsize, hlru] at hevict
  simp only [hentry, createObject, if_true, h.queue, List.nil_append] at hevict
  cases hevict
  have hqueued : (s.entries.set p (some ⟨key, ⟨.flushing, val⟩⟩))[p]?.join = some ⟨key, ⟨.flushing, val⟩⟩ := by
    rw [KvDb.join_set (KvDb.lt_of_entry hentry), if_pos rfl]
  unfold KvDb.flush at hflush
  simp only [KvDb.entry, hqueued, cString_of_nulFree hk, cString_of_nulFree hv] at hflush
  split at hflush
  · cases hflush
  · next r c' hins =>
    cases hflush
    exact ⟨val, r, hm, hk, hv, hins⟩

/-- **What was done to the flash cache.** -/
def flashed (acts : List KvAct) : List (MapEvent Bytes Bytes) := TwoTier.ledger .empty (acts.filterMap KvAct.event)

/-- One more action. -/
theorem flashed_snoc (acts : List KvAct) (a : KvAct) :
    flashed (acts ++ [a]) = flashed acts ++ (a.event.bind (tiers acts).moved).toList := by
  rw [flashed, List.filterMap_append]
  cases hev : a.event with
  | none =>
    rw [List.filterMap_cons_none hev, List.filterMap_nil, List.append_nil, Option.bind_none, Option.toList_none,
      List.append_nil]
    rfl
  | some e =>
    rw [List.filterMap_cons_some hev, List.filterMap_nil, TwoTier.ledger_snoc]
    rfl

/-- **The actions considered**: SET of strings without zero bytes, in a record of less than
`2 ^ 31` bytes, and GET of a key that was set, if the disk gives its record back. -/
def KvAct.Known (acts : List KvAct) (s : KvDb) : KvAct → Prop
  | .set key val => Storable key val
  | .get key env => NulFree key ∧ (∃ val, .set key val ∈ acts) ∧ ReadSucceeds .direct env s key
  | _ => True

/-- **The flash cache** after one such action. -/
theorem KvStep.settled (hs : KvStep crc .direct s a s') (ha : a.Known acts s)
    (h : Represents crc .direct logs s (tiers acts)) (hset : Settled crc opt (flashed acts) s.flashCache)
    (hb : (Layout.after opt.cacheFileSize (flashed (acts ++ [a]))).Bounded) :
    Settled crc opt (flashed (acts ++ [a])) s'.flashCache := by
  rw [flashed_snoc] at hb ⊢
  cases hs with
  | @set s' key val hr =>
    obtain ⟨s₁, hset₁, hcache, -⟩ := h.setCommand ha
    rw [hset₁] at hr
    cases hr
    rw [hcache, show (KvAct.event (.set key val)).bind (tiers acts).moved = none from rfl, Option.toList_none,
      List.append_nil]
    exact hset
  | @get s' key env r hr =>
    obtain ⟨hk, ⟨val, hin⟩, hread⟩ := ha
    have hmoved : (KvAct.event (.get key env)).bind (tiers acts).moved = (tiers acts).moved (.get key) := rfl
    rw [hmoved, TwoTier.moved]
    cases hf : s.memLRU.find key with
    | some p =>
      obtain ⟨w, -, hmem, -⟩ := h.entry_of_find hf
      obtain ⟨s₁, hget, -, hcache⟩ := h.getCommand_mem hk hf env
      rw [hget] at hr
      cases hr
      rw [hcache, hmem, Option.toList_none, List.append_nil]
      exact hset
    | none =>
      have hmem := h.find_eq_none.mp hf
      obtain ⟨w, hw⟩ := Option.ne_none_iff_exists'.mp (TwoTier.value_of_set (set_mem_iff.mpr hin))
      have hflash : (tiers acts).flash key = some w := by
        rw [TwoTier.value, show (TwoTier.after _).mem key = none from hmem, Option.none_or] at hw
        exact hw
      obtain ⟨hvalue, -⟩ := h.of_getCommand hk hread hr
      rw [show (tiers acts).value key = some w from hw] at hvalue
      rw [hmem, hflash, Option.toList_some]
      rcases KvDb.getCommand_entries hr with ⟨p, he, hfind, -⟩ | ⟨c', hl, ⟨hnone, -⟩ | ⟨v, hv, hcache, -⟩⟩
      · rw [cString_of_nulFree hk, hf] at hfind
        cases hfind
      · rw [hvalue] at hnone
        cases hnone
      · rw [hcache, cString_of_nulFree hk]
        rw [hv, cString_of_nulFree hk] at hl
        exact (hset.lookup hl).deleteMetaData key
  | @evictFlush s₁ s₂ key writes hkey hevict hflush =>
    obtain ⟨val, r, hmem, hk, hv, hins⟩ := h.insert_of_evictFlush hkey hevict hflush
    have hmoved : (KvAct.event (.evictFlush key)).bind (tiers acts).moved = some (.put key val) := by
      rw [show (KvAct.event (.evictFlush key)).bind (tiers acts).moved = ((tiers acts).mem key).map (.put key) from rfl,
        hmem, Option.map_some]
    rw [hmoved, Option.toList_some] at hb ⊢
    exact hset.insert hk hv hb hins
  | @writer p f g hf hw =>
    -- in direct mode the writer sleeps
    obtain ⟨logs, hsound, -⟩ := hset.map
    obtain ⟨-, -, -, htid, hsem⟩ := (hsound.files p f hf).direct rfl
    cases hw.1 <;> simp_all

/-! ### Runs -/

/-- **What is known after a history.** -/
structure Placed (crc : Bytes → UInt32) (opt : FlashCacheConfig) (acts : List KvAct) (s : KvDb) : Prop where
  /-- The store is the two tiers. -/
  tiers : ∃ logs, Represents crc .direct logs s (tiers acts)
  /-- The files are what the history of the slow tier leaves. -/
  settled : Settled crc opt (flashed acts) s.flashCache
  /-- What was flushed was put there. -/
  put : ∀ key, .evictFlush key ∈ acts → ∃ val, .put key val ∈ flashed acts
  /-- What was set can be stored. -/
  storable : ∀ key val, .set key val ∈ acts → Storable key val

/-- **Every run of such actions**, if `Open` can read the files that it leaves. -/
theorem run_placed (h : Run (KvStep crc .direct) KvAct.Known { flashCache := .openEmpty opt size } acts s)
    (hb : (Layout.after opt.cacheFileSize (flashed acts)).Bounded) : Placed crc opt acts s := by
  refine h.invariant (P := fun acts s => (Layout.after opt.cacheFileSize (flashed acts)).Bounded → Placed crc opt acts s)
    (fun _ => ?_) (fun acts s a s' ih ha hs hb => ?_) hb
  · exact ⟨represents_openEmpty crc .direct opt size (by simp),
      ⟨rfl, laid_openEmpty crc opt size, openEmpty_refines crc .direct opt size (by simp), rfl,
        fun key val hin => (by cases hin)⟩,
      fun key hin => (by cases hin), fun key val hin => (by cases hin)⟩
  · have hb' : (Layout.after opt.cacheFileSize (flashed acts)).Bounded := by
      rw [flashed_snoc] at hb
      cases hm : a.event.bind (tiers acts).moved with
      | none => rwa [hm, Option.toList_none, List.append_nil] at hb
      | some m =>
        rw [hm, Option.toList_some, Layout.after_snoc] at hb
        exact hb.of_step
    obtain ⟨⟨logs, hrep⟩, hset, hput, hst⟩ := ih hb'
    refine ⟨?_, KvStep.settled hs ha hrep hset hb, fun key hin => ?_, fun key val hin => ?_⟩
    · refine KvStep.represents hs ?_ hrep
      cases a with
      | set key val => exact ha
      | get key env => exact ⟨ha.1, ha.2.2⟩
      | evictFlush key => exact fun p he _ _ => hset.fits hb' key he.val.ptr
      | writer p => trivial
    · rw [flashed_snoc]
      rcases List.mem_append.mp hin with hin | hin
      · obtain ⟨val, hval⟩ := hput key hin
        exact ⟨val, List.mem_append_left _ hval⟩
      · obtain rfl := List.mem_singleton.mp hin
        cases hs with
        | evictFlush hkey hevict hflush =>
          obtain ⟨val, -, hmem, -⟩ := hrep.insert_of_evictFlush hkey hevict hflush
          exact ⟨val, List.mem_append_right _ (by simp [KvAct.event, TwoTier.moved, hmem])⟩
    · rcases List.mem_append.mp hin with hin | hin
      · exact hst key val hin
      · obtain rfl := List.mem_singleton.mp hin
        exact ha

/-- What was put into the files was set, and flushed. -/
theorem set_of_flashed (h : .put key val ∈ flashed acts) : .set key val ∈ acts ∧ .evictFlush key ∈ acts := by
  obtain ⟨hset, hflush⟩ := TwoTier.set_of_put h
  refine ⟨set_mem_iff.mp hset, ?_⟩
  obtain ⟨a, hin, ha⟩ := List.mem_filterMap.mp hflush
  cases a with
  | evictFlush k =>
    rw [KvAct.event, Option.some.injEq, TierEvent.flush.injEq] at ha
    rw [← ha]
    exact hin
  | set | get | writer => cases ha

/-- **With an empty memory** all that was set was flushed. -/
theorem Placed.flushed (h : Placed crc opt acts s) (hempty : s.memLRU.list = []) (hin : .set key val ∈ acts) :
    .evictFlush key ∈ acts := by
  obtain ⟨logs, hrep⟩ := h.tiers
  have hnone : s.memLRU.find key = none := by
    by_contra hne
    obtain ⟨p, hp⟩ := Option.ne_none_iff_exists'.mp hne
    obtain ⟨n, hmap⟩ := LruCache.find_eq_some.mp hp
    have hnode := hrep.linked.node key p n hmap
    rw [hempty] at hnode
    cases hnode
  rcases TwoTier.put_of_set (set_mem_iff.mpr hin) with hmem | ⟨w, hw⟩
  · exact absurd (hrep.find_eq_none.mp hnone) hmem
  · exact (set_of_flashed hw).2

/-! ### The next server -/

/-- **GET on a server that has just been started** replies `r`, if the disk can be read. -/
def Answers (crc : Bytes → UInt32) (c : FlashCache) (key : Bytes) (r : Option Bytes) : Prop :=
  ∀ env, (∀ lba, c.metadata.lookup key = some lba → Enough env.preads lba.size.toNat) →
    ∃ s', ({ flashCache := c } : KvDb).getCommand crc .direct env key = .ok (r, s')

/-- It replies what `Lookup` finds. -/
theorem answers_of_finds {r : Option Bytes} (hk : NulFree key) (hsmall : ∀ val, r = some val → val.length < 2 ^ 31)
    (h : c.Finds crc key r) : Answers crc c key r := by
  intro env hio
  obtain ⟨c', hl⟩ := h env hio
  have hmem : ({} : LruCache Bytes ℕ).get key = .ok (none, {}) := LruCache.get_absent (LruCache.find_empty key)
  unfold KvDb.getCommand
  simp only [cString_of_nulFree hk, hmem, hl]
  cases r with
  | none => exact ⟨_, rfl⟩
  | some val =>
    simp only [if_neg (Nat.not_le.mpr (hsmall val rfl)), KvDb.cacheAdd, cString_of_nulFree hk, hmem]
    exact ⟨_, rfl⟩

/-- The record that is found was put. -/
theorem put_of_lookup {ds : List (UInt32 × List (Bytes × Bytes))} {l : Layout} (hperm : ds.Perm l.entries)
    (h : (ds.flatMap Prod.snd).lookup key = some val) : ∃ recs ∈ l.files, (key, val) ∈ recs := by
  obtain ⟨e, he, hin⟩ := List.mem_flatMap.mp (mem_of_lookup h)
  exact ⟨e.2, Layout.snd_mem_files (hperm.subset he), hin⟩

/-- **A shutdown keeps what was flushed**: after any commands, evictions and flushes that make fewer
than 1000 files `Close` of the flash cache returns, and so does `Open` on its files, in whatever
order they are listed and with whatever options. A GET on the next server obtains a value that
was set under its key, if that key was ever flushed, and nothing otherwise; and with an empty
memory every key that was set was flushed. -/
theorem shutdown_keeps (h : Run (KvStep crc .direct) KvAct.Known { flashCache := .openEmpty opt size } acts s)
    (hb : (Layout.after opt.cacheFileSize (flashed acts)).Bounded)
    (hfew : (Layout.after opt.cacheFileSize (flashed acts)).files.length < 1000) :
    (∃ c₁, CloseAll s.flashCache c₁) ∧
    (∀ c₁, CloseAll s.flashCache c₁ → ∀ files, c₁.Lists files → ∀ garbage opt' size', ∃ c₂,
      FlashCache.openDir garbage opt' size' files = .ok c₂ ∧ ∀ key, NulFree key →
        (.evictFlush key ∈ acts → ∃ val, .set key val ∈ acts ∧ Answers crc c₂ key (some val)) ∧
        (.evictFlush key ∉ acts → Answers crc c₂ key none)) ∧
    (s.memLRU.list = [] → ∀ key val, .set key val ∈ acts → .evictFlush key ∈ acts) := by
  have hp := run_placed h hb
  refine ⟨hp.settled.closeAll, fun c₁ hclose files hlist garbage opt' size' => ?_,
    fun hempty key val hin => hp.flushed hempty hin⟩
  obtain ⟨ds, hperm, rfl⟩ := (hp.settled.lists_iff hclose files).mp hlist
  obtain ⟨c₂, hc₂, hfinds⟩ := hp.settled.openDir hb hfew hperm garbage opt' size'
  have hfound : ∀ key val, (ds.flatMap Prod.snd).lookup key = some val → .set key val ∈ acts ∧ .evictFlush key ∈ acts :=
    fun key val hl => set_of_flashed (Layout.mem_after.mp (put_of_lookup hperm hl))
  refine ⟨c₂, hc₂, fun key hk => ⟨fun hin => ?_, fun hout => ?_⟩⟩
  · obtain ⟨w, hw⟩ := hp.put key hin
    obtain ⟨recs, hrecs, hmem⟩ : ∃ recs ∈ (Layout.after opt.cacheFileSize (flashed acts)).files, (key, w) ∈ recs :=
      Layout.mem_after.mpr hw
    obtain ⟨id, he⟩ := Layout.exists_entry hrecs
    obtain ⟨val, hval⟩ : ∃ val, (ds.flatMap Prod.snd).lookup key = some val := by
      rw [← Option.ne_none_iff_exists', Ne, List.lookup_eq_none_iff]
      intro hnone
      simpa using hnone (key, w) (List.mem_flatMap.mpr ⟨_, hperm.symm.subset he, hmem⟩)
    obtain ⟨hset, -⟩ := hfound key val hval
    refine ⟨val, hset, answers_of_finds hk (fun v hv => ?_) (hval ▸ hfinds key)⟩
    have hsmall := (hp.storable key val hset).2.2
    rw [← Option.some.inj hv]
    unfold recordSize at hsmall
    omega
  · have hnone : (ds.flatMap Prod.snd).lookup key = none := by
      by_contra hne
      obtain ⟨val, hval⟩ := Option.ne_none_iff_exists'.mp hne
      exact hout (hfound key val hval).2
    exact answers_of_finds hk (by simp) (hnone ▸ hfinds key)

/-- A key that is set, flushed, read and flushed again, and another one: both are found by the
next server, which has files of another size. -/
theorem shutdown_keeps_two : ∃ c₁ c₂ : FlashCache, ∃ files, c₁.Lists files ∧
    FlashCache.openDir (fun _ _ _ => 0) ⟨30, 0, 1000⟩ 0 files = .ok c₂ ∧ Answers (fun _ => 0) c₂ [97] (some [1]) ∧
      Answers (fun _ => 0) c₂ [98] (some [2]) ∧ Answers (fun _ => 0) c₂ [99] none := by
  have h0 := Run.nil (R := KvStep (fun _ => 0) .direct) (C := KvAct.Known) { flashCache := .openEmpty ⟨20, 0, 1000⟩ 0 }
  have h1 := h0.snoc (a := KvAct.set [97] [1]) ⟨by decide, by decide, by decide⟩ (KvStep.set rfl)
  have h2 : Run _ _ _ _ (flushedTo 1 (image (fun _ => 0) [97] [1]) false) :=
    h1.snoc (a := KvAct.evictFlush [97]) (by trivial)
    (KvStep.evictFlush rfl rfl (show KvDb.flush (fun _ => 0) .direct [.moved 99] _ = .ok _ from rfl))
  have h3 := h2.snoc (a := KvAct.get [97] ⟨[], List.replicate 18 (.moved 99), false, []⟩)
    ⟨by decide, ⟨[1], by simp⟩, fun _ lba hl => by
      have hs : (some ⟨0, 0, 18⟩ : Option LBA) = some lba := hl
      rw [← Option.some.inj hs]
      exact ⟨enough_replicate 18, by simp⟩⟩
    (KvStep.get (show KvDb.getCommand (fun _ => 0) .direct
      ⟨[], List.replicate 18 (.moved 99), false, []⟩ _ [97] = .ok (some [1], _) from rfl))
  have h4 := h3.snoc (a := KvAct.set [98] [2]) ⟨by decide, by decide, by decide⟩ (KvStep.set rfl)
  have h5 := h4.snoc (a := KvAct.evictFlush [97]) (by trivial)
    (KvStep.evictFlush rfl rfl (show KvDb.flush (fun _ => 0) .direct [.moved 99] _ = .ok _ from rfl))
  have h6 := h5.snoc (a := KvAct.evictFlush [98]) (by trivial)
    (KvStep.evictFlush rfl rfl (show KvDb.flush (fun _ => 0) .direct [.moved 99] _ = .ok _ from rfl))
  have hb : (Layout.after 20 (flashed ([] ++ [.set [97] [1]] ++ [.evictFlush [97]] ++
      [.get [97] ⟨[], List.replicate 18 (.moved 99), false, []⟩] ++ [.set [98] [2]] ++ [.evictFlush [97]] ++
      [.evictFlush [98]]))).Bounded := by decide
  obtain ⟨⟨c₁, hclose⟩, hnext, -⟩ := shutdown_keeps h6 hb (by decide)
  have hlist := ((run_placed h6 hb).settled.lists_iff hclose _).mpr ⟨_, .refl _, rfl⟩
  obtain ⟨c₂, hc₂, hfinds⟩ := hnext c₁ hclose _ hlist (fun _ _ _ => 0) ⟨30, 0, 1000⟩ 0
  obtain ⟨v, hv, hva⟩ := (hfinds [97] (by decide)).1 (by simp)
  obtain ⟨w, hw, hwb⟩ := (hfinds [98] (by decide)).1 (by simp)
  obtain rfl : v = [1] := by simpa using hv
  obtain rfl : w = [2] := by simpa using hw
  exact ⟨c₁, c₂, _, hlist, hc₂, hva, hwb, (hfinds [99] (by decide)).2 (by simp)⟩

end EmbeddedKv.Tiers
