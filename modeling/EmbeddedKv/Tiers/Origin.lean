import EmbeddedKv.Store.Crash
import EmbeddedKv.Tiers.Flush

/-!
# Where values come from

The server with all that happens to it: commands, evictions from memory, the flush worker
and the writers of the cache files in any order, rounds of `Evict`, and crashes, after
which it starts with what is left in the directory of its flash cache.

## The model

`Node` is the server and the files that its flash cache has deleted; what happens to the
flash cache from outside are the steps of a `Host`. A crash takes all that is in memory. A
round of `Evict` between the lookup of a GET and the deletion of its key leaves what the
round after the GET leaves.

## What is proved

* `get_origin`: what a GET obtains is empty, or a value that some SET of the same key has
  written, up to the first zero byte if it was in flash, however often it has moved
  between the tiers and through crashes.
-/

namespace EmbeddedKv.Tiers

open EmbeddedKv.Library EmbeddedKv.Flash EmbeddedKv.Store

variable {crc : Bytes → UInt32} {mode : FlashcacheMode} {d : DeadNode} {key val : Bytes} {p : ℕ}

/-! ### The node -/

/-- A server, and the ids and the bytes of the files that its flash cache has deleted. -/
structure Node where
  /-- The server. -/
  server : Server
  /-- The deleted files. -/
  deleted : List (UInt32 × Bytes) := []

/-- The flash cache of the server as a store that may crash. -/
def Node.host (s : Node) : Host := ⟨s.server.db.flashCache, s.deleted⟩

/-- A server that was started on an empty directory. -/
def Node.start (opt : FlashCacheConfig) (size : UInt64) : Node := ⟨.start (.openEmpty opt size), []⟩

/-- What happens to it. -/
inductive NodeAct where
  /-- A step of the server. -/
  | server (a : ServerAct)
  /-- A round of `Evict(size)`. -/
  | round (size : UInt64)
  /-- A crash, after which the server is started with the given options. -/
  | crash (opt : FlashCacheConfig)

/-- **One step of the server, one round of `Evict`, or a crash.** -/
inductive NodeStep (crc : Bytes → UInt32) (mode : FlashcacheMode) (d : DeadNode) : Node → NodeAct → Node → Prop where
  /-- A step of the server. -/
  | server {s : Node} {t : Server} {a : ServerAct} (h : ServerStep crc mode d s.server a t) :
      NodeStep crc mode d s (.server a) { s with server := t }
  /-- A round of `Evict`. -/
  | round {s : Node} {t : Host} {size : UInt64} (h : HostStep crc mode s.host (.round size) t) :
      NodeStep crc mode d s (.round size)
        ⟨{ s.server with db := { s.server.db with flashCache := t.cache } }, t.deleted⟩
  /-- A crash, and a start on what it has left. -/
  | crash {s : Node} {t : Host} {opt : FlashCacheConfig} (h : HostStep crc mode s.host (.crash opt) t) :
      NodeStep crc mode d s (.crash opt) ⟨.start t.cache, t.deleted⟩

/-- **The steps considered**: the flush finds a place for its record, and buffers have room. -/
def NodeAct.Within (mode : FlashcacheMode) (s : Node) : NodeAct → Prop
  | .server (.bworker (.insert p)) => ∀ valueObj he, s.server.bworker.job = some (p, valueObj) →
      s.server.db.entry p = some he → Room s.server.db.flashCache (cString he.key) (cString valueObj)
  | .crash opt => Buffers mode opt
  | _ => True

/-! ### What is known of values -/

/-- **Some SET of the key has written the value**, up to its first zero byte perhaps; or it
is empty, as the value of a record that cannot be read. -/
def Wrote (acts : List NodeAct) (key val : Bytes) : Prop :=
  val = [] ∨ ∃ k v, NodeAct.server (.set k v) ∈ acts ∧ cString k = key ∧ (val = v ∨ val = cString v)

variable {acts : List NodeAct} {a : NodeAct}

theorem Wrote.snoc (h : Wrote acts key val) (a : NodeAct) : Wrote (acts ++ [a]) key val := by
  obtain rfl | ⟨k, v, hin, hrest⟩ := h
  · exact .inl rfl
  · exact .inr ⟨k, v, List.mem_append_left _ hin, hrest⟩

/-- The SET that is executed. -/
theorem wrote_set (acts : List NodeAct) (key val : Bytes) :
    Wrote (acts ++ [.server (.set key val)]) (cString key) val :=
  .inr ⟨key, val, by simp, rfl, .inl rfl⟩

theorem cString_cString (bytes : Bytes) : cString (cString bytes) = cString bytes :=
  cString_of_nulFree (nulFree_cstr _)

/-- What goes to the flash cache. -/
theorem Wrote.cut (h : Wrote acts key val) : Wrote acts key (cString val) := by
  obtain rfl | ⟨k, v, hin, hkey, rfl | rfl⟩ := h
  · exact .inl rfl
  · exact .inr ⟨k, val, hin, hkey, .inr rfl⟩
  · exact .inr ⟨k, v, hin, hkey, .inr (cString_cString v)⟩

/-- **Every value in the two tiers was written**: those of the entries, the one in the hands of
the flush worker, and those of the records. -/
structure Node.Traced (crc : Bytes → UInt32) (mode : FlashcacheMode) (acts : List NodeAct) (s : Node) : Prop extends
    s.server.Entries where
  /-- The values of the entries. -/
  entry : ∀ p he, s.server.db.entry p = some he → Wrote acts (cString he.key) he.val.ptr
  /-- The value that the flush worker has read. -/
  hand : ∀ p valueObj, s.server.bworker.job = some (p, valueObj) →
    ∃ he, s.server.db.entry p = some he ∧ Wrote acts (cString he.key) valueObj
  /-- The records. -/
  flash : ∃ recs, HostSound crc mode (Wrote acts) recs s.host

variable {s s' : Node}

/-! ### Commands -/

variable {db db' : KvDb} {env : Environment} {r : Option Bytes}

/-- **What `cacheAdd` does** to the entries; the flash cache stays. -/
theorem KvDb.cacheAdd_entries (hr : db.cacheAdd key (createObject val) = .ok db') :
    db'.flashCache = db.flashCache ∧ ∀ q e, db'.entry q = some e →
      db.entry q = some e ∨ e.val = createObject val ∧
        (e.key = key ∨ ∃ old, db.memLRU.find (cString key) = some q ∧ db.entry q = some old ∧ e.key = old.key) := by
  unfold KvDb.cacheAdd at hr
  cases hget : db.memLRU.get (cString key) with
  | error e => rw [hget] at hr; cases hr
  | ok q =>
    obtain ⟨v, lru⟩ := q
    rw [hget] at hr
    cases v with
    | none =>
      cases hr
      refine ⟨rfl, fun q e he => ?_⟩
      rw [KvDb.entry, List.getElem?_append] at he
      split_ifs at he with hlt
      · exact .inl he
      · obtain ⟨rfl, -⟩ : _ = e ∧ _ := by
          cases hq : q - db.entries.length with
          | zero => rw [hq] at he; exact ⟨Option.some.inj he, trivial⟩
          | succ n => rw [hq] at he; simp at he
        exact .inr ⟨rfl, .inl rfl⟩
    | some p =>
      simp only at hr
      cases hp : db.entry p with
      | none => simp only [hp] at hr; cases hr
      | some old =>
        simp only [hp] at hr
        cases hr
        refine ⟨rfl, fun q e he => ?_⟩
        rw [KvDb.entry, KvDb.join_set (KvDb.lt_of_entry hp)] at he
        split_ifs at he with hq
        · obtain rfl := Option.some.inj he
          exact .inr ⟨rfl, .inr ⟨old, by rw [hq]; exact (LruCache.get_eq_find hget).symm, by rw [hq]; exact hp, rfl⟩⟩
        · exact .inl he

/-- **What `getCommand` does**: the value is in memory, or it is looked up in the flash cache
and added to the entries. -/
theorem KvDb.getCommand_entries (hr : db.getCommand crc mode env key = .ok (r, db')) :
    (∃ p he, db.memLRU.find (cString key) = some p ∧ db.entry p = some he ∧ r = some he.val.ptr ∧
        db'.entries = db.entries ∧ db'.flashCache = db.flashCache) ∨
      ∃ c, db.flashCache.lookup crc mode env (cString key) = .ok (r, c) ∧
        (r = none ∧ db'.entries = db.entries ∧ db'.flashCache = c ∨
          ∃ val, r = some val ∧ db'.flashCache = c.deleteMetaData (cString key) ∧
            ∀ q e, db'.entry q = some e → db.entry q = some e ∨ e = ⟨key, createObject val⟩) := by
  unfold KvDb.getCommand at hr
  cases hget : db.memLRU.get (cString key) with
  | error e => rw [hget] at hr; cases hr
  | ok q =>
    obtain ⟨v, lru⟩ := q
    have hfind := LruCache.get_eq_find hget
    rw [hget] at hr
    cases v with
    | some p =>
      simp only at hr
      cases hp : db.entry p with
      | none => simp only [hp] at hr; cases hr
      | some he =>
        simp only [hp] at hr
        cases hr
        exact .inl ⟨p, he, hfind.symm, hp, rfl, rfl, rfl⟩
    | none =>
      simp only at hr
      cases hl : db.flashCache.lookup crc mode env (cString key) with
      | error e => simp only [hl] at hr; cases hr
      | ok q =>
        obtain ⟨r', c⟩ := q
        simp only [hl] at hr
        cases r' with
        | none =>
          cases hr
          exact .inr ⟨c, rfl, .inl ⟨rfl, rfl, rfl⟩⟩
        | some val =>
          simp only at hr
          split_ifs at hr
          cases hadd : ({ db with memLRU := lru, flashCache := c } : KvDb).cacheAdd key (createObject val) with
          | error e => simp only [hadd] at hr; cases hr
          | ok db₁ =>
            simp only [hadd] at hr
            cases hr
            obtain ⟨hflash, hentry⟩ := KvDb.cacheAdd_entries hadd
            refine .inr ⟨c, rfl, .inr ⟨val, rfl, by rw [hflash], fun q e he => ?_⟩⟩
            have hnone : lru.find (cString key) = none := by rw [LruCache.find_get hget, hfind.symm]
            obtain hold | ⟨hval, hkey | ⟨old, hq, -⟩⟩ := hentry q e he
            · exact .inl hold
            · obtain ⟨k, v⟩ := e
              obtain rfl : k = key := hkey
              obtain rfl : v = createObject val := hval
              exact .inr rfl
            · rw [show _ = lru.find (cString key) from rfl, hnone] at hq
              cases hq

/-- A command keeps the keys of the entries. -/
theorem MemEffect.entry_kept {w : Option Bytes} {he : HashEntry} (h : MemEffect db key w db') (hp : db.entry p = some he) :
    ∃ he', db'.entry p = some he' ∧ he'.key = he.key := by
  cases h with
  | used _ _ hentries => exact ⟨he, by rw [KvDb.entry, hentries]; exact hp, rfl⟩
  | missed _ _ hentries => exact ⟨he, by rw [KvDb.entry, hentries]; exact hp, rfl⟩
  | added _ _ hentries =>
    exact ⟨he, by rw [KvDb.entry, hentries, List.getElem?_append_left (KvDb.lt_of_entry hp)]; exact hp, rfl⟩
  | @replaced q old val _ _ _ hq hentries =>
    rw [KvDb.entry, hentries, KvDb.join_set (KvDb.lt_of_entry hq)]
    split_ifs with hpq
    · obtain rfl := Option.some.inj ((hpq ▸ hp).symm.trans hq)
      exact ⟨_, rfl, rfl⟩
    · exact ⟨he, hp, rfl⟩

/-! ### Steps -/

@[simp] theorem KvDb.flashCache_touch (d : DeadNode) (db : KvDb) (key : Bytes) :
    (db.touch d key).flashCache = db.flashCache := by
  cases d <;> rfl

/-- What was known of the flash cache is known after a step that leaves it. -/
theorem Node.Traced.flash_snoc (h : s.Traced crc mode acts) (a : NodeAct) :
    ∃ recs, HostSound crc mode (Wrote (acts ++ [a])) recs s.host := by
  obtain ⟨recs, hs⟩ := h.flash
  exact ⟨recs, hs.mono fun k v hw => hw.snoc a⟩

/-- **A command.** -/
theorem Node.Traced.command (h : s.Traced crc mode acts) (hfree : s.server.bworker.holdsMutex = false) {w : Option Bytes}
    (heffect : MemEffect (s.server.db.touch d key) key w db)
    (hentry : ∀ q e, db.entry q = some e → s.server.db.entry q = some e ∨ Wrote (acts ++ [a]) (cString e.key) e.val.ptr)
    (hflash : ∃ recs, HostSound crc mode (Wrote (acts ++ [a])) recs ⟨db.flashCache, s.deleted⟩) :
    Node.Traced crc mode (acts ++ [a]) { s with server := { s.server with db } } where
  toEntries := h.effect hfree heffect
  entry p he hp := by
    rcases hentry p he hp with hold | hnew
    · exact (h.entry p he hold).snoc a
    · exact hnew
  hand p valueObj hjob := by
    obtain ⟨he, hp, hw⟩ := h.hand p valueObj hjob
    obtain ⟨he', hp', hkey⟩ := heffect.entry_kept (by rw [KvDb.entry_touch]; exact hp)
    exact ⟨he', hp', by rw [hkey]; exact hw.snoc a⟩
  flash := hflash

/-- **A step of the flush worker.** -/
theorem Node.Traced.bworker (h : s.Traced crc mode acts) {b : BworkerAct} {t : Server}
    (hs : BworkerStep crc mode s.server b t) (ha : NodeAct.Within mode s (.server (.bworker b))) :
    Node.Traced crc mode (acts ++ [.server (.bworker b)]) { s with server := t } := by
  have hentries := h.toEntries.bworker hs
  have hold : ∀ p he, s.server.db.entry p = some he → Wrote (acts ++ [.server (.bworker b)]) (cString he.key) he.val.ptr :=
    fun p he hp => (h.entry p he hp).snoc _
  have hflash := h.flash_snoc (.server (.bworker b))
  have hkept : ∀ p valueObj, s.server.bworker.job = some (p, valueObj) →
      ∃ he, s.server.db.entry p = some he ∧ Wrote (acts ++ [.server (.bworker b)]) (cString he.key) valueObj := by
    intro p valueObj hjob
    obtain ⟨he, hp, hw⟩ := h.hand p valueObj hjob
    exact ⟨he, hp, hw.snoc _⟩
  cases hs with
  | dequeue hpc hq => exact ⟨hentries, hold, by rintro p v ⟨⟩, hflash⟩
  | @read p he hpc hp =>
    refine ⟨hentries, hold, ?_, hflash⟩
    rintro q v ⟨⟩
    exact ⟨he, hp, hold p he hp⟩
  | lock hpc => exact ⟨hentries, hold, fun q v hjob => hkept q v (by rw [hpc]; exact hjob), hflash⟩
  | @insert p valueObj he writes r flashCache hpc hp hr =>
    have hjob : s.server.bworker.job = some (p, valueObj) := by rw [hpc]; rfl
    refine ⟨hentries, hold, fun q v hq => hkept q v (hjob.trans hq), ?_⟩
    obtain ⟨recs, hs⟩ := hflash
    refine hs.call (by simp) (.insert hr) ⟨nulFree_cstr _, nulFree_cstr _, ha valueObj he hjob hp⟩ fun key val heq => ?_
    obtain ⟨rfl, rfl⟩ := CacheAct.insert.inj heq
    obtain ⟨he', hp', hw⟩ := hkept p valueObj hjob
    obtain rfl := Option.some.inj (hp.symm.trans hp')
    exact hw.cut
  | erase hpc hp => exact ⟨hentries, hold, by rintro p v ⟨⟩, hflash⟩
  | @unlock p hpc =>
    refine ⟨hentries, fun q e hq => ?_, by rintro p v ⟨⟩, hflash⟩
    rw [KvDb.entry, List.getElem?_set] at hq
    split_ifs at hq with heq hlt
    · cases hq
    · cases hq
    · exact hold q e hq

/-- **A step of the server.** -/
theorem Node.Traced.server (h : s.Traced crc mode acts) {b : ServerAct} {t : Server}
    (hs : ServerStep crc mode d s.server b t) (ha : NodeAct.Within mode s (.server b)) :
    Node.Traced crc mode (acts ++ [.server b]) { s with server := t } := by
  cases hs with
  | @set db key val hfree hr =>
    obtain ⟨hcache, hentry⟩ := KvDb.cacheAdd_entries hr
    refine h.command hfree (KvDb.setCommand_effect hr).1 (fun q e he => ?_) ?_
    · rcases hentry q e he with hold | ⟨hval, hkey⟩
      · exact .inl (by rwa [KvDb.entry_touch] at hold)
      · -- the entry is one of the key
        have hsame : cString e.key = cString key := by
          rcases hkey with hkey | ⟨old, hfind, hold, hkey⟩
          · rw [hkey]
          · rw [KvDb.find_touch] at hfind
            rw [KvDb.entry_touch] at hold
            obtain ⟨old', hold', hk⟩ := h.found _ q hfind
            obtain rfl := Option.some.inj (hold.symm.trans hold')
            rw [hkey, hk]
        rw [hval, hsame]
        exact .inr (wrote_set acts key val)
    · rw [hcache, KvDb.flashCache_touch]
      exact h.flash_snoc _
  | @get db key env r hfree hr =>
    have hmem := (KvDb.getCommand_effect hr).1
    rcases KvDb.getCommand_entries hr with ⟨p, he, -, -, -, hentries, hcache⟩ | ⟨c, hl, hrest⟩
    · refine h.command hfree hmem (fun q e he => .inl ?_) ?_
      · rwa [KvDb.entry, hentries, KvDb.entries_touch] at he
      · rw [hcache, KvDb.flashCache_touch]
        exact h.flash_snoc _
    · rw [KvDb.flashCache_touch] at hl
      obtain ⟨recs, hs⟩ := h.flash_snoc (.server (.get key env))
      obtain ⟨recs₁, h₁⟩ := hs.call (by simp) (.lookup hl) trivial (by simp)
      rcases hrest with ⟨-, hentries, hcache⟩ | ⟨val, rfl, hcache, hentry⟩
      · refine h.command hfree hmem (fun q e he => .inl ?_) ⟨recs₁, by rw [hcache]; exact h₁⟩
        rwa [KvDb.entry, hentries, KvDb.entries_touch] at he
      · refine h.command hfree hmem (fun q e he => ?_) ?_
        · rcases hentry q e he with hold | rfl
          · exact .inl (by rwa [KvDb.entry_touch] at hold)
          · right
            rcases hs.toCrashSound.lookup_put hl with hempty | hw
            · exact .inl hempty
            · exact hw
        · rw [hcache]
          exact h₁.call (by simp) .deleteMetaData trivial (by simp)
  | @block key env hfree hr hblocked =>
    have hentries := (show ServerStep crc mode d s.server (.block key) _ from .block hfree hr hblocked).entries h.toEntries
    refine ⟨hentries, fun q e hq => (h.entry q e hq).snoc _, fun q v hjob => ?_, h.flash_snoc _⟩
    obtain ⟨e, hq, hwrote⟩ := h.hand q v hjob
    exact ⟨e, hq, hwrote.snoc _⟩
  | @evict db hr =>
    have hentries := (show ServerStep crc mode d s.server .evict _ from .evict hr).entries h.toEntries
    obtain ⟨p, he, -, hp, hcache, hrest⟩ := KvDb.evictOne_effect hr
    -- an entry is what it was, but for where it is
    have hentry : ∀ q, (db.entry q).map (fun e => (e.key, e.val.ptr)) =
        (s.server.db.entry q).map (fun e => (e.key, e.val.ptr)) := by
      intro q
      rcases hrest with ⟨-, -, hset⟩ | ⟨-, -, hset⟩
      · rw [KvDb.entry, hset, KvDb.join_set (KvDb.lt_of_entry hp)]
        split_ifs with hq
        · rw [hq, hp]
          rfl
        · rfl
      · rw [KvDb.entry, hset]
        rfl
    refine ⟨hentries, fun q e hq => ?_, fun q v hjob => ?_, ?_⟩
    · have heq := hentry q
      rw [show db.entry q = some e from hq] at heq
      obtain ⟨e', hq', hsame⟩ := Option.map_eq_some_iff.mp heq.symm
      obtain ⟨hkey, hval⟩ := Prod.mk.inj hsame
      rw [← hkey, ← hval]
      exact (h.entry q e' hq').snoc _
    · obtain ⟨e, hq, hw⟩ := h.hand q v hjob
      have heq := hentry q
      rw [hq] at heq
      obtain ⟨e', hq', hsame⟩ := Option.map_eq_some_iff.mp heq
      exact ⟨e', hq', by rw [(Prod.mk.inj hsame).1]; exact hw.snoc _⟩
    · obtain ⟨recs, hs⟩ := h.flash_snoc (.server .evict)
      refine ⟨recs, ?_⟩
      show HostSound crc mode _ recs ⟨db.flashCache, s.deleted⟩
      rw [hcache]
      exact hs
  | bworker hb => exact h.bworker hb ha
  | writer hf hw =>
    have hentries := (show ServerStep crc mode d s.server (.writer _) _ from .writer hf hw).entries h.toEntries
    obtain ⟨recs, hs⟩ := h.flash_snoc (.server (.writer _))
    refine ⟨hentries, fun q e hq => (h.entry q e hq).snoc _, fun q v hjob => ?_, ?_⟩
    · obtain ⟨e, hq, hwrote⟩ := h.hand q v hjob
      exact ⟨e, hq, hwrote.snoc _⟩
    · exact hs.call (by simp) (.writer hf hw) trivial (by simp)

/-- **Every step** keeps what is known of the values. -/
theorem NodeStep.traced (hs : NodeStep crc mode d s a s') (ha : a.Within mode s) (h : s.Traced crc mode acts) :
    s'.Traced crc mode (acts ++ [a]) := by
  cases hs with
  | server hs => exact h.server hs ha
  | @round t size hs =>
    obtain ⟨recs, hr⟩ := h.flash_snoc (.round size)
    obtain ⟨recs', h'⟩ := hs.sound trivial hr
    refine ⟨h.congr (fun _ => Iff.rfl) (fun _ => rfl) fun _ => rfl, fun p he hp => (h.entry p he hp).snoc _,
      fun p v hjob => ?_, recs', h'.mono ?_⟩
    · obtain ⟨he, hp, hw⟩ := h.hand p v hjob
      exact ⟨he, hp, hw.snoc _⟩
    · rintro k v (hold | hnew)
      · exact hold
      · cases hnew
  | @crash t opt hs =>
    obtain ⟨recs, hr⟩ := h.flash_snoc (.crash opt)
    obtain ⟨recs', h'⟩ := hs.sound ha hr
    refine ⟨Server.entries_start t.cache, fun p he hp => ?_, ?_, recs', h'.mono ?_⟩
    · simp [Server.start, KvDb.entry] at hp
    · rintro p v ⟨⟩
    · rintro k v (hold | hnew)
      · exact hold
      · cases hnew

variable {opt : FlashCacheConfig} {size : UInt64}

/-- **In every run**, every value in the two tiers was written. -/
theorem run_traced (hbuf : Buffers mode opt)
    (h : Run (NodeStep crc mode d) (fun _ => NodeAct.Within mode) (.start opt size) acts s) : s.Traced crc mode acts := by
  refine h.invariant (P := fun acts s => s.Traced crc mode acts) ?_ ?_
  · obtain ⟨recs, hs⟩ := hostSound_openEmpty crc hbuf size
    refine ⟨Server.entries_start _, fun p he hp => ?_, ?_, recs, hs.mono ?_⟩
    · simp [Node.start, Server.start, KvDb.entry] at hp
    · rintro p v ⟨⟩
    · rintro k v ⟨⟩
  · intro acts s a s' hs ha hstep
    exact hstep.traced ha hs

/-- **What a GET finds in a traced node.** -/
theorem Node.Traced.get (h : s.Traced crc mode acts)
    (hr : (s.server.db.touch d key).getCommand crc mode env key = .ok (some val, db)) : Wrote acts (cString key) val := by
  rcases KvDb.getCommand_entries hr with ⟨p, he, hfind, hp, hval, -⟩ | ⟨c, hl, -⟩
  · rw [KvDb.find_touch] at hfind
    rw [KvDb.entry_touch] at hp
    obtain ⟨he', hp', hkey⟩ := h.found _ p hfind
    obtain rfl := Option.some.inj (hp.symm.trans hp')
    rw [Option.some.inj hval, ← hkey]
    exact h.entry p he hp
  · rw [KvDb.flashCache_touch] at hl
    obtain ⟨recs, hs⟩ := h.flash
    rcases hs.toCrashSound.lookup_put hl with hempty | hw
    · exact .inl hempty
    · exact hw

/-- **No value is made up**: whatever was set, evicted, flushed and written, in whatever order,
and however often the server has crashed and was started again on what was left, a GET that
obtains a value obtains the empty one or one that a SET of the same key has written, whole or
up to its first zero byte. -/
theorem get_origin (hbuf : Buffers mode opt)
    (h : Run (NodeStep crc mode d) (fun _ => NodeAct.Within mode) (.start opt size) acts s)
    (hr : (s.server.db.touch d key).getCommand crc mode env key = .ok (some val, db)) :
    val = [] ∨ ∃ k v, .server (.set k v) ∈ acts ∧ cString k = cString key ∧ (val = v ∨ val = cString v) :=
  (run_traced hbuf h).get hr

/-- A value that was set and flushed before a crash is obtained after it. -/
theorem get_origin_restarted : ∃ (s : Node) (acts : List NodeAct) (db : KvDb),
    Run (NodeStep (fun _ => 0) .direct .undefined) (fun _ => NodeAct.Within .direct) (.start ⟨20, 0, 1000⟩ 0) acts s ∧
    s.server.db.entries = [] ∧
    s.server.db.getCommand (fun _ => 0) .direct ⟨[], [.moved 99], false, []⟩ [97] = .ok (some [1], db) ∧
    ∀ env val db, s.server.db.getCommand (fun _ => 0) .direct env [97] = .ok (some val, db) → val = [] ∨ val = [1] := by
  have h0 := Run.nil (R := NodeStep (fun _ => 0) .direct .undefined) (C := fun _ => NodeAct.Within .direct)
    (.start ⟨20, 0, 1000⟩ 0)
  have h1 := h0.snoc (a := NodeAct.server (.set [97] [1])) trivial (.server (.set rfl rfl rfl))
  have h2 := h1.snoc (a := NodeAct.server .evict) trivial (.server (.evict rfl))
  have h3 := h2.snoc (a := NodeAct.server (.bworker .dequeue)) trivial (.server (.bworker (.dequeue rfl rfl)))
  have h4 := h3.snoc (a := NodeAct.server (.bworker .read)) trivial (.server (.bworker (.read rfl rfl)))
  have h5 := h4.snoc (a := NodeAct.server (.bworker .lock)) trivial (.server (.bworker (.lock rfl rfl)))
  have h6 := h5.snoc (a := NodeAct.server (.bworker (.insert 0))) (fun v he hjob hp => by
      obtain rfl := (Prod.mk.inj (Option.some.inj hjob)).2
      obtain rfl := Option.some.inj hp
      decide)
    (.server (.bworker (.insert rfl rfl
      (show FlashCache.insert (fun _ => 0) .direct [.moved 99] _ [97] [1] = .ok (0, _) from rfl))))
  obtain ⟨s, f, h, hf, hid, hfd⟩ : ∃ s f, Run (NodeStep (fun _ => 0) .direct .undefined) (fun _ => NodeAct.Within .direct)
      (.start ⟨20, 0, 1000⟩ 0) [.server (.set [97] [1]), .server .evict, .server (.bworker .dequeue),
        .server (.bworker .read), .server (.bworker .lock), .server (.bworker (.insert 0))] s ∧
      s.host.cache.deref 0 = some f ∧ f.cacheId = 0 ∧ f.fd = some (image (fun _ => 0) [97] [1]) :=
    ⟨_, _, h6, rfl, rfl, rfl⟩
  have hleft := Host.leaves_one hf hid hfd (List.prefix_refl _) (by decide)
  obtain ⟨c, db, ho, hget⟩ : ∃ c db, FlashCache.openDir (fun _ _ _ => 0) ⟨20, 0, 1000⟩ 0
      [(0, image (fun _ => 0) [97] [1])] = .ok c ∧
      (Server.start c).db.getCommand (fun _ => 0) .direct ⟨[], [.moved 99], false, []⟩ [97] = .ok (some [1], db) :=
    ⟨_, _, rfl, rfl⟩
  have h7 := h.snoc (a := NodeAct.crash ⟨20, 0, 1000⟩) (by simp [NodeAct.Within, Buffers]) (.crash (.crash hleft ho))
  refine ⟨_, _, db, h7, rfl, hget, fun env val db hr => ?_⟩
  have horigin := get_origin (by decide) h7 hr
  have hcut : cString [1] = [1] := rfl
  simpa [hcut] using horigin

end EmbeddedKv.Tiers
