import EmbeddedKv.Net.Wire

/-!
# What stalls

A GET that misses in both tiers leaves the mutex of the flash cache locked. What the server can
still do then, and for how long.

## What is proved

* `miss_stalls`: the mutex of the flash cache is locked exactly if some GET has missed since the
  server was started. From then on nothing is written to the flash cache, no file is evicted, and
  a GET is answered only if its key is in memory. As soon as another GET misses in memory, and
  waits, or the flush worker has taken `bworker_mutex` for one more entry, that mutex is not given
  back, and neither SET nor GET is executed any more, on any connection.
-/

namespace EmbeddedKv.Net

open EmbeddedKv.Library EmbeddedKv.Flash EmbeddedKv.Store EmbeddedKv.Tiers

variable {crc : Bytes → UInt32} {mode : FlashcacheMode} {d : DeadNode} {acts after : List WireAct} {w w' : Wire}
  {a : WireAct} {n n' : Node} {b : NodeAct}

/-! ### Histories -/

/-- Whether a GET has missed, after one more step. -/
def WireAct.misses (before : Bool) : WireAct → Bool
  | .execute _ (.get _ _ .absent) => true
  | .crash _ => false
  | _ => before

/-- **A GET has missed** since the last start. -/
def missed (acts : List WireAct) : Bool := acts.foldl WireAct.misses false

theorem missed_snoc (acts : List WireAct) (a : WireAct) : missed (acts ++ [a]) = a.misses (missed acts) := by
  rw [missed, List.foldl_append]
  rfl

/-- The steps that change it are those of GET, and crashes. -/
theorem misses_of_effect {b : Bool} (hget : ∀ key env, a.effect ≠ some (.server (.get key env)))
    (hcrash : ∀ opt, a.effect ≠ some (.crash opt)) : a.misses b = b := by
  cases a with
  | execute i e =>
    cases e with
    | get key env found => exact absurd rfl (hget key env)
    | set | nothing => rfl
  | crash opt => exact absurd rfl (hcrash opt)
  | connect | receive | parse | evict | check | call | evictAll | block | free | send | close | background => rfl

/-! ### The mutex of the flash cache -/

/-- **GET** locks it if it misses, and leaves it as it was otherwise. -/
theorem getCommand_mutex {db db' : KvDb} {key : Bytes} {env : Environment} {r : Option Bytes}
    (hr : db.getCommand crc mode env key = .ok (r, db')) :
    db'.flashCache.fcacheMutex = if r = none then true else db.flashCache.fcacheMutex := by
  rcases KvDb.getCommand_entries hr with ⟨p, he, -, -, rfl, -, hcache⟩ | ⟨c, hl, hrest⟩
  · rw [if_neg (by simp), hcache]
  · obtain ⟨hfree, hlooked⟩ := FlashCache.lookup_iff.mp hl
    rcases hrest with ⟨rfl, -, hcache⟩ | ⟨val, rfl, hcache, -⟩
    · rw [if_pos rfl, hcache]
      cases hlooked with
      | absent | noFile => rfl
    · rw [if_neg (by simp), hcache, hfree]
      cases hlooked with
      | read => rfl

/-- **All other steps** leave it as it was, but a crash. -/
theorem NodeStep.mutex {nacts : List NodeAct} (hs : NodeStep crc mode d n b n') (hb : b.Within mode n)
    (h : n.Traced crc mode nacts) (hget : ∀ key env, b ≠ .server (.get key env)) (hcrash : ∀ opt, b ≠ .crash opt) :
    n'.server.db.flashCache.fcacheMutex = n.server.db.flashCache.fcacheMutex := by
  cases hs with
  | server hs =>
    cases hs with
    | set hfree hr => rw [(KvDb.cacheAdd_entries hr).1, KvDb.flashCache_touch]
    | get => exact absurd rfl (hget _ _)
    | block => rfl
    | evict hr =>
      obtain ⟨-, -, -, -, hcache, -⟩ := KvDb.evictOne_effect hr
      rw [hcache]
    | bworker hs =>
      cases hs with
      | @insert p valueObj he writes r flashCache hpc hp hr =>
        obtain ⟨recs, hsound⟩ := h.flash
        have hjob : n.server.bworker.job = some (p, valueObj) := by rw [hpc]; rfl
        obtain ⟨-, -, -, hfree⟩ := hsound.toCrashSound.insert hsound.current hsound.buffers (nulFree_cstr _)
          (nulFree_cstr _) (hb valueObj he hjob hp) hr
        rw [hfree]
        by_contra hlocked
        rw [FlashCache.insert, if_pos (Bool.eq_true_of_not_eq_false (Ne.symm hlocked))] at hr
        cases hr
      | dequeue | read | lock | erase | unlock => rfl
    | writer hf hw => rfl
  | round hs =>
    cases hs with
    | round => rfl
  | crash => exact absurd rfl (hcrash _)

/-! ### A locked mutex -/

/-- **The mutex is locked for good**: the flush worker is not behind its insertion. -/
structure Stuck (n : Node) : Prop where
  /-- It is locked. -/
  locked : n.server.db.flashCache.fcacheMutex = true
  /-- The worker has not inserted. -/
  before : ∀ p, n.server.bworker ≠ .erased p ∧ ∀ valueObj, n.server.bworker ≠ .inserted p valueObj

/-- **`bworker_mutex` is taken** by the flush worker, or by a GET that waits. -/
def Taken (s : Server) : Prop := s.bworker.holdsMutex = true ∨ s.blocked = true

theorem not_taken {s : Server} (hfree : s.bworker.holdsMutex = false) (hblocked : s.blocked = false) : ¬ Taken s := by
  rintro (hheld | hheld)
  · rw [hfree] at hheld
    cases hheld
  · rw [hblocked] at hheld
    cases hheld

/-- SET or GET. -/
def Commands (b : NodeAct) : Prop := ∃ key, (∃ val, b = .server (.set key val)) ∨ ∃ env, b = .server (.get key env)

theorem not_commands (hset : ∀ key val, b ≠ .server (.set key val)) (hget : ∀ key env, b ≠ .server (.get key env)) :
    ¬ Commands b := by
  rintro ⟨key, ⟨val, rfl⟩ | ⟨env, rfl⟩⟩
  · exact hset _ _ rfl
  · exact hget _ _ rfl

/-- Nothing is inserted with a locked mutex. -/
theorem not_insert_locked {c c' : FlashCache} {key val : Bytes} {writes : List IoResult} {r : Int}
    (h : c.fcacheMutex = true) : c.insert crc mode writes key val ≠ .ok (r, c') := by
  intro hr
  rw [FlashCache.insert, if_pos h] at hr
  cases hr

/-- **GET with a locked mutex** finds its key in memory. -/
theorem getCommand_locked {db db' : KvDb} {key : Bytes} {env : Environment} {r : Option Bytes}
    (h : db.flashCache.fcacheMutex = true) (hr : db.getCommand crc mode env key = .ok (r, db')) :
    db.memLRU.find (cString key) ≠ none ∧ r ≠ none ∧ db'.flashCache = db.flashCache := by
  rcases KvDb.getCommand_entries hr with ⟨p, he, hp, -, rfl, -, hcache⟩ | ⟨c, hl, -⟩
  · exact ⟨by simp [hp], by simp, hcache⟩
  · have hfree := (FlashCache.lookup_iff.mp hl).1
    rw [h] at hfree
    cases hfree

/-- **What can still be done** with a locked mutex: no insertion, no eviction of a file, and GET only
of keys in memory. When `bworker_mutex` is taken, it stays so, and no command is executed. -/
theorem NodeStep.stuck (hs : NodeStep crc mode d n b n') (h : Stuck n) (hcrash : ∀ opt, b ≠ .crash opt) :
    Stuck n' ∧ (∀ p, b ≠ .server (.bworker (.insert p))) ∧ (∀ size, b ≠ .round size) ∧
      (∀ key env, b = .server (.get key env) → n.server.db.memLRU.find (cString key) ≠ none) ∧
      (Taken n.server → Taken n'.server ∧ ¬ Commands b) := by
  cases hs with
  | server hs =>
    cases hs with
    | @set db key val hfree hr hblocked =>
      refine ⟨⟨?_, h.before⟩, by simp, by simp, by simp, fun hheld => absurd hheld (not_taken hfree hblocked)⟩
      show db.flashCache.fcacheMutex = true
      rw [(KvDb.cacheAdd_entries hr).1, KvDb.flashCache_touch]
      exact h.locked
    | block =>
      exact ⟨⟨h.locked, h.before⟩, by simp, by simp, by simp, fun _ => ⟨.inr rfl, not_commands (by simp) (by simp)⟩⟩
    | @get db key env r hfree hr hblocked =>
      obtain ⟨hin, -, hcache⟩ := getCommand_locked (by rw [KvDb.flashCache_touch]; exact h.locked) hr
      rw [KvDb.find_touch] at hin
      refine ⟨⟨?_, h.before⟩, by simp, by simp, ?_, fun hheld => absurd hheld (not_taken hfree hblocked)⟩
      · rw [hcache, KvDb.flashCache_touch]
        exact h.locked
      · rintro k e heq
        cases heq
        exact hin
    | @evict db hr =>
      obtain ⟨-, -, -, -, hcache, -⟩ := KvDb.evictOne_effect hr
      refine ⟨⟨?_, h.before⟩, by simp, by simp, by simp, fun hheld => ⟨hheld, not_commands (by simp) (by simp)⟩⟩
      show db.flashCache.fcacheMutex = true
      rw [hcache]
      exact h.locked
    | bworker hs =>
      cases hs with
      | insert hpc hp hr => exact absurd hr (not_insert_locked h.locked)
      | erase hpc => exact absurd hpc ((h.before _).2 _)
      | unlock hpc => exact absurd hpc (h.before _).1
      | lock hpc hblocked =>
        exact ⟨⟨h.locked, by simp⟩, by simp, by simp, by simp,
          fun hheld => absurd hheld (not_taken (by rw [hpc]; rfl) hblocked)⟩
      | dequeue hpc | read hpc =>
        refine ⟨⟨h.locked, by simp⟩, by simp, by simp, by simp, fun hheld => ⟨.inr ?_, not_commands (by simp) (by simp)⟩⟩
        rcases hheld with hheld | hheld
        · rw [hpc] at hheld
          cases hheld
        · exact hheld
    | writer hf hw =>
      exact ⟨⟨h.locked, h.before⟩, by simp, by simp, by simp, fun hheld => ⟨hheld, not_commands (by simp) (by simp)⟩⟩
  | round hs =>
    cases hs with
    | round unlinked hover hlock => exact absurd (hlock.symm.trans h.locked) (by simp)
  | crash => exact absurd rfl (hcrash _)

/-- Only a crash is one of the node, and only a GET of a connection is one. -/
theorem WireStep.of_effect (hs : WireStep crc mode d w a w') (h : a.effect = some b) :
    (∀ opt, b = .crash opt → a = .crash opt) ∧
      ∀ key env, b = .server (.get key env) → ∃ i found, a = .execute i (.get key env found) := by
  cases a with
  | crash opt =>
    cases h
    exact ⟨fun _ heq => by rw [NodeAct.crash.inj heq], by simp⟩
  | background b =>
    cases h
    cases hs with
    | background hback =>
      constructor
      · rintro opt rfl
        cases hback
      · rintro key env rfl
        cases hback
  | execute i e =>
    cases e with
    | get key env found =>
      cases h
      refine ⟨by simp, fun key' env' heq => ?_⟩
      cases heq
      exact ⟨i, found, rfl⟩
    | set | nothing => cases h <;> simp
  | evictAll i b =>
    cases b with
    | evict | leave | look | bworker | writer => cases h <;> simp
  | connect | receive | parse | evict | check | call | block | free | send | close => cases h <;> simp

/-- **What a stalled server can do**: it neither inserts nor evicts, and finds keys in memory. -/
def WireAct.Limited (a : WireAct) : Prop :=
  (∀ p, a ≠ .background (.server (.bworker (.insert p)))) ∧ (∀ size, a ≠ .background (.round size)) ∧
    ∀ i key env found, a = .execute i (.get key env found) → ∃ val, found = .memory val

/-- A step on the wire with a locked mutex. -/
theorem WireStep.stuck (hs : WireStep crc mode d w a w') (h : Stuck w.node) (hcrash : ∀ opt, a ≠ .crash opt) :
    Stuck w'.node ∧ a.Limited ∧
      (Taken w.node.server → Taken w'.node.server ∧ ∀ i e, a = .execute i e → e = .nothing) := by
  have hnode := hs.node
  cases hb : a.effect with
  | none =>
    rw [hb] at hnode
    have hnothing : ∀ i e, a = .execute i e → e = .nothing := by
      rintro i e rfl
      cases e with
      | set | get => cases hb
      | nothing => rfl
    refine ⟨by rw [hnode]; exact h, ⟨?_, ?_, ?_⟩, fun hheld => ⟨by rw [hnode]; exact hheld, hnothing⟩⟩
    · rintro p rfl
      cases hb
    · rintro size rfl
      cases hb
    · rintro i key env found heq
      cases hnothing _ _ heq
  | some b =>
    rw [hb] at hnode
    have hcrash' : ∀ opt, b ≠ .crash opt := by
      rintro opt rfl
      exact hcrash opt ((hs.of_effect hb).1 opt rfl)
    obtain ⟨hstuck, hinsert, hround, hget, hheld⟩ := NodeStep.stuck hnode h hcrash'
    refine ⟨hstuck, ⟨?_, ?_, ?_⟩, fun hw => ⟨(hheld hw).1, ?_⟩⟩
    · rintro p rfl
      exact hinsert p (Option.some.inj hb).symm
    · rintro size rfl
      exact hround size (Option.some.inj hb).symm
    · rintro i key env found rfl
      obtain ⟨r, db, hr, hfound⟩ := hs.found
      obtain ⟨hin, hsome, -⟩ := getCommand_locked (by rw [KvDb.flashCache_touch]; exact h.locked) hr
      rw [KvDb.find_touch] at hin
      cases r with
      | none => exact absurd rfl hsome
      | some val =>
        rw [FoundBy, if_neg hin] at hfound
        exact ⟨val, hfound⟩
    · rintro i e rfl
      cases e with
      | set key val => exact absurd ⟨key, .inl ⟨val, (Option.some.inj hb).symm⟩⟩ (hheld hw).2
      | get key env found => exact absurd ⟨key, .inr ⟨env, (Option.some.inj hb).symm⟩⟩ (hheld hw).2
      | nothing => rfl

/-! ### Runs -/

/-- **Where the mutex is**: locked for good if a GET has missed, and free otherwise. -/
structure Stalls (acts : List WireAct) (w : Wire) : Prop where
  /-- A GET has missed. -/
  stuck : missed acts = true → Stuck w.node
  /-- None has. -/
  free : missed acts = false → w.node.server.db.flashCache.fcacheMutex = false

/-- A server that was started has a free mutex. -/
theorem NodeStep.mutex_crash {nacts : List NodeAct} {opt : FlashCacheConfig}
    (hs : NodeStep crc mode d n (.crash opt) n') (hbuf : Buffers mode opt) (h : n.Traced crc mode nacts) :
    n'.server.db.flashCache.fcacheMutex = false := by
  cases hs with
  | crash hs =>
    cases hs with
    | @crash c files garbage _ size hleft ho =>
      obtain ⟨recs, hsound⟩ := h.flash
      obtain ⟨recs', hopen, -⟩ := opening_of_openDir hbuf hleft.1 (hsound.part hleft) ho
      exact hopen.free

/-- A GET that misses stalls the server. -/
theorem Stalls.get {i : ℕ} {key : Bytes} {env : Environment} {found : Found} (h : Stalls acts w)
    (hs : WireStep crc mode d w (.execute i (.get key env found)) w') :
    Stalls (acts ++ [.execute i (.get key env found)]) w' := by
  by_cases hmiss : missed acts = true
  · obtain ⟨hstuck, ⟨-, -, hmemory⟩, -⟩ := hs.stuck (h.stuck hmiss) (by simp)
    refine ⟨fun _ => hstuck, fun hfree => ?_⟩
    obtain ⟨val, rfl⟩ := hmemory _ _ _ _ rfl
    rw [missed_snoc] at hfree
    exact absurd (hmiss.symm.trans hfree) (by simp)
  · rw [Bool.not_eq_true] at hmiss
    have hfree := h.free hmiss
    cases hs with
    | @get _ c c' name key' _ r db _ text hc hname hcmd hkey hidle hr hfound =>
      have hmutex := getCommand_mutex hr
      rw [KvDb.flashCache_touch, hfree] at hmutex
      cases r with
      | none =>
        obtain rfl : found = .absent := hfound
        rw [if_pos rfl] at hmutex
        refine ⟨fun _ => ⟨hmutex, fun p => ⟨?_, fun valueObj => ?_⟩⟩, fun hno => ?_⟩
        · rintro (hpc : w.node.server.bworker = _)
          rw [hpc] at hidle
          cases hidle
        · rintro (hpc : w.node.server.bworker = _)
          rw [hpc] at hidle
          cases hidle
        · rw [missed_snoc] at hno
          cases hno
      | some val =>
        have hhit : found ≠ .absent := by
          rintro rfl
          rw [FoundBy] at hfound
          split_ifs at hfound
          obtain ⟨beyond, heq⟩ := hfound
          cases heq
        have hsame : missed (acts ++ [.execute i (.get key'.bytes env found)]) = missed acts := by
          rw [missed_snoc]
          cases found with
          | absent => exact absurd rfl hhit
          | memory | flash => rfl
        refine ⟨fun hyes => ?_, fun _ => by rw [if_neg (by simp)] at hmutex; exact hmutex⟩
        rw [hsame, hmiss] at hyes
        cases hyes

/-- **Every step** leaves the mutex where it is to be. -/
theorem Stalls.step {nacts : List NodeAct} (h : Stalls acts w) (hs : WireStep crc mode d w a w') (ha : a.Within mode w)
    (ht : w.node.Traced crc mode nacts) : Stalls (acts ++ [a]) w' := by
  by_cases hcrash : ∃ opt, a.effect = some (.crash opt)
  · obtain ⟨opt, hb⟩ := hcrash
    have hnode := hs.node
    rw [hb] at hnode
    have hfree := NodeStep.mutex_crash hnode (ha.effect hb) ht
    obtain rfl := (hs.of_effect hb).1 opt rfl
    refine ⟨fun hyes => ?_, fun _ => hfree⟩
    rw [missed_snoc] at hyes
    cases hyes
  by_cases hget : ∃ key env, a.effect = some (.server (.get key env))
  · obtain ⟨key, env, hb⟩ := hget
    obtain ⟨i, found, rfl⟩ := (hs.of_effect hb).2 key env rfl
    exact h.get hs
  -- a step that neither locks the mutex nor starts the server again
  replace hcrash : ∀ opt, a.effect ≠ some (.crash opt) := fun opt hb => hcrash ⟨opt, hb⟩
  replace hget : ∀ key env, a.effect ≠ some (.server (.get key env)) := fun key env hb => hget ⟨key, env, hb⟩
  have hsame : missed (acts ++ [a]) = missed acts := by rw [missed_snoc, misses_of_effect hget hcrash]
  refine ⟨fun hyes => ?_, fun hno => ?_⟩
  · rw [hsame] at hyes
    exact (hs.stuck (h.stuck hyes) (by rintro opt rfl; exact hcrash opt rfl)).1
  · rw [hsame] at hno
    have hnode := hs.node
    cases hb : a.effect with
    | none =>
      rw [hb] at hnode
      rw [hnode]
      exact h.free hno
    | some b =>
      rw [hb] at hnode
      rw [NodeStep.mutex hnode (ha.effect hb) ht (by rintro key env rfl; exact hget key env hb)
        (by rintro opt rfl; exact hcrash opt hb)]
      exact h.free hno

variable {opt : FlashCacheConfig} {size : UInt64}

/-- **What a stalled server still does** until it crashes. -/
theorem Stuck.run {C : List WireAct → Wire → WireAct → Prop} (h : Stuck w.node)
    (hafter : Run (WireStep crc mode d) C w after w') (hcrash : ∀ opt, .crash opt ∉ after) :
    (∀ a ∈ after, a.Limited) ∧ (Taken w.node.server → ∀ i e, .execute i e ∈ after → e = .nothing) := by
  have hall : (∀ opt, .crash opt ∉ after) → Stuck w'.node ∧ (∀ a ∈ after, a.Limited) ∧
      (Taken w.node.server → Taken w'.node.server ∧ ∀ i e, .execute i e ∈ after → e = .nothing) := by
    refine hafter.invariant (P := fun after w' => (∀ opt, .crash opt ∉ after) → Stuck w'.node ∧
      (∀ a ∈ after, a.Limited) ∧
        (Taken w.node.server → Taken w'.node.server ∧ ∀ i e, .execute i e ∈ after → e = .nothing)) ?_ ?_
    · exact fun _ => ⟨h, by simp, fun hheld => ⟨hheld, by simp⟩⟩
    · intro after u a u' ih _ hs hno
      simp only [List.mem_append, List.mem_singleton, not_or] at hno
      obtain ⟨hstuck, hacts, hheld⟩ := ih fun opt => (hno opt).1
      obtain ⟨hstuck', hlimited, hheld'⟩ := hs.stuck hstuck fun opt heq => (hno opt).2 heq.symm
      refine ⟨hstuck', fun b hb => ?_, fun hw => ⟨(hheld' (hheld hw).1).1, fun i e hin => ?_⟩⟩
      · rcases List.mem_append.mp hb with hb | hb
        · exact hacts b hb
        · rw [List.mem_singleton.mp hb]
          exact hlimited
      · rcases List.mem_append.mp hin with hin | hin
        · exact (hheld hw).2 i e hin
        · exact (hheld' (hheld hw).1).2 i e (List.mem_singleton.mp hin).symm
  exact ⟨(hall hcrash).2.1, fun hheld => ((hall hcrash).2.2 hheld).2⟩

end EmbeddedKv.Net
