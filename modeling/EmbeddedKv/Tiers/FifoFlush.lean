import EmbeddedKv.Hash.Buckets
import EmbeddedKv.Tiers.Fifo

/-!
# What the flush takes out of the hash table

In the mode with a list the flush worker calls `hashDelete` with the key of the entry, a
`char *`, where a `struct msg *` is wanted. The string that `hashDelete` takes is the one
four bytes behind the start of the key.

## What is proved

`flush_removes_iff`: the flush takes out the entry it has written exactly if the memory of
the key repeats the key there, which no key of more than three bytes does
(`RepeatsBehind.short`). For other keys the entry stays, and an entry whose key is what
stands there goes instead. Where every flush takes out its entry, the table is empty when
the queue is.
-/

namespace EmbeddedKv.Tiers

open EmbeddedKv.Library EmbeddedKv.Flash EmbeddedKv.Store EmbeddedKv.Hash

/-- Four bytes behind the start of its block the key stands again, with a zero byte;
`beyond` is what memory holds behind the key and its zero byte. -/
def RepeatsBehind (key : CString) (beyond : Bytes) : Prop :=
  key.bytes.length < sizeofInt ∧ key.bytes ++ [0] <+: beyond.drop (sizeofInt - 1 - key.bytes.length)

/-- **The flush removes the entry**: it returns, and the hash table is the one before
without the entry. -/
def FifoDb.FlushRemoves (signed : Bool) (crc : Bytes → UInt32) (mode : FlashcacheMode) (writes : List IoResult)
    (beyond : Bytes) (s : FifoDb) (he : Hash.HashEntry KvObject) : Prop :=
  ∃ s', s.flush signed crc mode writes beyond = .ok s' ∧ Kvht.Without he s.memCache s'.memCache

/-- While the queue is drained only the worker and the writers are at work, and each flush
finds the key repeated. -/
def Draining (s : FifoDb) : FifoAct → Prop
  | .flush _ beyond => ∀ p queue he, s.memQueue = p :: queue → s.entry p = some he → RepeatsBehind he.key beyond
  | .writer _ => True
  | _ => False

variable {signed : Bool} {crc : Bytes → UInt32} {mode : FlashcacheMode} {s s' : FifoDb} {act : FifoAct}
  {he : Hash.HashEntry KvObject} {key : CString} {beyond : Bytes} {writes : List IoResult} {p : ℕ} {queue : List ℕ}

/-! ### The string behind the key -/

/-- No key of more than three bytes is repeated. -/
theorem RepeatsBehind.short (h : RepeatsBehind key beyond) : key.bytes.length ≤ 3 := Nat.le_of_lt_succ h.1

/-- **The string four bytes behind the start** is the key exactly if the key is repeated
there. In a longer key it is the end of the key. -/
theorem repeatsBehind_iff :
    RepeatsBehind key beyond ↔ ∃ rest, (key.memory beyond).drop sizeofInt = key.memory rest := by
  unfold RepeatsBehind
  by_cases hlen : key.bytes.length < sizeofInt
  · have hdrop : (key.memory beyond).drop sizeofInt = beyond.drop (sizeofInt - 1 - key.bytes.length) := by
      have hsplit : sizeofInt = key.bytes.length + ((sizeofInt - 1 - key.bytes.length) + 1) := by omega
      conv_lhs => rw [CString.memory, hsplit, ← List.drop_drop, List.drop_left, List.drop_succ_cons]
    rw [hdrop]
    constructor
    · rintro ⟨-, rest, hrest⟩
      exact ⟨rest, by rw [← hrest, CString.memory, List.append_assoc]; rfl⟩
    · rintro ⟨rest, hrest⟩
      exact ⟨hlen, rest, by rw [hrest, CString.memory, List.append_assoc]; rfl⟩
  · refine iff_of_false (fun h => hlen h.1) ?_
    rintro ⟨rest, hrest⟩
    -- the strings end at different places
    have hnul : NulFree (key.bytes.drop sizeofInt) := fun b hb => key.nulFree b (List.mem_of_mem_drop hb)
    have hcstr := congrArg cstr hrest
    rw [CString.memory, CString.memory, List.drop_append_of_le_length (Nat.not_lt.mp hlen), cstr_append hnul,
      cstr_append key.nulFree] at hcstr
    have := congrArg List.length hcstr
    simp [cstr, sizeofInt] at this hlen
    omega

/-! ### One flush -/

/-- The entry behind a pointer is in the table, at that address. -/
theorem FifoDb.of_entry (h : s.entry p = some he) : he.addr = p ∧ he ∈ s.memCache.entries :=
  ⟨by simpa using List.find?_some h, List.mem_of_find?_eq_some h⟩

/-- A flush whose record is written goes as `hashDelete` goes. -/
theorem FifoDb.flush_ok_iff (hq : s.memQueue = p :: queue) (hentry : s.entry p = some he) {n : Int} {c : FlashCache}
    (hins : s.flashCache.insert crc mode writes he.key.bytes (cString he.val.ptr) = .ok (n, c)) :
    s.flush signed crc mode writes beyond = .ok s' ↔
      ∃ m t, s.memCache.hashDelete signed ((he.key.memory beyond).drop sizeofInt) = .ok (m, t) ∧
        s' = { s with memCache := t, memQueue := queue, flashCache := c } := by
  unfold FifoDb.flush
  rw [hq]
  simp only [hentry, hins]
  cases s.memCache.hashDelete signed ((he.key.memory beyond).drop sizeofInt) with
  | error e => simp
  | ok r =>
    refine ⟨fun h => ⟨r.1, r.2, rfl, (Except.ok.inj h).symm⟩, fun ⟨m, t, hr, hs'⟩ => ?_⟩
    cases hr
    rw [hs']

/-- A flush that removes the entry has found the key repeated. -/
theorem FifoDb.FlushRemoves.repeats (h : s.FlushRemoves signed crc mode writes beyond he) (hq : s.memQueue = p :: queue)
    (hentry : s.entry p = some he) {r : Int × FlashCache}
    (hins : s.flashCache.insert crc mode writes he.key.bytes (cString he.val.ptr) = .ok r) :
    RepeatsBehind he.key beyond := by
  obtain ⟨s', hflush, hwithout⟩ := h
  obtain ⟨m, t, hdelete, rfl⟩ := (FifoDb.flush_ok_iff hq hentry hins).mp hflush
  rw [repeatsBehind_iff]
  rcases Kvht.hashDelete_cases hdelete with rfl | ⟨e, rest, hstr, hwithout'⟩
  · -- nothing is taken out, although the entry counts
    obtain ⟨hused, i, front, back, -, hsame⟩ := hwithout
    have : s.memCache.used = s.memCache.used - 1 := congrArg Kvht.used hsame
    omega
  · obtain rfl := hwithout'.unique hwithout
    exact ⟨rest, hstr⟩

/-- A flush that finds the key repeated removes the entry. -/
theorem FifoDb.flushRemoves_of_repeats (h : s.memCache.Kept signed) (hq : s.memQueue = p :: queue)
    (hentry : s.entry p = some he) {r : Int × FlashCache}
    (hins : s.flashCache.insert crc mode writes he.key.bytes (cString he.val.ptr) = .ok r)
    (hrepeats : RepeatsBehind he.key beyond) : s.FlushRemoves signed crc mode writes beyond he := by
  obtain ⟨rest, hrest⟩ := repeatsBehind_iff.mp hrepeats
  obtain ⟨t, hdelete, hwithout, -⟩ := h.hashDelete_mem (FifoDb.of_entry hentry).2 rest
  refine ⟨_, (FifoDb.flush_ok_iff hq hentry hins).mpr ⟨0, t, ?_, rfl⟩, hwithout⟩
  rw [hrest, hdelete]

/-! ### Draining the queue -/

/-- The entries of the hash table are those of the queue. -/
structure FifoDb.Queued (signed : Bool) (s : FifoDb) : Prop where
  /-- The table is well formed. -/
  kept : s.memCache.Kept signed
  /-- Each entry of the table is in the queue once, and nothing else is. -/
  perm : (s.memCache.entries.map HashEntry.addr).Perm s.memQueue

/-- **One step of the drain** takes an entry from the table and from the queue, or none. -/
theorem FifoDb.Queued.step (h : s.Queued signed) (hd : Draining s act) (hstep : FifoStep signed crc mode s act s') :
    s'.Queued signed := by
  cases hstep with
  | set => exact hd.elim
  | get => exact hd.elim
  | memUsedCheck => exact hd.elim
  | evictAll => exact hd.elim
  | writer hf hw => exact ⟨h.kept, h.perm⟩
  | @flush _ writes beyond hr =>
    have hrun := hr
    unfold FifoDb.flush at hr
    split at hr
    · cases hr
    · next p queue hq =>
      split at hr
      · cases hr
      · next he hentry =>
        split at hr
        · cases hr
        · next n c hins =>
          obtain ⟨rest, hrest⟩ := repeatsBehind_iff.mp (hd p queue he hq hentry)
          obtain ⟨m, t, hdelete, rfl⟩ := (FifoDb.flush_ok_iff hq hentry hins).mp hrun
          obtain ⟨haddr, hmem⟩ := FifoDb.of_entry hentry
          obtain ⟨t', hdelete', hwithout, hkept⟩ := h.kept.hashDelete_mem hmem rest
          rw [hrest, hdelete'] at hdelete
          cases hdelete
          refine ⟨hkept, ?_⟩
          have hperm : (he.addr :: t.entries.map HashEntry.addr).Perm (p :: queue) := by
            rw [← List.map_cons, ← hq]
            exact (hwithout.perm.map HashEntry.addr).symm.trans h.perm
          rw [haddr] at hperm
          exact hperm.cons_inv

/-- **The flush removes the flushed entry** exactly if the memory of its key repeats the key,
for every well-formed hash table, and every entry at the front of the queue whose record is
written: the entry is gone, all others are in their chains as before, and one less is
counted. So, if every flush finds the key repeated, and the queue holds what the table holds,
the table is empty when the queue is, and the wait of `evictAllCommand` is over. -/
theorem flush_removes_iff (h : s.memCache.Kept signed) :
    (∀ p queue he writes beyond r, s.memQueue = p :: queue → s.entry p = some he →
      s.flashCache.insert crc mode writes he.key.bytes (cString he.val.ptr) = .ok r →
        (s.FlushRemoves signed crc mode writes beyond he ↔ RepeatsBehind he.key beyond)) ∧
    ∀ acts s', (s.memCache.entries.map HashEntry.addr).Perm s.memQueue →
      Run (FifoStep signed crc mode) (fun _ => Draining) s acts s' → s'.memQueue = [] → s'.memCache.used = 0 := by
  refine ⟨fun p queue he writes beyond r hq hentry hins => ⟨fun hremoves => hremoves.repeats hq hentry hins,
    FifoDb.flushRemoves_of_repeats h hq hentry hins⟩, fun acts s' hperm hrun hempty => ?_⟩
  have hqueued : s'.Queued signed :=
    hrun.invariant (P := fun _ s => s.Queued signed) ⟨h, hperm⟩ fun _ _ _ _ hs hd hstep => hs.step hd hstep
  have hnil := hqueued.perm
  rw [hempty, List.perm_nil, List.map_eq_nil_iff] at hnil
  rw [hqueued.kept.used, hnil]
  rfl

/-- A store with the entries of two keys, the first of which is in the queue. -/
def twoKeys (first second : CString) (i j : ℕ) : FifoDb where
  memCache :=
    { Kvht.create KvObject 100 100 with
      table := ((List.replicate 100 []).set i [⟨0, first, createObject [1]⟩]).set j [⟨1, second, createObject [2]⟩]
      used := 2 }
  memQueue := [0]
  flashCache := .openEmpty ⟨100, 10, 1000⟩ 0
  allocated := 2

/-- It is well formed, if adding the two keys makes its hash table. -/
theorem kept_twoKeys {first second : CString} {i j : ℕ}
    (h : execAll true [.add 0 first [] (createObject [1]), .add 1 second [] (createObject [2])]
      (Kvht.create KvObject 100 100) = .ok ([.status 0, .status 0], (twoKeys first second i j).memCache)) :
    (twoKeys first second i j).memCache.Kept true :=
  ((Kvht.kept_create KvObject true 100 (Nat.le_of_ble_eq_true rfl)).execAll h).1

/-- The key "a" of a message of five bytes that goes on with zero bytes and another "a". -/
theorem flush_removes_a : ∃ he, (twoKeys (.ofMemory [97]) (.ofMemory [98, 99, 100, 101, 97]) 4 68).entry 0 = some he ∧
    (twoKeys (.ofMemory [97]) (.ofMemory [98, 99, 100, 101, 97]) 4 68).FlushRemoves true (fun _ => 0) .direct
      [.moved 17] [0, 0, 97, 0] he := by
  refine ⟨_, rfl, ((flush_removes_iff (kept_twoKeys rfl)).1 0 [] _ _ _ _ rfl rfl rfl).mpr ⟨?_, [], rfl⟩⟩
  exact Nat.lt_of_sub_eq_succ rfl

/-- The flush of "bcdea" takes out the entry of "a" and leaves that of "bcdea". -/
theorem flush_bcdea : ∃ s s' : FifoDb, ∃ he e, s.memCache.Kept true ∧ s.memQueue = [0] ∧ s.entry 0 = some he ∧
    s.flush true (fun _ => 0) .direct [.moved 21] [] = .ok s' ∧ Kvht.Without e s.memCache s'.memCache ∧ e.key ≠ he.key ∧
    ¬ s.FlushRemoves true (fun _ => 0) .direct [.moved 21] [] he := by
  refine ⟨twoKeys (.ofMemory [98, 99, 100, 101, 97]) (.ofMemory [97]) 68 4, _, _, ⟨1, (.ofMemory [97]), createObject [2]⟩,
    kept_twoKeys rfl, rfl, rfl, rfl, ⟨Nat.succ_pos 1, 4, [], [], rfl, rfl⟩, ?_, fun h => ?_⟩
  · exact fun hkey => absurd (congrArg (fun key => key.bytes.length) hkey) (Nat.ne_of_lt (Nat.lt_of_sub_eq_succ rfl))
  · exact absurd (h.repeats rfl rfl rfl).short (by decide)

end EmbeddedKv.Tiers
