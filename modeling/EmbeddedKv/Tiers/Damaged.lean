import EmbeddedKv.Flash.Repair
import EmbeddedKv.Store.Mutex
import EmbeddedKv.Tiers.Fifo

/-!
# Damaged records

What `Lookup` and GET do when the record of a key is not what was written: the file is too
short, a header or a checksum is wrong, or the disk fails.

`Lookup` does not look at what `Read` returns: where `Read` fails, the value is the empty
one, and its pointer is not `NULL`. `Read` does not look at how much it has read either: a
record that is shorter than its address says is accepted if its header fits.

`lookup_intact_iff`: a value is returned for intact records only, and GET in memory mode
leaves the tiers as they are otherwise, exactly if the record that is found is intact.
-/

namespace EmbeddedKv.Tiers

open EmbeddedKv.Library EmbeddedKv.Flash EmbeddedKv.Store EmbeddedKv.Hash

/-! ### Records -/

/-- The bytes of a record are all read. -/
def ReadInFull (mode : FlashcacheMode) (env : Environment) (f : WriteableCacheFile) (lba : LBA) : Prop :=
  if f.closed mode then
    ∃ file acc neg, f.fd = some file ∧ acc.length = lba.size.toNat ∧
      WriteableCacheFile.preadLoop env.preads env.errnoEintr (file.drop lba.off.toNat) lba.size.toNat [] true =
        .ok (acc, neg)
  else ∃ tmp, f.readBuffer lba = .ok (true, tmp)

/-- The record at an address is read in full, and `Deserialize` accepts it. -/
def Intact (crc : Bytes → UInt32) (mode : FlashcacheMode) (env : Environment) (f : WriteableCacheFile) (lba : LBA) :
    Prop :=
  ReadInFull mode env f lba ∧ ∃ r, f.read crc mode env lba = .ok (some r)

/-- The index has an address for the key, and a file for the address. -/
def Located (c : FlashCache) (key : Bytes) (lba : LBA) (f : WriteableCacheFile) : Prop :=
  c.metadata.lookup key = some lba ∧ ∃ p, c.metadata.cacheFileIndex.find lba.cacheId = some p ∧ c.deref p = some f

/-- There is an intact record of the key. -/
def HasIntact (crc : Bytes → UInt32) (mode : FlashcacheMode) (env : Environment) (c : FlashCache) (key : Bytes) : Prop :=
  ∃ lba f, Located c key lba f ∧ Intact crc mode env f lba

variable {signed : Bool} {crc : Bytes → UInt32} {mode : FlashcacheMode} {env : Environment} {c c' : FlashCache}
  {key k : Bytes} {lba lba' : LBA} {f f' : WriteableCacheFile} {r : Option Bytes}

theorem Located.unique (h : Located c key lba f) (h' : Located c key lba' f') : lba' = lba ∧ f' = f := by
  obtain ⟨hl, p, hp, hf⟩ := h
  obtain ⟨hl', p', hp', hf'⟩ := h'
  obtain rfl := Option.some.inj (hl'.symm.trans hl)
  obtain rfl := Option.some.inj (hp'.symm.trans hp)
  exact ⟨rfl, Option.some.inj (hf'.symm.trans hf)⟩

/-- **What `Lookup` returns**: `NULL` if the key or its file is not in the index; otherwise
a value, the empty one if `Read` fails. The index of the keys stays as it is. -/
theorem lookup_cases (hr : c.lookup crc mode env key = .ok (r, c')) :
    c'.metadata.blockIndex = c.metadata.blockIndex ∧
      ((r = none ∧ ∀ lba f, ¬ Located c key lba f) ∨
        ∃ lba f out, Located c key lba f ∧ f.read crc mode env lba = .ok out ∧ r = some ((out.map Prod.snd).getD [])) := by
  cases FlashCache.Looked.of_lookup hr with
  | absent hl =>
    refine ⟨rfl, .inl ⟨rfl, ?_⟩⟩
    rintro lba f ⟨hl', -⟩
    rw [hl'] at hl
    cases hl
  | noFile hl hget =>
    refine ⟨rfl, .inl ⟨rfl, ?_⟩⟩
    rintro lba' f ⟨hl', p, hp, -⟩
    obtain rfl := Option.some.inj (hl.symm.trans hl')
    have hnone := LruCache.get_eq_find hget
    rw [hp] at hnone
    cases hnone
  | @read lba index p f out hl hget hf hread =>
    exact ⟨rfl, .inr ⟨lba, f, out, ⟨hl, p, (LruCache.get_eq_find hget).symm, hf⟩, hread, rfl⟩⟩

/-! ### GET -/

/-- A GET of the key that does not find it in memory leaves the tiers as they are: it makes
no entry in memory, and the index of the keys stays. -/
structure GetLeaves (crc : Bytes → UInt32) (mode : FlashcacheMode) (env : Environment) (c : FlashCache) (k : Bytes) :
    Prop where
  /-- With the LRU cache in memory. -/
  lru : ∀ (s s' : KvDb) (key : Bytes) (reply : Option Bytes) (memLRU : LruCache Bytes ℕ), s.flashCache = c →
    cString key = k → s.memLRU.get k = .ok (none, memLRU) → s.getCommand crc mode env key = .ok (reply, s') →
    reply = none ∧ s'.memLRU = memLRU ∧ s'.entries = s.entries ∧
      s'.flashCache.metadata.blockIndex = c.metadata.blockIndex
  /-- With the hash table and the list in memory. -/
  fifo : ∀ (signed : Bool) (s s' : FifoDb) (key : Bytes) (reply : Option Bytes), s.flashCache = c →
    cString key = k → s.memCache.entryFind signed (key ++ [0]) = .ok none →
    s.getCommand signed crc mode env key = .ok (reply, s') →
    reply = none ∧ s'.memCache = s.memCache ∧ s'.flashCache.metadata.blockIndex = c.metadata.blockIndex

/-- Where `Lookup` returns `NULL`, GET leaves the tiers as they are. -/
theorem getLeaves_of_none (hr : c.lookup crc mode env k = .ok (none, c')) : GetLeaves crc mode env c k where
  lru s s' key reply memLRU hc hkey hmiss hget := by
    subst hc hkey
    simp only [KvDb.getCommand, hmiss, hr] at hget
    cases hget
    exact ⟨rfl, rfl, rfl, (lookup_cases hr).1⟩
  fifo signed s s' key reply hc hkey hmiss hget := by
    subst hc hkey
    simp only [FifoDb.getCommand, hmiss, hr] at hget
    cases hget
    exact ⟨rfl, rfl, (lookup_cases hr).1⟩

/-- **A damaged record is promoted** by a GET in memory mode: where `Read` fails, memory
gets an entry with the empty value, and the key is deleted from the index. -/
theorem getCommand_damaged {s s' : KvDb} {memLRU : LruCache Bytes ℕ} {reply : Option Bytes}
    (hloc : Located s.flashCache (cString key) lba f) (hread : f.read crc mode env lba = .ok none)
    (hmiss : s.memLRU.get (cString key) = .ok (none, memLRU)) (hget : s.getCommand crc mode env key = .ok (reply, s')) :
    reply = some [] ∧ s'.flashCache.metadata.lookup (cString key) = none := by
  unfold KvDb.getCommand at hget
  rw [hmiss] at hget
  simp only at hget
  split at hget
  · cases hget
  · next hnone =>
    rcases (lookup_cases hnone).2 with ⟨-, habsent⟩ | ⟨_, _, _, -, -, hsome⟩
    · exact absurd hloc (habsent lba f)
    · cases hsome
  · next val flashCache hsome =>
    split_ifs at hget
    split at hget
    · cases hget
    · cases hget
      rcases (lookup_cases hsome).2 with ⟨hnone, -⟩ | ⟨lba', f', out, hloc', hread', hval⟩
      · cases hnone
      · obtain ⟨rfl, rfl⟩ := hloc.unique hloc'
        cases hread.symm.trans hread'
        refine ⟨hval, ?_⟩
        show (Metadata.erase _ _).lookup _ = none
        rw [Metadata.lookup_erase, if_pos rfl]

/-- **Damaged records are reported as missing** exactly if there is none: a call of
`Lookup` that returns gives a value for an intact record only, and a GET in memory mode
leaves the tiers as they are otherwise, if and only if the record that the index has for
the key, if any, is intact. -/
theorem lookup_intact_iff (hr : c.lookup crc mode env k = .ok (r, c')) :
    ((r ≠ none → HasIntact crc mode env c k) ∧ (¬ HasIntact crc mode env c k → r = none ∧ GetLeaves crc mode env c k)) ↔
      ∀ lba f, Located c k lba f → Intact crc mode env f lba := by
  rcases (lookup_cases hr).2 with ⟨rfl, habsent⟩ | ⟨lba, f, out, hloc, hread, rfl⟩
  · refine iff_of_true ⟨fun hne => absurd rfl hne, fun _ => ⟨rfl, getLeaves_of_none hr⟩⟩ ?_
    exact fun lba f hloc => absurd hloc (habsent lba f)
  · constructor
    · rintro ⟨hvalue, -⟩ lba' f' hloc'
      obtain ⟨lba₁, f₁, hloc₁, hintact⟩ := hvalue (Option.some_ne_none _)
      obtain ⟨rfl, rfl⟩ := hloc'.unique hloc₁
      exact hintact
    · intro hall
      have hintact : HasIntact crc mode env c k := ⟨lba, f, hloc, hall lba f hloc⟩
      exact ⟨fun _ => hintact, fun hno => absurd hintact hno⟩

/-- A flash cache whose index has the key `a` at the start of one file. -/
def oneRecord (file : Bytes) : FlashCache where
  size := 18
  opt := ⟨100, 10, 1000⟩
  metadata := (({} : Metadata).insertFile 0 0).insert [97] ⟨0, 0, 18⟩
  heap := [some { WriteableCacheFile.opened 0 file with keyLists := [[97]] }]
  dir := [0]

/-- The record of the key `a` and the value `b`, as it was written. -/
theorem lookup_intact_record : ∃ c', (oneRecord (image (fun _ => 0) [97] [98])).lookup (fun _ => 0) .direct
      ⟨[], [.moved 99], false, []⟩ [97] = .ok (some [98], c') ∧
    HasIntact (fun _ => 0) .direct ⟨[], [.moved 99], false, []⟩ (oneRecord (image (fun _ => 0) [97] [98])) [97] := by
  have hloc : Located (oneRecord (image (fun _ => 0) [97] [98])) [97] ⟨0, 0, 18⟩
      { WriteableCacheFile.opened 0 (image (fun _ => 0) [97] [98]) with keyLists := [[97]] } := ⟨rfl, 0, rfl, rfl⟩
  refine ⟨_, rfl, ((lookup_intact_iff rfl).mpr fun lba f hloc' => ?_).1 (Option.some_ne_none _)⟩
  obtain ⟨rfl, rfl⟩ := hloc.unique hloc'
  exact ⟨⟨image (fun _ => 0) [97] [98], image (fun _ => 0) [97] [98], false, rfl, rfl, rfl⟩, ([97], [98]), rfl⟩

/-- The same record, cut off after 17 bytes: `Lookup` returns the empty value. -/
theorem lookup_damaged_record : ∃ c', (oneRecord ((image (fun _ => 0) [97] [98]).take 17)).lookup (fun _ => 0) .direct
      ⟨[], [.moved 99, .moved 0], false, []⟩ [97] = .ok (some [], c') ∧
    ¬ HasIntact (fun _ => 0) .direct ⟨[], [.moved 99, .moved 0], false, []⟩
      (oneRecord ((image (fun _ => 0) [97] [98]).take 17)) [97] := by
  have hloc : Located (oneRecord ((image (fun _ => 0) [97] [98]).take 17)) [97] ⟨0, 0, 18⟩
      { WriteableCacheFile.opened 0 ((image (fun _ => 0) [97] [98]).take 17) with keyLists := [[97]] } := ⟨rfl, 0, rfl, rfl⟩
  refine ⟨_, rfl, ?_⟩
  rintro ⟨lba, f, hloc', -, out, hread⟩
  obtain ⟨rfl, rfl⟩ := hloc.unique hloc'
  cases hread

end EmbeddedKv.Tiers
