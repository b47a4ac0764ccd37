import EmbeddedKv.Flash.Record
import EmbeddedKv.Library.Chained
import Mathlib.Data.List.TakeWhile

/-!
# The hash table

`hash.c`: a table of singly linked chains of entries, with a hash of the key that takes
characters as long as their value is greater than their position.

## The model

A string argument is the memory from the pointer on, which ends where it may not be read
any more; reading on is undefined, and so is a bucket beyond the table. An entry has the
address at which it was allocated, since other parts of the store keep pointers to it;
what it holds is in the table. Whether `char` is signed is up to the platform (`signed`).
`used` is a number without a bound: memory ends long before `2 ^ 64` entries.

Left out: the log messages, `rehashidx`, `iterators` and the second table, which nothing
uses, and the blocks of the key and the value, which `hashDelete` frees with the entry.

## What is proved

`hash_finite_map`: any calls from the empty table return, and they return what a finite
map returns; in the table no key stands twice, each entry is in the chain of its hash and
`used` is the number of entries.
-/

namespace EmbeddedKv.Hash

open EmbeddedKv.Library EmbeddedKv.Flash

/-! ### Strings -/

/-- A string that ends with a zero byte, without that byte. -/
structure CString where
  /-- The bytes. -/
  bytes : Bytes
  /-- None of them is zero. -/
  nulFree : NulFree bytes
  deriving DecidableEq

namespace CString

/-- The string at the start of a region. -/
def ofMemory (mem : Bytes) : CString where
  bytes := cstr mem
  nulFree b hb := by simpa using List.mem_takeWhile_imp hb

/-- The memory of a string, and what follows it. -/
def memory (s : CString) (rest : Bytes) : Bytes := s.bytes ++ 0 :: rest

theorem ext_bytes {s t : CString} (h : s.bytes = t.bytes) : s = t := by
  cases s
  cases t
  cases h
  rfl

@[simp] theorem ofMemory_memory (s : CString) (rest : Bytes) : ofMemory (s.memory rest) = s := by
  apply ext_bytes
  show cstr (s.bytes ++ 0 :: rest) = s.bytes
  rw [cstr_append s.nulFree]
  simp [cstr]

end CString

/-- `!strcmp(s, t)`. -/
def strcmpZero : Bytes → Bytes → Except Stop Bool
  | a :: s, b :: t => if a ≠ b then .ok false else if a = 0 then .ok true else strcmpZero s t
  | _, _ => .error .undefined

/-! ### The hash -/

/-- A `char` as an `unsigned int`. -/
def charToUnsigned (signed : Bool) (c : UInt8) : UInt32 :=
  if signed && decide (128 ≤ c.toNat) then 0xffffff00 + c.toUInt32 else c.toUInt32

/-- The loop of `get_hash_key`, from index `i` on. The index stays below the value of a
character, so it does not wrap. -/
def getHashKeyLoop (signed : Bool) : UInt32 → UInt32 → Bytes → Except Stop UInt32
  | _, _, [] => .error .undefined
  | i, code, c :: str =>
    if i < charToUnsigned signed c then getHashKeyLoop signed (i + 1) (code * 33 + charToUnsigned signed c) str
    else .ok code

/-- `get_hash_key(str)`. -/
def getHashKey (signed : Bool) (str : Bytes) : Except Stop UInt32 := getHashKeyLoop signed 0 5381 str

/-! ### The table -/

/-- `struct hashEntry`. -/
structure HashEntry (V : Type*) where
  /-- The address of the entry. -/
  addr : ℕ
  /-- `key`: the string behind the pointer. -/
  key : CString
  /-- `val`. -/
  val : V

/-- `struct kvht`. -/
structure Kvht (V : Type*) where
  /-- `table`: the chains, from the first entry on. -/
  table : List (List (HashEntry V))
  /-- `size`. -/
  size : UInt64
  /-- `sizemask`. -/
  sizemask : UInt64
  /-- `used`. -/
  used : ℕ

namespace Kvht

variable {V : Type*}

/-- A table of `size` empty chains. -/
def create (V : Type*) (size sizemask : UInt64) : Kvht V := ⟨List.replicate size.toNat [], size, sizemask, 0⟩

/-- `idx = hash_key & sizemask` and `table[idx]`; `idx` is an `int`. -/
def bucket (t : Kvht V) (hashKey : UInt32) : Except Stop (ℕ × List (HashEntry V)) :=
  let idx := (hashKey.toUInt64 &&& t.sizemask).toNat
  if 2 ^ 31 ≤ idx then .error .undefined
  else
    match t.table[idx]? with
    | none => .error .undefined
    | some chain => .ok (idx, chain)

/-- The loop over a chain that looks for a key. -/
def findLoop (str : Bytes) : List (HashEntry V) → Except Stop (Option (HashEntry V))
  | [] => .ok none
  | he :: next =>
    match strcmpZero (he.key.memory []) str with
    | .error e => .error e
    | .ok true => .ok (some he)
    | .ok false => findLoop str next

/-- `get_hash(mc, str)`: `none` is -1. -/
def getHash (signed : Bool) (t : Kvht V) (str : Bytes) : Except Stop (Option ℕ) :=
  match getHashKey signed str with
  | .error e => .error e
  | .ok hashKey =>
    match t.bucket hashKey with
    | .error e => .error e
    | .ok (idx, chain) =>
      match findLoop str chain with
      | .error e => .error e
      | .ok (some _) => .ok none
      | .ok none => .ok (some idx)

/-- `hashAdd(mc, key, val)`; `addr` is what `chmalloc` returns. -/
def hashAdd (signed : Bool) (t : Kvht V) (addr : ℕ) (str : Bytes) (val : V) : Except Stop (Int × Kvht V) :=
  match t.getHash signed str with
  | .error e => .error e
  | .ok none => .ok (-1, t)
  | .ok (some index) =>
    match t.table[index]? with
    | none => .error .undefined
    | some chain =>
      .ok (0, { t with table := t.table.set index (⟨addr, CString.ofMemory str, val⟩ :: chain), used := t.used + 1 })

/-- `entryFind(mc, key)`, `str` being `key->buf`. -/
def entryFind (signed : Bool) (t : Kvht V) (str : Bytes) : Except Stop (Option (HashEntry V)) :=
  match getHashKey signed str with
  | .error e => .error e
  | .ok hashKey =>
    match t.bucket hashKey with
    | .error e => .error e
    | .ok (_, chain) => findLoop str chain

/-- The loop of `hashDelete` over a chain: the chain without the entry, if there is one. -/
def deleteLoop (str : Bytes) : List (HashEntry V) → Except Stop (Option (List (HashEntry V)))
  | [] => .ok none
  | he :: next =>
    match strcmpZero (he.key.memory []) str with
    | .error e => .error e
    | .ok true => .ok (some next)
    | .ok false =>
      match deleteLoop str next with
      | .error e => .error e
      | .ok r => .ok (r.map (he :: ·))

/-- `hashDelete(mc, key)`, `str` being `key->buf`. -/
def hashDelete (signed : Bool) (t : Kvht V) (str : Bytes) : Except Stop (Int × Kvht V) :=
  if 0 < t.used then
    match getHashKey signed str with
    | .error e => .error e
    | .ok hashKey =>
      match t.bucket hashKey with
      | .error e => .error e
      | .ok (idx, chain) =>
        match deleteLoop str chain with
        | .error e => .error e
        | .ok none => .ok (-1, t)
        | .ok (some chain) => .ok (0, { t with table := t.table.set idx chain, used := t.used - 1 })
  else .ok (-1, t)

/-- The entries of a table. -/
def entries (t : Kvht V) : List (HashEntry V) := t.table.flatten

end Kvht

/-! ### Strings are compared and hashed up to their end -/

variable {V : Type*} {signed : Bool} {t t' : Kvht V} {key k : CString} {rest : Bytes} {chain : List (HashEntry V)}

/-- Two strings are compared up to the end of the shorter one. -/
theorem strcmpZero_terminated {s u : Bytes} (hs : NulFree s) (hu : NulFree u) (rest rest' : Bytes) :
    strcmpZero (s ++ 0 :: rest) (u ++ 0 :: rest') = .ok (decide (s = u)) := by
  induction s generalizing u with
  | nil =>
    cases u with
    | nil => rfl
    | cons b u =>
      have hb : (0 : UInt8) ≠ b := Ne.symm (hu b List.mem_cons_self)
      simp [strcmpZero, hb]
  | cons a s ih =>
    have ha : a ≠ 0 := hs a List.mem_cons_self
    cases u with
    | nil => simp [strcmpZero, ha]
    | cons b u =>
      rw [List.cons_append, List.cons_append, strcmpZero,
        ih (fun c hc => hs c (List.mem_cons_of_mem _ hc)) (fun c hc => hu c (List.mem_cons_of_mem _ hc))]
      by_cases hab : a = b
      · simp [hab, hab ▸ ha]
      · simp [hab]

theorem strcmpZero_memory (k key : CString) (rest rest' : Bytes) :
    strcmpZero (k.memory rest) (key.memory rest') = .ok (decide (k = key)) := by
  rw [CString.memory, CString.memory, strcmpZero_terminated k.nulFree key.nulFree]
  by_cases h : k = key
  · simp [h]
  · have hbytes : k.bytes ≠ key.bytes := fun hb => h (CString.ext_bytes hb)
    simp [h, hbytes]

/-- What the loop of `get_hash_key` computes over the characters of a string. -/
def hashFrom (signed : Bool) : UInt32 → UInt32 → Bytes → UInt32
  | _, code, [] => code
  | i, code, c :: s =>
    if i < charToUnsigned signed c then hashFrom signed (i + 1) (code * 33 + charToUnsigned signed c) s else code

/-- **`get_hash_key` stops at the terminator at the latest**: what follows it is not read. -/
theorem getHashKeyLoop_terminated (signed : Bool) (i code : UInt32) (s rest : Bytes) :
    getHashKeyLoop signed i code (s ++ 0 :: rest) = .ok (hashFrom signed i code s) := by
  induction s generalizing i code with
  | nil =>
    have hzero : charToUnsigned signed 0 = 0 := by cases signed <;> rfl
    rw [List.nil_append, getHashKeyLoop, hzero]
    exact if_neg UInt32.not_lt_zero
  | cons c s ih =>
    rw [List.cons_append, getHashKeyLoop, hashFrom, ih]
    split_ifs <;> rfl

/-- The hash of a string. -/
def CString.hash (signed : Bool) (key : CString) : UInt32 := hashFrom signed 0 5381 key.bytes

theorem getHashKey_memory (signed : Bool) (key : CString) (rest : Bytes) :
    getHashKey signed (key.memory rest) = .ok (key.hash signed) :=
  getHashKeyLoop_terminated signed 0 5381 key.bytes rest

/-! ### The loops over a chain -/

theorem findLoop_memory (key : CString) (rest : Bytes) (chain : List (HashEntry V)) :
    Kvht.findLoop (key.memory rest) chain = .ok (chainFind HashEntry.key chain key) := by
  induction chain with
  | nil => rfl
  | cons he chain ih =>
    rw [Kvht.findLoop, strcmpZero_memory, chainFind_cons, ih]
    by_cases h : he.key = key
    · simp [h]
    · simp [h]

theorem deleteLoop_memory (key : CString) (rest : Bytes) (chain : List (HashEntry V)) :
    Kvht.deleteLoop (key.memory rest) chain =
      .ok ((chainFind HashEntry.key chain key).map fun _ => chainErase HashEntry.key chain key) := by
  induction chain with
  | nil => rfl
  | cons he chain ih =>
    rw [Kvht.deleteLoop, strcmpZero_memory, chainFind_cons, ih]
    by_cases h : he.key = key
    · simp [h, chainErase]
    · simp only [h, decide_false, if_false, chainErase, List.eraseP_cons, Option.map_map]
      rfl

/-! ### The operations on a table that is large enough -/

/-- The size and the mask keep every bucket in a table whose buckets have `int` numbers. -/
def Fits (size sizemask : UInt64) : Prop :=
  size.toNat ≤ 2 ^ 31 ∧ ∀ hashKey : UInt32, (hashKey.toUInt64 &&& sizemask).toNat < size.toNat

namespace Kvht

/-- The bucket of a key. -/
def place (signed : Bool) (sizemask : UInt64) (key : CString) : ℕ := ((key.hash signed).toUInt64 &&& sizemask).toNat

/-- The entry with a key. -/
def find (signed : Bool) (t : Kvht V) (key : CString) : Option (HashEntry V) :=
  entryAt HashEntry.key (place signed t.sizemask) t.table key

/-- The entries of a table are well placed, no key stands twice, and `used` counts them. -/
structure Kept (signed : Bool) (t : Kvht V) : Prop where
  /-- The buckets have `int` numbers. -/
  small : t.table.length ≤ 2 ^ 31
  /-- Each entry is in the chain of its hash, and no key stands twice. -/
  chained : Chained HashEntry.key (place signed t.sizemask) t.table
  /-- `used` is the number of entries. -/
  used : t.used = t.entries.length

/-- The table has all its chains, its entries are well placed, and `used` counts them. -/
structure Sound (signed : Bool) (t : Kvht V) : Prop where
  /-- There is a chain for each bucket. -/
  fits : Fits t.size t.sizemask
  /-- The chains of the table. -/
  length : t.table.length = t.size.toNat
  /-- Each entry is in the chain of its hash, and no key stands twice. -/
  chained : Chained HashEntry.key (place signed t.sizemask) t.table
  /-- `used` is the number of entries. -/
  used : t.used = t.entries.length

theorem kept_create (V : Type*) (signed : Bool) {size : UInt64} (sizemask : UInt64) (h : size.toNat ≤ 2 ^ 31) :
    (create V size sizemask).Kept signed where
  small := by rwa [create, List.length_replicate]
  chained := Chained.replicate_nil _ _ _
  used := by simp [create, entries]

theorem Sound.kept (h : t.Sound signed) : t.Kept signed := ⟨h.length ▸ h.fits.1, h.chained, h.used⟩

theorem sound_create (V : Type*) (signed : Bool) {size sizemask : UInt64} (h : Fits size sizemask) :
    (create V size sizemask).Sound signed where
  fits := h
  length := List.length_replicate
  chained := Chained.replicate_nil _ _ _
  used := by simp [create, entries]

/-- The chain of a key in a table that has a chain for each bucket. -/
theorem Sound.has_chain (h : t.Sound signed) (key : CString) : ∃ chain, t.table[place signed t.sizemask key]? = some chain :=
  ⟨_, List.getElem?_eq_getElem (h.length ▸ h.fits.2 (key.hash signed))⟩

/-- The bucket of a key that has a chain. -/
theorem Kept.bucket (h : t.Kept signed) (hchain : t.table[place signed t.sizemask key]? = some chain) :
    t.bucket (key.hash signed) = .ok (place signed t.sizemask key, chain) := by
  have hlt : place signed t.sizemask key < t.table.length := (List.getElem?_eq_some_iff.mp hchain).1
  have hint : ¬ 2 ^ 31 ≤ place signed t.sizemask key := by
    have := h.small
    omega
  have hidx : ((key.hash signed).toUInt64 &&& t.sizemask).toNat = place signed t.sizemask key := rfl
  simp only [Kvht.bucket, hidx, if_neg hint, hchain]

/-- **`hashAdd`** of a key that has a chain fails if the key is there, and otherwise puts the
entry in front of the chain. -/
theorem Kept.hashAdd (h : t.Kept signed) (hchain : t.table[place signed t.sizemask key]? = some chain) (addr : ℕ)
    (rest : Bytes) (val : V) :
    (∃ he, t.find signed key = some he ∧ t.hashAdd signed addr (key.memory rest) val = .ok (-1, t)) ∨
    t.find signed key = none ∧ ∃ t', t.hashAdd signed addr (key.memory rest) val = .ok (0, t') ∧ t'.Kept signed ∧
      t'.size = t.size ∧ t'.sizemask = t.sizemask ∧ t'.table.length = t.table.length ∧
      (∀ k, t'.find signed k = if k = key then some ⟨addr, key, val⟩ else t.find signed k) := by
  have hfind : t.find signed key = chainFind HashEntry.key chain key := entryAt_eq hchain
  have hloop : t.getHash signed (key.memory rest) =
      .ok (if (t.find signed key).isSome then none else some (place signed t.sizemask key)) := by
    simp only [getHash, getHashKey_memory, h.bucket hchain, findLoop_memory, ← hfind]
    cases t.find signed key <;> rfl
  rw [Kvht.hashAdd, hloop]
  cases hkey : t.find signed key with
  | some he => exact .inl ⟨he, rfl, rfl⟩
  | none =>
    let t' : Kvht V :=
      { t with table := t.table.set (place signed t.sizemask key) (⟨addr, key, val⟩ :: chain), used := t.used + 1 }
    refine .inr ⟨rfl, t', ?_, ?_, rfl, rfl, List.length_set,
      Chained.entryAt_cons HashEntry.key (place signed t.sizemask) ⟨addr, key, val⟩ hchain⟩
    · simp only [Option.isSome_none, Bool.false_eq_true, if_false, hchain, CString.ofMemory_memory]
      rfl
    · refine ⟨List.length_set.trans_le h.small, ?_, ?_⟩
      · exact h.chained.cons ⟨addr, key, val⟩ hchain (hfind.symm.trans hkey)
      · have hcount := length_flatten_set hchain (⟨addr, key, val⟩ :: chain)
        rw [List.length_cons] at hcount
        show t.used + 1 = (t.table.set (place signed t.sizemask key) _).flatten.length
        rw [h.used, entries]
        omega

/-- **`hashAdd`** fails for a key that is there, and otherwise puts the entry in front of
its chain. -/
theorem Sound.hashAdd (h : t.Sound signed) (addr : ℕ) (key : CString) (rest : Bytes) (val : V) :
    (∃ he, t.find signed key = some he ∧ t.hashAdd signed addr (key.memory rest) val = .ok (-1, t)) ∨
    t.find signed key = none ∧ ∃ t', t.hashAdd signed addr (key.memory rest) val = .ok (0, t') ∧ t'.Sound signed ∧
      (∀ k, t'.find signed k = if k = key then some ⟨addr, key, val⟩ else t.find signed k) := by
  obtain ⟨chain, hchain⟩ := h.has_chain key
  refine (h.kept.hashAdd hchain addr rest val).imp_right fun ⟨hnone, t', hr, hkept, hsize, hmask, hlen, hfind⟩ => ?_
  refine ⟨hnone, t', hr, ⟨?_, ?_, hkept.chained, hkept.used⟩, hfind⟩
  · rw [hsize, hmask]
    exact h.fits
  · rw [hlen, hsize, h.length]

/-- **`entryFind`** of a key that has a chain finds the entry. -/
theorem Kept.entryFind (h : t.Kept signed) (hchain : t.table[place signed t.sizemask key]? = some chain) (rest : Bytes) :
    t.entryFind signed (key.memory rest) = .ok (t.find signed key) := by
  have hfind : t.find signed key = chainFind HashEntry.key chain key := entryAt_eq hchain
  simp only [Kvht.entryFind, getHashKey_memory, h.bucket hchain, findLoop_memory, hfind]

/-- **`entryFind`** finds the entry. -/
theorem Sound.entryFind (h : t.Sound signed) (key : CString) (rest : Bytes) :
    t.entryFind signed (key.memory rest) = .ok (t.find signed key) := by
  obtain ⟨chain, hchain⟩ := h.has_chain key
  exact h.kept.entryFind hchain rest

/-- The entries are those that are found. -/
theorem Sound.mem_entries (h : t.Sound signed) {he : HashEntry V} :
    he ∈ t.entries ↔ t.find signed he.key = some he := h.chained.mem_flatten

/-- The entry that is found has the key, and is one of the table. -/
theorem Kept.of_find {he : HashEntry V} (h : t.Kept signed) (hfind : t.find signed key = some he) :
    he.key = key ∧ he ∈ t.entries := by
  obtain ⟨chain, hchain, hmem⟩ := Option.bind_eq_some_iff.mp hfind
  obtain rfl := (of_chainFind hmem).2
  exact ⟨rfl, h.chained.mem_flatten.mpr hfind⟩

/-- The entry that is found has the key. -/
theorem Sound.key_of_find {he : HashEntry V} (h : t.Sound signed) (hfind : t.find signed key = some he) : he.key = key :=
  (h.kept.of_find hfind).1

/-- **`hashDelete`** of a key that has a chain fails if the key is not there, and otherwise
takes its entry out. -/
theorem Kept.hashDelete (h : t.Kept signed) (hchain : t.table[place signed t.sizemask key]? = some chain) (rest : Bytes) :
    t.find signed key = none ∧ t.hashDelete signed (key.memory rest) = .ok (-1, t) ∨
    (∃ he, t.find signed key = some he) ∧ t.hashDelete signed (key.memory rest) =
      .ok (0, { t with table := t.table.set (place signed t.sizemask key) (chainErase HashEntry.key chain key)
                       used := t.used - 1 }) := by
  have hfind : t.find signed key = chainFind HashEntry.key chain key := entryAt_eq hchain
  rw [Kvht.hashDelete]
  cases hkey : t.find signed key with
  | none =>
    refine .inl ⟨rfl, ?_⟩
    split_ifs
    · simp only [getHashKey_memory, h.bucket hchain, deleteLoop_memory, ← hfind, hkey]
      rfl
    · rfl
  | some he =>
    have hpos : 0 < t.used := h.used ▸ List.length_pos_of_mem (h.of_find hkey).2
    refine .inr ⟨⟨he, rfl⟩, ?_⟩
    rw [if_pos hpos]
    simp only [getHashKey_memory, h.bucket hchain, deleteLoop_memory, ← hfind, hkey]
    rfl

/-- A table from which an entry was taken is kept. -/
theorem Kept.unlink {he : HashEntry V} (h : t.Kept signed) (hchain : t.table[place signed t.sizemask key]? = some chain)
    (hkey : t.find signed key = some he) :
    ({ t with table := t.table.set (place signed t.sizemask key) (chainErase HashEntry.key chain key)
              used := t.used - 1 } : Kvht V).Kept signed := by
  have hfind : t.find signed key = chainFind HashEntry.key chain key := entryAt_eq hchain
  refine ⟨List.length_set.trans_le h.small, h.chained.unlink hchain, ?_⟩
  have hcount := length_flatten_set hchain (chainErase HashEntry.key chain key)
  have herase := length_chainErase (hfind.symm.trans hkey)
  show t.used - 1 = (t.table.set (place signed t.sizemask key) _).flatten.length
  rw [h.used, entries]
  omega

/-- **`hashDelete`** fails for a key that is not there, and otherwise takes its entry out. -/
theorem Sound.hashDelete (h : t.Sound signed) (key : CString) (rest : Bytes) :
    t.find signed key = none ∧ t.hashDelete signed (key.memory rest) = .ok (-1, t) ∨
    (∃ he, t.find signed key = some he) ∧ ∃ t', t.hashDelete signed (key.memory rest) = .ok (0, t') ∧
      t'.Sound signed ∧ ∀ k, t'.find signed k = if k = key then none else t.find signed k := by
  obtain ⟨chain, hchain⟩ := h.has_chain key
  refine (h.kept.hashDelete hchain rest).imp_right fun ⟨⟨he, hkey⟩, hr⟩ => ?_
  have hkept := h.kept.unlink hchain hkey
  exact ⟨⟨he, hkey⟩, _, hr, ⟨h.fits, List.length_set.trans h.length, hkept.chained, hkept.used⟩,
    h.chained.entryAt_unlink hchain⟩

end Kvht

/-! ### Runs -/

/-- A call, with what follows the terminator of its key in memory. -/
inductive HashOp (V : Type*) where
  /-- `hashAdd(key, val)`; the entry is allocated at `addr`. -/
  | add (addr : ℕ) (key : CString) (rest : Bytes) (val : V)
  /-- `entryFind(key)`. -/
  | find (key : CString) (rest : Bytes)
  /-- `hashDelete(key)`. -/
  | delete (key : CString) (rest : Bytes)

/-- What a call returns: a number, or the value of the entry that was found. -/
inductive HashReply (V : Type*) where
  /-- What `hashAdd` and `hashDelete` return. -/
  | status (r : Int)
  /-- What `entryFind` returns. -/
  | found (val : Option V)

/-- One call. -/
def HashOp.exec (signed : Bool) (t : Kvht V) : HashOp V → Except Stop (HashReply V × Kvht V)
  | .add addr key rest val => (t.hashAdd signed addr (key.memory rest) val).map fun r => (.status r.1, r.2)
  | .find key rest => (t.entryFind signed (key.memory rest)).map fun he => (.found (he.map HashEntry.val), t)
  | .delete key rest => (t.hashDelete signed (key.memory rest)).map fun r => (.status r.1, r.2)

/-- The calls one after the other. -/
def execAll (signed : Bool) : List (HashOp V) → Kvht V → Except Stop (List (HashReply V) × Kvht V)
  | [], t => .ok ([], t)
  | op :: ops, t =>
    match op.exec signed t with
    | .error e => .error e
    | .ok (r, t) =>
      match execAll signed ops t with
      | .error e => .error e
      | .ok (rs, t) => .ok (r :: rs, t)

/-- **What a finite map does**: a key is added if it is not there, and removed if it is. -/
def HashOp.spec (m : CString → Option V) : HashOp V → HashReply V × (CString → Option V)
  | .add _ key _ val =>
    if (m key).isSome then (.status (-1), m) else (.status 0, fun k => if k = key then some val else m k)
  | .find key _ => (.found (m key), m)
  | .delete key _ =>
    if (m key).isSome then (.status 0, fun k => if k = key then none else m k) else (.status (-1), m)

/-- The calls on a finite map, one after the other. -/
def specAll : List (HashOp V) → (CString → Option V) → List (HashReply V) × (CString → Option V)
  | [], m => ([], m)
  | op :: ops, m => ((op.spec m).1 :: (specAll ops (op.spec m).2).1, (specAll ops (op.spec m).2).2)

/-- The table is a finite map. -/
structure Kvht.Represents (signed : Bool) (t : Kvht V) (m : CString → Option V) : Prop where
  /-- It is well formed. -/
  sound : t.Sound signed
  /-- It has the values of the map. -/
  find : ∀ key, (t.find signed key).map HashEntry.val = m key

variable {m : CString → Option V}

/-- **One call** does what it does on the map. -/
theorem Kvht.Represents.exec (h : t.Represents signed m) (op : HashOp V) :
    ∃ t', op.exec signed t = .ok ((op.spec m).1, t') ∧ t'.Represents signed (op.spec m).2 := by
  cases op with
  | add addr key rest val =>
    rcases h.sound.hashAdd addr key rest val with ⟨he, hfind, hr⟩ | ⟨hfind, t', hr, hsound, hmap⟩
    · have hm : m key = some he.val := by rw [← h.find, hfind, Option.map_some]
      refine ⟨t, ?_, ?_⟩
      · simp only [HashOp.exec, hr, HashOp.spec, hm, Option.isSome_some, if_true]
        rfl
      · simpa only [HashOp.spec, hm, Option.isSome_some, if_true] using h
    · have hm : m key = none := by rw [← h.find, hfind, Option.map_none]
      refine ⟨t', ?_, ?_⟩
      · simp only [HashOp.exec, hr, HashOp.spec, hm, Option.isSome_none, Bool.false_eq_true, if_false]
        rfl
      · simp only [HashOp.spec, hm, Option.isSome_none, Bool.false_eq_true, if_false]
        refine ⟨hsound, fun k => ?_⟩
        rw [hmap, apply_ite (Option.map HashEntry.val), h.find]
        rfl
  | find key rest =>
    refine ⟨t, ?_, h⟩
    simp only [HashOp.exec, h.sound.entryFind, HashOp.spec, ← h.find]
    rfl
  | delete key rest =>
    rcases h.sound.hashDelete key rest with ⟨hfind, hr⟩ | ⟨⟨he, hfind⟩, t', hr, hsound, hmap⟩
    · have hm : m key = none := by rw [← h.find, hfind, Option.map_none]
      refine ⟨t, ?_, ?_⟩
      · simp only [HashOp.exec, hr, HashOp.spec, hm, Option.isSome_none, Bool.false_eq_true, if_false]
        rfl
      · simpa only [HashOp.spec, hm, Option.isSome_none, Bool.false_eq_true, if_false] using h
    · have hm : m key = some he.val := by rw [← h.find, hfind, Option.map_some]
      refine ⟨t', ?_, ?_⟩
      · simp only [HashOp.exec, hr, HashOp.spec, hm, Option.isSome_some, if_true]
        rfl
      · simp only [HashOp.spec, hm, Option.isSome_some, if_true]
        refine ⟨hsound, fun k => ?_⟩
        rw [hmap, apply_ite (Option.map HashEntry.val), h.find]
        rfl

/-- A new table is the empty map. -/
theorem represents_create (V : Type*) (signed : Bool) {size sizemask : UInt64} (h : Fits size sizemask) :
    (Kvht.create V size sizemask).Represents signed fun _ => none := by
  refine ⟨Kvht.sound_create V signed h, fun key => ?_⟩
  have hnone : (Kvht.create V size sizemask).find signed key = none := by
    cases hfind : (Kvht.create V size sizemask).find signed key with
    | none => rfl
    | some he =>
      obtain ⟨chain, hchain, hmem⟩ := Option.bind_eq_some_iff.mp hfind
      obtain rfl := List.eq_of_mem_replicate (List.mem_of_getElem? hchain)
      cases hmem
  rw [hnone]
  rfl

/-- **Any calls** do what they do on the map. -/
theorem Kvht.Represents.execAll (h : t.Represents signed m) (ops : List (HashOp V)) :
    ∃ t', EmbeddedKv.Hash.execAll signed ops t = .ok ((specAll ops m).1, t') ∧
      t'.Represents signed (specAll ops m).2 := by
  induction ops generalizing t m with
  | nil => exact ⟨t, rfl, h⟩
  | cons op ops ih =>
    obtain ⟨t₁, hr, h₁⟩ := h.exec op
    obtain ⟨t₂, hrest, h₂⟩ := ih h₁
    refine ⟨t₂, ?_, h₂⟩
    simp only [EmbeddedKv.Hash.execAll, hr, hrest, specAll]

/-- A mask below the size keeps every bucket in the table. -/
theorem fits_of_lt {size sizemask : UInt64} (hsize : size.toNat ≤ 2 ^ 31) (hmask : sizemask.toNat < size.toNat) :
    Fits size sizemask := by
  refine ⟨hsize, fun hashKey => ?_⟩
  rw [UInt64.toNat_and]
  exact Nat.lt_of_le_of_lt Nat.and_le_right hmask

/-- An entry of a key is the one that is found. -/
theorem Kvht.Sound.mem_entries_key {he : HashEntry V} (h : t.Sound signed) :
    he ∈ t.entries ∧ he.key = key ↔ t.find signed key = some he := by
  constructor
  · rintro ⟨hmem, rfl⟩
    exact h.mem_entries.mp hmem
  · intro hfind
    obtain rfl := h.key_of_find hfind
    exact ⟨h.mem_entries.mpr hfind, rfl⟩

/-- The entries after one is added. -/
theorem Kvht.Sound.mem_entries_add {he : HashEntry V} {addr : ℕ} {val : V} (h : t.Sound signed) (h' : t'.Sound signed)
    (hnone : t.find signed key = none)
    (hmap : ∀ k, t'.find signed k = if k = key then some ⟨addr, key, val⟩ else t.find signed k) :
    he ∈ t'.entries ↔ he = ⟨addr, key, val⟩ ∨ he ∈ t.entries := by
  rw [h'.mem_entries, h.mem_entries, hmap]
  constructor
  · split_ifs with hk
    · exact fun hsome => .inl (Option.some.inj hsome).symm
    · exact .inr
  · rintro (rfl | hfind)
    · rw [if_pos rfl]
    · rw [if_neg (by rintro rfl; rw [hnone] at hfind; cases hfind), hfind]

/-- The entries after one is deleted. -/
theorem Kvht.Sound.mem_entries_delete {he : HashEntry V} (h : t.Sound signed) (h' : t'.Sound signed)
    (hmap : ∀ k, t'.find signed k = if k = key then none else t.find signed k) :
    he ∈ t'.entries ↔ he ∈ t.entries ∧ he.key ≠ key := by
  rw [h'.mem_entries, h.mem_entries, hmap]
  split_ifs with hk
  · simp [hk]
  · simp [hk]

/-- **The hash table is a finite map**, if its size and its mask keep the buckets in the
table: no key is read past its terminator; any calls return what they return on a map;
no key stands twice in the table, each entry is in the chain of its hash, `used` is the
number of entries, and they are those of the map; and whatever call comes next, if it
fails, it changes nothing, and if it does not, one entry is added or taken out. -/
theorem hash_finite_map (V : Type*) (signed : Bool) {size sizemask : UInt64} (hfits : Fits size sizemask)
    (ops : List (HashOp V)) :
    (∀ key : CString, ∃ hashKey, ∀ rest, getHashKey signed (key.memory rest) = .ok hashKey) ∧
    ∃ t : Kvht V, execAll signed ops (Kvht.create V size sizemask) = .ok ((specAll ops fun _ => none).1, t) ∧
      (t.entries.map HashEntry.key).Nodup ∧
      (∀ (i : ℕ) (chain : List (HashEntry V)), t.table[i]? = some chain →
        ∀ he ∈ chain, Kvht.place signed t.sizemask he.key = i) ∧
      t.used = t.entries.length ∧
      (∀ key val, (∃ he ∈ t.entries, he.key = key ∧ he.val = val) ↔ (specAll ops fun _ => none).2 key = some val) ∧
      (∀ addr key rest val,
        (∃ he ∈ t.entries, he.key = key) ∧ t.hashAdd signed addr (key.memory rest) val = .ok (-1, t) ∨
        (∀ he ∈ t.entries, he.key ≠ key) ∧ ∃ t', t.hashAdd signed addr (key.memory rest) val = .ok (0, t') ∧
          ∀ he, he ∈ t'.entries ↔ he = ⟨addr, key, val⟩ ∨ he ∈ t.entries) ∧
      ∀ key rest,
        (∀ he ∈ t.entries, he.key ≠ key) ∧ t.hashDelete signed (key.memory rest) = .ok (-1, t) ∨
        (∃ he ∈ t.entries, he.key = key) ∧ ∃ t', t.hashDelete signed (key.memory rest) = .ok (0, t') ∧
          ∀ he, he ∈ t'.entries ↔ he ∈ t.entries ∧ he.key ≠ key := by
  obtain ⟨t, hrun, h⟩ := (represents_create V signed hfits).execAll ops
  have hsound := h.sound
  have hsome : ∀ key, (∃ he, t.find signed key = some he) ↔ ∃ he ∈ t.entries, he.key = key :=
    fun key => exists_congr fun he => hsound.mem_entries_key.symm
  have hnone : ∀ key, t.find signed key = none → ∀ he ∈ t.entries, he.key ≠ key := by
    intro key hfind he hmem hkey
    rw [hsound.mem_entries_key.mp ⟨hmem, hkey⟩] at hfind
    cases hfind
  refine ⟨fun key => ⟨_, getHashKey_memory signed key⟩, t, hrun, hsound.chained.nodup, hsound.chained.placed, hsound.used,
    fun key val => ?_, fun addr key rest val => ?_, fun key rest => ?_⟩
  · rw [← h.find, Option.map_eq_some_iff]
    refine exists_congr fun he => ?_
    rw [← and_assoc, hsound.mem_entries_key]
  · rcases hsound.hashAdd addr key rest val with ⟨he, hfind, hr⟩ | ⟨hfind, t', hr, hsound', hmap⟩
    · exact .inl ⟨(hsome key).mp ⟨he, hfind⟩, hr⟩
    · exact .inr ⟨hnone key hfind, t', hr, fun he => hsound.mem_entries_add hsound' hfind hmap⟩
  · rcases hsound.hashDelete key rest with ⟨hfind, hr⟩ | ⟨hfind, t', hr, hsound', hmap⟩
    · exact .inl ⟨hnone key hfind, hr⟩
    · exact .inr ⟨(hsome key).mp hfind, t', hr, fun he => hsound.mem_entries_delete hsound' hmap⟩

/-- Two keys in one chain of a table with one bucket. -/
theorem hash_finite_map_collision : ∃ t : Kvht ℕ,
    execAll true [.add 0 ⟨[97], by decide⟩ [] 5, .add 1 ⟨[98], by decide⟩ [] 6, .add 2 ⟨[97], by decide⟩ [7] 8,
        .delete ⟨[97], by decide⟩ [], .find ⟨[97], by decide⟩ [], .find ⟨[98], by decide⟩ []] (Kvht.create ℕ 1 0) =
      .ok ([.status 0, .status 0, .status (-1), .status 0, .found none, .found (some 6)], t) ∧ t.used = 1 := by
  obtain ⟨-, t, hrun, -, -, hused, -⟩ := hash_finite_map ℕ true (fits_of_lt (by decide) (by decide) : Fits 1 0)
    [.add 0 ⟨[97], by decide⟩ [] 5, .add 1 ⟨[98], by decide⟩ [] 6, .add 2 ⟨[97], by decide⟩ [7] 8,
      .delete ⟨[97], by decide⟩ [], .find ⟨[97], by decide⟩ [], .find ⟨[98], by decide⟩ []]
  refine ⟨t, hrun, ?_⟩
  cases hrun
  rfl

end EmbeddedKv.Hash
