import EmbeddedKv.Hash.Table
import Mathlib.Data.Multiset.AddSub

/-!
# The buckets of `memCache`

`initServer` allocates 100 bucket pointers and sets the mask to 100 as well. A hash is
masked, not taken modulo the size, so that 100 is a bucket number too, and there is no
pointer for it.

## What is proved

`Kept.execAll`: calls that return leave each entry in the chain of its hash, no key twice
and `used` right, whatever the mask is. `hashDelete_cases` says what `hashDelete` does with
any string. `initServer_inside_iff`: in the table of
`initServer`, whatever was put into it, `get_hash`, `entryFind` and `hashDelete` stay inside
exactly for the keys whose hash has not all the bits of 100.
-/

namespace EmbeddedKv.Hash

open EmbeddedKv.Library EmbeddedKv.Flash

variable {V : Type*} {signed : Bool} {t t' : Kvht V} {key : CString} {rest str : Bytes}

/-- The bucket index of a string is smaller than the number of bucket pointers. -/
def IndexInside (signed : Bool) (t : Kvht V) (str : Bytes) : Prop :=
  ∃ hashKey, getHashKey signed str = .ok hashKey ∧ (hashKey.toUInt64 &&& t.sizemask).toNat < t.table.length

namespace Kvht

/-! ### Keys without a chain -/

theorem indexInside_memory : IndexInside signed t (key.memory rest) ↔ place signed t.sizemask key < t.table.length := by
  rw [IndexInside, getHashKey_memory]
  refine ⟨fun ⟨hashKey, hkey, hlt⟩ => ?_, fun hlt => ⟨_, rfl, hlt⟩⟩
  cases hkey
  exact hlt

/-- There is no bucket for a key without a chain. -/
theorem bucket_eq_error (hchain : t.table[place signed t.sizemask key]? = none) :
    t.bucket (key.hash signed) = .error .undefined := by
  have hidx : ((key.hash signed).toUInt64 &&& t.sizemask).toNat = place signed t.sizemask key := rfl
  simp only [Kvht.bucket, hidx, hchain, ite_self]

/-- **`get_hash`** returns exactly if the index is inside. -/
theorem Kept.getHash_iff (h : t.Kept signed) :
    (∃ r, t.getHash signed (key.memory rest) = .ok r) ↔ IndexInside signed t (key.memory rest) := by
  rw [indexInside_memory, getHash, getHashKey_memory]
  cases hchain : t.table[place signed t.sizemask key]? with
  | none =>
    refine iff_of_false (not_exists.mpr fun r hr => ?_) (Nat.not_lt.mpr (List.getElem?_eq_none_iff.mp hchain))
    simp only [bucket_eq_error hchain] at hr
    cases hr
  | some chain =>
    refine iff_of_true ?_ (List.getElem?_eq_some_iff.mp hchain).1
    simp only [h.bucket hchain, findLoop_memory]
    cases chainFind HashEntry.key chain key with
    | none => exact ⟨_, rfl⟩
    | some he => exact ⟨_, rfl⟩

/-- **`entryFind`** returns exactly if the index is inside. -/
theorem Kept.entryFind_iff (h : t.Kept signed) :
    (∃ r, t.entryFind signed (key.memory rest) = .ok r) ↔ IndexInside signed t (key.memory rest) := by
  rw [indexInside_memory]
  cases hchain : t.table[place signed t.sizemask key]? with
  | none =>
    refine iff_of_false (not_exists.mpr fun r hr => ?_) (Nat.not_lt.mpr (List.getElem?_eq_none_iff.mp hchain))
    simp only [Kvht.entryFind, getHashKey_memory, bucket_eq_error hchain] at hr
    cases hr
  | some chain => exact iff_of_true ⟨_, h.entryFind hchain rest⟩ (List.getElem?_eq_some_iff.mp hchain).1

/-- **`hashDelete`** returns exactly if the index is inside, where there is an entry. -/
theorem Kept.hashDelete_iff (h : t.Kept signed) (hused : 0 < t.used) :
    (∃ r, t.hashDelete signed (key.memory rest) = .ok r) ↔ IndexInside signed t (key.memory rest) := by
  rw [indexInside_memory]
  cases hchain : t.table[place signed t.sizemask key]? with
  | none =>
    refine iff_of_false (not_exists.mpr fun r hr => ?_) (Nat.not_lt.mpr (List.getElem?_eq_none_iff.mp hchain))
    simp only [Kvht.hashDelete, if_pos hused, getHashKey_memory, bucket_eq_error hchain] at hr
    cases hr
  | some chain =>
    refine iff_of_true ?_ (List.getElem?_eq_some_iff.mp hchain).1
    rcases h.hashDelete hchain rest with ⟨-, hr⟩ | ⟨-, hr⟩
    · exact ⟨_, hr⟩
    · exact ⟨_, hr⟩

/-! ### Calls that return -/

theorem of_map_ok {α β : Type*} {x : Except Stop α} {f : α → β} {b : β} (h : x.map f = .ok b) :
    ∃ a, x = .ok a ∧ f a = b := by
  cases x with
  | error e => cases h
  | ok a => exact ⟨a, rfl, Except.ok.inj h⟩

/-- A call that returns keeps the table well formed, and its mask and its chains. -/
theorem Kept.exec (h : t.Kept signed) {op : HashOp V} {r : HashReply V} (hr : op.exec signed t = .ok (r, t')) :
    t'.Kept signed ∧ t'.sizemask = t.sizemask ∧ t'.table.length = t.table.length := by
  cases op with
  | add addr key rest val =>
    obtain ⟨⟨n, t''⟩, hadd, hrt⟩ := of_map_ok hr
    cases hrt
    cases hchain : t.table[place signed t.sizemask key]? with
    | none =>
      rw [Kvht.hashAdd, getHash, getHashKey_memory] at hadd
      simp only [bucket_eq_error hchain] at hadd
      cases hadd
    | some chain =>
      rcases h.hashAdd hchain addr rest val with ⟨he, -, hadd'⟩ | ⟨-, t₁, hadd', hkept, -, hmask, hlen, -⟩
      · cases hadd.symm.trans hadd'
        exact ⟨h, rfl, rfl⟩
      · cases hadd.symm.trans hadd'
        exact ⟨hkept, hmask, hlen⟩
  | find key rest =>
    obtain ⟨he, -, hrt⟩ := of_map_ok hr
    cases hrt
    exact ⟨h, rfl, rfl⟩
  | delete key rest =>
    obtain ⟨⟨n, t''⟩, hdelete, hrt⟩ := of_map_ok hr
    cases hrt
    cases hchain : t.table[place signed t.sizemask key]? with
    | none =>
      rw [Kvht.hashDelete] at hdelete
      split_ifs at hdelete
      · simp only [getHashKey_memory, bucket_eq_error hchain] at hdelete
        cases hdelete
      · cases hdelete
        exact ⟨h, rfl, rfl⟩
    | some chain =>
      rcases h.hashDelete hchain rest with ⟨-, hdelete'⟩ | ⟨⟨he, hkey⟩, hdelete'⟩
      · cases hdelete.symm.trans hdelete'
        exact ⟨h, rfl, rfl⟩
      · cases hdelete.symm.trans hdelete'
        exact ⟨h.unlink hchain hkey, rfl, List.length_set⟩

/-- Any calls do, as long as they return. -/
theorem Kept.execAll (h : t.Kept signed) {ops : List (HashOp V)} {rs : List (HashReply V)}
    (hr : EmbeddedKv.Hash.execAll signed ops t = .ok (rs, t')) :
    t'.Kept signed ∧ t'.sizemask = t.sizemask ∧ t'.table.length = t.table.length := by
  induction ops generalizing t rs with
  | nil =>
    cases hr
    exact ⟨h, rfl, rfl⟩
  | cons op ops ih =>
    rw [EmbeddedKv.Hash.execAll] at hr
    split at hr
    · cases hr
    · next r t₁ hop =>
      split at hr
      · cases hr
      · next rs' t₂ hrest =>
        cases hr
        obtain ⟨h₁, hmask, hlen⟩ := h.exec hop
        obtain ⟨h₂, hmask', hlen'⟩ := ih h₁ hrest
        exact ⟨h₂, hmask'.trans hmask, hlen'.trans hlen⟩

end Kvht

/-! ### What a deletion takes out -/

/-- A string that compares equal to a key starts with the key and its terminator. -/
theorem memory_of_strcmpZero {s : Bytes} (hs : NulFree s) (h : strcmpZero (s ++ [0]) str = .ok true) :
    ∃ rest, str = s ++ 0 :: rest := by
  induction s generalizing str with
  | nil =>
    cases str with
    | nil => cases h
    | cons b str =>
      by_cases hb : (0 : UInt8) = b
      · exact ⟨str, by rw [hb]; rfl⟩
      · simp [strcmpZero, hb] at h
  | cons a s ih =>
    have ha : a ≠ 0 := hs a List.mem_cons_self
    cases str with
    | nil => cases h
    | cons b str =>
      by_cases hab : a = b
      · subst hab
        simp only [List.cons_append, strcmpZero, ne_eq, not_true_eq_false, if_false, if_neg ha] at h
        obtain ⟨rest, rfl⟩ := ih (fun c hc => hs c (List.mem_cons_of_mem _ hc)) h
        exact ⟨rest, rfl⟩
      · simp [strcmpZero, hab] at h

namespace Kvht

/-- The loop of `hashDelete` takes one entry out of the chain: one whose key the string is. -/
theorem of_deleteLoop {chain chain' : List (HashEntry V)} (h : deleteLoop str chain = .ok (some chain')) :
    ∃ front he back rest, chain = front ++ he :: back ∧ chain' = front ++ back ∧ str = he.key.memory rest := by
  induction chain generalizing chain' with
  | nil => cases h
  | cons he chain ih =>
    rw [deleteLoop] at h
    split at h
    · cases h
    · next hcmp =>
      cases h
      obtain ⟨rest, hrest⟩ := memory_of_strcmpZero he.key.nulFree hcmp
      exact ⟨[], he, chain, rest, rfl, rfl, hrest⟩
    · split at h
      · cases h
      · next r hloop =>
        cases r with
        | none => cases h
        | some chain₁ =>
          cases h
          obtain ⟨front, e, back, rest, rfl, rfl, hstr⟩ := ih hloop
          exact ⟨he :: front, e, back, rest, rfl, rfl, hstr⟩

/-- The table `t'` is `t` without the entry: all else stands as it stood, in the same order. -/
def Without (he : HashEntry V) (t t' : Kvht V) : Prop :=
  0 < t.used ∧ ∃ i front back, t.table[i]? = some (front ++ he :: back) ∧
    t' = { t with table := t.table.set i (front ++ back), used := t.used - 1 }

/-- **Whatever `hashDelete` is called with**, it changes nothing or takes out an entry whose
key the string is. -/
theorem hashDelete_cases {n : Int} (h : t.hashDelete signed str = .ok (n, t')) :
    t' = t ∨ ∃ he rest, str = he.key.memory rest ∧ Without he t t' := by
  rw [Kvht.hashDelete] at h
  split_ifs at h with hused
  · split at h
    · cases h
    · split at h
      · cases h
      · next idx chain hbucket =>
        have hchain : t.table[idx]? = some chain := by
          simp only [Kvht.bucket] at hbucket
          split_ifs at hbucket
          split at hbucket
          · cases hbucket
          · next hsome =>
            cases hbucket
            exact hsome
        split at h
        · cases h
        · cases h
          exact .inl rfl
        · next chain' hloop =>
          cases h
          obtain ⟨front, he, back, rest, rfl, rfl, hstr⟩ := of_deleteLoop hloop
          exact .inr ⟨he, rest, hstr, hused, idx, front, back, hchain, rfl⟩
  · cases h
    exact .inl rfl

/-- The entries before are the one that is gone and the entries after. -/
theorem Without.perm {he : HashEntry V} (h : Without he t t') : t.entries.Perm (he :: t'.entries) := by
  obtain ⟨-, i, front, back, hchain, rfl⟩ := h
  exact perm_flatten_set hchain

/-- Only one entry is gone. -/
theorem Without.unique {he e : HashEntry V} (h : Without he t t') (h' : Without e t t') : he = e := by
  have hperm : (he :: t'.entries).Perm (e :: t'.entries) := h.perm.symm.trans h'.perm
  have hset : (he ::ₘ (t'.entries : Multiset (HashEntry V))) = e ::ₘ (t'.entries : Multiset (HashEntry V)) :=
    Multiset.coe_eq_coe.mpr hperm
  exact (Multiset.cons_inj_left _).mp hset

/-- **`hashDelete` with the key of an entry** takes that entry out. -/
theorem Kept.hashDelete_mem {he : HashEntry V} (h : t.Kept signed) (hmem : he ∈ t.entries) (rest : Bytes) :
    ∃ t', t.hashDelete signed (he.key.memory rest) = .ok (0, t') ∧ Without he t t' ∧ t'.Kept signed := by
  have hfind : t.find signed he.key = some he := h.chained.mem_flatten.mp hmem
  obtain ⟨chain, hchain, hsome⟩ := Option.bind_eq_some_iff.mp hfind
  obtain ⟨front, back, rfl⟩ := List.append_of_mem (of_chainFind hsome).1
  have hkeys := h.chained.unique _ _ hchain
  have herase : chainErase HashEntry.key (front ++ he :: back) he.key = front ++ back := by
    rw [List.map_append, List.nodup_append] at hkeys
    rw [chainErase, List.eraseP_append_right]
    · simp
    · intro e he'
      have := hkeys.2.2 e.key (List.mem_map_of_mem he') he.key (List.mem_map_of_mem List.mem_cons_self)
      simpa using this
  have hkept := h.unlink hchain hfind
  have hpos : 0 < t.used := h.used ▸ List.length_pos_of_mem hmem
  rcases h.hashDelete hchain rest with ⟨hnone, -⟩ | ⟨-, hr⟩
  · rw [hfind] at hnone
    cases hnone
  · rw [herase] at hr hkept
    exact ⟨_, hr, ⟨hpos, _, front, back, hchain, rfl⟩, hkept⟩

end Kvht

/-! ### The table of `initServer` -/

/-- A masked hash is at most the mask, and it is the mask if the hash has all its bits. -/
theorem place_lt_iff (signed : Bool) (key : CString) :
    Kvht.place signed 100 key < 100 ↔ key.hash signed &&& 100 ≠ 100 := by
  have hplace : Kvht.place signed 100 key = (key.hash signed &&& 100).toNat := by
    rw [Kvht.place, UInt64.toNat_and, UInt32.toNat_and, UInt32.toNat_toUInt64]
    rfl
  have hle : (key.hash signed &&& 100).toNat ≤ 100 := by
    rw [UInt32.toNat_and]
    exact Nat.and_le_right
  have heq : (key.hash signed &&& 100).toNat = 100 ↔ key.hash signed &&& 100 = 100 := UInt32.toNat_inj (b := 100)
  rw [hplace, ne_eq, ← heq]
  omega

/-- **Every index is inside** exactly if the hash of the key has not all the bits of 100: in
the table of `initServer` after any calls that returned, with whatever memory behind the key,
the index is smaller than the number of bucket pointers, and `get_hash`, `entryFind` and, if
there is an entry, `hashDelete` return, exactly then. -/
theorem initServer_inside_iff {ops : List (HashOp V)} {rs : List (HashReply V)}
    (hr : execAll signed ops (Kvht.create V 100 100) = .ok (rs, t)) (key : CString) (rest : Bytes) :
    (IndexInside signed t (key.memory rest) ↔ key.hash signed &&& 100 ≠ 100) ∧
    ((∃ r, t.getHash signed (key.memory rest) = .ok r) ↔ key.hash signed &&& 100 ≠ 100) ∧
    ((∃ r, t.entryFind signed (key.memory rest) = .ok r) ↔ key.hash signed &&& 100 ≠ 100) ∧
    (0 < t.used → ((∃ r, t.hashDelete signed (key.memory rest) = .ok r) ↔ key.hash signed &&& 100 ≠ 100)) := by
  obtain ⟨hkept, hmask, hlen⟩ := (Kvht.kept_create V signed 100 (Nat.le_of_ble_eq_true rfl)).execAll hr
  have hinside : IndexInside signed t (key.memory rest) ↔ key.hash signed &&& 100 ≠ 100 := by
    rw [Kvht.indexInside_memory, hmask, hlen, ← place_lt_iff, Kvht.create, List.length_replicate]
    rfl
  exact ⟨hinside, hkept.getHash_iff.trans hinside, hkept.entryFind_iff.trans hinside,
    fun hused => (hkept.hashDelete_iff hused).trans hinside⟩

/-- The key "a" in a new table. -/
theorem initServer_inside_a : IndexInside true (Kvht.create ℕ 100 100) ((CString.ofMemory [97]).memory []) :=
  (initServer_inside_iff (rfl : execAll true [] _ = .ok ([], _)) (.ofMemory [97]) []).1.mpr (by decide)

/-- The key "O" has the bucket 100 of a table with 100 buckets. -/
theorem initServer_outside : ¬ IndexInside true (Kvht.create ℕ 100 100) ((CString.ofMemory [79]).memory []) ∧
    (Kvht.create ℕ 100 100).entryFind true ((CString.ofMemory [79]).memory []) = .error .undefined := by
  refine ⟨fun h => ?_, rfl⟩
  obtain ⟨hashKey, hkey, hlt⟩ := h
  cases hkey
  exact absurd hlt (by decide)

end EmbeddedKv.Hash
