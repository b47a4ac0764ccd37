import EmbeddedKv.Flash.Record
import Mathlib.Data.List.AList

/-!
# The LRU cache

The template `lru_cache<Key, Value>` of `my_lru.hpp`: a map from keys to values, each
with an iterator into the list of keys in order of use. The server uses it for the
memory tier (values are entries) and for the index of cache files (values are
files).

## The model

The nodes of `m_list` have identities, since an iterator denotes a node and not a
position: `evict` erases a node and leaves the iterator in the map behind, and using
that one afterwards is undefined.

## What is proved

`Linked` says that iterators and nodes match. The operations keep it, and are then
what they look like from outside (`find`): `insert` keeps the value of a key that is
there, `get` changes no value, and `evict` followed by `erase` of the evicted key
takes out one key.
-/

namespace EmbeddedKv.Store

open EmbeddedKv.Flash

variable {K V : Type*} [DecidableEq K]

/-- `lru_cache`. -/
structure LruCache (K V : Type*) [DecidableEq K] where
  /-- `m_map`: the value of a key and the node its iterator denotes. -/
  map : AList (fun _ : K => V × ℕ) := ∅
  /-- `m_list`, front first: the nodes and their keys. -/
  list : List (ℕ × K) := []
  /-- The next new node. -/
  next : ℕ := 0

namespace LruCache

/-! ### The operations -/

/-- `size()`. -/
def size (c : LruCache K V) : ℕ := c.list.length

/-- `empty()`. -/
def empty (c : LruCache K V) : Bool := c.map.keys.isEmpty

/-- `insert(key, value)`: a key that is there keeps its value. -/
def insert (c : LruCache K V) (key : K) (value : V) : LruCache K V :=
  match c.map.lookup key with
  | some _ => c
  | none => ⟨c.map.insert key (value, c.next), (c.next, key) :: c.list, c.next + 1⟩

/-- `get(key)`: `none` is `NULL`; a key that is there moves to the front. -/
def get (c : LruCache K V) (key : K) : Except Stop (Option V × LruCache K V) :=
  match c.map.lookup key with
  | none => .ok (none, c)
  | some (value, j) =>
    -- `j` is compared with `m_list.begin()`, so it has to denote a node that is there
    if j ∉ c.list.map Prod.fst then .error .undefined
    else if c.list.head?.map Prod.fst = some j then .ok (some value, c)
    else .ok (some value, ⟨c.map.insert key (value, c.next),
      (c.next, key) :: c.list.filter (fun p => p.1 ≠ j), c.next + 1⟩)

/-- `evict()`: the value of the last key, whose node is erased; its entry in the map
stays. -/
def evict (c : LruCache K V) : Except Stop (V × LruCache K V) :=
  match c.list.getLast? with
  | none => .error .undefined
  | some (_, key) =>
    match c.map.lookup key with
    | none => .error .undefined
    | some (value, _) => .ok (value, { c with list := c.list.dropLast })

/-- `erase(key)`. -/
def erase (c : LruCache K V) (key : K) : LruCache K V := { c with map := c.map.erase key }

/-- The value of a key. -/
def find (c : LruCache K V) (key : K) : Option V := (c.map.lookup key).map Prod.fst

/-! ### Iterators and nodes -/

/-- **Iterators and nodes match**: every iterator denotes the node of its own key, and
every node is denoted. -/
structure Linked (c : LruCache K V) : Prop where
  /-- Nodes are older than the next one. -/
  fresh : ∀ p ∈ c.list, p.1 < c.next
  /-- No node is in the list twice. -/
  nodup : (c.list.map Prod.fst).Nodup
  /-- The iterator of a key denotes its node. -/
  node : ∀ k v n, c.map.lookup k = some (v, n) → (n, k) ∈ c.list
  /-- Every node is the node of its key. -/
  entry : ∀ n k, (n, k) ∈ c.list → ∃ v, c.map.lookup k = some (v, n)

/-- The same but for some keys, whose iterators denote no node any more. -/
structure LinkedBut (c : LruCache K V) (stale : K → Prop) : Prop where
  /-- Nodes are older than the next one. -/
  fresh : ∀ p ∈ c.list, p.1 < c.next
  /-- No node is in the list twice. -/
  nodup : (c.list.map Prod.fst).Nodup
  /-- The iterator of any other key denotes its node. -/
  node : ∀ k v n, c.map.lookup k = some (v, n) → ¬ stale k → (n, k) ∈ c.list
  /-- Every node is the node of such a key. -/
  entry : ∀ n k, (n, k) ∈ c.list → ¬ stale k ∧ ∃ v, c.map.lookup k = some (v, n)
  /-- The iterators of the stale keys denoted nodes that are gone. -/
  gone : ∀ k v n, c.map.lookup k = some (v, n) → stale k → n < c.next ∧ n ∉ c.list.map Prod.fst

theorem linked_iff {c : LruCache K V} : c.Linked ↔ c.LinkedBut fun _ => False := by
  constructor
  · intro h
    exact ⟨h.fresh, h.nodup, fun k v n hk _ => h.node k v n hk, fun n k hn => ⟨id, h.entry n k hn⟩,
      fun k v n _ hs => hs.elim⟩
  · intro h
    exact ⟨h.fresh, h.nodup, fun k v n hk => h.node k v n hk id, fun n k hn => (h.entry n k hn).2⟩

theorem linked_empty : Linked ({} : LruCache K V) where
  fresh := by simp
  nodup := by simp
  node k v n h := by simp [AList.lookup_empty] at h
  entry := by simp

@[simp] theorem find_empty (key : K) : ({} : LruCache K V).find key = none := by
  simp [find, AList.lookup_empty]

variable {c c' : LruCache K V} {key : K} {value : V}

/-- A value is found exactly with some iterator. -/
theorem find_eq_some : c.find key = some value ↔ ∃ n, c.map.lookup key = some (value, n) := by
  simp [find]

theorem find_eq_none : c.find key = none ↔ c.map.lookup key = none := by
  simp [find]

/-- With a value for some key it is not empty. -/
theorem empty_of_find (h : c.find key = some value) : c.empty = false := by
  obtain ⟨n, hn⟩ := find_eq_some.mp h
  have hmem : key ∈ c.map.keys := AList.mem_keys.mp (AList.lookup_isSome.mp (by rw [hn]; rfl))
  rw [empty]
  cases hk : c.map.keys with
  | nil =>
    rw [hk] at hmem
    cases hmem
  | cons k ks => rfl

/-- `get` returns the value of the key, if it returns. -/
theorem get_eq_find {r : Option V} (hr : c.get key = .ok (r, c')) : r = c.find key := by
  unfold get at hr
  unfold find
  cases hl : c.map.lookup key with
  | none =>
    rw [hl] at hr
    cases hr
    rfl
  | some q =>
    rw [hl] at hr
    simp only at hr
    split_ifs at hr <;> cases hr <;> rfl

/-- It changes no value. -/
theorem find_get {r : Option V} (hr : c.get key = .ok (r, c')) (k : K) : c'.find k = c.find k := by
  unfold get at hr
  cases hl : c.map.lookup key with
  | none =>
    rw [hl] at hr
    cases hr
    rfl
  | some q =>
    rw [hl] at hr
    simp only at hr
    split_ifs at hr
    · cases hr
      rfl
    · cases hr
      by_cases hk : k = key
      · rw [hk, find, find, AList.lookup_insert, hl]
        rfl
      · rw [find, find, AList.lookup_insert_ne hk]

/-- Without a value it changes nothing. -/
theorem get_absent (h : c.find key = none) : c.get key = .ok (none, c) := by
  rw [get, find_eq_none.mp h]

variable {stale : K → Prop}

/-- `evict` leaves the map alone, and returns the value of a key. -/
theorem find_evict (hr : c.evict = .ok (value, c')) :
    (∀ k, c'.find k = c.find k) ∧ ∃ k, c.list.getLast?.map Prod.snd = some k ∧ c.find k = some value := by
  unfold evict at hr
  cases hlast : c.list.getLast? with
  | none => rw [hlast] at hr; cases hr
  | some q =>
    obtain ⟨n, k⟩ := q
    rw [hlast] at hr
    simp only at hr
    cases hl : c.map.lookup k with
    | none => rw [hl] at hr; cases hr
    | some q =>
      rw [hl] at hr
      cases hr
      exact ⟨fun _ => rfl, k, rfl, find_eq_some.mpr ⟨q.2, hl⟩⟩

/-- The stale keys may be described in another way. -/
theorem LinkedBut.congr (h : c.LinkedBut stale) {stale' : K → Prop} (hiff : ∀ k, stale k ↔ stale' k) :
    c.LinkedBut stale' := by
  obtain rfl : stale = stale' := funext fun k => propext (hiff k)
  exact h

/-- The keys in the list are distinct. -/
theorem LinkedBut.keys_nodup (h : c.LinkedBut stale) : (c.list.map Prod.snd).Nodup := by
  have hnodes := h.nodup
  have hnode : ∀ p ∈ c.list, ∀ q ∈ c.list, p.2 = q.2 → p.1 = q.1 := by
    rintro ⟨n, k⟩ hp ⟨n', k'⟩ hq heq
    obtain rfl : k = k' := heq
    obtain ⟨-, v, hv⟩ := h.entry n k hp
    obtain ⟨-, v', hv'⟩ := h.entry n' k hq
    rw [hv, Option.some.injEq, Prod.mk.injEq] at hv'
    exact hv'.2
  rw [List.nodup_iff_pairwise_ne, List.pairwise_map] at hnodes ⊢
  exact List.Pairwise.imp_of_mem (fun hp hq hne heq => hne (hnode _ hp _ hq heq)) hnodes

/-- A new key at the front. -/
theorem LinkedBut.push (h : c.LinkedBut stale) (hkey : ¬ stale key) {list : List (ℕ × K)}
    (hsub : list.Sublist c.list) (hother : ∀ n k, (n, k) ∈ list ↔ (n, k) ∈ c.list ∧ k ≠ key) :
    LinkedBut (⟨c.map.insert key (value, c.next), (c.next, key) :: list, c.next + 1⟩ : LruCache K V) stale where
  fresh := by
    intro p hp
    rcases List.mem_cons.mp hp with rfl | hp
    · exact Nat.lt_succ_self _
    · exact Nat.lt_succ_of_lt (h.fresh p (hsub.subset hp))
  nodup := by
    rw [List.map_cons, List.nodup_cons]
    refine ⟨fun hin => ?_, h.nodup.sublist (hsub.map _)⟩
    obtain ⟨p, hp, hpn⟩ := List.mem_map.mp hin
    exact absurd (h.fresh p (hsub.subset hp)) (by rw [hpn]; exact Nat.lt_irrefl _)
  node := by
    intro k v n hk hlive
    by_cases heq : k = key
    · subst heq
      rw [AList.lookup_insert, Option.some.injEq, Prod.mk.injEq] at hk
      rw [← hk.2]
      exact List.mem_cons_self
    · rw [AList.lookup_insert_ne heq] at hk
      exact List.mem_cons_of_mem _ ((hother n k).mpr ⟨h.node k v n hk hlive, heq⟩)
  entry := by
    intro n k hmem
    rcases List.mem_cons.mp hmem with heq | hin
    · obtain ⟨rfl, rfl⟩ := Prod.mk.inj heq
      exact ⟨hkey, value, AList.lookup_insert _⟩
    · obtain ⟨hold, hne⟩ := (hother n k).mp hin
      rw [AList.lookup_insert_ne hne]
      exact h.entry n k hold
  gone := by
    intro k v n hk hs
    have heq : k ≠ key := fun heq => hkey (heq ▸ hs)
    rw [AList.lookup_insert_ne heq] at hk
    obtain ⟨hlt, hgone⟩ := h.gone k v n hk hs
    refine ⟨Nat.lt_succ_of_lt hlt, ?_⟩
    rw [List.map_cons, List.mem_cons]
    rintro (rfl | hin)
    · exact Nat.lt_irrefl _ hlt
    · exact hgone ((hsub.map _).subset hin)

/-- **`insert`** keeps the value of a key that is there. -/
theorem find_insert (c : LruCache K V) (key k : K) (value : V) :
    (c.insert key value).find k = if k = key then some ((c.find key).getD value) else c.find k := by
  unfold insert
  cases hl : c.map.lookup key with
  | some p =>
    split_ifs with heq
    · rw [heq, find, hl]; rfl
    · rfl
  | none =>
    split_ifs with heq
    · rw [heq, find, find, AList.lookup_insert, hl]; rfl
    · rw [find, AList.lookup_insert_ne heq]; rfl

/-- A stale key is still in the map, so it is not inserted again. -/
theorem LinkedBut.insert (h : c.LinkedBut stale) (hkey : stale key → c.find key ≠ none) (value : V) :
    (c.insert key value).LinkedBut stale := by
  unfold LruCache.insert
  cases hl : c.map.lookup key with
  | some p => exact h
  | none =>
    have hlive : ¬ stale key := fun hs => hkey hs (find_eq_none.mpr hl)
    refine h.push hlive (List.Sublist.refl _) fun n k => ⟨fun hmem => ⟨hmem, ?_⟩, And.left⟩
    rintro rfl
    obtain ⟨-, v, hv⟩ := h.entry n k hmem
    simp [hl] at hv

theorem Linked.insert (h : c.Linked) (key : K) (value : V) : (c.insert key value).Linked :=
  linked_iff.mpr ((linked_iff.mp h).insert (fun hs => hs.elim) value)

/-- **`get`** of a key that is not stale returns its value and changes no value. -/
theorem LinkedBut.get (h : c.LinkedBut stale) (hkey : stale key → c.find key = none) :
    ∃ c', c.get key = .ok (c.find key, c') ∧ c'.LinkedBut stale ∧ ∀ k, c'.find k = c.find k := by
  unfold LruCache.get
  cases hl : c.map.lookup key with
  | none => exact ⟨c, by rw [find_eq_none.mpr hl], h, fun _ => rfl⟩
  | some p =>
    obtain ⟨value, j⟩ := p
    have hfind : c.find key = some value := find_eq_some.mpr ⟨j, hl⟩
    have hlive : ¬ stale key := fun hs => by simp [hkey hs] at hfind
    have hnode := h.node key value j hl hlive
    have hin : j ∈ c.list.map Prod.fst := List.mem_map.mpr ⟨(j, key), hnode, rfl⟩
    simp only [hin, not_true_eq_false, if_false, hfind]
    by_cases hfront : c.list.head?.map Prod.fst = some j
    · rw [if_pos hfront]
      exact ⟨c, rfl, h, fun _ => rfl⟩
    · rw [if_neg hfront]
      refine ⟨_, rfl, h.push hlive List.filter_sublist fun n k => ?_, fun k => ?_⟩
      · -- the node of a key is the only one that denotes it
        rw [List.mem_filter]
        apply and_congr_right
        intro hmem
        have hiff : n = j ↔ k = key := by
          constructor
          · rintro rfl
            exact congrArg Prod.snd (List.inj_on_of_nodup_map h.nodup hmem hnode rfl)
          · rintro rfl
            obtain ⟨-, v, hv⟩ := h.entry n k hmem
            rw [hl, Option.some.injEq, Prod.mk.injEq] at hv
            exact hv.2.symm
        simp [hiff]
      · by_cases hk : k = key
        · rw [hk, find, AList.lookup_insert, hfind]; rfl
        · rw [find, AList.lookup_insert_ne hk]; rfl

/-- If it returns, the key is not stale, or has no value. -/
theorem LinkedBut.find_of_get (h : c.LinkedBut stale) {r : Option V} (hr : c.get key = .ok (r, c'))
    (hs : stale key) : c.find key = none := by
  by_contra hne
  obtain ⟨value, hv⟩ := Option.ne_none_iff_exists'.mp hne
  obtain ⟨j, hl⟩ := find_eq_some.mp hv
  obtain ⟨-, hgone⟩ := h.gone key value j hl hs
  rw [LruCache.get, hl] at hr
  simp only [hgone, not_false_eq_true, if_true] at hr
  cases hr

/-- **`get`** returns the value of the key and changes no value. -/
theorem Linked.get (h : c.Linked) (key : K) :
    ∃ c', c.get key = .ok (c.find key, c') ∧ c'.Linked ∧ ∀ k, c'.find k = c.find k := by
  have hlive : False → c.find key = none := False.elim
  obtain ⟨c', hget, hlinked, hfind⟩ := (linked_iff.mp h).get hlive
  exact ⟨c', hget, linked_iff.mpr hlinked, hfind⟩

/-- A `get` that returns keeps the invariant. -/
theorem Linked.of_get (h : c.Linked) {r : Option V} (hr : c.get key = .ok (r, c')) : c'.Linked := by
  obtain ⟨c₁, hget, hlinked, -⟩ := h.get key
  rw [hr] at hget
  obtain ⟨-, rfl⟩ := Prod.mk.inj (Except.ok.inj hget)
  exact hlinked

/-- **`evict`** takes out the last node; its key is still in the map, and stale. -/
theorem LinkedBut.evict (h : c.LinkedBut stale) (hne : c.list ≠ []) :
    ∃ k v c', c.evict = .ok (v, c') ∧ c.list.getLast?.map Prod.snd = some k ∧ c.find k = some v ∧
      ¬ stale k ∧ c' = { c with list := c.list.dropLast } ∧ c'.LinkedBut fun k' => stale k' ∨ k' = k := by
  obtain ⟨⟨n, k⟩, hlast⟩ := Option.ne_none_iff_exists'.mp (mt List.getLast?_eq_none_iff.mp hne)
  have hsplit : c.list = c.list.dropLast ++ [(n, k)] := (List.dropLast_append_getLast? _ hlast).symm
  have hmem : (n, k) ∈ c.list := by rw [hsplit]; simp
  obtain ⟨hlive, v, hv⟩ := h.entry n k hmem
  have hsub : c.list.dropLast.Sublist c.list := List.dropLast_sublist _
  have hother : ∀ n' k', (n', k') ∈ c.list.dropLast ↔ (n', k') ∈ c.list ∧ k' ≠ k := by
    intro n' k'
    have hnodup := h.nodup
    rw [hsplit, List.map_append, List.nodup_append] at hnodup
    constructor
    · intro hin
      refine ⟨hsub.subset hin, ?_⟩
      rintro rfl
      obtain ⟨-, v', hv'⟩ := h.entry n' k' (hsub.subset hin)
      rw [hv, Option.some.injEq, Prod.mk.injEq] at hv'
      exact hnodup.2.2 n' (List.mem_map.mpr ⟨_, hin, rfl⟩) n (by simp) hv'.2.symm
    · rintro ⟨hin, hk⟩
      rw [hsplit, List.mem_append, List.mem_singleton] at hin
      exact hin.resolve_right fun heq => hk (congrArg Prod.snd heq)
  refine ⟨k, v, _, ?_, by rw [hlast]; rfl, find_eq_some.mpr ⟨n, hv⟩, hlive, rfl,
    fun p hp => h.fresh p (hsub.subset hp), h.nodup.sublist (hsub.map _), ?_, ?_, ?_⟩
  · unfold LruCache.evict
    rw [hlast]
    simp only [hv]
  · intro k' v' n' hk' hs
    exact (hother n' k').mpr ⟨h.node k' v' n' hk' fun hs' => hs (.inl hs'), fun heq => hs (.inr heq)⟩
  · intro n' k' hin
    obtain ⟨hold, hk⟩ := (hother n' k').mp hin
    obtain ⟨hs, hv'⟩ := h.entry n' k' hold
    exact ⟨fun hor => hor.elim hs hk, hv'⟩
  · rintro k' v' n' hk' (hs | rfl)
    · obtain ⟨hlt, hgone⟩ := h.gone k' v' n' hk' hs
      exact ⟨hlt, fun hin => hgone ((hsub.map _).subset hin)⟩
    · obtain rfl : n = n' := congrArg Prod.snd (Option.some.inj (hv.symm.trans hk'))
      refine ⟨h.fresh _ hmem, fun hin => ?_⟩
      have hnodup := h.nodup
      rw [hsplit, List.map_append, List.nodup_append] at hnodup
      exact hnodup.2.2 n hin n (by simp) rfl

theorem find_erase (c : LruCache K V) (key k : K) : (c.erase key).find k = if k = key then none else c.find k := by
  split_ifs with heq
  · rw [heq, find, LruCache.erase, AList.lookup_erase]; rfl
  · rw [find, LruCache.erase, AList.lookup_erase_ne heq]; rfl

/-- **`erase`** of a stale key: it is not stale any more. -/
theorem LinkedBut.erase (h : c.LinkedBut stale) (hkey : stale key) :
    (c.erase key).LinkedBut fun k => stale k ∧ k ≠ key where
  fresh := h.fresh
  nodup := h.nodup
  node := by
    intro k v n hk hlive
    by_cases heq : k = key
    · rw [heq] at hk
      simp [LruCache.erase] at hk
    · rw [LruCache.erase, AList.lookup_erase_ne heq] at hk
      exact h.node k v n hk fun hs => hlive ⟨hs, heq⟩
  entry := by
    intro n k hmem
    obtain ⟨hlive, hv⟩ := h.entry n k hmem
    have hne : k ≠ key := fun heq => hlive (heq ▸ hkey)
    rw [LruCache.erase, AList.lookup_erase_ne hne]
    exact ⟨fun hs => hlive hs.1, hv⟩
  gone := by
    rintro k v n hk ⟨hs, hne⟩
    rw [LruCache.erase, AList.lookup_erase_ne hne] at hk
    exact h.gone k v n hk hs

/-- **`evict` and `erase` of the evicted key** take out one key, the last of the
list. -/
theorem Linked.evict (h : c.Linked) (hne : c.list ≠ []) :
    ∃ k v c', c.evict = .ok (v, c') ∧ c.list.getLast?.map Prod.snd = some k ∧ c.find k = some v ∧
      (c'.erase k).Linked ∧ ∀ k', (c'.erase k).find k' = if k' = k then none else c.find k' := by
  obtain ⟨k, v, c', hevict, hlast, hv, -, hc', hlinked⟩ := (linked_iff.mp h).evict hne
  refine ⟨k, v, c', hevict, hlast, hv, linked_iff.mpr ?_, fun k' => ?_⟩
  · exact (hlinked.erase (.inr rfl)).congr fun k' => by simp
  · rw [find_erase, hc']
    rfl

/-! ### Nodes that are gone -/

/-- The key gets a new node at the front if its own one is gone. A `get` after it does
what `get` would do if the removal of a node that is gone had no effect (`get_revive`). -/
def revive (c : LruCache K V) (key : K) : LruCache K V :=
  match c.map.lookup key with
  | none => c
  | some (value, j) =>
    if j ∈ c.list.map Prod.fst then c
    else ⟨c.map.insert key (value, c.next), (c.next, key) :: c.list, c.next + 1⟩

theorem find_revive (c : LruCache K V) (key k : K) : (c.revive key).find k = c.find k := by
  unfold revive
  split
  · rfl
  · next value j hl =>
    split_ifs
    · rfl
    · by_cases hk : k = key
      · rw [hk, find, find, AList.lookup_insert, hl]
        rfl
      · rw [find, find, AList.lookup_insert_ne hk]

/-- **`get` with a node that is gone**: the value is returned and the key is at the
front, with a new node. -/
theorem get_revive {j : ℕ} (hl : c.map.lookup key = some (value, j)) (hgone : j ∉ c.list.map Prod.fst) :
    (c.revive key).get key =
      .ok (some value, ⟨c.map.insert key (value, c.next), (c.next, key) :: c.list, c.next + 1⟩) := by
  rw [revive, hl]
  simp only [hgone, if_false]
  rw [get, AList.lookup_insert]
  simp

/-- Otherwise nothing changes. -/
theorem LinkedBut.revive (h : c.LinkedBut stale) (hkey : stale key → c.find key = none) : c.revive key = c := by
  unfold LruCache.revive
  split
  · rfl
  · next value j hl =>
    have hfind : c.find key = some value := find_eq_some.mpr ⟨j, hl⟩
    have hlive : ¬ stale key := fun hs => by simp [hkey hs] at hfind
    rw [if_pos (List.mem_map.mpr ⟨(j, key), h.node key value j hl hlive, rfl⟩)]

end LruCache

end EmbeddedKv.Store
