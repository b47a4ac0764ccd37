import EmbeddedKv.Library.Recency
import EmbeddedKv.Library.Runs
import EmbeddedKv.Store.LruCache

/-!
# The order of use

`lru_cache` as the index of the cache files uses it: keys are inserted and read, and
what `evict` takes out of the list is erased from the map at once.

## What is proved

`lru_map`: after any such calls the list has the keys of the map, each once and with the
node its iterator denotes; `get` returns the value of the first insertion since the key
was last evicted, and `evict` returns the value of the least recently used key.
-/

namespace EmbeddedKv.Store

open EmbeddedKv.Library EmbeddedKv.Flash

variable {K V : Type*} [DecidableEq K]

/-- **One call.** -/
inductive LruStep : LruCache K V → UseEvent K V → LruCache K V → Prop where
  /-- `insert`. -/
  | insert {c : LruCache K V} {key : K} {value : V} : LruStep c (.insert key value) (c.insert key value)
  /-- `get`. -/
  | get {c c' : LruCache K V} {key : K} {value : Option V} (hr : c.get key = .ok (value, c')) :
      LruStep c (.get key) c'
  /-- `evict`, and `erase` of the evicted key. -/
  | evict {c c' : LruCache K V} {key : K} {value : V} (hkey : c.list.getLast?.map Prod.snd = some key)
      (hr : c.evict = .ok (value, c')) : LruStep c (.evict key) (c'.erase key)

namespace LruCache

variable {c c' : LruCache K V} {m : UsedMap K V} {key : K} {value : V}

/-- **The list is in the order of use**, and the map has the values. -/
structure Ordered (c : LruCache K V) (m : UsedMap K V) : Prop where
  /-- Iterators and nodes match. -/
  linked : c.Linked
  /-- The values. -/
  find : ∀ k, c.find k = m.value k
  /-- The order. -/
  recent : m.Recent (c.list.map Prod.snd)

theorem ordered_empty : Ordered ({} : LruCache K V) (.after []) where
  linked := linked_empty
  find k := find_empty k
  recent := ⟨by simp [UsedMap.after], List.Pairwise.nil, by simp [UsedMap.after]⟩

/-- A key is there exactly if it has a value. -/
theorem Ordered.entry_eq_none (h : c.Ordered m) : m.entry key = none ↔ c.map.lookup key = none := by
  rw [← find_eq_none, h.find, UsedMap.value, Option.map_eq_none_iff]

/-- The node of a key, and its place among the keys. -/
theorem Linked.keys_erase (h : c.Linked) {j : ℕ} (hl : c.map.lookup key = some (value, j)) (k : K) :
    k ∈ (c.list.filter fun p => p.1 ≠ j).map Prod.snd ↔ k ∈ c.list.map Prod.snd ∧ k ≠ key := by
  have hnode := h.node key value j hl
  simp only [List.mem_map, List.mem_filter, decide_eq_true_eq]
  constructor
  · rintro ⟨⟨n, k⟩, ⟨hin, hn⟩, rfl⟩
    refine ⟨⟨_, hin, rfl⟩, ?_⟩
    rintro rfl
    obtain ⟨v, hv⟩ := h.entry n k hin
    rw [hl, Option.some.injEq, Prod.mk.injEq] at hv
    exact hn hv.2.symm
  · rintro ⟨⟨⟨n, k⟩, hin, rfl⟩, hk⟩
    refine ⟨(n, k), ⟨hin, ?_⟩, rfl⟩
    rintro rfl
    exact hk (congrArg Prod.snd (List.inj_on_of_nodup_map h.nodup hin hnode rfl))

/-- **`insert`** is an insertion. -/
theorem Ordered.insert (h : c.Ordered m) (key : K) (value : V) :
    (c.insert key value).Ordered (m.step (.insert key value)) := by
  cases hl : c.map.lookup key with
  | some p =>
    obtain ⟨v, t, hentry⟩ : ∃ v t, m.entry key = some (v, t) := by
      cases he : m.entry key with
      | none => simp [h.entry_eq_none.mp he] at hl
      | some q => exact ⟨q.1, q.2, rfl⟩
    rw [LruCache.insert, hl, UsedMap.step, hentry]
    exact ⟨h.linked, h.find, h.recent.tick⟩
  | none =>
    have hentry := h.entry_eq_none.mpr hl
    have hnew : key ∉ c.list.map Prod.snd := fun hin => (h.recent.mem key).mp hin hentry
    refine ⟨h.linked.insert key value, fun k => ?_, ?_⟩
    · rw [find_insert, find_eq_none.mpr hl, Option.getD_none, UsedMap.step, hentry]
      by_cases hk : k = key
      · simp [hk, UsedMap.value]
      · rw [if_neg hk, h.find]
        simp [UsedMap.value, UsedMap.use_of_ne m hk]
    · rw [LruCache.insert, hl, UsedMap.step, hentry]
      refine h.recent.use (List.Sublist.refl _) (fun k => ⟨fun hin => ⟨hin, ?_⟩, And.left⟩) value
      rintro rfl
      exact hnew hin

/-- **`get`** is a read. -/
theorem Ordered.get (h : c.Ordered m) {r : Option V} (hr : c.get key = .ok (r, c')) :
    c'.Ordered (m.step (.get key)) := by
  obtain ⟨c₁, hget, hlinked, hfind⟩ := h.linked.get key
  rw [hr, Except.ok.injEq, Prod.mk.injEq] at hget
  obtain ⟨-, rfl⟩ := hget
  cases hl : c.map.lookup key with
  | none =>
    rw [UsedMap.step, h.entry_eq_none.mpr hl]
    rw [LruCache.get, hl] at hr
    cases hr
    exact ⟨h.linked, h.find, h.recent.tick⟩
  | some p =>
    obtain ⟨v, j⟩ := p
    obtain ⟨t, hentry⟩ : ∃ t, m.entry key = some (v, t) := by
      have hv := (h.find key).symm.trans (find_eq_some.mpr ⟨j, hl⟩)
      obtain ⟨⟨w, t⟩, hw, rfl⟩ := Option.map_eq_some_iff.mp hv
      exact ⟨t, hw⟩
    rw [UsedMap.step, hentry]
    have hvalues : ∀ k, c'.find k = (m.use key v).value k := by
      intro k
      rw [hfind, h.find]
      by_cases hk : k = key
      · simp [hk, UsedMap.value, hentry]
      · simp [UsedMap.value, UsedMap.use_of_ne m hk]
    refine ⟨hlinked, hvalues, ?_⟩
    have hnode := h.linked.node key v j hl
    have hin : j ∈ c.list.map Prod.fst := List.mem_map.mpr ⟨_, hnode, rfl⟩
    rw [LruCache.get, hl] at hr
    simp only [hin, not_true_eq_false, if_false] at hr
    by_cases hfront : c.list.head?.map Prod.fst = some j
    · -- the key is at the front already
      rw [if_pos hfront] at hr
      cases hr
      obtain ⟨⟨n, k⟩, hhead, rfl⟩ := Option.map_eq_some_iff.mp hfront
      obtain ⟨rest, hlist⟩ := List.head?_eq_some_iff.mp hhead
      have hfirst : (n, k) ∈ c.list := by rw [hlist]; exact List.mem_cons_self
      obtain rfl : k = key := congrArg Prod.snd
        (List.inj_on_of_nodup_map h.linked.nodup hfirst hnode rfl)
      have hkeys := h.linked.keys_erase hl
      have hother : c.list.filter (fun p => p.1 ≠ n) = rest := by
        have hnodup := h.linked.nodup
        rw [hlist, List.map_cons, List.nodup_cons] at hnodup
        rw [hlist, List.filter_cons_of_neg (by simp), List.filter_eq_self]
        intro p hp
        have hne : p.1 ≠ n := fun heq => hnodup.1 (List.mem_map.mpr ⟨p, hp, heq⟩)
        simpa using hne
      rw [hother] at hkeys
      have hrecent := h.recent.use (List.Sublist.map Prod.snd (by rw [hlist]; exact List.sublist_cons_self _ _)) hkeys v
      rwa [hlist]
    · rw [if_neg hfront] at hr
      cases hr
      exact h.recent.use (List.filter_sublist.map _) (h.linked.keys_erase hl) v

/-- **`evict`** is the eviction of the least recently used key. -/
theorem Ordered.evict (h : c.Ordered m) (hkey : c.list.getLast?.map Prod.snd = some key)
    (hr : c.evict = .ok (value, c')) : m.Oldest key value ∧ (c'.erase key).Ordered (m.step (.evict key)) := by
  have hne : c.list ≠ [] := by
    intro hnil
    simp [hnil] at hkey
  obtain ⟨k, v, c₁, hevict, hlast, hv, hlinked, hfind⟩ := h.linked.evict hne
  rw [hr, Except.ok.injEq, Prod.mk.injEq] at hevict
  obtain ⟨rfl, rfl⟩ := hevict
  obtain rfl : key = k := Option.some.inj (hkey.symm.trans hlast)
  refine ⟨h.recent.oldest (by rw [List.getLast?_map]; exact hkey) ((h.find key).symm.trans hv), hlinked, fun k => ?_, ?_⟩
  · rw [hfind]
    by_cases hk : k = key
    · simp [hk, UsedMap.value, UsedMap.step]
    · rw [if_neg hk, h.find]
      simp [UsedMap.value, UsedMap.step, UsedMap.forget_of_ne m hk]
  · have hlist : (c'.erase key).list = c.list.dropLast := by
      unfold LruCache.evict at hr
      split at hr
      · cases hr
      · split at hr
        · cases hr
        · cases hr
          rfl
    have hnodup := (linked_iff.mp h.linked).keys_nodup
    obtain ⟨init, hsplit⟩ : ∃ init, c.list.map Prod.snd = init ++ [key] := by
      refine ⟨(c.list.map Prod.snd).dropLast, (List.dropLast_append_getLast? _ ?_).symm⟩
      rw [List.getLast?_map]
      exact hkey
    have hinit : (c.list.dropLast).map Prod.snd = init := by
      rw [List.map_dropLast, hsplit, List.dropLast_concat]
    rw [hlist, hinit]
    rw [hsplit, List.nodup_append] at hnodup
    apply h.recent.forget (by rw [hsplit]; exact List.sublist_append_left _ _)
    intro k
    rw [hsplit, List.mem_append, List.mem_singleton]
    constructor
    · intro hin
      exact ⟨.inl hin, hnodup.2.2 k hin key (by simp)⟩
    · rintro ⟨hin, hk⟩
      exact hin.resolve_right hk

end LruCache

open LruCache

/-- **The cache is in the order of use** after any calls. -/
theorem run_ordered {acts : List (UseEvent K V)} {c : LruCache K V}
    (h : Run LruStep (fun _ _ _ => True) {} acts c) : c.Ordered (.after acts) := by
  refine h.invariant (P := fun acts c => c.Ordered (.after acts)) ordered_empty ?_
  intro acts c a c' hc _ hstep
  rw [UsedMap.after_snoc]
  cases hstep with
  | insert => exact hc.insert _ _
  | get hr => exact hc.get hr
  | evict hkey hr => exact (hc.evict hkey hr).2

/-- **An LRU map**: after any calls the keys of the list are distinct and are the keys
of the map, the iterator of a key denotes its node, `get` returns the value of the first
insertion since the key was last evicted, and `evict` the value of the least recently
used key. -/
theorem lru_map {acts : List (UseEvent K V)} {c : LruCache K V}
    (h : Run LruStep (fun _ _ _ => True) {} acts c) :
    (c.list.map Prod.snd).Nodup ∧ (∀ k, k ∈ c.list.map Prod.snd ↔ k ∈ c.map) ∧
      (∀ k v n, c.map.lookup k = some (v, n) → ∀ k', (n, k') ∈ c.list ↔ k' = k) ∧
      (∀ k, ∃ c', c.get k = .ok ((UsedMap.after acts).value k, c')) ∧
      (c.list ≠ [] → ∃ k v c', c.evict = .ok (v, c') ∧ c.list.getLast?.map Prod.snd = some k ∧
        (UsedMap.after acts).Oldest k v) := by
  have hc := run_ordered h
  refine ⟨(linked_iff.mp hc.linked).keys_nodup, fun k => ?_, fun k v n hk k' => ⟨fun hin => ?_, ?_⟩, fun k => ?_,
    fun hne => ?_⟩
  · rw [hc.recent.mem, Ne, hc.entry_eq_none, ← AList.lookup_isSome, Option.isSome_iff_ne_none]
  · exact congrArg Prod.snd (List.inj_on_of_nodup_map hc.linked.nodup hin (hc.linked.node k v n hk) rfl)
  · rintro rfl
    exact hc.linked.node k' v n hk
  · obtain ⟨c', hget, -⟩ := hc.linked.get k
    rw [hc.find] at hget
    exact ⟨c', hget⟩
  · obtain ⟨k, v, c', hevict, hlast, -⟩ := hc.linked.evict hne
    exact ⟨k, v, c', hevict, hlast, (hc.evict hlast hevict).1⟩

/-- Two files, the first of which is looked up before one is evicted. -/
theorem lru_map_looked_up : ∃ c : LruCache UInt32 ℕ, c.list.length = 1 ∧
    (∃ c', c.get 0 = .ok (some 5, c')) ∧ (∃ c', c.get 1 = .ok (none, c')) ∧
      ∃ k v c', c.evict = .ok (v, c') ∧
        (UsedMap.after (K := UInt32) [.insert 0 5, .insert 1 6, .insert 0 7, .get 0, .evict 1]).Oldest k v := by
  have h0 := Run.nil (R := LruStep (K := UInt32) (V := ℕ)) (C := fun _ _ _ => True) {}
  have h1 := h0.snoc (a := .insert 0 5) trivial .insert
  have h2 := h1.snoc (a := .insert 1 6) trivial .insert
  have h3 := h2.snoc (a := .insert 0 7) trivial .insert
  have h4 := h3.snoc (a := .get 0) trivial (.get rfl)
  have h5 := h4.snoc (a := .evict 1) trivial (.evict rfl (show LruCache.evict _ = .ok (6, _) from rfl))
  obtain ⟨-, -, -, hget, hevict⟩ := lru_map h5
  obtain ⟨k, v, c', hr, -, hold⟩ := hevict (by decide)
  exact ⟨_, rfl, hget 0, hget 1, k, v, c', hr, hold⟩

end EmbeddedKv.Store
