import Mathlib.Data.List.Nodup

/-!
# Chained tables

A table is a list of chains, and each entry has its place: the chain whose position is a
function of the entry's key. `Chained` says that every entry is in its chain and that no
chain has two entries with one key; then the table is a finite map (`entryAt`), whatever
the function is.

Two changes keep this: an entry is put in front of its chain, if there is none with its
key (`Chained.cons`), and the first entry with a key is taken out of its chain
(`Chained.unlink`). Both are seen in the map at the one key only.
-/

namespace EmbeddedKv.Library

variable {K E : Type*} {keyOf : E → K} {place : K → ℕ} {table : List (List E)} {chain : List E} {e : E} {i : ℕ} {k : K}

/-! ### Well-placed entries -/

/-- Every entry is in the chain at the place of its key, and no chain has a key twice. -/
structure Chained (keyOf : E → K) (place : K → ℕ) (table : List (List E)) : Prop where
  /-- The chain of an entry is at the place of its key. -/
  placed : ∀ (i : ℕ) (chain : List E), table[i]? = some chain → ∀ e ∈ chain, place (keyOf e) = i
  /-- No key stands twice in a chain. -/
  unique : ∀ (i : ℕ) (chain : List E), table[i]? = some chain → (chain.map keyOf).Nodup

/-- The number of entries after one chain is replaced. -/
theorem length_flatten_set (hchain : table[i]? = some chain) (chain' : List E) :
    (table.set i chain').flatten.length + chain.length = table.flatten.length + chain'.length := by
  induction table generalizing i with
  | nil => cases hchain
  | cons c table ih =>
    cases i with
    | zero =>
      obtain rfl := Option.some.inj hchain
      simp only [List.set_cons_zero, List.flatten_cons, List.length_append]
      omega
    | succ i =>
      have := ih (i := i) hchain
      simp only [List.set_cons_succ, List.flatten_cons, List.length_append]
      omega

/-- The entries of a table in which one is taken out of its chain, and that one. -/
theorem perm_flatten_set {front back : List E} (hchain : table[i]? = some (front ++ e :: back)) :
    table.flatten.Perm (e :: (table.set i (front ++ back)).flatten) := by
  induction table generalizing i with
  | nil => cases hchain
  | cons c table ih =>
    cases i with
    | zero =>
      obtain rfl := Option.some.inj hchain
      rw [List.set_cons_zero, List.flatten_cons, List.flatten_cons, List.append_assoc, List.append_assoc, List.cons_append]
      exact List.perm_middle
    | succ i =>
      rw [List.set_cons_succ, List.flatten_cons, List.flatten_cons]
      exact ((ih hchain).append_left c).trans List.perm_middle

namespace Chained

/-- A table of empty chains. -/
theorem replicate_nil (keyOf : E → K) (place : K → ℕ) (n : ℕ) : Chained keyOf place (List.replicate n []) where
  placed i chain h e he := by
    obtain rfl := List.eq_of_mem_replicate (List.mem_of_getElem? h)
    cases he
  unique i chain h := by
    obtain rfl := List.eq_of_mem_replicate (List.mem_of_getElem? h)
    exact List.nodup_nil

/-- One chain is replaced by another one of the same place. -/
theorem set (h : Chained keyOf place table) (hplaced : ∀ e ∈ chain, place (keyOf e) = i)
    (hunique : (chain.map keyOf).Nodup) : Chained keyOf place (table.set i chain) where
  placed j chain' hj := by
    rw [List.getElem?_set] at hj
    split_ifs at hj with hij hlt
    · obtain rfl := Option.some.inj hj
      exact hij ▸ hplaced
    · exact h.placed j chain' hj
  unique j chain' hj := by
    rw [List.getElem?_set] at hj
    split_ifs at hj with hij hlt
    · obtain rfl := Option.some.inj hj
      exact hunique
    · exact h.unique j chain' hj

/-- **No key stands twice in the table.** -/
theorem nodup (h : Chained keyOf place table) : (table.flatten.map keyOf).Nodup := by
  rw [List.map_flatten, List.nodup_flatten]
  constructor
  · intro keys hkeys
    obtain ⟨chain, hchain, rfl⟩ := List.mem_map.mp hkeys
    obtain ⟨i, hi⟩ := List.mem_iff_getElem?.mp hchain
    exact h.unique i chain hi
  · rw [List.pairwise_map, List.pairwise_iff_getElem]
    intro i j hi hj hij k hki hkj
    obtain ⟨e, he, rfl⟩ := List.mem_map.mp hki
    obtain ⟨b, hb, hkey⟩ := List.mem_map.mp hkj
    have hei := h.placed i _ (List.getElem?_eq_getElem hi) e he
    have hbj := h.placed j _ (List.getElem?_eq_getElem hj) b hb
    rw [hkey, hei] at hbj
    omega

end Chained

variable [DecidableEq K]

/-! ### Chains -/

/-- The first entry of a chain with a key. -/
def chainFind (keyOf : E → K) (chain : List E) (k : K) : Option E := chain.find? fun e => decide (keyOf e = k)

/-- A chain without its first entry with a key. -/
def chainErase (keyOf : E → K) (chain : List E) (k : K) : List E := chain.eraseP fun e => decide (keyOf e = k)

theorem chainFind_eq_none : chainFind keyOf chain k = none ↔ ∀ e ∈ chain, keyOf e ≠ k := by
  simp [chainFind]

/-- The entry that is found is one of the chain and has the key. -/
theorem of_chainFind (h : chainFind keyOf chain k = some e) : e ∈ chain ∧ keyOf e = k :=
  ⟨List.mem_of_find?_eq_some h, by simpa using List.find?_some h⟩

theorem chainFind_cons (e : E) (chain : List E) (k : K) :
    chainFind keyOf (e :: chain) k = if keyOf e = k then some e else chainFind keyOf chain k := by
  by_cases h : keyOf e = k <;> simp [chainFind, h]

/-- Where no key stands twice, an entry is found by its key. -/
theorem chainFind_of_mem (hnodup : (chain.map keyOf).Nodup) (he : e ∈ chain) :
    chainFind keyOf chain (keyOf e) = some e := by
  induction chain with
  | nil => cases he
  | cons b chain ih =>
    rw [List.map_cons, List.nodup_cons] at hnodup
    rw [chainFind_cons]
    rcases List.mem_cons.mp he with rfl | hmem
    · rw [if_pos rfl]
    · have hb : keyOf b ≠ keyOf e := fun hb => hnodup.1 (hb ▸ List.mem_map_of_mem hmem)
      rw [if_neg hb, ih hnodup.2 hmem]

/-- **Taking an entry out** takes all entries with its key out, where no key stands twice. -/
theorem mem_chainErase (hnodup : (chain.map keyOf).Nodup) :
    e ∈ chainErase keyOf chain k ↔ e ∈ chain ∧ keyOf e ≠ k := by
  induction chain with
  | nil => simp [chainErase]
  | cons b chain ih =>
    rw [List.map_cons, List.nodup_cons] at hnodup
    by_cases hb : keyOf b = k
    · have herase : chainErase keyOf (b :: chain) k = chain := by simp [chainErase, hb]
      rw [herase, List.mem_cons]
      constructor
      · intro he
        exact ⟨.inr he, fun hk => hnodup.1 (hb ▸ hk ▸ List.mem_map_of_mem he)⟩
      · rintro ⟨rfl | he, hk⟩
        · exact absurd hb hk
        · exact he
    · have herase : chainErase keyOf (b :: chain) k = b :: chainErase keyOf chain k := by simp [chainErase, hb]
      rw [herase, List.mem_cons, List.mem_cons, ih hnodup.2]
      constructor
      · rintro (rfl | ⟨he, hk⟩)
        · exact ⟨.inl rfl, hb⟩
        · exact ⟨.inr he, hk⟩
      · rintro ⟨rfl | he, hk⟩
        · exact .inl rfl
        · exact .inr ⟨he, hk⟩

/-- Of an entry that is found, one is taken out. -/
theorem length_chainErase (h : chainFind keyOf chain k = some e) :
    (chainErase keyOf chain k).length + 1 = chain.length := by
  obtain ⟨hmem, hk⟩ := of_chainFind h
  rw [chainErase, List.length_eraseP_of_mem hmem (by simpa using hk)]
  have hpos := List.length_pos_of_mem hmem
  omega

/-! ### What a table denotes -/

/-- The entry with a key. -/
def entryAt (keyOf : E → K) (place : K → ℕ) (table : List (List E)) (k : K) : Option E :=
  (table[place k]?).bind fun chain => chainFind keyOf chain k

theorem entryAt_eq (hchain : table[place k]? = some chain) : entryAt keyOf place table k = chainFind keyOf chain k := by
  rw [entryAt, hchain]
  rfl

/-- The entry with a key after one chain is replaced. -/
theorem entryAt_set (hi : i < table.length) (chain : List E) (k : K) :
    entryAt keyOf place (table.set i chain) k =
      if place k = i then chainFind keyOf chain k else entryAt keyOf place table k := by
  rw [entryAt, List.getElem?_set]
  split_ifs with h h'
  · rfl
  · exact absurd h.symm h'
  · exact absurd ‹place k = i›.symm h
  · rfl

namespace Chained

/-- The entries of a table are the ones that are found. -/
theorem mem_flatten (h : Chained keyOf place table) :
    e ∈ table.flatten ↔ entryAt keyOf place table (keyOf e) = some e := by
  rw [List.mem_flatten]
  constructor
  · rintro ⟨chain, hchain, he⟩
    obtain ⟨i, hi⟩ := List.mem_iff_getElem?.mp hchain
    have hplace := h.placed i chain hi e he
    rw [← hplace] at hi
    rw [entryAt_eq hi]
    exact chainFind_of_mem (h.unique _ _ hi) he
  · intro hfind
    obtain ⟨chain, hchain, hmem⟩ := Option.bind_eq_some_iff.mp hfind
    exact ⟨chain, List.mem_of_getElem? hchain, (of_chainFind hmem).1⟩

/-- **An entry is put in front of its chain.** -/
theorem cons (h : Chained keyOf place table) (e : E) (hchain : table[place (keyOf e)]? = some chain)
    (hnone : chainFind keyOf chain (keyOf e) = none) :
    Chained keyOf place (table.set (place (keyOf e)) (e :: chain)) := by
  refine h.set ?_ ?_
  · rintro b (_ | ⟨_, hb⟩)
    · rfl
    · exact h.placed _ _ hchain b hb
  · rw [List.map_cons, List.nodup_cons]
    refine ⟨fun hmem => ?_, h.unique _ _ hchain⟩
    obtain ⟨b, hb, hkey⟩ := List.mem_map.mp hmem
    exact chainFind_eq_none.mp hnone b hb hkey

/-- What is found then. -/
theorem entryAt_cons (keyOf : E → K) (place : K → ℕ) (e : E) (hchain : table[place (keyOf e)]? = some chain) (k : K) :
    entryAt keyOf place (table.set (place (keyOf e)) (e :: chain)) k =
      if k = keyOf e then some e else entryAt keyOf place table k := by
  have hlt : place (keyOf e) < table.length := (List.getElem?_eq_some_iff.mp hchain).1
  rw [entryAt_set hlt, chainFind_cons]
  by_cases hk : k = keyOf e
  · rw [hk, if_pos rfl, if_pos rfl, if_pos rfl]
  · rw [if_neg hk, if_neg (Ne.symm hk)]
    split_ifs with hplace
    · exact (entryAt_eq (hplace ▸ hchain)).symm
    · rfl

/-- **The entry with a key is taken out of its chain.** -/
theorem unlink (h : Chained keyOf place table) (hchain : table[place k]? = some chain) :
    Chained keyOf place (table.set (place k) (chainErase keyOf chain k)) := by
  refine h.set (fun e he => ?_) ?_
  · exact h.placed _ _ hchain e (List.mem_of_mem_eraseP he)
  · exact (h.unique _ _ hchain).sublist (List.eraseP_sublist.map keyOf)

/-- What is found then. -/
theorem entryAt_unlink (h : Chained keyOf place table) (hchain : table[place k]? = some chain) (k' : K) :
    entryAt keyOf place (table.set (place k) (chainErase keyOf chain k)) k' =
      if k' = k then none else entryAt keyOf place table k' := by
  have hlt : place k < table.length := (List.getElem?_eq_some_iff.mp hchain).1
  have hunique := h.unique _ _ hchain
  rw [entryAt_set hlt]
  by_cases hk : k' = k
  · rw [hk, if_pos rfl, if_pos rfl, chainFind_eq_none]
    intro e he
    exact ((mem_chainErase hunique).mp he).2
  · rw [if_neg hk]
    split_ifs with hplace
    · rw [entryAt_eq (hplace ▸ hchain)]
      cases hfind : chainFind keyOf chain k' with
      | none =>
        rw [chainFind_eq_none] at hfind ⊢
        exact fun e he => hfind e (List.mem_of_mem_eraseP he)
      | some e =>
        obtain ⟨hmem, rfl⟩ := of_chainFind hfind
        have herased : e ∈ chainErase keyOf chain k := (mem_chainErase hunique).mpr ⟨hmem, hk⟩
        exact chainFind_of_mem (hunique.sublist (List.eraseP_sublist.map keyOf)) herased
    · rfl

end Chained

end EmbeddedKv.Library
