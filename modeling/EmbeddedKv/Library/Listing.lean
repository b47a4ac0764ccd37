import Mathlib.Data.List.Perm.Basic

/-!
# Association lists in any order

Lists of keys and values that are read one after the other, the first value of a key
being the one that counts. What they give together depends on their order, unless each
of them gives what all of them are to give (`lookup_any_order`).
-/

namespace EmbeddedKv.Library

variable {I K V : Type*} [BEq K] {key : K} {val : V}

/-- What is found in lists one after the other is found in one of them. -/
theorem mem_of_lookup_flatMap {ds : List (I × List (K × V))} (h : (ds.flatMap Prod.snd).lookup key = some val) :
    ∃ e ∈ ds, e.2.lookup key = some val := by
  induction ds with
  | nil => cases h
  | cons e ds ih =>
    rw [List.flatMap_cons, List.lookup_append, Option.or_eq_some_iff] at h
    rcases h with h | ⟨-, h⟩
    · exact ⟨e, List.mem_cons_self, h⟩
    · obtain ⟨d, hd, hdl⟩ := ih h
      exact ⟨d, List.mem_cons_of_mem _ hd, hdl⟩

variable [LawfulBEq K]

/-- What is found is there. -/
theorem mem_of_lookup {recs : List (K × V)} (h : recs.lookup key = some val) : (key, val) ∈ recs := by
  obtain ⟨before, after, rfl, -⟩ := List.lookup_eq_some_iff.mp h
  simp

/-- **Lists that come in any order** give a map, whatever the order, exactly if in each
of them the first value of a key is the one of the map. -/
theorem lookup_any_order {m : K → Option V} {ds₀ : List (I × List (K × V))}
    (hput : ∀ key val, m key = some val → ∃ e ∈ ds₀, (key, val) ∈ e.2) :
    (∀ ds : List (I × List (K × V)), ds.Perm ds₀ → ∀ key, (ds.flatMap Prod.snd).lookup key = m key) ↔
      ∀ e ∈ ds₀, ∀ r ∈ e.2, e.2.lookup r.1 = m r.1 := by
  constructor
  · intro h e he r hr
    -- the list comes first
    obtain ⟨before, after, rfl⟩ := List.append_of_mem he
    have hfirst := h (e :: (before ++ after)) List.perm_middle.symm r.1
    rw [List.flatMap_cons, List.lookup_append] at hfirst
    cases hl : e.2.lookup r.1 with
    | none =>
      have hnot := List.lookup_eq_none_iff.mp hl r hr
      simp at hnot
    | some val =>
      rw [hl, Option.some_or] at hfirst
      exact hfirst
  · intro h ds hperm key
    cases hl : (ds.flatMap Prod.snd).lookup key with
    | some val =>
      obtain ⟨e, he, hel⟩ := mem_of_lookup_flatMap hl
      exact hel.symm.trans (h e (hperm.subset he) (key, val) (mem_of_lookup hel))
    | none =>
      by_contra hne
      obtain ⟨val, hval⟩ := Option.ne_none_iff_exists'.mp (Ne.symm hne)
      obtain ⟨e, he, hin⟩ := hput key val hval
      have hall : (key, val) ∈ ds.flatMap Prod.snd := List.mem_flatMap.mpr ⟨e, hperm.symm.subset he, hin⟩
      have hnot := List.lookup_eq_none_iff.mp hl (key, val) hall
      simp at hnot

end EmbeddedKv.Library
