import Mathlib.Logic.Function.Basic
import Mathlib.Data.List.Basic
import Mathlib.Data.List.Pairwise

/-!
# Maps that forget the least recently used key

What a history of insertions, reads and evictions leaves in a map, with the time each
key was last used. Times are positions in the history.

Inserting a key that is there changes nothing, not even its time; reading it is a use,
and reading a key that is not there is none. `Oldest` is the key whose last use is the
longest ago: in a list of the keys in which later uses come first (`Recent`), it is the
last one (`Recent.oldest`). Where a history says of each step which key it uses, `lastUse`
is the last time of a key, and a map that goes along with it has these times (`Dated`).
-/

namespace EmbeddedKv.Library

variable {K V : Type*} [DecidableEq K]

/-- One operation. -/
inductive UseEvent (K V : Type*) where
  /-- A value is inserted. -/
  | insert (key : K) (value : V)
  /-- A key is read. -/
  | get (key : K)
  /-- A key is evicted. -/
  | evict (key : K)

/-- The values of the keys, and when they were last used. -/
structure UsedMap (K V : Type*) where
  /-- The value of a key and the time of its last use. -/
  entry : K → Option (V × ℕ)
  /-- The time. -/
  clock : ℕ

namespace UsedMap

/-- A key is used now. -/
def use (m : UsedMap K V) (key : K) (value : V) : UsedMap K V :=
  ⟨Function.update m.entry key (some (value, m.clock)), m.clock + 1⟩

/-- A key is forgotten. -/
def forget (m : UsedMap K V) (key : K) : UsedMap K V := ⟨Function.update m.entry key none, m.clock + 1⟩

/-- Time goes by. -/
def tick (m : UsedMap K V) : UsedMap K V := ⟨m.entry, m.clock + 1⟩

@[simp] theorem use_self (m : UsedMap K V) (key : K) (value : V) :
    (m.use key value).entry key = some (value, m.clock) := Function.update_self ..

theorem use_of_ne (m : UsedMap K V) {key k : K} (h : k ≠ key) (value : V) :
    (m.use key value).entry k = m.entry k := Function.update_of_ne h ..

@[simp] theorem forget_self (m : UsedMap K V) (key : K) : (m.forget key).entry key = none :=
  Function.update_self ..

theorem forget_of_ne (m : UsedMap K V) {key k : K} (h : k ≠ key) : (m.forget key).entry k = m.entry k :=
  Function.update_of_ne h ..

/-- What happens to the map. -/
def step (m : UsedMap K V) : UseEvent K V → UsedMap K V
  | .insert key value =>
    match m.entry key with
    | some _ => m.tick
    | none => m.use key value
  | .get key =>
    match m.entry key with
    | some (value, _) => m.use key value
    | none => m.tick
  | .evict key => m.forget key

/-- The map after a history. -/
def after (es : List (UseEvent K V)) : UsedMap K V := es.foldl step ⟨fun _ => none, 0⟩

theorem after_snoc (es : List (UseEvent K V)) (e : UseEvent K V) : after (es ++ [e]) = (after es).step e := by
  rw [after, List.foldl_append]
  rfl

/-- **The value of a key**: of its first insertion since it was last evicted. -/
def value (m : UsedMap K V) (key : K) : Option V := (m.entry key).map Prod.fst

/-- **The least recently used key** and its value. -/
def Oldest (m : UsedMap K V) (key : K) (value : V) : Prop :=
  ∃ t, m.entry key = some (value, t) ∧ ∀ k v u, m.entry k = some (v, u) → k ≠ key → t < u

/-- **The keys by last use**, the latest first. -/
structure Recent (m : UsedMap K V) (keys : List K) : Prop where
  /-- They are the keys of the map. -/
  mem : ∀ k, k ∈ keys ↔ m.entry k ≠ none
  /-- Later uses come first. -/
  order : keys.Pairwise fun k k' => ∀ v t v' t', m.entry k = some (v, t) → m.entry k' = some (v', t') → t' < t
  /-- No use is yet to come. -/
  past : ∀ k v t, m.entry k = some (v, t) → t < m.clock

variable {m : UsedMap K V} {keys : List K} {key : K} {val : V}

/-- A key is used now: it comes first, the others stay in order. -/
theorem Recent.use (h : m.Recent keys) {rest : List K} (hsub : rest.Sublist keys)
    (hrest : ∀ k, k ∈ rest ↔ k ∈ keys ∧ k ≠ key) (val : V) : (m.use key val).Recent (key :: rest) where
  mem := by
    intro k
    by_cases hk : k = key
    · simp [hk]
    · rw [List.mem_cons, hrest, use_of_ne m hk, h.mem]
      simp [hk]
  order := by
    have hne : ∀ k ∈ rest, k ≠ key := fun k hk => ((hrest k).mp hk).2
    refine List.pairwise_cons.mpr ⟨fun k hk v t v' t' hv hv' => ?_, ?_⟩
    · rw [use_self, Option.some.injEq, Prod.mk.injEq] at hv
      rw [use_of_ne m (hne k hk)] at hv'
      rw [← hv.2]
      exact h.past k v' t' hv'
    · refine List.Pairwise.imp_of_mem (fun {k k'} hk hk' hlt => ?_) (h.order.sublist hsub)
      rw [use_of_ne m (hne k hk), use_of_ne m (hne k' hk')]
      exact hlt
  past := by
    intro k v t hv
    by_cases hk : k = key
    · rw [hk, use_self, Option.some.injEq, Prod.mk.injEq] at hv
      rw [← hv.2]
      exact Nat.lt_succ_self _
    · rw [use_of_ne m hk] at hv
      exact Nat.lt_succ_of_lt (h.past k v t hv)

omit [DecidableEq K] in
/-- Nothing is used. -/
theorem Recent.tick (h : m.Recent keys) : m.tick.Recent keys :=
  ⟨h.mem, h.order, fun k v t hv => Nat.lt_succ_of_lt (h.past k v t hv)⟩

/-- A key is forgotten. -/
theorem Recent.forget (h : m.Recent keys) {rest : List K} (hsub : rest.Sublist keys)
    (hrest : ∀ k, k ∈ rest ↔ k ∈ keys ∧ k ≠ key) : (m.forget key).Recent rest where
  mem := by
    intro k
    rw [hrest, h.mem]
    by_cases hk : k = key
    · simp [hk]
    · simp [hk, forget_of_ne m hk]
  order := by
    refine List.Pairwise.imp_of_mem (fun {k k'} hk hk' hlt => ?_) (h.order.sublist hsub)
    rw [forget_of_ne m ((hrest k).mp hk).2, forget_of_ne m ((hrest k').mp hk').2]
    exact hlt
  past := by
    intro k v t hv
    by_cases hk : k = key
    · rw [hk, forget_self] at hv
      cases hv
    · rw [forget_of_ne m hk] at hv
      exact Nat.lt_succ_of_lt (h.past k v t hv)

omit [DecidableEq K] in
/-- **The last key is the least recently used one.** -/
theorem Recent.oldest (h : m.Recent keys) (hlast : keys.getLast? = some key) (hv : m.value key = some val) :
    m.Oldest key val := by
  obtain ⟨⟨v, t⟩, hentry, rfl⟩ := Option.map_eq_some_iff.mp hv
  refine ⟨t, hentry, fun k v' u hk hne => ?_⟩
  have hin : k ∈ keys := (h.mem k).mpr (by rw [hk]; simp)
  have hsplit : keys = keys.dropLast ++ [key] := (List.dropLast_append_getLast? _ hlast).symm
  have horder := h.order
  rw [hsplit] at hin horder
  have hinit : k ∈ keys.dropLast := by simpa [hne] using hin
  exact (List.pairwise_append.mp horder).2.2 k hinit key (by simp) v' u v t hk hentry

/-! ### The last use in a history -/

/-- **When a key was last used**, the first step being the step `1`; `0` if it never was. A step
uses a key or none. -/
def lastUse (uses : List (Option K)) (key : K) : ℕ := uses.length - uses.reverse.findIdx fun u => decide (u = some key)

theorem lastUse_snoc (uses : List (Option K)) (u : Option K) (key : K) :
    lastUse (uses ++ [u]) key = if u = some key then uses.length + 1 else lastUse uses key := by
  rw [lastUse, lastUse, List.reverse_append, List.reverse_singleton, List.singleton_append, List.findIdx_cons,
    List.length_append, List.length_singleton]
  split_ifs with hu
  · simp [hu]
  · simp [hu, Nat.add_sub_add_right]

/-- **The times of a map** are those of a history. -/
structure Dated (m : UsedMap K V) (uses : List (Option K)) : Prop where
  /-- The time is the number of steps. -/
  clock : m.clock = uses.length
  /-- The times of the keys are those of their last uses. -/
  entry : ∀ k v t, m.entry k = some (v, t) → lastUse uses k = t + 1

variable {uses : List (Option K)}

/-- A key is used now. -/
theorem Dated.use (h : m.Dated uses) (key : K) (val : V) : (m.use key val).Dated (uses ++ [some key]) where
  clock := by
    rw [List.length_append, ← h.clock]
    rfl
  entry := by
    intro k v t hv
    rw [lastUse_snoc]
    by_cases hk : k = key
    · rw [hk, use_self, Option.some.injEq, Prod.mk.injEq] at hv
      rw [if_pos (by rw [hk]), ← hv.2, h.clock]
    · rw [use_of_ne m hk] at hv
      rw [if_neg (by simpa using Ne.symm hk)]
      exact h.entry k v t hv

/-- No key of the map is used. -/
theorem Dated.tick (h : m.Dated uses) {u : Option K} (hu : ∀ k, u = some k → m.entry k = none) :
    m.tick.Dated (uses ++ [u]) where
  clock := by
    rw [List.length_append, ← h.clock]
    rfl
  entry := by
    intro k v t hv
    have hne : u ≠ some k := fun heq => by cases (hu k heq).symm.trans hv
    rw [lastUse_snoc, if_neg hne]
    exact h.entry k v t hv

/-- A key is forgotten. -/
theorem Dated.forget (h : m.Dated uses) (key : K) : (m.forget key).Dated (uses ++ [none]) where
  clock := by
    rw [List.length_append, ← h.clock]
    rfl
  entry := by
    intro k v t hv
    by_cases hk : k = key
    · rw [hk, forget_self] at hv
      cases hv
    · rw [forget_of_ne m hk] at hv
      rw [lastUse_snoc, if_neg (by simp)]
      exact h.entry k v t hv

/-- **The least recently used key** was last used before all others, and it was used. -/
theorem Dated.oldest (h : m.Dated uses) (hold : m.Oldest key val) : 0 < lastUse uses key ∧
    ∀ k, m.value k ≠ none → k ≠ key → lastUse uses key < lastUse uses k := by
  obtain ⟨t, ht, hlater⟩ := hold
  rw [h.entry key val t ht]
  refine ⟨Nat.succ_pos t, fun k hk hne => ?_⟩
  obtain ⟨v, hv⟩ := Option.ne_none_iff_exists'.mp hk
  obtain ⟨⟨v, u⟩, hu, rfl⟩ := Option.map_eq_some_iff.mp hv
  rw [h.entry k v u hu]
  exact Nat.succ_lt_succ (hlater k v u hu hne)

end UsedMap

end EmbeddedKv.Library
