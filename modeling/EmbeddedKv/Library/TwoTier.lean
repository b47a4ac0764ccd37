import EmbeddedKv.Library.History

/-!
# A map in two tiers

A map whose keys live in a fast tier or in a slow one. Setting a key goes to the fast
tier, reading a key that only the slow tier has moves it to the fast one, and flushing a
key moves it to the slow one, which keeps a value that is there.

Both tiers may have a value for a key; the fast one is then the value of the map
(`TwoTier.value`). Reading does not change it (`value_get`), and neither does flushing
if the slow tier has no other value for the key (`value_flush`). In any case a key that
was set keeps a value (`value_of_set`), and each value was set for its key
(`set_of_value`).

The slow tier is what a history of its own leaves in it (`kept_ledger`): a key is put there
when it is flushed and deleted when it is read. What was put there was set (`set_of_put`),
and a key that was set is in the fast tier or was put there (`put_of_set`).
-/

namespace EmbeddedKv.Library

variable {K V : Type*} [DecidableEq K]

/-- The two tiers. -/
structure TwoTier (K V : Type*) where
  /-- The fast tier. -/
  mem : K → Option V
  /-- The slow tier. -/
  flash : K → Option V

/-- What happens to a key. -/
inductive TierEvent (K V : Type*) where
  /-- It is set. -/
  | set (key : K) (value : V)
  /-- It is read. -/
  | get (key : K)
  /-- It is flushed. -/
  | flush (key : K)

namespace TwoTier

/-- Nothing is stored. -/
def empty : TwoTier K V := ⟨fun _ => none, fun _ => none⟩

/-- A key is moved to the fast tier, if only the slow one has it. -/
def promote (t : TwoTier K V) (key : K) : TwoTier K V :=
  match t.mem key, t.flash key with
  | none, some value => ⟨Function.update t.mem key (some value), Function.update t.flash key none⟩
  | _, _ => t

/-- A key is moved to the slow tier, if the fast one has it. -/
def flush (t : TwoTier K V) (key : K) : TwoTier K V :=
  match t.mem key with
  | none => t
  | some value => ⟨Function.update t.mem key none, MapEvent.keep t.flash (.put key value)⟩

/-- What happens to the tiers. -/
def step (t : TwoTier K V) : TierEvent K V → TwoTier K V
  | .set key value => ⟨Function.update t.mem key (some value), t.flash⟩
  | .get key => t.promote key
  | .flush key => t.flush key

/-- The tiers after a history. -/
def after (es : List (TierEvent K V)) : TwoTier K V := es.foldl step empty

/-- **The value of a key.** -/
def value (t : TwoTier K V) (key : K) : Option V := (t.mem key).or (t.flash key)

theorem after_snoc (es : List (TierEvent K V)) (e : TierEvent K V) : after (es ++ [e]) = (after es).step e := by
  rw [after, List.foldl_append]
  rfl

/-- Setting a key replaces its value. -/
theorem value_set (t : TwoTier K V) (key : K) (v : V) :
    (t.step (.set key v)).value = Function.update t.value key (some v) := by
  funext k
  by_cases hk : k = key
  · simp [value, step, hk]
  · simp [value, step, Function.update_of_ne hk]

/-- Reading a key changes no value. -/
theorem value_get (t : TwoTier K V) (key : K) : (t.step (.get key)).value = t.value := by
  rw [step, promote]
  cases hm : t.mem key with
  | some v => rfl
  | none =>
    cases hf : t.flash key with
    | none => rfl
    | some v =>
      funext k
      by_cases hk : k = key
      · simp [value, hk, hm, hf]
      · simp [value, Function.update_of_ne hk]

/-- Flushing a key changes no value, if the slow tier has no other value for it. -/
theorem value_flush (t : TwoTier K V) (key : K)
    (h : ∀ v, t.mem key = some v → t.flash key = none ∨ t.flash key = some v) :
    (t.step (.flush key)).value = t.value := by
  rw [step, flush]
  cases hm : t.mem key with
  | none => rfl
  | some v =>
    funext k
    by_cases hk : k = key
    · rcases h v hm with hf | hf <;> simp [value, MapEvent.keep, hk, hm, hf]
    · simp [value, MapEvent.keep, Function.update_of_ne hk]

/-! ### What is in the tiers -/

/-- **No key is lost**: one that was set has a value. -/
theorem value_of_set {es : List (TierEvent K V)} {key : K} {v : V} (h : .set key v ∈ es) :
    (after es).value key ≠ none := by
  induction es using List.reverseRecOn with
  | nil => cases h
  | append_singleton es e ih =>
    rw [after_snoc]
    cases e with
    | set k w =>
      rw [value_set]
      by_cases hk : key = k
      · rw [hk, Function.update_self]
        exact Option.some_ne_none w
      · have hm : TierEvent.set key v ∈ es := by simpa [hk] using h
        rw [Function.update_of_ne hk]
        exact ih hm
    | get k =>
      rw [value_get]
      exact ih (by simpa using h)
    | flush k =>
      have hm : TierEvent.set key v ∈ es := by simpa using h
      rw [step, flush]
      cases hmem : (after es).mem k with
      | none => exact ih hm
      | some w =>
        by_cases hk : key = k
        · simp [value, MapEvent.keep, hk]
        · simp only [value, MapEvent.keep, Function.update_of_ne hk]
          exact ih hm

/-- **No value is made up**: what a tier has for a key was set for it. -/
theorem set_of_value {es : List (TierEvent K V)} {key : K} {v : V}
    (h : (after es).mem key = some v ∨ (after es).flash key = some v) : .set key v ∈ es := by
  induction es using List.reverseRecOn with
  | nil => rcases h with h | h <;> cases h
  | append_singleton es e ih =>
    rw [after_snoc] at h
    have old : (after es).mem key = some v ∨ (after es).flash key = some v → TierEvent.set key v ∈ es ++ [e] :=
      fun hv => List.mem_append_left _ (ih hv)
    cases e with
    | set k w =>
      by_cases hk : key = k
      · subst hk
        rcases h with h | h
        · simp only [step, Function.update_self, Option.some.injEq] at h
          simp [h]
        · exact old (.inr h)
      · simp only [step, Function.update_of_ne hk] at h
        exact old h
    | get k =>
      rw [step, promote] at h
      cases hmem : (after es).mem k with
      | some w =>
        simp only [hmem] at h
        exact old h
      | none =>
        cases hflash : (after es).flash k with
        | none =>
          simp only [hmem, hflash] at h
          exact old h
        | some w =>
          simp only [hmem, hflash] at h
          by_cases hk : key = k
          · subst hk
            simp only [Function.update_self, Option.some.injEq, reduceCtorEq, or_false] at h
            exact old (.inr (h ▸ hflash))
          · simp only [Function.update_of_ne hk] at h
            exact old h
    | flush k =>
      rw [step, flush] at h
      cases hmem : (after es).mem k with
      | none =>
        simp only [hmem] at h
        exact old h
      | some w =>
        simp only [hmem, MapEvent.keep] at h
        by_cases hk : key = k
        · subst hk
          simp only [Function.update_self, Option.some.injEq, reduceCtorEq, false_or] at h
          -- the value of the slow tier stays, if it has one
          cases hflash : (after es).flash key with
          | none =>
            rw [hflash, Option.getD_none] at h
            exact old (.inl (h ▸ hmem))
          | some u =>
            rw [hflash, Option.getD_some] at h
            exact old (.inr (h ▸ hflash))
        · simp only [Function.update_of_ne hk] at h
          exact old h

/-! ### What was done to the slow tier -/

/-- What happens to the slow tier. -/
def moved (t : TwoTier K V) : TierEvent K V → Option (MapEvent K V)
  | .set _ _ => none
  | .get key =>
    match t.mem key, t.flash key with
    | none, some _ => some (.del key)
    | _, _ => none
  | .flush key => (t.mem key).map (.put key)

/-- **The history of the slow tier.** -/
def ledger (t : TwoTier K V) : List (TierEvent K V) → List (MapEvent K V)
  | [] => []
  | e :: es => (t.moved e).toList ++ ledger (t.step e) es

theorem ledger_snoc (es : List (TierEvent K V)) (e : TierEvent K V) :
    ledger empty (es ++ [e]) = ledger empty es ++ ((after es).moved e).toList := by
  rw [after]
  generalize empty = t
  induction es generalizing t with
  | nil => simp [ledger]
  | cons e' es ih => rw [List.cons_append, ledger, ledger, ih, List.append_assoc, List.foldl_cons]

/-- What an event does to the slow tier is what its history says. -/
theorem flash_step (t : TwoTier K V) (e : TierEvent K V) :
    (t.step e).flash = (t.moved e).elim t.flash (MapEvent.keep t.flash) := by
  cases e with
  | set key value => rfl
  | get key =>
    rw [step, promote, moved]
    cases t.mem key with
    | some v => rfl
    | none => cases t.flash key <;> rfl
  | flush key =>
    rw [step, flush, moved]
    cases t.mem key <;> rfl

/-- **The slow tier is what its history leaves.** -/
theorem kept_ledger (es : List (TierEvent K V)) : kept (ledger empty es) = (after es).flash := by
  induction es using List.reverseRecOn with
  | nil => rfl
  | append_singleton es e ih =>
    rw [ledger_snoc, after_snoc, flash_step, ← ih]
    cases (after es).moved e with
    | none => rw [Option.toList_none, List.append_nil, Option.elim_none]
    | some m => rw [Option.toList_some, kept_snoc, Option.elim_some]

omit [DecidableEq K] in
/-- What is put into the slow tier is what the fast one has. -/
theorem moved_eq_put {t : TwoTier K V} {e : TierEvent K V} {key : K} {v : V} (h : t.moved e = some (.put key v)) :
    e = .flush key ∧ t.mem key = some v := by
  cases e with
  | set k w => cases h
  | get k =>
    rw [moved] at h
    split at h <;> cases h
  | flush k =>
    obtain ⟨w, hw, heq⟩ := Option.map_eq_some_iff.mp h
    obtain ⟨rfl, rfl⟩ := MapEvent.put.inj heq
    exact ⟨rfl, hw⟩

/-- **What was put into the slow tier** was set, and flushed. -/
theorem set_of_put {es : List (TierEvent K V)} {key : K} {v : V} (h : .put key v ∈ ledger empty es) :
    .set key v ∈ es ∧ .flush key ∈ es := by
  induction es using List.reverseRecOn with
  | nil => cases h
  | append_singleton es e ih =>
    rw [ledger_snoc, List.mem_append, Option.mem_toList] at h
    rcases h with h | h
    · exact ⟨List.mem_append_left _ (ih h).1, List.mem_append_left _ (ih h).2⟩
    · obtain ⟨rfl, hmem⟩ := moved_eq_put h
      exact ⟨List.mem_append_left _ (set_of_value (.inl hmem)), by simp⟩

/-- **A key that was set** is in the fast tier, or was put into the slow one. -/
theorem put_of_set {es : List (TierEvent K V)} {key : K} {v : V} (h : .set key v ∈ es) :
    (after es).mem key ≠ none ∨ ∃ w, .put key w ∈ ledger empty es := by
  induction es using List.reverseRecOn with
  | nil => cases h
  | append_singleton es e ih =>
    rw [after_snoc, ledger_snoc]
    have keep : (∃ w, .put key w ∈ ledger empty es) →
        ∃ w, .put key w ∈ ledger empty es ++ ((after es).moved e).toList :=
      fun ⟨w, hw⟩ => ⟨w, List.mem_append_left _ hw⟩
    cases e with
    | set k w =>
      by_cases hk : key = k
      · exact .inl (by simp [step, hk])
      · refine (ih (by simpa [hk] using h)).imp (fun hmem => ?_) keep
        simp only [step, Function.update_of_ne hk]
        exact hmem
    | get k =>
      refine (ih (by simpa using h)).imp (fun hmem => ?_) keep
      rw [step, promote]
      split
      · by_cases hk : key = k
        · simp [hk]
        · simp only [Function.update_of_ne hk]
          exact hmem
      · exact hmem
    | flush k =>
      rcases ih (by simpa using h) with hmem | hput
      · obtain ⟨w, hw⟩ := Option.ne_none_iff_exists'.mp hmem
        by_cases hk : key = k
        · -- it is flushed
          exact .inr ⟨w, List.mem_append_right _ (by simp [moved, ← hk, hw])⟩
        · refine .inl ?_
          rw [step, flush]
          split
          · exact hmem
          · simp only [Function.update_of_ne hk]
            exact hmem
      · exact .inr (keep hput)

end TwoTier

end EmbeddedKv.Library
