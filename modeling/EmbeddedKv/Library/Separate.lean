import Mathlib.Data.List.Basic

/-!
# Steps about separate parts of a state

Each step is about one part of the state or about none: it changes no other part, and whether it
succeeds and what it makes of its part depends on nothing else (`Separate`).

A run of such steps does to each part what the steps about it do alone (`Separate.split`), and
succeeds if these do (`Separate.join`). So only the order of the steps about the same part
matters (`Separate.congr`).
-/

namespace EmbeddedKv.Library

variable {σ ι L ε : Type*}

/-- **Each step is about one part**, or about none; `agree i s t` says that two states have the
same part `i`. -/
structure Separate (step : σ → L → Except ε σ) (about : L → Option ι) (agree : ι → σ → σ → Prop) : Prop where
  /-- To have the same part is an equivalence. -/
  equiv : ∀ i, Equivalence (agree i)
  /-- The other parts stay. -/
  frame : ∀ s l s' i, step s l = .ok s' → about l ≠ some i → agree i s s'
  /-- What happens to the part depends on the part only. -/
  part : ∀ i s t l s', about l = some i → agree i s t → step s l = .ok s' → ∃ t', step t l = .ok t' ∧ agree i s' t'
  /-- A step about no part succeeds in every state or in none. -/
  idle : ∀ s t l s', about l = none → step s l = .ok s' → ∃ t', step t l = .ok t'

variable {step : σ → L → Except ε σ} {about : L → Option ι} {agree : ι → σ → σ → Prop} {ls ls' : List L} {s s' t : σ}

/-- A run that succeeds begins with a step that does. -/
theorem foldlM_cons_eq_ok {l : L} :
    (l :: ls).foldlM step s = .ok s' ↔ ∃ s₁, step s l = .ok s₁ ∧ ls.foldlM step s₁ = .ok s' := by
  rw [List.foldlM_cons]
  cases step s l with
  | error e =>
    constructor
    · intro h
      cases h
    · rintro ⟨s₁, h, -⟩
      cases h
  | ok s₁ =>
    constructor
    · exact fun h => ⟨s₁, rfl, h⟩
    · rintro ⟨s₂, h, h₂⟩
      cases h
      exact h₂

variable [DecidableEq ι]

/-- The steps about a part. -/
abbrev stepsAbout (about : L → Option ι) (i : ι) (ls : List L) : List L := ls.filter fun l => decide (about l = some i)

/-- **A run does to each part** what the steps about it do. -/
theorem Separate.split (h : Separate step about agree) (hrun : ls.foldlM step s = .ok s') {i : ι} (hst : agree i s t) :
    ∃ t', (stepsAbout about i ls).foldlM step t = .ok t' ∧ agree i s' t' := by
  induction ls generalizing s t with
  | nil =>
    cases hrun
    exact ⟨t, rfl, hst⟩
  | cons l ls ih =>
    obtain ⟨s₁, hstep, hrest⟩ := foldlM_cons_eq_ok.mp hrun
    by_cases hl : about l = some i
    · obtain ⟨t₁, ht₁, hagree⟩ := h.part i s t l s₁ hl hst hstep
      obtain ⟨t', ht', hagree'⟩ := ih hrest hagree
      refine ⟨t', ?_, hagree'⟩
      rw [stepsAbout, List.filter_cons_of_pos (by simpa using hl)]
      exact foldlM_cons_eq_ok.mpr ⟨t₁, ht₁, ht'⟩
    · have hagree : agree i s₁ t := (h.equiv i).trans ((h.equiv i).symm (h.frame s l s₁ i hstep hl)) hst
      obtain ⟨t', ht', hagree'⟩ := ih hrest hagree
      refine ⟨t', ?_, hagree'⟩
      rw [stepsAbout, List.filter_cons_of_neg (by simpa using hl)]
      exact ht'

/-- **A run succeeds** if the steps about each part do, and those about none. -/
theorem Separate.join (h : Separate step about agree)
    (hparts : ∀ i, ∃ t t', agree i t s ∧ (stepsAbout about i ls).foldlM step t = .ok t')
    (hidle : ∀ l ∈ ls, about l = none → ∃ t t', step t l = .ok t') : ∃ s', ls.foldlM step s = .ok s' := by
  induction ls generalizing s with
  | nil => exact ⟨s, rfl⟩
  | cons l ls ih =>
    -- the first step succeeds
    obtain ⟨s₁, hs₁⟩ : ∃ s₁, step s l = .ok s₁ := by
      cases hl : about l with
      | none =>
        obtain ⟨t, t', ht⟩ := hidle l List.mem_cons_self hl
        exact h.idle t s l t' hl ht
      | some i =>
        obtain ⟨t, t', hst, ht⟩ := hparts i
        rw [stepsAbout, List.filter_cons_of_pos (by simpa using hl)] at ht
        obtain ⟨t₁, ht₁, -⟩ := foldlM_cons_eq_ok.mp ht
        obtain ⟨s₁, hs₁, -⟩ := h.part i t s l t₁ hl hst ht₁
        exact ⟨s₁, hs₁⟩
    have hrest : ∀ i, ∃ t t', agree i t s₁ ∧ (stepsAbout about i ls).foldlM step t = .ok t' := by
      intro i
      obtain ⟨t, t', hst, ht⟩ := hparts i
      by_cases hl : about l = some i
      · rw [stepsAbout, List.filter_cons_of_pos (by simpa using hl)] at ht
        obtain ⟨t₁, ht₁, hrest⟩ := foldlM_cons_eq_ok.mp ht
        obtain ⟨s₂, hs₂, hagree⟩ := h.part i t s l t₁ hl hst ht₁
        obtain rfl := Except.ok.inj (hs₁.symm.trans hs₂)
        exact ⟨t₁, t', hagree, hrest⟩
      · rw [stepsAbout, List.filter_cons_of_neg (by simpa using hl)] at ht
        exact ⟨t, t', (h.equiv i).trans hst (h.frame s l s₁ i hs₁ hl), ht⟩
    obtain ⟨s', hs'⟩ := ih hrest fun k hk => hidle k (List.mem_cons_of_mem _ hk)
    exact ⟨s', foldlM_cons_eq_ok.mpr ⟨s₁, hs₁, hs'⟩⟩

/-- **Only the order of the steps about the same part matters.** -/
theorem Separate.congr (h : Separate step about agree) (hext : ∀ s t, (∀ i, agree i s t) → s = t)
    (hsame : ∀ i, stepsAbout about i ls = stepsAbout about i ls')
    (hidle : ∀ l ∈ ls', about l = none → ∃ t t', step t l = .ok t') (hrun : ls.foldlM step s = .ok s') :
    ls'.foldlM step s = .ok s' := by
  obtain ⟨s₂, hrun₂⟩ : ∃ s₂, ls'.foldlM step s = .ok s₂ := by
    refine h.join (fun i => ?_) hidle
    obtain ⟨t', ht', -⟩ := h.split hrun ((h.equiv i).refl s)
    exact ⟨s, t', (h.equiv i).refl s, hsame i ▸ ht'⟩
  rw [hrun₂, hext s' s₂ fun i => ?_]
  obtain ⟨t, ht, hagree⟩ := h.split hrun ((h.equiv i).refl s)
  obtain ⟨t₂, ht₂, hagree₂⟩ := h.split hrun₂ ((h.equiv i).refl s)
  rw [hsame i] at ht
  obtain rfl := Except.ok.inj (ht.symm.trans ht₂)
  exact (h.equiv i).trans hagree ((h.equiv i).symm hagree₂)

end EmbeddedKv.Library
