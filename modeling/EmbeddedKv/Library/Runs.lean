import Mathlib.Data.List.Induction
import Mathlib.Logic.Relation

/-!
# Runs of a labelled system

A system is a relation `R s a t`: in state `s` the action `a` may lead to `t`. A
condition on steps, `C s a`, names the steps a result is about; it looks at the
state before the step and at the action only. `Reach R C` is reachability by steps
that all meet the condition. `Run R C` keeps the actions taken, oldest first, so that
a result can speak of the history, and so can its condition.

The rules are the two inductions: what holds at the start and is preserved by every
step that meets the condition holds in every state reached (`Reach.invariant`), and
the same for properties of the history and the state (`Run.invariant`). `Occurs` says that
something has happened in a history.
-/

namespace EmbeddedKv.Library

open Relation

variable {σ α : Type*}

/-- One step that meets the condition. -/
def Guarded (R : σ → α → σ → Prop) (C : σ → α → Prop) (s t : σ) : Prop := ∃ a, C s a ∧ R s a t

/-- Reachability by steps that all meet the condition. -/
def Reach (R : σ → α → σ → Prop) (C : σ → α → Prop) : σ → σ → Prop := ReflTransGen (Guarded R C)

/-- No condition on the steps. -/
def Always (_ : σ) (_ : α) : Prop := True

namespace Reach

variable {R : σ → α → σ → Prop} {C D : σ → α → Prop}

theorem refl (s : σ) : Reach R C s s := ReflTransGen.refl

/-- One more step. -/
theorem step {s t u : σ} (h : Reach R C s t) {a : α} (hc : C t a) (hr : R t a u) : Reach R C s u :=
  ReflTransGen.tail h ⟨a, hc, hr⟩

/-- **Invariants**: what holds at the start and is preserved by every step that
meets the condition holds in every state reached. -/
theorem invariant {P : σ → Prop} {s₀ s : σ} (h : Reach R C s₀ s) (init : P s₀)
    (step : ∀ s a t, P s → C s a → R s a t → P t) : P s := by
  induction h with
  | refl => exact init
  | tail _ hs ih =>
    obtain ⟨a, hc, hr⟩ := hs
    exact step _ a _ ih hc hr

/-- A weaker condition allows the same runs. -/
theorem mono {s t : σ} (h : Reach R C s t) (hCD : ∀ s a, C s a → D s a) : Reach R D s t := by
  induction h with
  | refl => exact refl s
  | tail _ hs ih =>
    obtain ⟨a, hc, hr⟩ := hs
    exact ih.step (hCD _ a hc) hr

end Reach

/-- A run: the actions taken, oldest first, each step meeting the condition. -/
inductive Run (R : σ → α → σ → Prop) (C : List α → σ → α → Prop) : σ → List α → σ → Prop where
  /-- Nothing done. -/
  | nil (s : σ) : Run R C s [] s
  /-- One more action. -/
  | snoc {s t u : σ} {as : List α} {a : α} :
      Run R C s as t → C as t a → R t a u → Run R C s (as ++ [a]) u

/-- **Invariants of the history**: what holds of the empty history at the start and
is preserved by every step that meets the condition holds of every run. -/
theorem Run.invariant {R : σ → α → σ → Prop} {C : List α → σ → α → Prop} {P : List α → σ → Prop}
    {s₀ s : σ} {as : List α} (h : Run R C s₀ as s) (init : P [] s₀)
    (step : ∀ as s a t, P as s → C as s a → R s a t → P (as ++ [a]) t) : P as s := by
  induction h with
  | nil => exact init
  | snoc _ hc hr ih => exact step _ _ _ _ ih hc hr

/-- **Conditions that agree** on what is reached allow the same runs. -/
theorem Run.congr {R : σ → α → σ → Prop} {C D : List α → σ → α → Prop} {P : List α → σ → Prop}
    {s₀ s : σ} {as : List α} (h : Run R C s₀ as s) (init : P [] s₀)
    (step : ∀ as s a t, P as s → R s a t → P (as ++ [a]) t)
    (hCD : ∀ as s a, P as s → C as s a → D as s a) : Run R D s₀ as s := by
  have hboth : Run R D s₀ as s ∧ P as s := by
    induction h with
    | nil => exact ⟨.nil _, init⟩
    | snoc _ hc hr ih => exact ⟨.snoc ih.1 (hCD _ _ _ ih.2 hc) hr, step _ _ _ _ ih.2 hr⟩
  exact hboth.1

/-- Nothing was done. -/
theorem Run.of_nil {R : σ → α → σ → Prop} {C : List α → σ → α → Prop} {s₀ s : σ} (h : Run R C s₀ [] s) : s = s₀ := by
  generalize heq : [] = as at h
  cases h with
  | nil => rfl
  | snoc => simp at heq

/-- **The last step** of a run. -/
theorem Run.of_snoc {R : σ → α → σ → Prop} {C : List α → σ → α → Prop} {s₀ u : σ} {as : List α} {a : α}
    (h : Run R C s₀ (as ++ [a]) u) : ∃ t, Run R C s₀ as t ∧ C as t a ∧ R t a u := by
  generalize heq : as ++ [a] = bs at h
  cases h with
  | nil => simp at heq
  | snoc h hc hr =>
    obtain ⟨rfl, hlast⟩ := List.append_inj' heq rfl
    obtain rfl := List.singleton_inj.mp hlast
    exact ⟨_, h, hc, hr⟩

/-- **Something has happened**: an action was taken that meets a condition on what was done
before it. -/
def Occurs (P : List α → α → Prop) (as : List α) : Prop := ∃ before a after, as = before ++ a :: after ∧ P before a

/-- It has happened with the last action, or before. -/
theorem occurs_snoc {P : List α → α → Prop} {as : List α} {a : α} : Occurs P (as ++ [a]) ↔ Occurs P as ∨ P as a := by
  constructor
  · rintro ⟨before, b, after, hsplit, hb⟩
    induction after using List.reverseRecOn with
    | nil =>
      obtain ⟨rfl, hlast⟩ := List.append_inj' hsplit rfl
      obtain rfl := List.singleton_inj.mp hlast
      exact .inr hb
    | append_singleton after c _ =>
      rw [← List.cons_append, ← List.append_assoc] at hsplit
      obtain ⟨rfl, -⟩ := List.append_inj' hsplit rfl
      exact .inl ⟨before, b, after, rfl, hb⟩
  · rintro (⟨before, b, after, rfl, hb⟩ | ha)
    · exact ⟨before, b, after ++ [a], by simp, hb⟩
    · exact ⟨as, a, [], rfl, ha⟩

end EmbeddedKv.Library
