import Mathlib.Algebra.Order.Ring.Nat
import Mathlib.Data.List.Basic
import Mathlib.Logic.Function.Basic

/-!
# Runs of a labelled transition function

`step s a` is the state after action `a`, or `none` when `a` is not enabled
in `s`. `Reach step C s t` says that some run leads from `s` to `t` in which
every step meets the condition `C` on the state before it and its action.
-/

namespace Mimidb

variable {σ α : Type*}

inductive Reach (step : σ → α → Option σ) (C : σ → α → Prop) (s : σ) : σ → Prop where
  | refl : Reach step C s s
  | tail {t u : σ} (a : α) : Reach step C s t → C t a → step t a = some u → Reach step C s u

/-- The condition that every step meets. -/
def anyStep : σ → α → Prop := fun _ _ => True

section
variable {step : σ → α → Option σ} {C : σ → α → Prop}

theorem Reach.mono {C' : σ → α → Prop} (hC : ∀ s a, C s a → C' s a) {s t : σ}
    (h : Reach step C s t) : Reach step C' s t := by
  induction h with
  | refl => exact .refl
  | tail a _ ha hs ih => exact .tail a ih (hC _ _ ha) hs

theorem Reach.any {s t : σ} (h : Reach step C s t) : Reach step anyStep s t :=
  h.mono fun _ _ _ => trivial

theorem Reach.trans {s t u : σ} (h : Reach step C s t) (h' : Reach step C t u) :
    Reach step C s u := by
  induction h' with
  | refl => exact h
  | tail a _ ha hs ih => exact .tail a ih ha hs

/-- An invariant that every admitted step keeps holds in every state reached. -/
theorem Reach.inv {I : σ → Prop} (hI : ∀ s a t, I s → C s a → step s a = some t → I t)
    {s t : σ} (h : Reach step C s t) (h0 : I s) : I t := by
  induction h with
  | refl => exact h0
  | tail a _ ha hs ih => exact hI _ a _ ih ha hs

end

/-- Run the actions of a list in order. -/
def exec (step : σ → α → Option σ) : σ → List α → Option σ
  | s, [] => some s
  | s, a :: as => (step s a).bind (exec step · as)

theorem reach_of_exec {step : σ → α → Option σ} {s t : σ} :
    ∀ {as : List α}, exec step s as = some t → Reach step anyStep s t
  | [], h => by
    simp only [exec, Option.some.injEq] at h
    subst h; exact .refl
  | a :: as, h => by
    simp only [exec, Option.bind_eq_some_iff] at h
    obtain ⟨u, hu, h⟩ := h
    exact (Reach.refl.tail a trivial hu).trans (reach_of_exec h)

/-- `step` with the condition as part of its guard, for traces that have to meet it. -/
def guarded (C : σ → α → Prop) [∀ s a, Decidable (C s a)] (step : σ → α → Option σ) (s : σ) (a : α) :
    Option σ := if C s a then step s a else none

theorem Reach.of_guarded {C : σ → α → Prop} [∀ s a, Decidable (C s a)] {step : σ → α → Option σ}
    {s t : σ} (h : Reach (guarded C step) anyStep s t) : Reach step C s t := by
  induction h with
  | refl => exact .refl
  | tail a _ _ hs ih =>
    unfold guarded at hs
    split at hs
    · rename_i hc; exact .tail a ih hc hs
    · cases hs

theorem reach_of_test {step : σ → α → Option σ} {s : σ} {as : List α} {p : σ → Bool}
    (h : (exec step s as).map p = some true) : ∃ t, Reach step anyStep s t ∧ p t = true := by
  cases hr : exec step s as with
  | none => simp [hr] at h
  | some t =>
    simp only [hr, Option.map_some, Option.some.injEq] at h
    exact ⟨t, reach_of_exec hr, h⟩

/-! ## Numbers of workers

Instances with names, which the traces of every module share. -/

instance neZero_two : NeZero (2 : Nat) := ⟨by decide⟩

instance neZero_three : NeZero (3 : Nat) := ⟨by decide⟩

instance neZero_four : NeZero (4 : Nat) := ⟨by decide⟩

end Mimidb
