import Mathlib.Order.WellFounded
import Mimidb.Run

/-!
# Simulations

A run of one transition function is a run of another one when each step leads
over steps of the other one to related states again. Both runs are kept with
their actions, so that what a simulation says of the second run can be said of
the actions of the first. No run is endless whose steps lower a rank.
-/

namespace Mimidb

variable {σ σ' α β : Type*}

/-- A run with its actions. -/
inductive Steps (step : σ → α → Option σ) (C : σ → α → Prop) : σ → List α → σ → Prop where
  | nil {s : σ} : Steps step C s [] s
  | cons {s t u : σ} {a : α} {as : List α} :
      C s a → step s a = some t → Steps step C t as u → Steps step C s (a :: as) u

/-- The actions that the actions of a run stand for. -/
def traceOf (step : σ → α → Option σ) (ops : σ → α → List β) : σ → List α → List β
  | _, [] => []
  | s, a :: as => ops s a ++ match step s a with
    | none => []
    | some t => traceOf step ops t as

namespace Steps

variable {step : σ → α → Option σ} {C : σ → α → Prop} {s t u : σ} {as bs : List α}

theorem single {a : α} (hc : C s a) (hs : step s a = some t) : Steps step C s [a] t := .cons hc hs .nil

theorem append (h : Steps step C s as t) (h' : Steps step C t bs u) : Steps step C s (as ++ bs) u := by
  induction h with
  | nil => exact h'
  | cons hc hs _ ih => exact .cons hc hs (ih h')

theorem split (h : Steps step C s (as ++ bs) u) : ∃ t, Steps step C s as t ∧ Steps step C t bs u := by
  induction as generalizing s with
  | nil => exact ⟨s, .nil, h⟩
  | cons a as ih =>
    cases h with
    | cons hc hs h =>
      obtain ⟨t, ht, htu⟩ := ih h
      exact ⟨t, .cons hc hs ht, htu⟩

theorem reach (h : Steps step C s as t) : Reach step C s t := by
  induction h with
  | nil => exact .refl
  | cons hc hs _ ih => exact (Reach.refl.tail _ hc hs).trans ih

theorem mono {C' : σ → α → Prop} (hC : ∀ s a, C s a → C' s a) (h : Steps step C s as t) : Steps step C' s as t := by
  induction h with
  | nil => exact .nil
  | cons hc hs _ ih => exact .cons (hC _ _ hc) hs ih

theorem of_guarded [∀ s a, Decidable (C s a)] (h : exec (guarded C step) s as = some t) : Steps step C s as t := by
  induction as generalizing s with
  | nil =>
    cases h
    exact .nil
  | cons a as ih =>
    obtain ⟨u, hu, h⟩ := Option.bind_eq_some_iff.1 h
    unfold guarded at hu
    split_ifs at hu with hc
    exact .cons hc hu (ih h)

theorem of_exec (h : exec step s as = some t) : Steps step anyStep s as t := by
  induction as generalizing s with
  | nil =>
    cases h
    exact .nil
  | cons a as ih =>
    obtain ⟨u, hu, h⟩ := Option.bind_eq_some_iff.1 h
    exact .cons trivial hu (ih h)

theorem exec_eq (h : Steps step C s as t) : exec step s as = some t := by
  induction h with
  | nil => rfl
  | cons _ hs _ ih =>
    unfold exec
    rw [hs]
    exact ih

theorem exec_guarded [∀ s a, Decidable (C s a)] (h : Steps step C s as t) :
    exec (guarded C step) s as = some t := by
  induction h with
  | nil => rfl
  | cons hc hs _ ih =>
    unfold exec guarded
    rw [if_pos hc, hs]
    exact ih

theorem avoid {ops : σ → α → List β} {b : β} (h : Steps step C s as t) (hb : b ∉ traceOf step ops s as) :
    Steps step (fun s a => C s a ∧ b ∉ ops s a) s as t := by
  induction h with
  | nil => exact .nil
  | cons hc hs _ ih =>
    rw [traceOf, hs, List.mem_append, not_or] at hb
    exact .cons ⟨hc, hb.1⟩ hs (ih hb.2)

/-- Forward simulation. -/
theorem simulates {step' : σ' → β → Option σ'} {C' : σ' → β → Prop} {R : σ → σ' → Prop} {ops : σ → α → List β}
    (hR : ∀ s s' a t, R s s' → C s a → step s a = some t → ∃ t', Steps step' C' s' (ops s a) t' ∧ R t t')
    (h : Steps step C s as t) {s' : σ'} (h0 : R s s') :
    ∃ t', Steps step' C' s' (traceOf step ops s as) t' ∧ R t t' := by
  induction h generalizing s' with
  | nil => exact ⟨s', .nil, h0⟩
  | cons hc hs _ ih =>
    obtain ⟨u', hu, h1⟩ := hR _ _ _ _ h0 hc hs
    obtain ⟨t', ht, h2⟩ := ih h1
    refine ⟨t', ?_, h2⟩
    rw [traceOf, hs]
    exact hu.append ht

end Steps

/-! ## Runs that end -/

def Endless (step : σ → α → Option σ) (C : σ → α → Prop) (run : ℕ → σ) : Prop :=
  ∀ n, ∃ a, C (run n) a ∧ step (run n) a = some (run (n + 1))

theorem not_endless [LT β] [WellFoundedLT β] {step : σ → α → Option σ} {C : σ → α → Prop} {I : σ → Prop}
    {rank : σ → β} (hI : ∀ s a t, I s → C s a → step s a = some t → I t ∧ rank t < rank s) {run : ℕ → σ}
    (h0 : I (run 0)) :
    ¬ Endless step C run := by
  intro hrun
  have hinv : ∀ n, I (run n) := fun n => by
    induction n with
    | zero => exact h0
    | succ n ih =>
      obtain ⟨a, hc, hs⟩ := hrun n
      exact (hI _ a _ ih hc hs).1
  have hdown : ∀ n, rank (run (n + 1)) < rank (run n) := fun n => by
    obtain ⟨a, hc, hs⟩ := hrun n
    exact (hI _ a _ (hinv n) hc hs).2
  exact (wellFounded_iff_isEmpty_descending_chain.1 (wellFounded_lt (α := β))).false ⟨fun n => rank (run n), hdown⟩

end Mimidb
