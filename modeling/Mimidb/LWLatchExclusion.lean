import Mathlib.Data.Set.Card
import Mimidb.LWLatchSound

/-!
# Mutual exclusion of the latch

The count in the word is the number of the holders, an exclusive one counted
2^28 times, and an exclusive holder is alone. Taking and giving back a mode
leaves the three flags of the word as they are.
-/

namespace Mimidb

namespace Latches

variable {W L : Type} {s t : Latches W L}

def holders (s : Latches W L) (ℓ : L) (m : LockMode) : Set W := {w | s.held w ℓ = some m}

structure Excludes (s : Latches W L) (ℓ : L) : Prop where
  finite : ∀ m, (s.holders ℓ m).Finite
  count : (lockCount (s.word ℓ)).toNat = 2 ^ 28 * (s.holders ℓ .Exclusive).ncard + (s.holders ℓ .Share).ncard
  one : (s.holders ℓ .Exclusive).ncard ≤ 1
  alone : ∀ w v, s.held w ℓ = some .Exclusive → s.held v ℓ ≠ none → v = w

theorem holders_free {ℓ : L} {m : LockMode} (h : ∀ w, s.held w ℓ ≠ some m) : s.holders ℓ m = ∅ :=
  Set.eq_empty_of_forall_notMem h

theorem CountInv.holders_taken (hi : CountInv s) {w : W} {ℓ : L} {m : LockMode} (h : s.held w ℓ = some m) :
    s.holders ℓ m = {w} := by
  apply Set.eq_singleton_iff_unique_mem.2
  refine ⟨h, fun v hv => ?_⟩
  have hv' : s.held v ℓ = some m := hv
  exact hi.one v w ℓ (by rw [hv']; nofun) (by rw [h]; nofun)

theorem CountInv.holders_other (hi : CountInv s) {w : W} {ℓ : L} {m m' : LockMode} (h : s.held w ℓ = some m)
    (hne : m' ≠ m) : s.holders ℓ m' = ∅ := by
  apply holders_free
  intro v hv
  obtain rfl := hi.one v w ℓ (by rw [hv]; nofun) (by rw [h]; nofun)
  rw [h] at hv
  exact hne (Option.some.inj hv).symm

theorem CountInv.excludes (hi : CountInv s) (ℓ : L) : s.Excludes ℓ := by
  have halone : ∀ w v, s.held w ℓ = some .Exclusive → s.held v ℓ ≠ none → v = w := fun w v hw hv =>
    hi.one v w ℓ hv (by rw [hw]; nofun)
  by_cases hfree : ∀ w, s.held w ℓ = none
  · have hnone : ∀ m, s.holders ℓ m = ∅ := fun m => holders_free fun w hw => by rw [hfree w] at hw; cases hw
    refine ⟨fun m => ?_, ?_, ?_, halone⟩
    · rw [hnone]
      exact Set.finite_empty
    · rw [hi.free ℓ hfree, hnone, hnone, Set.ncard_empty]
      rfl
    · rw [hnone, Set.ncard_empty]
      exact Nat.zero_le 1
  · obtain ⟨w, hw⟩ := Classical.not_forall.1 hfree
    obtain ⟨m, hm⟩ := Option.ne_none_iff_exists'.1 hw
    have hself := hi.holders_taken hm
    have hother : ∀ m', m' ≠ m → s.holders ℓ m' = ∅ := fun m' hne => hi.holders_other hm hne
    refine ⟨fun m' => ?_, ?_, ?_, halone⟩
    · by_cases e : m' = m
      · rw [e, hself]
        exact Set.finite_singleton w
      · rw [hother m' e]
        exact Set.finite_empty
    · rw [hi.taken w ℓ m hm]
      cases m with
      | Share =>
        rw [hself, hother .Exclusive nofun, Set.ncard_singleton, Set.ncard_empty]
        rfl
      | Exclusive =>
        rw [hself, hother .Share nofun, Set.ncard_singleton, Set.ncard_empty]
        rfl
    · cases m with
      | Share =>
        rw [hother .Exclusive nofun, Set.ncard_empty]
        exact Nat.zero_le 1
      | Exclusive => rw [hself, Set.ncard_singleton]

theorem flags_eq {x y : BitVec 32} (h1 : hasFlag x LWLatchFlag.ListLocked = hasFlag y LWLatchFlag.ListLocked)
    (h2 : hasFlag x LWLatchFlag.UnlockWaiter = hasFlag y LWLatchFlag.UnlockWaiter)
    (h3 : hasFlag x LWLatchFlag.HasWaiters = hasFlag y LWLatchFlag.HasWaiters) : x >>> 29 = y >>> 29 := by
  rw [hasFlag_eq, hasFlag_eq] at h1 h2 h3
  apply BitVec.eq_of_getLsbD_eq
  intro i hi
  rw [BitVec.getLsbD_ushiftRight, BitVec.getLsbD_ushiftRight]
  by_cases hle : i < 3
  · have hcases : i = 0 ∨ i = 1 ∨ i = 2 := by omega
    rcases hcases with rfl | rfl | rfl
    · exact h1
    · exact h2
    · exact h3
  · rw [BitVec.getLsbD_of_ge _ _ (by omega), BitVec.getLsbD_of_ge _ _ (by omega)]

variable [DecidableEq W] [DecidableEq L]

/-- A step changes the holders by arithmetic on the count of one word, or not at all. -/
theorem flags_step (hi : CountInv s) {a : W × LatchOp L} (h : s.step a = some t) (hh : t.held ≠ s.held) (ℓ : L) :
    t.word ℓ >>> 29 = s.word ℓ >>> 29 := by
  obtain ⟨w, op⟩ := a
  cases count_effect h with
  | keep hh' hc => exact absurd hh' hh
  | take c queued hp hf ht =>
    subst ht
    by_cases e : ℓ = c.latch
    · subst e
      simp only [goto, setHeld, setWord, Function.update_self]
      exact flags_eq (hasFlag_take hf _) (hasFlag_take hf _) (hasFlag_take hf _)
    · simp only [goto, setHeld, setWord, Function.update_of_ne e]
  | give ℓ' m hp hh' hp' hheld hw hq hl =>
    rw [hw]
    by_cases e : ℓ = ℓ'
    · subst e
      rw [Function.update_self]
      have hc := hi.taken w ℓ m hh'
      exact flags_eq (hasFlag_give hc) (hasFlag_give hc) (hasFlag_give hc)
    · rw [Function.update_of_ne e]

theorem mutual_exclusion (h : Reach Latches.step anyStep init s) :
    (∀ ℓ, s.Excludes ℓ) ∧ ∀ a t, s.step a = some t → t.held ≠ s.held → ∀ ℓ, t.word ℓ >>> 29 = s.word ℓ >>> 29 := by
  have hi : CountInv s := h.inv (fun _ _ _ hi _ h => hi.step h) .init
  exact ⟨hi.excludes, fun a t ht hh ℓ => flags_step hi ht hh ℓ⟩

/-- One worker holds the latch while another one is in the queue. -/
theorem mutual_exclusion_queued : ∃ s : Latches (Fin 2) Unit,
    (s.held 0 () = some .Exclusive ∧ s.waiters () = [1]) ∧ ∀ ℓ, s.Excludes ℓ := by
  have h : (exec Latches.step (init : Latches (Fin 2) Unit)
      [(0, .lock () .Exclusive), (0, .run), (0, .run), (0, .run), (1, .lock () .Share), (1, .run), (1, .run),
        (1, .run),
        (1, .run), (1, .run)]).map (fun s => decide (s.held 0 () = some .Exclusive ∧ s.waiters () = [1])) =
        some true := by
    decide +kernel
  obtain ⟨s, hr, hs⟩ := reach_of_test h
  exact ⟨s, of_decide_eq_true hs, (mutual_exclusion hr).1⟩

end Latches

end Mimidb
