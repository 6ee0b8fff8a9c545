import Mimidb.LWLatchExclusion

/-!
# What an attempt grants

A latch for readers and writers grants the shared mode beside shared holders.
`attemptLock` tests the whole count in both modes, so a reader waits for a reader.
-/

namespace Mimidb

namespace Latches

variable {W L : Type} {s t : Latches W L}

/-- The rule of a latch for readers and writers. -/
def Grants (s : Latches W L) (ℓ : L) : LockMode → Prop
  | .Exclusive => ∀ w, s.held w ℓ = none
  | .Share => ∀ w, s.held w ℓ ≠ some .Exclusive

/-- `attemptLock` has returned true. -/
def Succeeded (s : Latches W L) (w : W) (c : LockCall L) (queued : Bool) : Prop :=
  s.pc w = if queued then .dequeueLock c else .lockDone c

theorem CountInv.count_iff (hi : CountInv s) (ℓ : L) : lockCount (s.word ℓ) = 0#32 ↔ ∀ w, s.held w ℓ = none :=
  ⟨fun h w => hi.held_none h w, hi.free ℓ⟩

theorem CountInv.not_exclusive (hi : CountInv s) {v : W} {ℓ : L} (h : s.held v ℓ = some .Share) (w : W) :
    s.held w ℓ ≠ some .Exclusive := by
  intro hw
  have he : w = v := hi.one w v ℓ (by rw [hw]; nofun) (by rw [h]; nofun)
  subst he
  rw [h] at hw
  cases hw

theorem CountInv.grants_iff (hi : CountInv s) (ℓ : L) (m : LockMode) :
    (lockCount (s.word ℓ) = 0#32 ↔ s.Grants ℓ m) ↔ m = .Exclusive ∨ ∀ v, s.held v ℓ ≠ some .Share := by
  rw [hi.count_iff]
  cases m with
  | Exclusive => exact ⟨fun _ => .inl rfl, fun _ => .rfl⟩
  | Share =>
    constructor
    · intro h
      refine .inr fun v hv => ?_
      have hfree := h.2 (hi.not_exclusive hv)
      rw [hfree v] at hv
      cases hv
    · rintro (h | h)
      · cases h
      · refine ⟨fun hfree w => by rw [hfree w]; nofun, fun hgrants w => ?_⟩
        cases hw : s.held w ℓ with
        | none => rfl
        | some m =>
          cases m with
          | Share => exact absurd hw (h w)
          | Exclusive => exact absurd hw (hgrants w)

variable [DecidableEq W] [DecidableEq L]

/-- The exchange that ends an attempt succeeds when the count is zero. -/
theorem succeeded_iff {w : W} {c : LockCall L} {queued : Bool} (hp : s.pc w = .attemptCas c queued (s.word c.latch))
    (h : s.step (w, .run) = some t) : t.Succeeded w c queued ↔ lockCount (s.word c.latch) = 0#32 := by
  unfold Latches.step at h
  simp only [hp, runPc, attemptExchange, if_true] at h
  unfold Succeeded
  by_cases hz : lockCount (s.word c.latch) = 0#32
  · rw [if_pos hz] at h
    cases h
    simp only [goto, Function.update_self, hz]
  · rw [if_neg hz] at h
    cases h
    cases queued <;> simp [hz]

theorem attempt_granted_iff (h : Reach Latches.step anyStep init s) (w : W) (c : LockCall L) (queued : Bool)
    (hp : s.pc w = .attemptCas c queued (s.word c.latch)) (t : Latches W L) (ht : s.step (w, .run) = some t) :
    (t.Succeeded w c queued ↔ s.Grants c.latch c.mode) ↔ c.mode = .Exclusive ∨
    ∀ v, s.held v c.latch ≠ some .Share := by
  have hi : CountInv s := h.inv (fun _ _ _ hi _ h => hi.step h) .init
  rw [succeeded_iff hp ht]
  exact hi.grants_iff c.latch c.mode

/-- The first attempt on a latch that nobody holds. -/
theorem free_latch_granted : ∃ s t : Latches (Fin 1) Unit, s.step (0, .run) = some t ∧
    (t.Succeeded 0 ⟨(), .Share, 0, false⟩ false ↔ s.Grants () .Share) := by
  have h : (exec Latches.step (init : Latches (Fin 1) Unit) [(0, .lock () .Share), (0, .run)]).map (fun s => decide
      (s.pc 0 = .attemptCas ⟨(), .Share, 0, false⟩ false (s.word ()) ∧ ∀ v, s.held v () ≠ some .Share)) =
      some true := by
    decide +kernel
  obtain ⟨s, hr, hs⟩ := reach_of_test h
  obtain ⟨hp, hshare⟩ := of_decide_eq_true hs
  have ht : s.step (0, .run) = some (s.attemptExchange 0 ⟨(), .Share, 0, false⟩ false (s.word ())) := by
    unfold Latches.step
    simp only [hp, runPc]
  exact ⟨s, _, ht, (attempt_granted_iff hr 0 ⟨(), .Share, 0, false⟩ false hp _ ht).2 (.inr hshare)⟩

/-- The second reader sleeps and cannot go on, while only the first one holds the latch. -/
theorem reader_blocks_reader : ∃ s : Latches (Fin 2) Unit, Reach Latches.step anyStep init s ∧
    (s.held 0 () = some .Share ∧ s.held 1 () = none) ∧ s.pc 1 = .sleep ⟨(), .Share, 1, false⟩ ∧
    s.step (1, .run) = none := by
  have h : (exec Latches.step (init : Latches (Fin 2) Unit)
      ((0, .lock () .Share) :: List.replicate 3 (0, .run) ++ (1, .lock () .Share) :: List.replicate 10
        (1, .run))).map
        (fun s => decide ((s.held 0 () = some .Share ∧ s.held 1 () = none) ∧ s.pc 1 =
          .sleep ⟨(), .Share, 1, false⟩ ∧
          s.sema 1 = 0)) = some true := by
    decide +kernel
  obtain ⟨s, hr, hs⟩ := reach_of_test h
  obtain ⟨hheld, hp, hsema⟩ := of_decide_eq_true hs
  refine ⟨s, hr, hheld, hp, ?_⟩
  unfold Latches.step
  simp only [hp, runPc, hsema, if_true]

end Latches

end Mimidb
