import Mathlib.Data.Fintype.Defs
import Mimidb.LWLatchSound

/-!
# The assertions of the latch

`Unlock` reads the word again after its subtraction. If another worker has taken
the latch exclusively by then, the assertion that the bit is clear fails; no other
assertion of the latch can.
-/

namespace Mimidb

/-- About to check the word after the subtraction. -/
@[simp] def Pc.checkingOn {W L : Type} : Pc W L → Option L
  | .unlockCheck ℓ _ _ => some ℓ
  | _ => none

namespace Latches

variable {W L : Type} {s t : Latches W L}

/-- Nobody has taken the latch exclusively between the subtraction of `Unlock` and its check. -/
def ChecksAlone (s : Latches W L) (a : W × LatchOp L) : Prop :=
  a.2 = .run → ∀ ℓ, (s.pc a.1).checkingOn = some ℓ → ∀ v, s.held v ℓ ≠ some .Exclusive

instance [Fintype W] [Fintype L] [DecidableEq L] (s : Latches W L) (a : W × LatchOp L) :
    Decidable (ChecksAlone s a) :=
  inferInstanceAs (Decidable (_ → ∀ _, _ → ∀ _, _))

/-- A waker that has picked somebody still finds `HasWaiters`, as long as it has the list. -/
def WakeInv (s : Latches W L) : Prop :=
  ∀ u ℓ, (s.pc u).picking = some ℓ → (s.pc u).picked ≠ [] → hasFlag (s.word ℓ) LWLatchFlag.HasWaiters = true

theorem WakeInv.init : WakeInv (init : Latches W L) := fun _ _ h => nomatch h

theorem and_exclusive (x : BitVec 32) : x &&& ExclusiveLockValue = lockCount x &&& ExclusiveLockValue := by
  have hmask : LockCountMask &&& ExclusiveLockValue = ExclusiveLockValue := by decide
  unfold lockCount
  rw [BitVec.and_assoc, hmask]

theorem CountInv.exclusive_iff (hi : CountInv s) (ℓ : L) :
    s.word ℓ &&& ExclusiveLockValue = 0#32 ↔ ∀ v, s.held v ℓ ≠ some .Exclusive := by
  rw [and_exclusive]
  constructor
  · intro h v hv
    rw [hi.taken v ℓ .Exclusive hv] at h
    exact absurd h (by decide)
  · intro h
    by_cases hfree : ∀ v, s.held v ℓ = none
    · rw [hi.free ℓ hfree]
      decide
    · obtain ⟨v, hv⟩ := Classical.not_forall.1 hfree
      obtain ⟨m, hm⟩ := Option.ne_none_iff_exists'.1 hv
      cases m with
      | Share =>
        rw [hi.taken v ℓ .Share hm]
        decide
      | Exclusive => exact absurd hm (h v)

variable [DecidableEq W] [DecidableEq L]

theorem listLock_failed (w : W) (ℓ : L) (p : Pc W L) : (s.listLock w ℓ p).failed = s.failed := by
  unfold listLock
  split <;> rfl

theorem listUnlock_failed {w : W} {ℓ : L} {p : Pc W L} (h : hasFlag (s.word ℓ) LWLatchFlag.ListLocked = true) :
    (s.listUnlock w ℓ p).failed = s.failed := by
  simp [listUnlock, h]

theorem failed_step (hc : CountInv s) (hl : ListInv s) (hq : QueueInv s) (hw : WakeInv s) {a : W × LatchOp L}
    (ha : ChecksAlone s a) (h : s.step a = some t) : t.failed = s.failed := by
  obtain ⟨w, op⟩ := a
  cases op with
  | lock ℓ m =>
    simp only [Latches.step] at h
    split at h <;> cases h
    rfl
  | unlock ℓ m =>
    simp only [Latches.step] at h
    split at h
    · rename_i hp
      cases h
      cases m with
      | Share => simp
      | Exclusive =>
        have hbit : s.word ℓ &&& ExclusiveLockValue ≠ 0#32 := fun h0 => (hc.exclusive_iff ℓ).1 h0 w hp.2
        simp [hbit]
    · cases h
  | run =>
    simp only [Latches.step] at h
    cases hp : s.pc w <;> rw [hp] at h <;> simp only [runPc] at h
    case queueLock | dequeueLock | wakeLock => cases h; exact listLock_failed ..
    case queueUnlock c => cases h; exact listUnlock_failed ((hl.bit c.latch).2 ⟨w, by rw [hp]; rfl⟩)
    case dequeueUnlock c b => cases h; exact listUnlock_failed ((hl.bit c.latch).2 ⟨w, by rw [hp]; rfl⟩)
    case attemptCas c q old =>
      cases h
      unfold attemptExchange
      repeat' split
      all_goals rfl
    case unlockCheck ℓ m old =>
      cases h
      have hbit := (hc.exclusive_iff ℓ).2 (ha rfl ℓ (by rw [hp]; rfl))
      simp [hbit]
    case wakePick ℓ =>
      cases h
      have hall :
          (pickWaiters s.lockMode false (s.waiters ℓ)).1.all (fun v => s.lockState v == .Waiting) = true := by
        rw [List.all_eq_true]
        intro v hv
        have hmem : v ∈ s.waiters ℓ :=
          (pickWaiters_perm s.lockMode false (s.waiters ℓ)).subset (List.mem_append_left _ hv)
        rw [(hq.queued ℓ v hmem).2]
        rfl
      simp [hall]
    case wakeAssert ℓ ws =>
      cases h
      cases ws with
      | nil => simp
      | cons v ws =>
        have hflag := hw w ℓ (by rw [hp]; rfl) (by rw [hp]; simp)
        simp [hflag]
    case dequeueState c b => cases b <;> cases h <;> rfl
    case wakeState ℓ ws => cases ws <;> cases h <;> rfl
    all_goals
      repeat' split at h
      all_goals cases h
      all_goals rfl

theorem picking_step {w : W} {op : LatchOp L} {ℓ ℓ' : L} (h : s.step (w, op) = some t)
    (hp : (s.pc w).picking = some ℓ) (hp' : (t.pc w).picking = some ℓ') : t.word = s.word := by
  cases op with
  | lock ℓ m =>
    simp only [Latches.step] at h
    split at h <;> cases h
    rfl
  | unlock ℓ m =>
    simp only [Latches.step] at h
    split at h
    · cases h
      simp at hp'
    · cases h
  | run =>
    simp only [Latches.step] at h
    cases hpc :
      s.pc w <;> rw [hpc] at h hp <;> simp only [Pc.picking, reduceCtorEq] at hp <;> simp only [runPc] at h
    case wakeAssert | wakeLoad => cases h; rfl
    case wakeCas ℓ ws old =>
      split at h <;> cases h
      · simp at hp'
      · rfl

theorem WakeInv.step (hi : WakeInv s) (hc : CountInv s) (hl : ListInv s) (hq : QueueInv s) {a : W × LatchOp L}
    (h : s.step a = some t) : WakeInv t := by
  obtain ⟨w, op⟩ := a
  intro u ℓ hu hne
  have hpc := fun v => step_pc_ne (v := v) h
  -- the word of a worker that does not run, or of a step that writes none
  have hother : u ≠ w → hasFlag (s.word ℓ) LWLatchFlag.HasWaiters = true := by
    intro hw
    rw [hpc u hw] at hu hne
    exact hi u ℓ hu hne
  cases queue_effect hc h with
  | quiet hq hs hW hP hO hp hg hf hu' =>
    by_cases hw : u = w
    · subst hw
      have hold := hg ℓ hu
      rw [picking_step h hold hu]
      exact hi u ℓ hold (hp ▸ hne)
    · rcases hf ℓ with hf | hf | ⟨_, hin⟩
      · exact hf
      · rw [hf]
        exact hother hw
      · rw [hpc u hw] at hu
        exact absurd (hl.one u w ℓ (Pc.inList_of_picking hu) hin) hw
  | push c hp ht =>
    by_cases hw : u = w
    · subst ht hw
      simp at hu
    · subst ht
      exact hother hw
  | delete c hp hw ht =>
    by_cases hw : u = w
    · subst ht hw
      simp at hu
    · subst ht
      exact hother hw
  | pick ℓ' r hr hp ht =>
    by_cases hw : u = w
    · subst ht hw
      have hℓ : ℓ' = ℓ := by simpa using hu
      subst hℓ
      refine hq.flag ℓ' fun hnil => hne ?_
      simp [hr, hnil, pickWaiters]
    · subst ht
      exact hother hw
  | wake ℓ' v ws hp ht =>
    by_cases hw : u = w
    · subst ht hw
      simp at hu
    · subst ht
      exact hother hw
  | settle c hp ht =>
    by_cases hw : u = w
    · subst ht hw
      simp at hu
    · subst ht
      exact hother hw

/-- The invariants that the assertions follow from. -/
structure CheckInv (s : Latches W L) : Prop where
  count : CountInv s
  list : ListInv s
  queue : QueueInv s
  wake : WakeInv s
  passed : s.failed = false

omit [DecidableEq W] [DecidableEq L] in
theorem CheckInv.init : CheckInv (init : Latches W L) := ⟨.init, .init, .init, .init, rfl⟩

theorem CheckInv.step {a : W × LatchOp L} (hi : CheckInv s) (ha : ChecksAlone s a) (h : s.step a = some t) :
    CheckInv t where
  count := hi.count.step h
  list := hi.list.step hi.count h
  queue := hi.queue.step hi.count hi.list h
  wake := hi.wake.step hi.count hi.list hi.queue h
  passed := (failed_step hi.count hi.list hi.queue hi.wake ha h).trans hi.passed

/-- No assertion fails while every check of `Unlock` finds no exclusive holder. -/
theorem no_assertion_fails (h : Reach Latches.step ChecksAlone init s) : s.failed = false :=
  (h.inv (fun _ _ _ hi ha h => CheckInv.step hi ha h) CheckInv.init).passed

/-- One worker unlocks and another one locks after its check. -/
theorem lock_unlock_passes : ∃ s : Latches (Fin 2) Unit, Reach Latches.step ChecksAlone init s ∧
    (s.pc 0 = .idle ∧ s.held 1 () = some .Exclusive) ∧ s.failed = false := by
  have h : (exec (guarded ChecksAlone Latches.step) (init : Latches (Fin 2) Unit)
      ((0, .lock () .Exclusive) :: List.replicate 3 (0, .run) ++
        [(0, .unlock () .Exclusive), (0, .run), (1, .lock () .Exclusive),
        (1, .run), (1, .run)])).map (fun s => decide (s.pc 0 = .idle ∧ s.held 1 () = some .Exclusive)) =
        some true := by
    decide +kernel
  obtain ⟨s, hr, hs⟩ := reach_of_test h
  exact ⟨s, hr.of_guarded, of_decide_eq_true hs, no_assertion_fails hr.of_guarded⟩

/-- The second worker takes the latch before the first one looks at the word again. -/
theorem unlock_check_fails : ∃ s : Latches (Fin 2) Unit, Reach Latches.step anyStep init s ∧ s.failed = true := by
  have h : (exec Latches.step (init : Latches (Fin 2) Unit)
      ((0, .lock () .Exclusive) :: List.replicate 3 (0, .run) ++
        [(0, .unlock () .Exclusive), (1, .lock () .Exclusive), (1, .run),
        (1, .run), (0, .run)])).map (fun s => decide (s.failed = true)) = some true := by
    decide +kernel
  obtain ⟨s, hr, hs⟩ := reach_of_test h
  exact ⟨s, hr, of_decide_eq_true hs⟩

end Latches

end Mimidb
