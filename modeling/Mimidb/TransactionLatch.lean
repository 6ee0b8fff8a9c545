import Mimidb.TransactionSound

/-!
# The mutex of the transaction table

Between two critical sections nobody has a share of the mutex, as long as no
`GetTransactionCsn` reads a transaction that is about to get its number. One
that does goes to sleep with its share, and the committing transaction never
publishes.
-/

namespace Mimidb

namespace TransManager

variable {W : Type} [DecidableEq W] {s t : TransManager W}

/-- A worker that has taken a number can publish it. -/
def CanPublish (s : TransManager W) : Prop :=
  ∀ w c, s.pc w = .commitPublish c → ∃ t, s.step (w, .run) = some t ∧ t.pc w = .commitEnd c

theorem canPublish (hi : TransInv s) (hm : s.mutex = 0) (hw : ∀ w, s.pc w ≠ .idle → s.transactions w ≠ none) :
    s.CanPublish := by
  intro w c hp
  obtain ⟨tr, htr⟩ := Option.ne_none_iff_exists'.1 (hw w (by rw [hp]; nofun))
  have hphase := hi.phase w tr htr
  rw [hp] at hphase
  exact ⟨_, publish_step hm htr hp hphase.2.1, by simp⟩

theorem busy_step {w : W} {op : TransOp} (hb : ∀ w, s.pc w ≠ .idle → s.transactions w ≠ none)
    (h : s.step (w, op) = some t) :
    ∀ v, t.pc v ≠ .idle → t.transactions v ≠ none := by
  intro v hv
  by_cases e : v = w
  · subst e
    cases op with
    | run =>
      simp only [TransManager.step, Option.bind_eq_some_iff] at h
      obtain ⟨tr, hs, h⟩ := h
      cases hp : s.pc v <;> rw [hp] at h <;> simp only [runPc, locked, eraseWorker] at h
      all_goals
        repeat' split at h
        all_goals cases h
        all_goals simp [hs] at hv ⊢
    | beginNewTransaction =>
      simp only [TransManager.step] at h
      split_ifs at h
      cases h
      simp
    | _ =>
      cases hs : s.transactions v with
      | none => simp [TransManager.step, hs] at h
      | some tr =>
        simp only [TransManager.step, hs] at h
        repeat' split at h
        all_goals cases h
        all_goals simp [hs]
  · rw [(step_ne h e).1] at hv
    rw [(step_ne h e).2]
    exact hb v hv

/-- A read that catches a committing transaction does not give its share back. -/
theorem mutex_caught {a : W × TransOp} (hc : ¬ noCatch s a) (h : s.step a = some t) : t.mutex ≠ 0 := by
  obtain ⟨w, op⟩ := a
  cases hp : s.pc w with
  | readCsn header =>
    have hcaught : s.history header.xid = CommitSeqNumber.Committing := by simpa [noCatch, hp] using hc
    cases op with
    | run =>
      simp only [TransManager.step, Option.bind_eq_some_iff, hp, runPc, hcaught, if_true, locked] at h
      obtain ⟨tr, -, h⟩ := h
      repeat' split at h
      all_goals cases h
      exact Nat.succ_ne_zero _
    | _ => simp [TransManager.step, hp] at h
  | _ => simp [noCatch, hp] at hc

/-- The mutex is balanced in every run in which no read catches a committing transaction;
and a step keeps it so exactly if it does not. -/
theorem latch_balanced (h : Reach TransManager.step (fun s a => noCatch s a ∧ noWrap s a) init s) :
    s.mutex = 0 ∧ s.CanPublish ∧ ∀ a t, s.step a = some t → (t.mutex = 0 ↔ noCatch s a) := by
  have hinv : TransInv s := inv_of_reach (h.mono fun _ _ hc => hc.2)
  have hkept : s.mutex = 0 ∧ ∀ w, s.pc w ≠ .idle → s.transactions w ≠ none :=
    h.inv (I := fun s => s.mutex = 0 ∧ ∀ w, s.pc w ≠ .idle → s.transactions w ≠ none)
      (fun _ _ _ hm hc h => ⟨mutex_step hm.1 hc.1 h, busy_step hm.2 h⟩) ⟨rfl, fun w hw => absurd rfl hw⟩
  refine ⟨hkept.1, canPublish hinv hkept.1 hkept.2, fun a t ht => ?_⟩
  by_cases hc : noCatch s a
  · exact iff_of_true (mutex_step hkept.1 hc ht) hc
  · exact iff_of_false (mutex_caught hc ht) hc

/-- Nobody publishes while a share is missing. -/
theorem blocked_step {a : W × TransOp} {w : W} {c : Nat} (hs : s.mutex ≠ 0 ∧ s.pc w = .commitPublish c)
    (h : s.step a = some t) :
    t.mutex ≠ 0 ∧ t.pc w = .commitPublish c := by
  obtain ⟨hm, hp⟩ := hs
  obtain ⟨v, op⟩ := a
  refine ⟨by rw [mutex_kept hm h]; exact hm, ?_⟩
  by_cases e : w = v
  · subst e
    cases op with
    | run =>
      simp only [TransManager.step, Option.bind_eq_some_iff, hp, runPc, locked, hm, if_false] at h
      obtain ⟨tr, -, h⟩ := h
      cases h
    | _ => simp [TransManager.step, hp] at h
  · rw [(step_ne h e).1]
    exact hp

/-- One worker commits, another one asks about an older transaction. -/
def readTrace : List (Fin 3 × TransOp) :=
  [(0, .beginNewTransaction), (0, .run), (0, .write 1 1 ⟨false, false⟩), (2, .beginNewTransaction), (2, .run),
    (1, .beginNewTransaction), (1, .run), (1, .beginNewStatement), (1, .visible firstHeader), (1, .run),
    (2, .commit), (2, .run), (2, .run)]

theorem latch_balanced_commit :
    ∃ s : TransManager (Fin 3), s.pc 2 = .commitPublish 5 ∧ s.mutex = 0 ∧ s.CanPublish := by
  have h : (exec (guarded (fun s a => noCatch s a ∧ noWrap s a) TransManager.step) (init : TransManager (Fin 3))
    readTrace).map
      (fun s => decide (s.pc 2 = .commitPublish 5)) = some true := by decide +kernel
  obtain ⟨s, hr, hs⟩ := reach_of_test h
  obtain ⟨hm, hpub, -⟩ := latch_balanced hr.of_guarded
  exact ⟨s, of_decide_eq_true hs, hm, hpub⟩

/-- The reader sleeps with a share that the committing transaction waits for, for ever. -/
theorem reader_blocks_commit : ∃ s : TransManager (Fin 2), Reach TransManager.step anyStep init s ∧
    s.mutex ≠ 0 ∧ s.pc 1 = .readCsn firstHeader ∧ s.step (0, .run) = none ∧
    ∀ t, Reach TransManager.step anyStep s t → t.pc 0 = .commitPublish 5 := by
  have h : (exec TransManager.step init (caughtTrace ++ [(0, .run)])).map (fun s => decide
      (s.mutex ≠ 0 ∧ s.pc 1 = .readCsn firstHeader ∧ s.pc 0 = .commitPublish 5)) = some true := by decide +kernel
  obtain ⟨s, hr, hs⟩ := reach_of_test h
  obtain ⟨hm, hread, hpub⟩ := of_decide_eq_true hs
  have hblocked : s.step (0, .run) = none := by
    simp only [TransManager.step, hpub, runPc, locked, hm, if_false, Option.bind_eq_none_iff]
    exact fun _ _ => trivial
  refine ⟨s, hr, hm, hread, hblocked, fun t ht => ?_⟩
  exact (ht.inv (I := fun s => s.mutex ≠ 0 ∧ s.pc 0 = .commitPublish 5) (fun _ _ _ hs _ h => blocked_step hs h)
    ⟨hm, hpub⟩).2

end TransManager

end Mimidb
