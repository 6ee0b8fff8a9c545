import Mimidb.LWLatchSound

/-!
# No lost wakeup

`UnlockInv`: while the `UnlockWaiter` bit of a latch is clear, some worker
owes it: it has been picked and will set the bit on its way back. `AsleepInv`:
while somebody sleeps in the queue, the latch is taken, or a releaser is
going to pick, or a woken worker is going to try again. Both need that no
wakeup pass finds the queue empty (`wakesSome`).
-/

namespace Mimidb

variable {W L : Type}

namespace Pc

theorem tryingOn_of_waitingOn {p : Pc W L} {ℓ : L} (h : p.waitingOn = some ℓ) :
    p.tryingOn = some ℓ ∨ p.dequeuingOn = some ℓ ∧ p.inList = none := by
  cases p with
  | attemptLoad c q | attemptCas c q _ => cases q <;> simp_all
  | sleep c | awake c | dequeueLock c => simp_all
  | _ => cases h

theorem retryingOn_of_allowsOn {p : Pc W L} {ℓ : L} (h : p.allowsOn = some ℓ) :
    p.retryingOn = some ℓ ∨ p.dequeuingOn = some ℓ := by
  cases p <;> simp_all
  all_goals rename_i b; cases b <;> simp_all

theorem releasingOn_of_willPick {p : Pc W L} {ℓ : L} (h : p.willPick = some ℓ) :
    p.releasingOn = some ℓ := by
  cases p <;> simp_all

end Pc

namespace Latches

/-- `u` will set the `UnlockWaiter` bit of `ℓ`. -/
def owes (s : Latches W L) (ℓ : L) (u : W) : Prop :=
  ((s.pc u).waitingOn = some ℓ ∨ ∃ c, s.pc u = .dequeueDelete c ∧ c.latch = ℓ) ∧
    s.lockState u ≠ .Waiting ∨ (s.pc u).allowsOn = some ℓ

/-- `u` was woken and has not yet made the attempt that follows. -/
def woken (s : Latches W L) (ℓ : L) (u : W) : Prop :=
  (s.pc u).tryingOn = some ℓ ∧ s.lockState u ≠ .Waiting ∨ (s.pc u).retryingOn = some ℓ

/-- A free latch, nobody on the way to wake or to try again, and a sleeper in the queue. -/
def LostWakeup (s : Latches W L) (ℓ : L) : Prop :=
  lockCount (s.word ℓ) = 0#32 ∧ (∀ u, (s.pc u).releasingOn ≠ some ℓ) ∧ (∀ u, ¬ s.woken ℓ u) ∧
    ∃ w c, w ∈ s.waiters ℓ ∧ s.pc w = .sleep c ∧ s.sema w = 0

instance [DecidableEq L] (s : Latches W L) (ℓ : L) (u : W) : Decidable (s.woken ℓ u) :=
  inferInstanceAs (Decidable (_ ∨ _))

/-- A worker that starts to pick finds somebody in the queue. -/
def wakesSome (s : Latches W L) (a : W × LatchOp L) : Prop :=
  (match s.pc a.1 with
    | .wakePick ℓ => !(s.waiters ℓ).isEmpty
    | _ => true) = true

instance (s : Latches W L) (a : W × LatchOp L) : Decidable (wakesSome s a) :=
  inferInstanceAs (Decidable (_ = true))

/-- A worker in `dequeueSelf` owns the latch. -/
def DequeueInv (s : Latches W L) : Prop :=
  ∀ w ℓ, (s.pc w).dequeuingOn = some ℓ → s.held w ℓ ≠ none

/-- A waker has picked somebody. -/
def PickInv (s : Latches W L) : Prop := ∀ w ℓ, (s.pc w).picking = some ℓ → (s.pc w).picked ≠ []

def UnlockInv (s : Latches W L) : Prop :=
  ∀ ℓ, hasFlag (s.word ℓ) LWLatchFlag.UnlockWaiter = false → ∃ u, s.owes ℓ u

def AsleepInv (s : Latches W L) : Prop :=
  ∀ ℓ, ∀ w ∈ s.waiters ℓ, (s.pc w).asleepOn = some ℓ →
    lockCount (s.word ℓ) ≠ 0#32 ∨ (∃ u, (s.pc u).willPick = some ℓ) ∨ ∃ u, s.woken ℓ u

section
variable [DecidableEq W] [DecidableEq L]

theorem dequeuing_step {s t : Latches W L} {w : W} {op : LatchOp L} (h : s.step (w, op) = some t)
    {ℓ : L} (hd : (t.pc w).dequeuingOn = some ℓ) :
    (s.pc w).dequeuingOn = some ℓ ∨ ∃ m, t.held w ℓ = some m := by
  cases op with
  | lock ℓ m =>
    simp only [Latches.step] at h
    split at h <;> cases h
    simp at hd
  | unlock ℓ m =>
    simp only [Latches.step] at h
    split at h <;> cases h
    simp at hd
  | run =>
    simp only [Latches.step] at h
    cases hp : s.pc w <;> rw [hp] at h <;> simp only [runPc] at h
    case dequeueState c b => cases b <;> cases h <;> simp at hd
    case wakeState ℓ ws => cases ws <;> cases h <;> simp at hd
    case dequeueDelete c => split at h <;> cases h <;> left <;> simpa using hd
    case dequeueFlag c b => split at h <;> cases h <;> left <;> simpa using hd
    case dequeueUnlock c b => cases h; left; simpa [listUnlock] using hd
    case dequeueLock c =>
      simp only [listLock] at h
      split at h <;> cases h
      · left; rwa [hp] at hd
      · left; simpa using hd
    case queueLock c | wakeLock ℓ =>
      simp only [listLock] at h
      split at h <;> cases h
      · rw [hp] at hd; simp at hd
      · simp at hd
    case attemptCas c q old =>
      cases h
      unfold attemptExchange at hd ⊢
      split at hd
      · split at hd
        · rename_i hw hz
          cases q with
          | false => simp at hd
          | true =>
            right
            have e : c.latch = ℓ := by simpa using hd
            subst e
            exact ⟨c.mode, by simp [hw, hz]⟩
        · cases q <;> simp at hd
      · simp at hd
    case unlockCheck ℓ m old => cases h; split at hd <;> simp at hd
    all_goals
      repeat' split at h
      all_goals cases h
      all_goals simp [listUnlock] at hd

theorem DequeueInv.step {s t : Latches W L} {a : W × LatchOp L} (hi : DequeueInv s)
    (h : s.step a = some t) : DequeueInv t := by
  obtain ⟨w, op⟩ := a
  intro v ℓ hv
  by_cases ev : v = w
  · subst ev
    rcases dequeuing_step h hv with hs | ⟨m, hm⟩
    · have hh := hi v ℓ hs
      cases count_effect h with
      | keep hh' _ => rwa [hh']
      | take c q hp hf ht => simp [hp] at hs
      | give ℓ' m hp => simp [hp] at hs
    · simp [hm]
  · rw [step_pc_ne h ev] at hv
    have hh := hi v ℓ hv
    cases count_effect h with
    | keep hh' _ => rwa [hh']
    | take c q hp hf ht => subst ht; simpa [ev] using hh
    | give ℓ' m hp hm hp' hh' => rw [hh']; simpa [ev] using hh

/-! ## The `UnlockWaiter` bit -/

/-- What a step of `w` does to the `UnlockWaiter` bit of `ℓ` and to what `w` owes it. -/
inductive UnlockEffect (s t : Latches W L) (w : W) (ℓ : L) : Prop where
  | set (hb : hasFlag (t.word ℓ) LWLatchFlag.UnlockWaiter = true)
  | keep (hb : hasFlag (t.word ℓ) LWLatchFlag.UnlockWaiter =
      hasFlag (s.word ℓ) LWLatchFlag.UnlockWaiter) (ho : s.owes ℓ w → t.owes ℓ w)
  | clear (ws : List W) (hp : s.pc w = .wakeCas ℓ ws (s.word ℓ)) (hp' : t.pc w = .wakeState ℓ ws)

theorem UnlockEffect.allow {s : Latches W L} {w : W} {ℓ₀ : L} {p : Pc W L}
    (hp : ∀ ℓ, s.owes ℓ w → ℓ = ℓ₀) (ℓ : L) :
    UnlockEffect s ((s.setWord ℓ₀ (s.word ℓ₀ ||| LWLatchFlag.UnlockWaiter)).goto w p) w ℓ := by
  by_cases e : ℓ = ℓ₀
  · subst e; exact .set (by simp)
  · exact .keep (by simp [e]) fun h => absurd (hp ℓ h) e

theorem listLock_unlock (s : Latches W L) {w : W} {ℓ₀ : L} {p : Pc W L} (ℓ : L)
    (ho : s.owes ℓ w → (s.setWord ℓ₀ (s.word ℓ₀ ||| LWLatchFlag.ListLocked) |>.goto w p).owes ℓ w) :
    UnlockEffect s (s.listLock w ℓ₀ p) w ℓ := by
  unfold listLock
  split
  · exact .keep rfl id
  · exact .keep (by simp [hasFlag_update]) ho

theorem unlock_effect {s t : Latches W L} {w : W} {op : LatchOp L} (hc : CountInv s)
    (h : s.step (w, op) = some t) (ℓ : L) : UnlockEffect s t w ℓ := by
  cases op with
  | lock ℓ m =>
    simp only [Latches.step] at h
    split at h <;> cases h
    rename_i hp
    exact .keep rfl (by simp [owes, hp])
  | unlock ℓ m =>
    simp only [Latches.step] at h
    split at h <;> cases h
    rename_i hp
    exact .keep (by simp [hasFlag_update, hasFlag_give (hc.taken w ℓ m hp.2)]) (by simp [owes, hp.1])
  | run =>
    simp only [Latches.step] at h
    cases hp : s.pc w <;> rw [hp] at h <;> simp only [runPc] at h
    case allowWake c =>
      cases h
      exact .allow (fun ℓ => by simp [owes, hp, eq_comm]) ℓ
    case dequeueState c b =>
      cases b <;> cases h
      · exact .allow (fun ℓ => by simp [owes, hp, eq_comm]) ℓ
      · exact .keep rfl (by simp [owes, hp])
    case wakeState ℓ ws => cases ws <;> cases h <;> exact .keep rfl (by simp [owes, hp])
    case wakeCas ℓ₀ ws old =>
      split at h <;> cases h
      · rename_i he
        subst he
        by_cases e : ℓ = ℓ₀
        · subst e; exact .clear ws hp (by simp)
        · exact .keep (by simp [e]) (by simp [owes, hp])
      · exact .keep rfl (by simp [owes, hp])
    case attemptLoad c q => cases h; exact .keep rfl (by cases q <;> simp [owes, hp])
    case attemptCas c q old =>
      cases h
      unfold attemptExchange
      split
      · rename_i he
        subst he
        split
        · rename_i hz
          exact .keep (by simp [hasFlag_update, hasFlag_take hz]) (by cases q <;> simp [owes, hp])
        · exact .keep rfl (by cases q <;> simp [owes, hp])
      · exact .keep rfl (by cases q <;> simp [owes, hp])
    case dequeueDelete c =>
      split at h <;> cases h
      · rename_i hl; exact .keep rfl (by simp [owes, hp, hl])
      · exact .keep rfl (by simp +contextual [owes, hp])
    case dequeueFlag c b =>
      split at h <;> cases h
      · exact .keep (by simp [hasFlag_update]) (by cases b <;> simp [owes, hp])
      · exact .keep rfl (by cases b <;> simp [owes, hp])
    case dequeueUnlock c b =>
      cases h
      exact .keep (by simp [listUnlock, hasFlag_update]) (by cases b <;> simp [owes, hp, listUnlock])
    case awake c =>
      split at h <;> cases h <;> exact .keep rfl (by simp +contextual [owes, hp])
    case unlockCheck ℓ m old => cases h; exact .keep rfl (by simp [owes, hp])
    case queueLock c | dequeueLock c | wakeLock ℓ₀ =>
      cases h
      exact listLock_unlock s ℓ (by simp [owes, hp])
    all_goals
      repeat' split at h
      all_goals cases h
      all_goals exact .keep (by simp [hasFlag_update, listUnlock]) (by simp [owes, hp])

/-- Only its own worker makes a lock state `Waiting`. -/
theorem lockState_step {s t : Latches W L} {w v : W} {op : LatchOp L} (hc : CountInv s)
    (h : s.step (w, op) = some t) (hv : v ≠ w) (hs : s.lockState v ≠ .Waiting) :
    t.lockState v ≠ .Waiting := by
  cases queue_effect hc h with
  | quiet _ hl => rwa [hl]
  | push c _ ht => subst ht; simpa [hv] using hs
  | delete c _ _ ht => subst ht; simpa using hs
  | pick ℓ r _ _ ht => subst ht; simp only [goto, setWaiters, setPending, check]; split <;> simp [hs]
  | wake ℓ u ws _ ht =>
    subst ht
    by_cases e : v = u
    · simp [e]
    · simpa [e] using hs
  | settle c _ ht => subst ht; simpa [hv] using hs

theorem owes_of_ne {s t : Latches W L} {w v : W} {op : LatchOp L} (hc : CountInv s)
    (h : s.step (w, op) = some t) (hv : v ≠ w) {ℓ : L} (ho : s.owes ℓ v) : t.owes ℓ v := by
  unfold owes at ho ⊢
  rw [step_pc_ne h hv]
  exact ho.imp_left fun ⟨hp, hs⟩ => ⟨hp, lockState_step hc h hv hs⟩

theorem PickInv.step {s t : Latches W L} {a : W × LatchOp L} (hi : PickInv s) (hc : CountInv s)
    (hs : wakesSome s a) (h : s.step a = some t) : PickInv t := by
  obtain ⟨w, op⟩ := a
  intro v ℓ hv
  by_cases ev : v = w
  · subst ev
    cases queue_effect hc h with
    | quiet _ _ _ _ _ hp hg => rw [hp]; exact hi v ℓ (hg ℓ hv)
    | push c _ ht => subst ht; simp at hv
    | delete c _ _ ht => subst ht; simp at hv
    | pick ℓ₀ r hr hp ht =>
      subst ht
      have hs : s.waiters ℓ₀ ≠ [] := by simpa [wakesSome, hp] using hs
      simpa [hr] using pickWaiters_some s.lockMode hs
    | wake _ _ _ _ ht => subst ht; simp at hv
    | settle c _ ht => subst ht; simp at hv
  · rw [step_pc_ne h ev] at hv ⊢
    exact hi v ℓ hv

theorem UnlockInv.step {s t : Latches W L} {a : W × LatchOp L} (hi : UnlockInv s)
    (hc : CountInv s) (hq : QueueInv s) (hk : PickInv s) (h : s.step a = some t) : UnlockInv t := by
  obtain ⟨w, op⟩ := a
  intro ℓ hb
  cases unlock_effect hc h ℓ with
  | set hb' => rw [hb'] at hb; cases hb
  | keep hb' ho =>
    obtain ⟨u, hu⟩ := hi ℓ (hb' ▸ hb)
    refine ⟨u, ?_⟩
    by_cases e : u = w
    · subst e; exact ho hu
    · exact owes_of_ne hc h e hu
  | clear ws hp hp' =>
    -- one of the picked workers is outside the list and no longer `Waiting`
    obtain ⟨v, hv⟩ := List.exists_mem_of_ne_nil _ (hk w ℓ (by simp [hp]))
    have hw := hq.picking w ℓ (by simp [hp]) v hv
    have ev : v ≠ w := fun e => by rw [e, hp] at hw; simp at hw
    refine ⟨v, owes_of_ne hc h ev (.inl ⟨.inl hw, ?_⟩)⟩
    rw [(hq.pending w v hv).1]
    simp

/-! ## The sleepers -/

/-- What a step of `w` does to its part in the wakeups of `ℓ`, when the latch is free after it. -/
structure AsleepEffect (s t : Latches W L) (w : W) (ℓ : L) : Prop where
  asleep : (t.pc w).asleepOn = some ℓ → (s.pc w).asleepOn = some ℓ
  woken : s.woken ℓ w → t.woken ℓ w
  willPick : (s.pc w).willPick = some ℓ → (t.pc w).willPick = some ℓ ∨ s.pc w = .wakePick ℓ

theorem listLock_asleep (s : Latches W L) {w : W} {ℓ₀ : L} {p : Pc W L} (ℓ : L)
    (ha : p.asleepOn = none) (hw : s.woken ℓ w → (s.goto w p).woken ℓ w)
    (hk : (s.pc w).willPick = some ℓ → p.willPick = some ℓ) :
    AsleepEffect s (s.listLock w ℓ₀ p) w ℓ := by
  unfold listLock
  split
  · exact ⟨id, id, .inl⟩
  · refine ⟨fun h => ?_, hw, fun h => .inl (by simpa using hk h)⟩
    simp only [goto, Function.update_self, ha, reduceCtorEq] at h

theorem asleep_effect {s t : Latches W L} {w : W} {op : LatchOp L}
    (h : s.step (w, op) = some t) {ℓ : L} (hf : lockCount (t.word ℓ) = 0#32) :
    AsleepEffect s t w ℓ := by
  cases op with
  | lock ℓ m =>
    simp only [Latches.step] at h
    split at h <;> cases h
    rename_i hp
    constructor <;> simp [woken, hp]
  | unlock ℓ m =>
    simp only [Latches.step] at h
    split at h <;> cases h
    rename_i hp
    constructor <;> simp [woken, hp.1]
  | run =>
    simp only [Latches.step] at h
    cases hp : s.pc w <;> rw [hp] at h <;> simp only [runPc] at h
    case dequeueState c b => cases b <;> cases h <;> constructor <;> simp [woken, hp]
    case wakeState ℓ ws => cases ws <;> cases h <;> constructor <;> simp [woken, hp]
    case attemptLoad c q => cases h; constructor <;> cases q <;> simp [woken, hp]
    case attemptCas c q old =>
      cases h
      unfold attemptExchange at hf ⊢
      split at hf
      · rename_i he
        subst he
        split at hf
        · rename_i hz
          -- the latch was taken, so it cannot be `ℓ`
          have e : c.latch ≠ ℓ := fun e => by
            subst e
            simp [lockCount_take hz, value_ne_zero] at hf
          constructor <;> cases q <;> simp [woken, hp, hz, e]
        · rename_i hz
          have e : c.latch ≠ ℓ := fun e => hz (by subst e; simpa using hf)
          constructor <;> cases q <;> simp [woken, hp, hz, e]
      · rename_i he
        constructor <;> cases q <;> simp [woken, hp, he]
    case unlockCheck ℓ' m old =>
      cases h
      constructor <;> by_cases hk : shouldWake old m = true <;> simp [woken, hp, hk]
    case awake c => split at h <;> cases h <;> constructor <;> simp +contextual [woken, hp]
    case queueLock c | dequeueLock c | wakeLock ℓ₀ =>
      cases h
      exact listLock_asleep s ℓ rfl (by simp [woken, hp]) (by simp [hp])
    all_goals
      repeat' split at h
      all_goals cases h
      all_goals constructor <;> simp [woken, hp, listUnlock]

theorem woken_of_ne {s t : Latches W L} {w v : W} {op : LatchOp L} (hc : CountInv s)
    (h : s.step (w, op) = some t) (hv : v ≠ w) {ℓ : L} (ho : s.woken ℓ v) : t.woken ℓ v := by
  unfold woken at ho ⊢
  rw [step_pc_ne h hv]
  exact ho.imp_left fun ⟨hp, hs⟩ => ⟨hp, lockState_step hc h hv hs⟩

theorem waiters_step {s t : Latches W L} {w v : W} {op : LatchOp L} (hc : CountInv s)
    (h : s.step (w, op) = some t) {ℓ : L} (hv : v ∈ t.waiters ℓ) (ha : (t.pc v).asleepOn = some ℓ) :
    v ∈ s.waiters ℓ := by
  cases queue_effect hc h with
  | quiet hq => rwa [hq] at hv
  | push c hp ht =>
    subst ht
    have ev : v ≠ w := fun e => by simp [e] at ha
    by_cases e : ℓ = c.latch
    · subst e; simpa [ev] using hv
    · simpa [e] using hv
  | delete c hp hw ht =>
    subst ht
    by_cases e : ℓ = c.latch
    · subst e; exact List.mem_of_mem_erase (by simpa using hv)
    · simpa [e] using hv
  | pick ℓ₀ r hr hp ht =>
    subst ht
    by_cases e : ℓ = ℓ₀
    · subst e
      have hv : v ∈ r.2 := by simpa using hv
      exact (hr ▸ pickWaiters_perm s.lockMode false (s.waiters ℓ)).subset (by simp [hv])
    · simpa [e] using hv
  | wake _ _ _ _ ht => subst ht; exact hv
  | settle _ _ ht => subst ht; exact hv

/-- A release that finds waiters and the `UnlockWaiter` bit goes on to wake them. -/
theorem shouldWake_of_flags {x : BitVec 32} {m : LockMode} (hc : lockCount x = m.value)
    (hw : hasFlag x LWLatchFlag.HasWaiters = true) (hu : hasFlag x LWLatchFlag.UnlockWaiter = true) :
    shouldWake x m = true := by
  have hf : x &&& checkWaitersFlags = checkWaitersFlags := by
    rw [checkWaitersFlags, BitVec.and_or_distrib_left, and_eq_of_hasFlag hw, and_eq_of_hasFlag hu]
  simp only [shouldWake, hf, hc, beq_self_eq_true, Bool.true_and]
  cases m <;> rfl

/-- A waker that finds the queue not empty leaves a woken worker, or the latch was taken. -/
theorem woken_of_pick {s t : Latches W L} {w : W} {op : LatchOp L} (hc : CountInv s)
    (hq : QueueInv s) (hl : ListInv s) (hd : DequeueInv s) (h : s.step (w, op) = some t) {ℓ : L}
    (hp : s.pc w = .wakePick ℓ) (hne : s.waiters ℓ ≠ []) (hf : lockCount (t.word ℓ) = 0#32) :
    ∃ u, t.woken ℓ u := by
  cases op with
  | lock _ _ => simp [Latches.step, hp] at h
  | unlock _ _ => simp [Latches.step, hp] at h
  | run =>
    simp only [Latches.step, hp, runPc, Option.some.injEq] at h
    subst h
    obtain ⟨v, hv⟩ := List.exists_mem_of_ne_nil _ (pickWaiters_some s.lockMode hne)
    have hvq : v ∈ s.waiters ℓ := (pickWaiters_perm s.lockMode false _).subset (by simp [hv])
    have hin := (hq.queued ℓ v hvq).1
    have ev : v ≠ w := fun e => by rw [e, hp] at hin; simp at hin
    have hw : (s.pc v).waitingOn = some ℓ := (Pc.waitingOn_of_queuedOn hin).resolve_right fun h =>
      ev (hl.one v w ℓ h (by simp [hp]))
    refine ⟨v, .inl ⟨?_, by simp [hv]⟩⟩
    simp only [goto, Function.update_of_ne ev]
    rcases Pc.tryingOn_of_waitingOn hw with h | ⟨h, _⟩
    · exact h
    · exact absurd (hc.held_none hf v) (hd v ℓ h)

/-- A release of `ℓ` while somebody is queued finds the bit set or somebody who owes it. -/
theorem wake_of_release {s t : Latches W L} {w v : W} {op : LatchOp L} (hc : CountInv s)
    (hq : QueueInv s) (hd : DequeueInv s) (hu : UnlockInv s) (h : s.step (w, op) = some t) {ℓ : L}
    (hv : v ∈ s.waiters ℓ) (hn : lockCount (s.word ℓ) ≠ 0#32) (hf : lockCount (t.word ℓ) = 0#32) :
    (∃ u, (t.pc u).willPick = some ℓ) ∨ ∃ u, t.woken ℓ u := by
  cases count_effect h with
  | keep _ hk => exact absurd (hk ℓ ▸ hf) hn
  | take c q hp hz ht =>
    have e : ℓ ≠ c.latch := fun e => hn (e ▸ hz)
    subst ht
    exact absurd (by simpa [e] using hf) hn
  | give ℓ₀ m hp hh hp' _ hw =>
    have e : ℓ = ℓ₀ := Classical.byContradiction fun e => hn (by rwa [hw, Function.update_of_ne e] at hf)
    subst e
    cases hb : hasFlag (s.word ℓ) LWLatchFlag.UnlockWaiter with
    | true =>
      left
      have := shouldWake_of_flags (hc.taken w ℓ m hh) (hq.flag ℓ (List.ne_nil_of_mem hv)) hb
      exact ⟨w, by simp [hp', this]⟩
    | false =>
      right
      obtain ⟨u, ho⟩ := hu ℓ hb
      -- a worker in `dequeueSelf` would hold the latch beside `w`
      have hfree : (s.pc u).dequeuingOn ≠ some ℓ := fun hdu => by
        have := hc.one u w ℓ (hd u ℓ hdu) (by rw [hh]; simp)
        rw [this, hp] at hdu
        simp at hdu
      have euw : u ≠ w := fun e => by rw [e] at ho; simp [owes, hp] at ho
      refine ⟨u, woken_of_ne hc h euw ?_⟩
      rcases ho with ⟨hwt | ⟨c, hdq, he⟩, hst⟩ | ha
      · rcases Pc.tryingOn_of_waitingOn hwt with h1 | ⟨h1, _⟩
        · exact .inl ⟨h1, hst⟩
        · exact absurd h1 hfree
      · exact absurd (by simp [hdq, he]) hfree
      · exact (Pc.retryingOn_of_allowsOn ha).elim .inr fun h1 => absurd h1 hfree

theorem AsleepInv.step {s t : Latches W L} {a : W × LatchOp L} (hi : AsleepInv s)
    (hc : CountInv s) (hq : QueueInv s) (hl : ListInv s) (hd : DequeueInv s) (hu : UnlockInv s)
    (h : s.step a = some t) : AsleepInv t := by
  obtain ⟨w, op⟩ := a
  intro ℓ v hv ha
  by_cases hf : lockCount (t.word ℓ) = 0#32
  · have he := asleep_effect h hf
    have hv := waiters_step hc h hv ha
    have ha : (s.pc v).asleepOn = some ℓ := by
      by_cases e : v = w
      · rw [e] at ha ⊢; exact he.asleep ha
      · rwa [step_pc_ne h e] at ha
    right
    rcases hi ℓ v hv ha with hn | ⟨u, hk⟩ | ⟨u, hk⟩
    · exact wake_of_release hc hq hd hu h hv hn hf
    · by_cases e : u = w
      · subst e
        rcases he.willPick hk with h' | h'
        · exact .inl ⟨u, h'⟩
        · exact .inr (woken_of_pick hc hq hl hd h h' (List.ne_nil_of_mem hv) hf)
      · exact .inl ⟨u, by rw [step_pc_ne h e]; exact hk⟩
    · refine .inr ⟨u, ?_⟩
      by_cases e : u = w
      · subst e; exact he.woken hk
      · exact woken_of_ne hc h e hk
  · exact .inl hf

end

/-! ## Runs -/

/-- All that holds in every state reached while no wakeup pass finds the queue empty. -/
structure WakeupInv (s : Latches W L) : Prop where
  count : CountInv s
  list : ListInv s
  queue : QueueInv s
  dequeue : DequeueInv s
  pick : PickInv s
  unlock : UnlockInv s
  asleep : AsleepInv s

theorem WakeupInv.init : WakeupInv (init : Latches W L) where
  count := .init
  list := .init
  queue := .init
  dequeue _ _ h := by cases h
  pick _ _ h := by cases h
  unlock _ h := absurd h (by show hasFlag LWLatchFlag.UnlockWaiter _ ≠ false; decide)
  asleep _ _ h := by cases h

/-- A sleeper that nobody is about to wake contradicts `AsleepInv`. -/
theorem WakeupInv.not_lostWakeup {s : Latches W L} (hi : WakeupInv s) (ℓ : L) :
    ¬ s.LostWakeup ℓ := by
  rintro ⟨hf, hr, hw, w, c, hm, hp, -⟩
  have ha : (s.pc w).asleepOn = some ℓ := by
    have := (hi.queue.queued ℓ w hm).1
    simpa [hp] using this
  rcases hi.asleep ℓ w hm ha with h | ⟨u, hu⟩ | ⟨u, hu⟩
  · exact h hf
  · exact hr u (Pc.releasingOn_of_willPick hu)
  · exact hw u hu

variable [DecidableEq W] [DecidableEq L]

theorem WakeupInv.step {s t : Latches W L} {a : W × LatchOp L} (hi : WakeupInv s)
    (hs : wakesSome s a) (h : s.step a = some t) : WakeupInv t where
  count := hi.count.step h
  list := hi.list.step hi.count h
  queue := hi.queue.step hi.count hi.list h
  dequeue := hi.dequeue.step h
  pick := hi.pick.step hi.count hs h
  unlock := hi.unlock.step hi.count hi.queue hi.pick h
  asleep := hi.asleep.step hi.count hi.queue hi.list hi.dequeue hi.unlock h

/-- The latch never loses a wakeup in a run whose wakeup passes all find somebody queued. -/
theorem no_lostWakeup {s : Latches W L} (h : Reach Latches.step wakesSome init s) (ℓ : L) :
    ¬ s.LostWakeup ℓ :=
  (h.inv (fun _ _ _ hi hs h => WakeupInv.step hi hs h) WakeupInv.init).not_lostWakeup ℓ

/-- A run in which a sleeper is woken by the release it waits for. -/
def handoverTrace : List (Fin 2 × LatchOp Unit) :=
  (0, .lock () .Exclusive) :: List.replicate 3 (0, .run) ++ (1, .lock () .Exclusive) ::
  List.replicate 10 (1, .run) ++ (0, .unlock () .Exclusive) :: List.replicate 8 (0, .run)

theorem no_lostWakeup_handover : ∃ s : Latches (Fin 2) Unit, Reach Latches.step wakesSome init s ∧
    (s.pc 1 = .sleep ⟨(), .Exclusive, 1, false⟩ ∧ s.sema 1 = 1) ∧ ¬ s.LostWakeup () := by
  have h : (exec (guarded wakesSome Latches.step) init handoverTrace).map (fun s => decide
      (s.pc 1 = .sleep ⟨(), .Exclusive, 1, false⟩ ∧ s.sema 1 = 1)) = some true := by
    decide +kernel
  obtain ⟨s, hr, hs⟩ := reach_of_test h
  exact ⟨s, hr.of_guarded, of_decide_eq_true hs, no_lostWakeup hr.of_guarded ()⟩

/-! ## A run that loses a wakeup

The second worker dequeues itself between the release and the wakeup pass,
which clears `UnlockWaiter` and leaves nobody to set it again. -/

/-- A release by the second worker that finds a sleeper and a clear `UnlockWaiter` bit. -/
def lostWakeupTrace : List (Fin 3 × LatchOp Unit) :=
  let run (w : Fin 3) (n : Nat) := List.replicate n (w, LatchOp.run)
  -- the first worker takes the latch, the second queues itself
  (0, .lock () .Exclusive) :: run 0 3 ++ (1, .lock () .Exclusive) :: run 1 6 ++
  -- the first subtracts and goes to `wakeup`; the second gets the latch and dequeues itself
  (0, .unlock () .Exclusive) :: run 0 1 ++ run 1 8 ++ run 0 6 ++
  -- the third queues itself, uses up its semaphore's initial count and sleeps
  (2, .lock () .Exclusive) :: run 2 10 ++ (1, .unlock () .Exclusive) :: run 1 1

theorem lostWakeup_reachable : ∃ s : Latches (Fin 3) Unit,
    Reach Latches.step anyStep init s ∧ s.LostWakeup () := by
  have h : (exec Latches.step init lostWakeupTrace).map (fun s => decide
      (lockCount (s.word ()) = 0#32 ∧ (∀ u, (s.pc u).releasingOn ≠ some ()) ∧ (∀ u, ¬ s.woken () u) ∧
        2 ∈ s.waiters () ∧ s.pc 2 = .sleep ⟨(), .Exclusive, 1, false⟩ ∧ s.sema 2 = 0)) = some true := by
    decide +kernel
  obtain ⟨s, hr, hs⟩ := reach_of_test h
  obtain ⟨h1, h2, h3, h4, h5, h6⟩ := of_decide_eq_true hs
  exact ⟨s, hr, h1, h2, h3, 2, _, h4, h5, h6⟩

end Latches

end Mimidb
