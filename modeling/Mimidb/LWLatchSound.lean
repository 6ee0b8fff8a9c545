import Mimidb.LWLatch

/-!
# Wakeups of the latch

Five invariants, each from a lemma that says what a step can do to the part
of the state it is about: the list lock, the holder count, the waiter queue
with the wake lists, the `UnlockWaiter` bit, and the sleepers. The last two
need that no wakeup finds the queue empty; without it the bit is cleared and
nobody is left to set it.
-/

namespace Mimidb

variable {W L : Type}

/-! ## Program points -/

namespace Pc

/-- The latch whose waiters list is locked. -/
@[simp] def inList : Pc W L → Option L
  | .queueFlag c | .queuePush c | .queueUnlock c => some c.latch
  | .dequeueDelete c | .dequeueFlag c _ | .dequeueUnlock c _ => some c.latch
  | .wakePick ℓ | .wakeAssert ℓ _ | .wakeLoad ℓ _ | .wakeCas ℓ _ _ => some ℓ
  | _ => none

/-- Queued, and outside the list lock. -/
@[simp] def waitingOn : Pc W L → Option L
  | .attemptLoad c true | .attemptCas c true _ => some c.latch
  | .sleep c | .awake c | .dequeueLock c => some c.latch
  | _ => none

/-- All points between joining the queue and learning that one has left it. -/
@[simp] def queuedOn : Pc W L → Option L
  | .queueUnlock c | .dequeueDelete c => some c.latch
  | p => p.waitingOn

@[simp] def asleepOn : Pc W L → Option L
  | .sleep c | .awake c => some c.latch
  | _ => none

/-- In `dequeueSelf` after a waker was found to have come first. -/
@[simp] def overtaken : Pc W L → Bool
  | .dequeueFlag _ b | .dequeueUnlock _ b | .dequeueState _ b => !b
  | .dequeueSleep .. | .dequeueAwake .. => true
  | _ => false

/-- About to set `UnlockWaiter`. -/
@[simp] def allowsOn : Pc W L → Option L
  | .allowWake c => some c.latch
  | .dequeueFlag c false | .dequeueUnlock c false | .dequeueState c false => some c.latch
  | _ => none

/-- In `dequeueSelf`, so the latch is taken. -/
@[simp] def dequeuingOn : Pc W L → Option L
  | .dequeueLock c | .dequeueDelete c => some c.latch
  | .dequeueFlag c _ | .dequeueUnlock c _ | .dequeueState c _ => some c.latch
  | _ => none

/-- The picked workers that are not yet marked `NotWaiting`. -/
@[simp] def picked : Pc W L → List W
  | .wakeAssert _ ws | .wakeLoad _ ws | .wakeCas _ ws _ | .wakeState _ ws => ws
  | .wakeRelease _ _ ws => ws
  | _ => []

/-- A waker that has picked but still holds the list. -/
@[simp] def picking : Pc W L → Option L
  | .wakeAssert ℓ _ | .wakeLoad ℓ _ | .wakeCas ℓ _ _ => some ℓ
  | _ => none

/-- A releaser that is going to pick waiters. -/
@[simp] def willPick : Pc W L → Option L
  | .unlockCheck ℓ m old => if shouldWake old m then some ℓ else none
  | .wakeLock ℓ | .wakePick ℓ => some ℓ
  | _ => none

/-- Inside `Unlock` or `wakeup`. -/
@[simp] def releasingOn : Pc W L → Option L
  | .unlockCheck ℓ _ _ | .wakeLock ℓ | .wakePick ℓ | .wakeAssert ℓ _ => some ℓ
  | .wakeLoad ℓ _ | .wakeCas ℓ _ _ | .wakeState ℓ _ | .wakeRelease ℓ _ _ => some ℓ
  | _ => none

/-- Queued and on the way to its second attempt or asleep after it. -/
@[simp] def tryingOn : Pc W L → Option L
  | .attemptLoad c true | .attemptCas c true _ | .sleep c | .awake c => some c.latch
  | _ => none

/-- Awake again and on the way to the attempt that follows. -/
@[simp] def retryingOn : Pc W L → Option L
  | .allowWake c => some c.latch
  | .attemptLoad c false | .attemptCas c false _ => if c.retry then some c.latch else none
  | _ => none

theorem inList_of_picking {p : Pc W L} {ℓ : L} (h : p.picking = some ℓ) : p.inList = some ℓ := by
  cases p <;> simp_all

/-- A queued worker either waits or is inside the list. -/
theorem waitingOn_of_queuedOn {p : Pc W L} {ℓ : L} (h : p.queuedOn = some ℓ) :
    p.waitingOn = some ℓ ∨ p.inList = some ℓ := by
  cases p <;> simp_all

end Pc

theorem hasFlag_update [DecidableEq L] {word : L → BitVec 32} {f x : BitVec 32} {ℓ : L}
    (h : hasFlag x f = hasFlag (word ℓ) f) (ℓ' : L) :
    hasFlag (Function.update word ℓ x ℓ') f = hasFlag (word ℓ') f := by
  by_cases e : ℓ' = ℓ
  · subst e; simpa using h
  · rw [Function.update_of_ne e]

theorem lockCount_update [DecidableEq L] {word : L → BitVec 32} {x : BitVec 32} {ℓ : L}
    (h : lockCount x = lockCount (word ℓ)) (ℓ' : L) :
    lockCount (Function.update word ℓ x ℓ') = lockCount (word ℓ') := by
  by_cases e : ℓ' = ℓ
  · subst e; simpa using h
  · rw [Function.update_of_ne e]

namespace Latches

section
variable [DecidableEq W] [DecidableEq L]

theorem step_pc_ne {s t : Latches W L} {w v : W} {op : LatchOp L} (h : s.step (w, op) = some t)
    (hv : v ≠ w) : t.pc v = s.pc v := by
  cases op with
  | lock ℓ m =>
    simp only [Latches.step] at h
    split at h <;> cases h
    simp [hv]
  | unlock ℓ m =>
    simp only [Latches.step] at h
    split at h <;> cases h
    simp [hv]
  | run =>
    simp only [Latches.step] at h
    cases hp : s.pc w <;> rw [hp] at h <;> simp only [runPc] at h
    case dequeueState c b => cases b <;> cases h <;> simp [hv]
    case wakeState ℓ ws => cases ws <;> cases h <;> simp [hv]
    all_goals try simp only [listLock, listUnlock, attemptExchange] at h
    all_goals
      repeat' split at h
      all_goals cases h
      all_goals simp [hv]

end

/-! ## The holder count -/

/-- The count of a word is the value of the mode in which the latch is held. -/
structure CountInv (s : Latches W L) : Prop where
  free : ∀ ℓ, (∀ w, s.held w ℓ = none) → lockCount (s.word ℓ) = 0#32
  taken : ∀ w ℓ m, s.held w ℓ = some m → lockCount (s.word ℓ) = m.value
  one : ∀ w w' ℓ, s.held w ℓ ≠ none → s.held w' ℓ ≠ none → w = w'

theorem CountInv.init : CountInv (init : Latches W L) where
  free _ _ := by show lockCount LWLatchFlag.UnlockWaiter = 0#32; decide
  taken _ _ _ h := by cases h
  one _ _ _ h := absurd rfl h

theorem CountInv.held_none {s : Latches W L} (hi : CountInv s) {ℓ : L}
    (h : lockCount (s.word ℓ) = 0#32) (w : W) : s.held w ℓ = none := by
  cases hw : s.held w ℓ with
  | none => rfl
  | some m =>
    have := hi.taken w ℓ m hw
    rw [h] at this
    exact absurd this.symm (value_ne_zero m)

variable [DecidableEq W] [DecidableEq L]

/-- What a step of `w` does to holders and counts. -/
inductive CountEffect (s t : Latches W L) (w : W) : Prop where
  | keep (hh : t.held = s.held) (hc : ∀ ℓ, lockCount (t.word ℓ) = lockCount (s.word ℓ))
  | take (c : LockCall L) (queued : Bool) (hp : s.pc w = .attemptCas c queued (s.word c.latch))
      (hf : lockCount (s.word c.latch) = 0#32)
      (ht : t = ((s.setWord c.latch (s.word c.latch + c.mode.value)).setHeld w c.latch
        (some c.mode)).goto w (if queued then .dequeueLock c else .lockDone c))
  | give (ℓ : L) (m : LockMode) (hp : s.pc w = .idle) (hh : s.held w ℓ = some m)
      (hp' : t.pc w = .unlockCheck ℓ m (s.word ℓ))
      (hh' : t.held = Function.update s.held w (Function.update (s.held w) ℓ none))
      (hw : t.word = Function.update s.word ℓ (s.word ℓ - m.value))
      (hq : t.waiters = s.waiters) (hl : t.lockState = s.lockState)

theorem listLock_count (s : Latches W L) (w : W) (ℓ : L) (p : Pc W L) :
    CountEffect s (s.listLock w ℓ p) w := by
  unfold listLock
  split
  · exact .keep rfl fun _ => rfl
  · exact .keep rfl (by simp [lockCount_update])

theorem count_effect {s t : Latches W L} {w : W} {op : LatchOp L} (h : s.step (w, op) = some t) :
    CountEffect s t w := by
  cases op with
  | lock ℓ m =>
    simp only [Latches.step] at h
    split at h <;> cases h
    exact .keep rfl fun _ => rfl
  | unlock ℓ m =>
    simp only [Latches.step] at h
    split at h
    · rename_i hp
      cases h
      exact .give ℓ m hp.1 hp.2 (by simp) rfl rfl rfl rfl
    · cases h
  | run =>
    simp only [Latches.step] at h
    cases hp : s.pc w <;> rw [hp] at h <;> simp only [runPc] at h
    case queueLock | dequeueLock | wakeLock => cases h; exact listLock_count s ..
    case queueUnlock | dequeueUnlock =>
      cases h; exact .keep rfl (by simp [listUnlock, lockCount_update])
    case attemptCas c q old =>
      cases h
      unfold attemptExchange
      split
      · rename_i he
        split
        · rename_i hz
          subst he
          exact .take c q hp hz rfl
        · exact .keep rfl fun _ => rfl
      · exact .keep rfl fun _ => rfl
    case wakeCas ℓ ws old =>
      split at h <;> cases h
      · rename_i he
        subst he
        refine .keep rfl (lockCount_update ?_)
        unfold wakeWord
        cases (s.waiters ℓ).isEmpty <;> simp
      · exact .keep rfl fun _ => rfl
    case dequeueState c b => cases b <;> cases h <;> exact .keep rfl (by simp [lockCount_update])
    case wakeState ℓ ws => cases ws <;> cases h <;> exact .keep rfl fun _ => rfl
    all_goals
      repeat' split at h
      all_goals cases h
      all_goals exact .keep rfl (by simp [lockCount_update])

theorem CountInv.step {s t : Latches W L} {a : W × LatchOp L} (hi : CountInv s)
    (h : s.step a = some t) : CountInv t := by
  obtain ⟨w, op⟩ := a
  cases count_effect h with
  | keep hh hc =>
    refine ⟨fun ℓ hf => ?_, fun v ℓ m hv => ?_, ?_⟩
    · rw [hc]; exact hi.free ℓ (by simpa [hh] using hf)
    · rw [hc]; exact hi.taken v ℓ m (by simpa [hh] using hv)
    · simpa [hh] using hi.one
  | take c q hp hf ht =>
    have hn := hi.held_none hf
    subst ht
    refine ⟨fun ℓ hl => ?_, fun v ℓ m hv => ?_, fun v v' ℓ hv hv' => ?_⟩
    · by_cases e : ℓ = c.latch
      · subst e; have := hl w; simp at this
      · simp only [goto, setHeld, setWord, Function.update_of_ne e]
        refine hi.free ℓ fun v => ?_
        have := hl v
        by_cases ev : v = w
        · subst ev; simpa [e] using this
        · simpa [ev] using this
    · by_cases e : ℓ = c.latch
      · subst e
        by_cases ev : v = w
        · subst ev
          simp only [goto, setHeld, setWord, Function.update_self, Option.some.injEq] at hv ⊢
          rw [lockCount_take hf, hv]
        · simp [ev, hn v] at hv
      · simp only [goto, setHeld, setWord, Function.update_of_ne e]
        refine hi.taken v ℓ m ?_
        by_cases ev : v = w
        · subst ev; simpa [e] using hv
        · simpa [ev] using hv
    · by_cases e : ℓ = c.latch
      · subst e
        have key : ∀ u, (((s.setWord c.latch (s.word c.latch + c.mode.value)).setHeld w c.latch
            (some c.mode)).goto w (if q then .dequeueLock c else .lockDone c)).held u c.latch ≠ none →
            u = w := by
          intro u hu
          refine Classical.byContradiction fun eu => hu ?_
          simp [eu, hn u]
        rw [key v hv, key v' hv']
      · refine hi.one v v' ℓ ?_ ?_
        · by_cases ev : v = w
          · subst ev; simpa [e] using hv
          · simpa [ev] using hv
        · by_cases ev : v' = w
          · subst ev; simpa [e] using hv'
          · simpa [ev] using hv'
  | give ℓ₀ m₀ hp hh hp' hh' hw hq hl =>
    have hc := hi.taken w ℓ₀ m₀ hh
    have hold : ∀ u ℓ, t.held u ℓ ≠ none → s.held u ℓ = t.held u ℓ ∧ ℓ ≠ ℓ₀ := by
      intro u ℓ hu
      rw [hh'] at hu ⊢
      by_cases eu : u = w
      · subst eu
        by_cases e : ℓ = ℓ₀
        · subst e; simp at hu
        · exact ⟨by simp [e], e⟩
      · rw [Function.update_of_ne eu] at hu ⊢
        exact ⟨rfl, fun e => eu (hi.one u w ℓ hu (by rw [e, hh]; simp))⟩
    refine ⟨fun ℓ hf => ?_, fun v ℓ m hv => ?_, fun v v' ℓ hv hv' => ?_⟩
    · by_cases e : ℓ = ℓ₀
      · subst e; rw [hw, Function.update_self]; exact lockCount_give hc
      · rw [hw, Function.update_of_ne e]
        refine hi.free ℓ fun v => ?_
        have := hf v
        rw [hh'] at this
        by_cases ev : v = w
        · subst ev; simpa [e] using this
        · simpa [ev] using this
    · obtain ⟨h1, h2⟩ := hold v ℓ (by rw [hv]; simp)
      rw [hw, Function.update_of_ne h2]
      exact hi.taken v ℓ m (h1.trans hv)
    · obtain ⟨h1, _⟩ := hold v ℓ hv
      obtain ⟨h2, _⟩ := hold v' ℓ hv'
      exact hi.one v v' ℓ (by rw [h1]; exact hv) (by rw [h2]; exact hv')

/-! ## The list lock -/

/-- The `ListLocked` bit is set exactly while one worker is inside the list. -/
structure ListInv (s : Latches W L) : Prop where
  bit : ∀ ℓ, hasFlag (s.word ℓ) LWLatchFlag.ListLocked = true ↔ ∃ w, (s.pc w).inList = some ℓ
  one : ∀ w w' ℓ, (s.pc w).inList = some ℓ → (s.pc w').inList = some ℓ → w = w'

omit [DecidableEq W] [DecidableEq L] in
theorem ListInv.init : ListInv (init : Latches W L) where
  bit _ := by
    simp only [Latches.init, Pc.inList, reduceCtorEq, exists_false, iff_false]
    decide
  one _ _ _ h := by cases h

/-- What a step of `w` does to the list locks. -/
inductive ListEffect (s t : Latches W L) (w : W) : Prop where
  | keep (hw : (t.pc w).inList = (s.pc w).inList)
      (hb : ∀ ℓ, hasFlag (t.word ℓ) LWLatchFlag.ListLocked = hasFlag (s.word ℓ) LWLatchFlag.ListLocked)
  | enter (ℓ : L) (hw : (s.pc w).inList = none) (hw' : (t.pc w).inList = some ℓ)
      (hf : hasFlag (s.word ℓ) LWLatchFlag.ListLocked = false)
      (hb : ∀ ℓ', hasFlag (t.word ℓ') LWLatchFlag.ListLocked =
        (hasFlag (s.word ℓ') LWLatchFlag.ListLocked || ℓ' = ℓ))
  | leave (ℓ : L) (hw : (s.pc w).inList = some ℓ) (hw' : (t.pc w).inList = none)
      (hb : ∀ ℓ', hasFlag (t.word ℓ') LWLatchFlag.ListLocked =
        (hasFlag (s.word ℓ') LWLatchFlag.ListLocked && ℓ' ≠ ℓ))

theorem listLock_list (s : Latches W L) {w : W} {ℓ : L} {p : Pc W L} (hw : (s.pc w).inList = none)
    (hp : p.inList = some ℓ) : ListEffect s (s.listLock w ℓ p) w := by
  unfold listLock
  split
  · exact .keep rfl fun _ => rfl
  · rename_i h
    refine .enter ℓ hw (by simpa using hp) (by simpa using h) fun ℓ' => ?_
    by_cases e : ℓ' = ℓ
    · subst e; simp
    · simp [e]

theorem listUnlock_list (s : Latches W L) {w : W} {ℓ : L} {p : Pc W L}
    (hw : (s.pc w).inList = some ℓ) (hp : p.inList = none) :
    ListEffect s (s.listUnlock w ℓ p) w := by
  refine .leave ℓ hw (by simpa [listUnlock] using hp) fun ℓ' => ?_
  by_cases e : ℓ' = ℓ
  · subst e; simp [listUnlock]
  · simp [listUnlock, e]

theorem list_effect {s t : Latches W L} {w : W} {op : LatchOp L} (hc : CountInv s)
    (h : s.step (w, op) = some t) : ListEffect s t w := by
  cases op with
  | lock ℓ m =>
    simp only [Latches.step] at h
    split at h
    · rename_i hp
      cases h
      exact .keep (by simp [hp]) (by simp)
    · cases h
  | unlock ℓ m =>
    simp only [Latches.step] at h
    split at h
    · rename_i hp
      cases h
      exact .keep (by simp [hp]) (by simp [hasFlag_update, hasFlag_give (hc.taken w ℓ m hp.2)])
    · cases h
  | run =>
    simp only [Latches.step] at h
    cases hp : s.pc w <;> rw [hp] at h <;> simp only [runPc] at h
    case queueLock | dequeueLock | wakeLock => cases h; exact listLock_list s (by simp [hp]) rfl
    case queueUnlock | dequeueUnlock => cases h; exact listUnlock_list s (by simp [hp]) rfl
    case attemptCas c q old =>
      cases h
      unfold attemptExchange
      split
      · rename_i he
        split
        · rename_i hz
          subst he
          exact .keep (by cases q <;> simp [hp]) (by simp [hasFlag_update, hasFlag_take hz])
        · exact .keep (by cases q <;> simp [hp]) (by simp)
      · exact .keep (by simp [hp]) (by simp)
    case wakeCas ℓ ws old =>
      split at h <;> cases h
      · rename_i he
        subst he
        refine .leave ℓ (by simp [hp]) (by simp) fun ℓ' => ?_
        by_cases e : ℓ' = ℓ
        · subst e; simp [wakeWord]
        · simp [e]
      · exact .keep (by simp [hp]) (by simp)
    case dequeueState c b =>
      cases b <;> cases h <;> exact .keep (by simp [hp]) (by simp [hasFlag_update])
    case wakeState ℓ ws => cases ws <;> cases h <;> exact .keep (by simp [hp]) (by simp)
    case unlockCheck ℓ m old =>
      cases h
      refine .keep ?_ (by simp)
      by_cases hw : shouldWake old m = true <;> simp [hp, hw]
    all_goals
      repeat' split at h
      all_goals cases h
      all_goals exact .keep (by simp [hp]) (by simp [hasFlag_update])

theorem ListInv.step {s t : Latches W L} {a : W × LatchOp L} (hi : ListInv s) (hc : CountInv s)
    (h : s.step a = some t) : ListInv t := by
  obtain ⟨w, op⟩ := a
  have hne := fun v => step_pc_ne (v := v) h
  cases list_effect hc h with
  | keep hw hb =>
    have hp : ∀ v, (t.pc v).inList = (s.pc v).inList := fun v => by
      by_cases e : v = w
      · rw [e, hw]
      · rw [hne v e]
    refine ⟨fun ℓ => ?_, fun v v' ℓ hv hv' => ?_⟩
    · simp only [hb, hp, hi.bit]
    · rw [hp] at hv hv'; exact hi.one v v' ℓ hv hv'
  | enter ℓ₀ hw hw' hf hb =>
    have hno : ∀ v, (s.pc v).inList ≠ some ℓ₀ := fun v hv => by
      rw [(hi.bit ℓ₀).mpr ⟨v, hv⟩] at hf; cases hf
    refine ⟨fun ℓ => ?_, fun v v' ℓ hv hv' => ?_⟩
    · rw [hb]
      by_cases e : ℓ = ℓ₀
      · subst e; simpa using ⟨w, hw'⟩
      · simp only [e, decide_false, Bool.or_false, hi.bit]
        constructor
        · rintro ⟨v, hv⟩
          have : v ≠ w := fun ev => by rw [ev, hw] at hv; cases hv
          exact ⟨v, by rw [hne v this]; exact hv⟩
        · rintro ⟨v, hv⟩
          have : v ≠ w := fun ev => by
            rw [ev, hw'] at hv; exact e (Option.some.inj hv).symm
          exact ⟨v, by rw [← hne v this]; exact hv⟩
    · by_cases ev : v = w <;> by_cases ev' : v' = w
      · rw [ev, ev']
      · rw [ev, hw'] at hv
        rw [hne v' ev', ← hv] at hv'
        exact absurd hv' (hno v')
      · rw [ev', hw'] at hv'
        rw [hne v ev, ← hv'] at hv
        exact absurd hv (hno v)
      · rw [hne v ev] at hv
        rw [hne v' ev'] at hv'
        exact hi.one v v' ℓ hv hv'
  | leave ℓ₀ hw hw' hb =>
    have hback : ∀ v ℓ, (t.pc v).inList = some ℓ → v ≠ w ∧ (s.pc v).inList = some ℓ :=
      fun v ℓ hv => by
        have : v ≠ w := fun ev => by rw [ev, hw'] at hv; cases hv
        exact ⟨this, by rw [← hne v this]; exact hv⟩
    refine ⟨fun ℓ => ?_, fun v v' ℓ hv hv' => ?_⟩
    · rw [hb]
      simp only [Bool.and_eq_true, hi.bit, decide_eq_true_eq]
      constructor
      · rintro ⟨⟨v, hv⟩, e⟩
        have : v ≠ w := fun ev => by
          rw [ev, hw] at hv; exact e (Option.some.inj hv).symm
        exact ⟨v, by rw [hne v this]; exact hv⟩
      · rintro ⟨v, hv⟩
        obtain ⟨ev, hv⟩ := hback v ℓ hv
        exact ⟨⟨v, hv⟩, fun e => ev (hi.one v w ℓ hv (e ▸ hw))⟩
    · exact hi.one v v' ℓ (hback v ℓ hv).2 (hback v' ℓ hv').2

/-! ## The queue and the wake lists -/

omit [DecidableEq W] in
theorem pickWaiters_perm (mode : W → LockMode) : ∀ (b : Bool) (q : List W),
    ((pickWaiters mode b q).1 ++ (pickWaiters mode b q).2).Perm q
  | _, [] => .refl _
  | b, v :: vs => by
    unfold pickWaiters
    split
    · exact List.perm_middle.trans ((pickWaiters_perm mode b vs).cons v)
    · split
      · exact .refl _
      · exact (pickWaiters_perm mode true vs).cons v

omit [DecidableEq W] in
theorem pickWaiters_some (mode : W → LockMode) {q : List W} (h : q ≠ []) :
    (pickWaiters mode false q).1 ≠ [] := by
  cases q with
  | nil => exact absurd rfl h
  | cons v vs =>
    simp only [pickWaiters, Bool.false_eq_true, false_and, ite_false]
    split <;> simp

/-- Who is queued, who was picked, and what the `HasWaiters` bit says about it. -/
structure QueueInv (s : Latches W L) : Prop where
  nodup : ∀ ℓ, (s.waiters ℓ).Nodup
  queued : ∀ ℓ, ∀ v ∈ s.waiters ℓ, (s.pc v).queuedOn = some ℓ ∧ s.lockState v = .Waiting
  flag : ∀ ℓ, s.waiters ℓ ≠ [] → hasFlag (s.word ℓ) LWLatchFlag.HasWaiters = true
  pushing : ∀ w c, s.pc w = .queuePush c → hasFlag (s.word c.latch) LWLatchFlag.HasWaiters = true
  pickedNodup : ∀ w, (s.pc w).picked.Nodup
  pending : ∀ w, ∀ v ∈ (s.pc w).picked, s.lockState v = .PendingWakeup ∧
    ((s.pc v).queuedOn.isSome ∨ (s.pc v).overtaken = true)
  pickedOne : ∀ w w' v, v ∈ (s.pc w).picked → v ∈ (s.pc w').picked → w = w'
  picking : ∀ w ℓ, (s.pc w).picking = some ℓ → ∀ v ∈ (s.pc w).picked, (s.pc v).waitingOn = some ℓ

omit [DecidableEq W] [DecidableEq L] in
theorem QueueInv.init : QueueInv (init : Latches W L) := by
  constructor <;> simp [Latches.init]

/-- What a step of `w` does to queue, lock states and wake lists. -/
inductive QueueEffect (s t : Latches W L) (w : W) : Prop where
  | quiet (hq : t.waiters = s.waiters) (hl : t.lockState = s.lockState)
      (hW : s.lockState w = .Waiting → (t.pc w).queuedOn = (s.pc w).queuedOn)
      (hP : s.lockState w = .PendingWakeup → (s.pc w).queuedOn.isSome ∨ (s.pc w).overtaken = true →
        (t.pc w).queuedOn.isSome ∨ (t.pc w).overtaken = true)
      (hO : s.lockState w = .PendingWakeup → ∀ ℓ, (s.pc w).waitingOn = some ℓ →
        (t.pc w).waitingOn = some ℓ ∨ hasFlag (s.word ℓ) LWLatchFlag.ListLocked = false)
      (hp : (t.pc w).picked = (s.pc w).picked)
      (hg : ∀ ℓ, (t.pc w).picking = some ℓ → (s.pc w).picking = some ℓ)
      (hf : ∀ ℓ, hasFlag (t.word ℓ) LWLatchFlag.HasWaiters = true ∨
        hasFlag (t.word ℓ) LWLatchFlag.HasWaiters = hasFlag (s.word ℓ) LWLatchFlag.HasWaiters ∨
        s.waiters ℓ = [] ∧ (s.pc w).inList = some ℓ)
      (hu : ∀ c, t.pc w = .queuePush c → hasFlag (t.word c.latch) LWLatchFlag.HasWaiters = true)
  | push (c : LockCall L) (hp : s.pc w = .queuePush c)
      (ht : t = (((s.setState w .Waiting).setMode w c.mode).setWaiters c.latch
        (s.waiters c.latch ++ [w])).goto w (.queueUnlock c))
  | delete (c : LockCall L) (hp : s.pc w = .dequeueDelete c) (hw : s.lockState w = .Waiting)
      (ht : t = (s.setWaiters c.latch ((s.waiters c.latch).erase w)).goto w (.dequeueFlag c true))
  | pick (ℓ : L) (r : List W × List W) (hr : r = pickWaiters s.lockMode false (s.waiters ℓ))
      (hp : s.pc w = .wakePick ℓ)
      (ht : t = (((s.check (r.1.all fun v => s.lockState v == .Waiting)).setPending r.1).setWaiters ℓ
        r.2).goto w (.wakeAssert ℓ r.1))
  | wake (ℓ : L) (v : W) (ws : List W) (hp : s.pc w = .wakeState ℓ (v :: ws))
      (ht : t = (s.setState v .NotWaiting).goto w (.wakeRelease ℓ v ws))
  | settle (c : LockCall L) (hp : s.pc w = .dequeueState c true)
      (ht : t = (s.setState w .NotWaiting).goto w (.lockDone c))

theorem QueueEffect.plain {s t : Latches W L} {w : W} (hq : t.waiters = s.waiters)
    (hl : t.lockState = s.lockState) (hw : (t.pc w).queuedOn = (s.pc w).queuedOn)
    (ho : (t.pc w).overtaken = (s.pc w).overtaken) (hwo : (t.pc w).waitingOn = (s.pc w).waitingOn)
    (hp : (t.pc w).picked = (s.pc w).picked) (hg : (t.pc w).picking = (s.pc w).picking)
    (hf : ∀ ℓ, hasFlag (t.word ℓ) LWLatchFlag.HasWaiters =
      hasFlag (s.word ℓ) LWLatchFlag.HasWaiters)
    (hu : ∀ c, t.pc w ≠ .queuePush c) : QueueEffect s t w :=
  .quiet hq hl (fun _ => hw) (fun _ h => by rwa [hw, ho]) (fun _ ℓ h => .inl (by rwa [hwo])) hp
    (fun ℓ h => by rwa [← hg]) (fun ℓ => .inr (.inl (hf ℓ))) fun c h => absurd h (hu c)

theorem queue_effect {s t : Latches W L} {w : W} {op : LatchOp L} (hc : CountInv s)
    (h : s.step (w, op) = some t) : QueueEffect s t w := by
  cases op with
  | lock ℓ m =>
    simp only [Latches.step] at h
    split at h
    · rename_i hp
      cases h
      refine .plain rfl rfl ?_ ?_ ?_ ?_ ?_ (fun _ => rfl) ?_ <;> simp [hp]
    · cases h
  | unlock ℓ m =>
    simp only [Latches.step] at h
    split at h
    · rename_i hp
      cases h
      refine .plain rfl rfl ?_ ?_ ?_ ?_ ?_
        (by simp [hasFlag_update, hasFlag_give (hc.taken w ℓ m hp.2)]) ?_ <;> simp [hp]
    · cases h
  | run =>
    simp only [Latches.step] at h
    cases hp : s.pc w <;> rw [hp] at h <;> simp only [runPc] at h
    case queuePush c => cases h; exact .push c hp rfl
    case wakePick ℓ => cases h; exact .pick ℓ _ rfl hp rfl
    case wakeState ℓ ws =>
      cases ws with
      | nil => cases h; refine .plain rfl rfl ?_ ?_ ?_ ?_ ?_ (fun _ => rfl) ?_ <;> simp [hp]
      | cons v ws => cases h; exact .wake ℓ v ws hp rfl
    case dequeueState c b =>
      cases b with
      | true => cases h; exact .settle c hp rfl
      | false =>
        cases h
        refine .plain rfl rfl ?_ ?_ ?_ ?_ ?_ (by simp [hasFlag_update]) ?_ <;> simp [hp]
    case dequeueDelete c =>
      split at h <;> cases h
      · rename_i hl; exact .delete c hp hl rfl
      · rename_i hl
        refine .quiet rfl rfl (fun e => absurd e hl) ?_ ?_ ?_ ?_ (fun ℓ => .inr (.inl rfl)) ?_ <;>
          simp [hp]
    case awake c =>
      split at h <;> cases h
      · rename_i hl
        refine .quiet rfl rfl ?_ ?_ ?_ ?_ ?_ (fun ℓ => .inr (.inl rfl)) ?_ <;> simp [hp, hl]
      · refine .plain rfl rfl ?_ ?_ ?_ ?_ ?_ (fun _ => rfl) ?_ <;> simp [hp]
    case dequeueAwake c n =>
      split at h <;> cases h
      · rename_i hl
        refine .quiet rfl rfl ?_ ?_ ?_ ?_ ?_ (fun ℓ => .inr (.inl rfl)) ?_ <;> simp [hp, hl]
      · refine .plain rfl rfl ?_ ?_ ?_ ?_ ?_ (fun _ => rfl) ?_ <;> simp [hp]
    case queueFlag c =>
      cases h
      refine .quiet rfl rfl ?_ ?_ ?_ ?_ ?_ (fun ℓ => ?_) ?_
      case refine_6 =>
        by_cases e : ℓ = c.latch
        · subst e; simp
        · simp [e]
      all_goals simp [hp]
    case dequeueFlag c b =>
      split at h <;> cases h
      · rename_i he
        refine .quiet rfl rfl ?_ ?_ ?_ ?_ ?_ (fun ℓ => ?_) ?_
        case refine_6 =>
          by_cases e : ℓ = c.latch
          · subst e; right; right; exact ⟨by simpa using he.1, by simp [hp]⟩
          · simp [e]
        all_goals cases b <;> simp [hp]
      · refine .plain rfl rfl ?_ ?_ ?_ ?_ ?_ (fun _ => rfl) ?_ <;> cases b <;> simp [hp]
    case wakeCas ℓ ws old =>
      split at h <;> cases h
      · rename_i he
        subst he
        refine .quiet rfl rfl ?_ ?_ ?_ ?_ ?_ (fun ℓ' => ?_) ?_
        case refine_6 =>
          by_cases e : ℓ' = ℓ
          · subst e
            cases hq : s.waiters ℓ' with
            | nil => right; right; exact ⟨rfl, by simp [hp]⟩
            | cons v vs => right; left; simp [wakeWord]
          · simp [e]
        all_goals simp [hp]
      · refine .plain rfl rfl ?_ ?_ ?_ ?_ ?_ (fun _ => rfl) ?_ <;> simp [hp]
    case attemptCas c q old =>
      cases h
      unfold attemptExchange
      split
      · rename_i he
        split
        · rename_i hz
          subst he
          refine .plain rfl rfl ?_ ?_ ?_ ?_ ?_ (by simp [hasFlag_update, hasFlag_take hz]) ?_ <;>
            cases q <;> simp [hp]
        · refine .plain rfl rfl ?_ ?_ ?_ ?_ ?_ (fun _ => rfl) ?_ <;> cases q <;> simp [hp]
      · refine .plain rfl rfl ?_ ?_ ?_ ?_ ?_ (fun _ => rfl) ?_ <;> cases q <;> simp [hp]
    case attemptLoad c q =>
      cases h
      refine .plain rfl rfl ?_ ?_ ?_ ?_ ?_ (fun _ => rfl) ?_ <;> cases q <;> simp [hp]
    case unlockCheck ℓ m old =>
      cases h
      refine .plain rfl rfl ?_ ?_ ?_ ?_ ?_ (fun _ => rfl) ?_ <;>
        cases hw : shouldWake old m <;> simp [hp]
    case dequeueLock c =>
      simp only [listLock] at h
      split at h <;> cases h
      · refine .plain rfl rfl rfl rfl rfl rfl rfl (fun _ => rfl) (by simp [hp])
      · rename_i hl
        refine .quiet rfl rfl ?_ ?_ ?_ ?_ ?_
          (fun ℓ => .inr (.inl (by simp [hasFlag_update]))) ?_ <;> simp [hp]
        exact fun _ => by simpa using hl
    case queueLock c | wakeLock =>
      simp only [listLock] at h
      split at h <;> cases h
      · refine .plain rfl rfl rfl rfl rfl rfl rfl (fun _ => rfl) (by simp [hp])
      · refine .plain rfl rfl ?_ ?_ ?_ ?_ ?_ (by simp [hasFlag_update]) ?_ <;> simp [hp]
    case queueUnlock c =>
      cases h
      refine .quiet ?_ ?_ ?_ ?_ ?_ ?_ ?_ (fun ℓ => .inr (.inl ?_)) ?_ <;>
        simp [hp, listUnlock, hasFlag_update]
    case dequeueUnlock c b =>
      cases h
      refine .plain ?_ ?_ ?_ ?_ ?_ ?_ ?_ ?_ ?_ <;> cases b <;>
        simp [hp, listUnlock, hasFlag_update]
    all_goals
      repeat' split at h
      all_goals cases h
      all_goals
        refine .plain rfl rfl ?_ ?_ ?_ ?_ ?_ (by simp [hasFlag_update]) ?_ <;> simp [hp]

omit [DecidableEq W] [DecidableEq L] in
/-- A step of a worker that nobody picked, outside of `wakeup`, which leaves the queues in order. -/
theorem QueueInv.unpicked {s t : Latches W L} {w : W} (hi : QueueInv s) (hne : ∀ v, v ≠ w → t.pc v = s.pc v)
    (hnp : ∀ u, w ∉ (s.pc u).picked) (hp : (t.pc w).picked = (s.pc w).picked) (hg : (t.pc w).picking = none)
    (hu : ∀ c, t.pc w ≠ .queuePush c) (hw : t.word = s.word) (hs : ∀ v, v ≠ w → t.lockState v = s.lockState v)
    (hnodup : ∀ ℓ, (t.waiters ℓ).Nodup)
    (hqueued : ∀ ℓ, ∀ v ∈ t.waiters ℓ, (t.pc v).queuedOn = some ℓ ∧ t.lockState v = .Waiting)
    (hflag : ∀ ℓ, t.waiters ℓ ≠ [] → hasFlag (s.word ℓ) LWLatchFlag.HasWaiters = true) : QueueInv t := by
  have hpick : ∀ u, (t.pc u).picked = (s.pc u).picked := fun u => by
    by_cases e : u = w
    · rw [e, hp]
    · rw [hne u e]
  constructor
  case nodup => exact hnodup
  case queued => exact hqueued
  case flag => rwa [hw]
  case pushing =>
    intro v c hv
    have e : v ≠ w := fun e => hu c (e ▸ hv)
    rw [hne v e] at hv
    rw [hw]
    exact hi.pushing v c hv
  case pickedNodup => intro u; rw [hpick]; exact hi.pickedNodup u
  case pending =>
    intro u v hv
    rw [hpick] at hv
    have e : v ≠ w := fun e => hnp u (e ▸ hv)
    rw [hs v e, hne v e]
    exact hi.pending u v hv
  case pickedOne =>
    intro u u' v hv hv'
    rw [hpick] at hv hv'
    exact hi.pickedOne u u' v hv hv'
  case picking =>
    intro u ℓ hpicking v hv
    rw [hpick] at hv
    have ev : v ≠ w := fun e => hnp u (e ▸ hv)
    have eu : u ≠ w := fun e => by rw [e, hg] at hpicking; cases hpicking
    rw [hne u eu] at hpicking
    rw [hne v ev]
    exact hi.picking u ℓ hpicking v hv

omit [DecidableEq W] [DecidableEq L] in
theorem QueueInv.not_queued {s : Latches W L} {w : W} {ℓ : L} (hi : QueueInv s)
    (h : (s.pc w).queuedOn = none) : w ∉ s.waiters ℓ := by
  intro hw
  have := (hi.queued ℓ w hw).1
  rw [h] at this
  cases this

omit [DecidableEq W] [DecidableEq L] in
/-- Only a queued worker is picked, or one that is leaving the queue and came too late. -/
theorem QueueInv.not_picked {s : Latches W L} {w u : W} (hi : QueueInv s)
    (h : (s.pc w).queuedOn = none) (ho : (s.pc w).overtaken = false) : w ∉ (s.pc u).picked := by
  intro hw
  have := (hi.pending u w hw).2
  rw [h, ho] at this
  rcases this with h | h <;> cases h

omit [DecidableEq W] [DecidableEq L] in
theorem QueueInv.step_quiet {s t : Latches W L} {w : W} (hi : QueueInv s) (hl : ListInv s)
    (hne : ∀ v, v ≠ w → t.pc v = s.pc v) (hq : t.waiters = s.waiters)
    (hs : t.lockState = s.lockState)
    (hW : s.lockState w = .Waiting → (t.pc w).queuedOn = (s.pc w).queuedOn)
    (hP : s.lockState w = .PendingWakeup → (s.pc w).queuedOn.isSome ∨ (s.pc w).overtaken = true →
      (t.pc w).queuedOn.isSome ∨ (t.pc w).overtaken = true)
    (hO : s.lockState w = .PendingWakeup → ∀ ℓ, (s.pc w).waitingOn = some ℓ →
      (t.pc w).waitingOn = some ℓ ∨ hasFlag (s.word ℓ) LWLatchFlag.ListLocked = false)
    (hp : (t.pc w).picked = (s.pc w).picked)
    (hg : ∀ ℓ, (t.pc w).picking = some ℓ → (s.pc w).picking = some ℓ)
    (hf : ∀ ℓ, hasFlag (t.word ℓ) LWLatchFlag.HasWaiters = true ∨
      hasFlag (t.word ℓ) LWLatchFlag.HasWaiters = hasFlag (s.word ℓ) LWLatchFlag.HasWaiters ∨
      s.waiters ℓ = [] ∧ (s.pc w).inList = some ℓ)
    (hu : ∀ c, t.pc w = .queuePush c → hasFlag (t.word c.latch) LWLatchFlag.HasWaiters = true) :
    QueueInv t := by
  have hpick : ∀ u, (t.pc u).picked = (s.pc u).picked := fun u => by
    by_cases e : u = w
    · rw [e, hp]
    · rw [hne u e]
  have hping : ∀ u ℓ, (t.pc u).picking = some ℓ → (s.pc u).picking = some ℓ := fun u ℓ hu => by
    by_cases e : u = w
    · rw [e] at hu ⊢; exact hg ℓ hu
    · rwa [hne u e] at hu
  constructor
  case nodup => rw [hq]; exact hi.nodup
  case queued =>
    intro ℓ v hv
    rw [hq] at hv
    obtain ⟨h1, h2⟩ := hi.queued ℓ v hv
    rw [hs]
    refine ⟨?_, h2⟩
    by_cases e : v = w
    · subst e; rw [hW h2]; exact h1
    · rw [hne v e]; exact h1
  case flag =>
    intro ℓ hw
    rw [hq] at hw
    rcases hf ℓ with hf | hf | ⟨hf, _⟩
    · exact hf
    · rw [hf]; exact hi.flag ℓ hw
    · exact absurd hf hw
  case pushing =>
    intro v c hv
    by_cases e : v = w
    · subst e; exact hu c hv
    · rw [hne v e] at hv
      rcases hf c.latch with hf | hf | ⟨_, hin⟩
      · exact hf
      · rw [hf]; exact hi.pushing v c hv
      · exact absurd (hl.one v w c.latch (by simp [hv]) hin) e
  case pickedNodup => intro u; rw [hpick]; exact hi.pickedNodup u
  case pending =>
    intro u v hv
    rw [hpick] at hv
    obtain ⟨h1, h2⟩ := hi.pending u v hv
    rw [hs]
    refine ⟨h1, ?_⟩
    by_cases e : v = w
    · subst e; exact hP h1 h2
    · rw [hne v e]; exact h2
  case pickedOne =>
    intro u u' v hv hv'
    rw [hpick] at hv hv'
    exact hi.pickedOne u u' v hv hv'
  case picking =>
    intro u ℓ hun v hv
    have hun := hping u ℓ hun
    rw [hpick] at hv
    have hwait := hi.picking u ℓ hun v hv
    by_cases e : v = w
    · subst e
      rcases hO (hi.pending u v hv).1 ℓ hwait with h1 | h1
      · exact h1
      · rw [(hl.bit ℓ).mpr ⟨u, Pc.inList_of_picking hun⟩] at h1; cases h1
    · rw [hne v e]; exact hwait

theorem QueueInv.step_push {s t : Latches W L} {w : W} {c : LockCall L} (hi : QueueInv s)
    (hne : ∀ v, v ≠ w → t.pc v = s.pc v) (hp : s.pc w = .queuePush c)
    (ht : t = (((s.setState w .Waiting).setMode w c.mode).setWaiters c.latch
      (s.waiters c.latch ++ [w])).goto w (.queueUnlock c)) : QueueInv t := by
  subst ht
  have hnw : ∀ ℓ, w ∉ s.waiters ℓ := fun _ => hi.not_queued (by simp [hp])
  have hnp : ∀ u, w ∉ (s.pc u).picked := fun _ => hi.not_picked (by simp [hp]) (by simp [hp])
  refine hi.unpicked hne hnp (by simp [hp]) (by simp) (by simp) rfl (fun v ev => by simp [ev]) ?nodup ?queued ?flag
  case nodup =>
    intro ℓ
    by_cases e : ℓ = c.latch
    · subst e
      simpa [List.nodup_append] using ⟨hi.nodup _, fun v hv e => hnw _ (e ▸ hv)⟩
    · simpa [e] using hi.nodup ℓ
  case queued =>
    intro ℓ v hv
    by_cases ev : v = w
    · subst ev
      by_cases e : ℓ = c.latch
      · subst e; simp
      · simp [e, hnw ℓ] at hv
    · have : v ∈ s.waiters ℓ := by
        by_cases e : ℓ = c.latch
        · subst e; simpa [ev] using hv
        · simpa [e] using hv
      simpa [ev] using hi.queued ℓ v this
  case flag =>
    intro ℓ hw
    by_cases e : ℓ = c.latch
    · subst e; exact hi.pushing w c hp
    · exact hi.flag ℓ (by simpa [e] using hw)

/-- A worker that nobody picked takes itself off the queue. -/
theorem QueueInv.step_delete {s t : Latches W L} {w : W} {c : LockCall L} (hi : QueueInv s)
    (hne : ∀ v, v ≠ w → t.pc v = s.pc v) (hp : s.pc w = .dequeueDelete c)
    (hw : s.lockState w = .Waiting)
    (ht : t = (s.setWaiters c.latch ((s.waiters c.latch).erase w)).goto w (.dequeueFlag c true)) :
    QueueInv t := by
  subst ht
  have hnp : ∀ u, w ∉ (s.pc u).picked := fun u hu => by
    rw [(hi.pending u w hu).1] at hw; cases hw
  have hsub : ∀ ℓ v, v ∈ Function.update s.waiters c.latch ((s.waiters c.latch).erase w) ℓ →
      v ∈ s.waiters ℓ ∧ v ≠ w := fun ℓ v hv => by
    by_cases e : ℓ = c.latch
    · subst e
      rw [Function.update_self, (hi.nodup _).mem_erase_iff] at hv
      exact ⟨hv.2, hv.1⟩
    · rw [Function.update_of_ne e] at hv
      refine ⟨hv, fun ev => ?_⟩
      have := (hi.queued ℓ v hv).1
      rw [ev, hp] at this
      exact e (Option.some.inj this).symm
  refine hi.unpicked hne hnp (by simp [hp]) (by simp) (by simp) rfl (fun v ev => rfl) ?nodup ?queued ?flag
  case nodup =>
    intro ℓ
    by_cases e : ℓ = c.latch
    · subst e; simpa using (hi.nodup _).erase w
    · simpa [e] using hi.nodup ℓ
  case queued =>
    intro ℓ v hv
    obtain ⟨hv, ev⟩ := hsub ℓ v hv
    simpa [ev] using hi.queued ℓ v hv
  case flag =>
    intro ℓ hne'
    obtain ⟨v, hv⟩ := List.exists_mem_of_ne_nil _ hne'
    exact hi.flag ℓ (List.ne_nil_of_mem (hsub ℓ v hv).1)

/-- A releaser moves workers from the queue to its wake list. -/
theorem QueueInv.step_pick {s t : Latches W L} {w : W} {ℓ₀ : L} {r : List W × List W}
    (hi : QueueInv s) (hl : ListInv s) (hne : ∀ v, v ≠ w → t.pc v = s.pc v)
    (hr : r = pickWaiters s.lockMode false (s.waiters ℓ₀)) (hp : s.pc w = .wakePick ℓ₀)
    (ht : t = (((s.check (r.1.all fun v => s.lockState v == .Waiting)).setPending r.1).setWaiters ℓ₀
      r.2).goto w (.wakeAssert ℓ₀ r.1)) : QueueInv t := by
  subst ht
  have hperm : (r.1 ++ r.2).Perm (s.waiters ℓ₀) := hr ▸ pickWaiters_perm ..
  have hnd := hperm.nodup_iff.mpr (hi.nodup ℓ₀)
  rw [List.nodup_append] at hnd
  obtain ⟨hnd1, hnd2, hdis⟩ := hnd
  have h1 : ∀ v ∈ r.1, v ∈ s.waiters ℓ₀ := fun v hv => hperm.subset (by simp [hv])
  have h2 : ∀ v ∈ r.2, v ∈ s.waiters ℓ₀ := fun v hv => hperm.subset (by simp [hv])
  have hwq : ∀ ℓ, w ∉ s.waiters ℓ := fun _ => hi.not_queued (by simp [hp])
  have hnp : ∀ u, w ∉ (s.pc u).picked := fun _ => hi.not_picked (by simp [hp]) (by simp [hp])
  have hold : ∀ u, ∀ v ∈ (s.pc u).picked, v ∉ r.1 := fun u v hv hv1 => by
    have e1 := (hi.pending u v hv).1
    rw [(hi.queued ℓ₀ v (h1 v hv1)).2] at e1
    cases e1
  constructor
  case nodup =>
    intro ℓ
    by_cases e : ℓ = ℓ₀
    · subst e; simpa using hnd2
    · simpa [e] using hi.nodup ℓ
  case queued =>
    intro ℓ v hv
    have hvq : v ∈ s.waiters ℓ ∧ v ∉ r.1 := by
      by_cases e : ℓ = ℓ₀
      · subst e
        rw [show ((_ : Latches W L).waiters ℓ) = r.2 by simp] at hv
        exact ⟨h2 v hv, fun h => hdis v h v hv rfl⟩
      · refine ⟨by simpa [e] using hv, fun h => e ?_⟩
        have hv : v ∈ s.waiters ℓ := by simpa [e] using hv
        have := (hi.queued ℓ v hv).1
        rw [(hi.queued ℓ₀ v (h1 v h)).1] at this
        exact (Option.some.inj this).symm
    have ev : v ≠ w := fun e => hwq ℓ (e ▸ hvq.1)
    simpa [ev, hvq.2] using hi.queued ℓ v hvq.1
  case flag =>
    intro ℓ hne'
    by_cases e : ℓ = ℓ₀
    · subst e
      rw [show ((_ : Latches W L).waiters ℓ) = r.2 by simp] at hne'
      obtain ⟨v, hv⟩ := List.exists_mem_of_ne_nil _ hne'
      exact hi.flag ℓ (List.ne_nil_of_mem (h2 v hv))
    · exact hi.flag ℓ (by simpa [e] using hne')
  case pushing =>
    intro v c' hv
    by_cases ev : v = w
    · simp [ev] at hv
    · exact hi.pushing v c' (by simpa [ev] using hv)
  case pickedNodup =>
    intro u
    by_cases eu : u = w
    · simpa [eu] using hnd1
    · simpa [eu] using hi.pickedNodup u
  case pending =>
    intro u v hv
    by_cases eu : u = w
    · have hv1 : v ∈ r.1 := by simpa [eu] using hv
      have ev : v ≠ w := fun e => hwq ℓ₀ (e ▸ h1 v hv1)
      refine ⟨by simp [hv1], .inl ?_⟩
      rw [hne v ev, (hi.queued ℓ₀ v (h1 v hv1)).1]
      rfl
    · have hv : v ∈ (s.pc u).picked := by simpa [eu] using hv
      have ev : v ≠ w := fun e => hnp u (e ▸ hv)
      simpa [ev, hold u v hv] using hi.pending u v hv
  case pickedOne =>
    intro u u' v hv hv'
    by_cases eu : u = w <;> by_cases eu' : u' = w
    · rw [eu, eu']
    · exact absurd (by simpa [eu] using hv) (hold u' v (by simpa [eu'] using hv'))
    · exact absurd (by simpa [eu'] using hv') (hold u v (by simpa [eu] using hv))
    · exact hi.pickedOne u u' v (by simpa [eu] using hv) (by simpa [eu'] using hv')
  case picking =>
    intro u ℓ hu v hv
    by_cases eu : u = w
    · have hv1 : v ∈ r.1 := by simpa [eu] using hv
      have eℓ : ℓ₀ = ℓ := by simpa [eu] using hu
      subst eℓ
      have ev : v ≠ w := fun e => hwq ℓ₀ (e ▸ h1 v hv1)
      have hv := (hi.queued ℓ₀ v (h1 v hv1)).1
      rcases Pc.waitingOn_of_queuedOn hv with h3 | h3
      · simpa [ev] using h3
      · exact absurd (hl.one v w ℓ₀ h3 (by simp [hp])) ev
    · have hv : v ∈ (s.pc u).picked := by simpa [eu] using hv
      have ev : v ≠ w := fun e => hnp u (e ▸ hv)
      simpa [ev] using hi.picking u ℓ (by simpa [eu] using hu) v hv

omit [DecidableEq L] in
/-- A releaser marks the head of its wake list. -/
theorem QueueInv.step_wake {s t : Latches W L} {w v₀ : W} {ℓ₀ : L} {ws : List W}
    (hi : QueueInv s) (hp : s.pc w = .wakeState ℓ₀ (v₀ :: ws))
    (ht : t = (s.setState v₀ .NotWaiting).goto w (.wakeRelease ℓ₀ v₀ ws)) : QueueInv t := by
  subst ht
  have hmem : v₀ ∈ (s.pc w).picked := by simp [hp]
  have hst := (hi.pending w v₀ hmem).1
  have hnd := hi.pickedNodup w
  simp only [hp, Pc.picked, List.nodup_cons] at hnd
  have hnp : ∀ u, w ∉ (s.pc u).picked := fun _ => hi.not_picked (by simp [hp]) (by simp [hp])
  have hsub : ∀ u v, v ∈ (((s.setState v₀ .NotWaiting).goto w (.wakeRelease ℓ₀ v₀ ws)).pc u).picked →
      v ∈ (s.pc u).picked ∧ v ≠ v₀ := fun u v hv => by
    by_cases eu : u = w
    · have hv : v ∈ ws := by simpa [eu] using hv
      exact ⟨by simp [eu, hp, hv], fun e => hnd.1 (e ▸ hv)⟩
    · have hv : v ∈ (s.pc u).picked := by simpa [eu] using hv
      exact ⟨hv, fun e => eu (hi.pickedOne u w v₀ (e ▸ hv) hmem)⟩
  constructor
  case nodup => exact hi.nodup
  case queued =>
    intro ℓ v hv
    have hv' := hi.queued ℓ v hv
    have ev : v ≠ w := fun e => by rw [e, hp] at hv'; simp at hv'
    have ev' : v ≠ v₀ := fun e => by rw [e, hst] at hv'; cases hv'.2
    simpa [ev, ev'] using hv'
  case flag => exact hi.flag
  case pushing =>
    intro v c' hv
    by_cases ev : v = w
    · simp [ev] at hv
    · exact hi.pushing v c' (by simpa [ev] using hv)
  case pickedNodup =>
    intro u
    by_cases eu : u = w
    · simpa [eu] using hnd.2
    · simpa [eu] using hi.pickedNodup u
  case pending =>
    intro u v hv
    obtain ⟨hv, ev'⟩ := hsub u v hv
    have ev : v ≠ w := fun e => hnp u (e ▸ hv)
    simpa [ev, ev'] using hi.pending u v hv
  case pickedOne =>
    intro u u' v hv hv'
    exact hi.pickedOne u u' v (hsub u v hv).1 (hsub u' v hv').1
  case picking =>
    intro u ℓ hu v hv
    have hv := (hsub u v hv).1
    have ev : v ≠ w := fun e => hnp u (e ▸ hv)
    have eu : u ≠ w := fun e => by simp [e] at hu
    simpa [ev] using hi.picking u ℓ (by simpa [eu] using hu) v hv

omit [DecidableEq L] in
/-- A worker that left the queue by itself is done waiting. -/
theorem QueueInv.step_settle {s t : Latches W L} {w : W} {c : LockCall L} (hi : QueueInv s)
    (hne : ∀ v, v ≠ w → t.pc v = s.pc v) (hp : s.pc w = .dequeueState c true)
    (ht : t = (s.setState w .NotWaiting).goto w (.lockDone c)) : QueueInv t := by
  subst ht
  have hwq : ∀ ℓ, w ∉ s.waiters ℓ := fun _ => hi.not_queued (by simp [hp])
  have hnp : ∀ u, w ∉ (s.pc u).picked := fun _ => hi.not_picked (by simp [hp]) (by simp [hp])
  refine hi.unpicked hne hnp (by simp [hp]) (by simp) (by simp) rfl (fun v ev => by simp [ev]) ?nodup ?queued ?flag
  case nodup => exact hi.nodup
  case queued =>
    intro ℓ v hv
    have ev : v ≠ w := fun e => hwq ℓ (e ▸ hv)
    simpa [ev] using hi.queued ℓ v hv
  case flag => exact hi.flag

theorem QueueInv.step {s t : Latches W L} {a : W × LatchOp L} (hi : QueueInv s) (hc : CountInv s)
    (hl : ListInv s) (h : s.step a = some t) : QueueInv t := by
  obtain ⟨w, op⟩ := a
  have hne := fun v => step_pc_ne (v := v) h
  cases queue_effect hc h with
  | quiet hq hs hW hP hO hp hg hf hu => exact hi.step_quiet hl hne hq hs hW hP hO hp hg hf hu
  | push c hp ht => exact hi.step_push hne hp ht
  | delete c hp hw ht => exact hi.step_delete hne hp hw ht
  | pick ℓ r hr hp ht => exact hi.step_pick hl hne hr hp ht
  | wake ℓ v ws hp ht => exact hi.step_wake hp ht
  | settle c hp ht => exact hi.step_settle hne hp ht

end Latches

end Mimidb
