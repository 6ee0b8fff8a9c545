import Mathlib.Data.Fintype.Defs
import Mimidb.LWLatchSound

/-!
# The tokens of a worker's semaphore

A semaphore starts with one token. Every wakeup posts another one, and a
worker that was woken uses one up; the tokens of spurious wakeups are given
back. So a post finds the semaphore empty unless the worker it wakes has not
yet taken the token from the start.
-/

namespace Mimidb

namespace Pc

variable {W L : Type}

/-- The tokens that a worker has taken and neither used up nor given back. -/
@[simp] def taken : Pc W L → Nat
  | .attemptLoad c _ | .attemptCas c _ _ => c.extraWaits
  | .queueLock c | .queueFlag c | .queuePush c | .queueUnlock c => c.extraWaits
  | .sleep c | .allowWake c | .lockDone c => c.extraWaits
  | .awake c => c.extraWaits + 1
  | .dequeueLock c | .dequeueDelete c => c.extraWaits
  | .dequeueFlag c _ | .dequeueUnlock c _ | .dequeueState c _ => c.extraWaits
  | .dequeueSleep c n | .dequeueRelease c n => c.extraWaits + n
  | .dequeueAwake c n => c.extraWaits + n + 1
  | _ => 0

/-- The workers that a waker has still to post. -/
@[simp] def posts : Pc W L → List W
  | .wakeRelease _ v ws => v :: ws
  | p => p.picked

/-- The worker whose semaphore is posted next. -/
@[simp] def posting : Pc W L → Option W
  | .wakeRelease _ v _ => some v
  | _ => none

end Pc

namespace Latches

variable {W L : Type} {s t : Latches W L}

/-- Picked by a waker, and still waiting. -/
def notified (s : Latches W L) (v : W) : Bool :=
  (s.pc v).overtaken || ((s.pc v).queuedOn.isSome && s.lockState v != .Waiting)

/-- A post of `v` is to come from each of the wakers `us`. -/
def Posters (s : Latches W L) (v : W) (us : List W) : Prop := us.Nodup ∧ ∀ u, u ∈ us ↔ v ∈ (s.pc u).posts

/-- Every post finds that the worker has taken a token, is not waiting any more,
or is to be posted by another waker too. -/
def TakenBefore (s : Latches W L) (a : W × LatchOp L) : Prop :=
  ∀ v, (s.pc a.1).posting = some v →
    0 < (s.pc v).taken ∨ s.notified v = false ∨ ∃ u, u ≠ a.1 ∧ v ∈ (s.pc u).posts

instance [Fintype W] [DecidableEq W] [DecidableEq L] (s : Latches W L) (a : W × LatchOp L) :
    Decidable (TakenBefore s a) :=
  inferInstanceAs (Decidable (∀ _, _ → _))

structure TokenInv (s : Latches W L) : Prop where
  nodup : ∀ u, (s.pc u).posts.Nodup
  balance : ∀ v, ∃ us, s.Posters v us ∧ s.sema v + (s.pc v).taken + us.length = 1 + (s.notified v).toNat

theorem TokenInv.init : TokenInv (init : Latches W L) :=
  ⟨fun _ => List.nodup_nil, fun _ => ⟨[], ⟨List.nodup_nil, fun _ => by simp [Latches.init]⟩, rfl⟩⟩

theorem TokenInv.sema_zero {w v : W} (hi : TokenInv s) (hv : v ∈ (s.pc w).posts)
    (hc : 0 < (s.pc v).taken ∨ s.notified v = false ∨ ∃ u, u ≠ w ∧ v ∈ (s.pc u).posts) : s.sema v = 0 := by
  obtain ⟨us, hus, hb⟩ := hi.balance v
  have hw : w ∈ us := (hus.2 w).2 hv
  have hlen := List.length_pos_of_mem hw
  have hle := Bool.toNat_le (s.notified v)
  rcases hc with htaken | hn | ⟨u, hne, hu⟩
  · omega
  · rw [hn] at hb
    simp only [Bool.toNat_false] at hb
    omega
  · have hsub : [u, w] ⊆ us := by simp [hw, (hus.2 u).2 hu]
    have htwo := (List.subperm_of_subset (by simp [hne]) hsub).length_le
    simp only [List.length_cons, List.length_nil] at htwo
    omega

theorem TokenInv.sema_one {w v : W} (hi : TokenInv s) (hv : v ∈ (s.pc w).posts)
    (hc : ¬ (0 < (s.pc v).taken ∨ s.notified v = false ∨ ∃ u, u ≠ w ∧ v ∈ (s.pc u).posts)) : s.sema v = 1 := by
  obtain ⟨us, hus, hb⟩ := hi.balance v
  simp only [not_or, not_exists, not_and, Nat.not_lt, Nat.le_zero, Bool.not_eq_false] at hc
  obtain ⟨htaken, hn, hone⟩ := hc
  have hus' : us = [w] := by
    refine List.perm_singleton.1 ((List.perm_ext_iff_of_nodup hus.1 (List.nodup_singleton w)).2 fun u => ?_)
    rw [hus.2, List.mem_singleton]
    exact ⟨fun hu => Classical.byContradiction fun e => hone u e hu, fun e => e ▸ hv⟩
  rw [htaken, hn, hus'] at hb
  simp only [List.length_singleton, Bool.toNat_true] at hb
  omega

/-- What a step of `w` does to the tokens. -/
inductive TokenEffect (s t : Latches W L) (w : W) : Prop where
  | quiet (hn : ∀ v, t.notified v = s.notified v) (hs : ∀ v, v ≠ w → t.sema v = s.sema v)
      (ht : t.sema w + (t.pc w).taken = s.sema w + (s.pc w).taken) (hp : (t.pc w).posts = (s.pc w).posts)
      (hle : t.sema w ≤ s.sema w ∨ t.notified w = false)
  | pick (hn : ∀ v, t.notified v = true ↔ s.notified v = true ∨ v ∈ (t.pc w).posts)
      (hnew : ∀ v ∈ (t.pc w).posts, s.notified v = false) (hs : t.sema = s.sema)
        (ht : (t.pc w).taken = (s.pc w).taken)
      (hnd : (t.pc w).posts.Nodup) (hp : (s.pc w).posts = [])
  | post (v : W) (ws : List W) (hr : (s.pc w).posting = some v) (hn : ∀ v, t.notified v = s.notified v)
      (hv : t.sema v = s.sema v + 1) (hs : ∀ u, u ≠ v → t.sema u = s.sema u) (ht : (t.pc w).taken = (s.pc w).taken)
      (hp : (s.pc w).posts = v :: ws) (hp' : (t.pc w).posts = ws)
  | use (hn : ∀ v, v ≠ w → t.notified v = s.notified v) (hw : s.notified w = true) (hw' : t.notified w = false)
      (hs : t.sema = s.sema) (ht : (s.pc w).taken = (t.pc w).taken + 1) (hp : (t.pc w).posts = (s.pc w).posts)

theorem notified_congr {v : W} (hq : (t.pc v).queuedOn.isSome = (s.pc v).queuedOn.isSome)
    (ho : (t.pc v).overtaken = (s.pc v).overtaken)
    (hl : (t.lockState v != .Waiting) = (s.lockState v != .Waiting)) :
    t.notified v = s.notified v := by
  unfold notified
  rw [hq, ho, hl]

theorem not_overtaken {p : Pc W L} (h : p.queuedOn.isSome = true) : p.overtaken = false := by
  cases p <;> first | rfl | cases h

variable [DecidableEq W] [DecidableEq L]

theorem notified_other {v w : W} {op : LatchOp L} (h : s.step (w, op) = some t) (hv : v ≠ w)
    (hl : (t.lockState v != .Waiting) = (s.lockState v != .Waiting)) : t.notified v = s.notified v := by
  have hpc := step_pc_ne h hv
  exact notified_congr (by rw [hpc]) (by rw [hpc]) hl

theorem TokenEffect.still {w : W} {op : LatchOp L} (h : s.step (w, op) = some t) (hl : t.lockState = s.lockState)
    (hq : (t.pc w).queuedOn.isSome = (s.pc w).queuedOn.isSome) (ho : (t.pc w).overtaken = (s.pc w).overtaken)
    (hs : ∀ v, v ≠ w → t.sema v = s.sema v) (ht : t.sema w + (t.pc w).taken = s.sema w + (s.pc w).taken)
    (hp : (t.pc w).posts = (s.pc w).posts) (hle : t.sema w ≤ s.sema w ∨ t.notified w = false) :
    TokenEffect s t w := by
  refine .quiet (fun v => ?_) hs ht hp hle
  by_cases e : v = w
  · subst e
    exact notified_congr hq ho (by rw [hl])
  · exact notified_other h e (by rw [hl])

theorem token_pick {w : W} {ℓ : L} (hq : QueueInv s) (hp : s.pc w = .wakePick ℓ) (h : s.step (w, .run) = some t) :
    TokenEffect s t w := by
  have hstep := h
  simp only [Latches.step, hp, runPc] at h
  have hperm := pickWaiters_perm s.lockMode false (s.waiters ℓ)
  have hold : ∀ v ∈ (pickWaiters s.lockMode false (s.waiters ℓ)).1, (s.pc v).queuedOn.isSome = true ∧
      s.lockState v = .Waiting := by
    intro v hv
    obtain ⟨hon, hl⟩ := hq.queued ℓ v (hperm.subset (List.mem_append_left _ hv))
    exact ⟨by rw [hon]; rfl, hl⟩
  have hposts : (t.pc w).posts = (pickWaiters s.lockMode false (s.waiters ℓ)).1 := by cases h; simp
  have hstate : ∀ v, t.lockState v = if v ∈ (pickWaiters s.lockMode false (s.waiters ℓ)).1 then .PendingWakeup
      else s.lockState v := by
    cases h
    exact fun _ => rfl
  refine .pick (fun v => ?_) (fun v hv => ?_) (by cases h; rfl) (by cases h; simp [hp]) ?_ (by simp [hp])
  · rw [hposts]
    by_cases hv : v ∈ (pickWaiters s.lockMode false (s.waiters ℓ)).1
    · have e : v ≠ w := fun e => by have := (hold v hv).1; rw [e, hp] at this; cases this
      refine iff_of_true ?_ (.inr hv)
      unfold notified
      rw [step_pc_ne hstep e, (hold v hv).1, hstate, if_pos hv]
      exact Bool.or_true _
    · rw [or_iff_left hv]
      by_cases e : v = w
      · subst e
        cases h
        simp [notified, hp]
      · rw [notified_other hstep e (by rw [hstate, if_neg hv])]
  · rw [hposts] at hv
    obtain ⟨hon, hl⟩ := hold v hv
    unfold notified
    rw [not_overtaken hon, hl]
    exact Bool.and_false _
  · rw [hposts]
    exact (List.nodup_append.1 (hperm.nodup_iff.2 (hq.nodup ℓ))).1

theorem token_effect {w : W} {op : LatchOp L} (hq : QueueInv s) (h : s.step (w, op) = some t) :
    TokenEffect s t w := by
  have hstep := h
  cases op with
  | lock ℓ m =>
    simp only [Latches.step] at h
    split at h
    · rename_i hp
      cases h
      refine .still hstep rfl ?_ ?_ ?_ ?_ ?_ ?_ <;> simp [hp]
    · cases h
  | unlock ℓ m =>
    simp only [Latches.step] at h
    split at h
    · rename_i hp
      cases h
      refine .still hstep rfl ?_ ?_ ?_ ?_ ?_ ?_ <;> simp [hp.1]
    · cases h
  | run =>
    simp only [Latches.step] at h
    cases hp : s.pc w <;> rw [hp] at h <;> simp only [runPc] at h
    case queuePush c =>
      cases h
      refine .quiet (fun v => ?_) (fun _ _ => rfl) (by simp [hp]) (by simp [hp]) (.inl (Nat.le_refl _))
      by_cases e : v = w
      · subst e
        simp [notified, hp]
      · exact notified_other hstep e (by simp [e])
    case wakePick ℓ => exact token_pick hq hp hstep
    case wakeState ℓ ws =>
      cases ws with
      | nil =>
        cases h
        refine .still hstep rfl ?_ ?_ ?_ ?_ ?_ ?_ <;> simp [hp]
      | cons v ws =>
        cases h
        have hv := (hq.pending w v (by simp [hp])).1
        refine .quiet (fun u => ?_) (fun _ _ => rfl) (by simp [hp]) (by simp [hp]) (.inl (Nat.le_refl _))
        by_cases e : u = w
        · subst e
          simp [notified, hp]
        · refine notified_other hstep e ?_
          by_cases e' : u = v
          · subst e'
            simp only [setState, goto, Function.update_self, hv]
            rfl
          · simp [e']
    case wakeRelease ℓ v ws =>
      cases h
      refine .post v ws (by rw [hp]; rfl) (fun u => ?_) (by simp) (fun u hu => by simp [hu]) (by simp [hp])
        (by rw [hp]; rfl) (by simp)
      by_cases e : u = w
      · subst e
        simp [notified, hp]
      · exact notified_other hstep e rfl
    case dequeueState c b =>
      cases b with
      | false =>
        cases h
        refine .still hstep rfl ?_ ?_ ?_ ?_ ?_ ?_ <;> simp [hp]
      | true =>
        cases h
        refine .quiet (fun v => ?_) (fun _ _ => rfl) (by simp [hp]) (by simp [hp]) (.inl (Nat.le_refl _))
        by_cases e : v = w
        · subst e
          simp [notified, hp]
        · exact notified_other hstep e (by simp [e])
    case dequeueDelete c =>
      split at h
      all_goals
        rename_i hl
        cases h
        refine .quiet (fun v => ?_) (fun _ _ => rfl) (by simp [hp]) (by simp [hp]) (.inl (Nat.le_refl _))
        by_cases e : v = w
        · subst e
          simp [notified, hp, hl]
        · exact notified_other hstep e rfl
    case awake c =>
      split at h
      · rename_i hl
        cases h
        refine .use (fun v e => notified_other hstep e rfl) ?_ ?_ rfl ?_ ?_ <;> simp [notified, hp, hl]
      · cases h
        refine .still hstep rfl ?_ ?_ ?_ ?_ ?_ ?_ <;> simp [hp]
    case dequeueAwake c n =>
      split at h
      · cases h
        refine .use (fun v e => notified_other hstep e rfl) ?_ ?_ rfl ?_ ?_ <;> simp [notified, hp]
      · cases h
        refine .still hstep rfl ?_ ?_ ?_ ?_ ?_ ?_ <;> simp [hp, Nat.add_assoc]
    case attemptLoad c q =>
      cases h
      refine .still hstep rfl ?_ ?_ ?_ ?_ ?_ ?_ <;> cases q <;> simp [hp]
    case attemptCas c q old =>
      cases q
      all_goals
        simp only [attemptExchange, Option.some.injEq] at h
        repeat' split at h
        all_goals
          subst h
          refine .still hstep rfl ?_ ?_ ?_ ?_ ?_ ?_ <;> simp_all
    case dequeueFlag c b | dequeueUnlock c b =>
      try simp only [listUnlock] at h
      repeat' split at h
      all_goals
        cases h
        refine .still hstep rfl ?_ ?_ ?_ ?_ ?_ ?_ <;> cases b <;> simp [hp]
    case unlockCheck ℓ m old =>
      cases h
      refine .still hstep rfl ?_ ?_ ?_ ?_ ?_ ?_ <;> cases hw : shouldWake old m <;> simp [hp]
    case sleep c | dequeueSleep c n =>
      split at h
      · cases h
      · cases h
        refine .still hstep rfl (by simp [hp]) (by simp [hp]) (fun v hv => by simp [hv]) ?_ (by simp [hp])
          (.inl (by simp))
        simp only [hp, Pc.taken, goto, setSema, Function.update_self]
        omega
    case dequeueRelease c n | lockDone c =>
      cases h
      refine .still hstep rfl (by simp [hp]) (by simp [hp]) (fun v hv => by simp [hv]) ?_ (by simp [hp])
        (.inr (by simp [notified]))
      simp only [hp, Pc.taken, goto, setSema, Function.update_self]
      omega
    all_goals
      try simp only [listLock, listUnlock] at h
      repeat' split at h
      all_goals cases h
      all_goals refine .still hstep rfl ?_ ?_ ?_ ?_ ?_ ?_ <;> simp [hp]

omit [DecidableEq W] [DecidableEq L] in
theorem Posters.congr {v : W} {us : List W} (h : s.Posters v us)
    (hp : ∀ u, v ∈ (t.pc u).posts ↔ v ∈ (s.pc u).posts) :
    t.Posters v us := ⟨h.1, fun u => (h.2 u).trans (hp u).symm⟩

/-- What a step keeps of the worker that takes it, it keeps of every worker. -/
theorem same_of_step {β : Type*} {w : W} {op : LatchOp L} (f : Pc W L → β) (h : s.step (w, op) = some t)
    (hw : f (t.pc w) = f (s.pc w)) (v : W) : f (t.pc v) = f (s.pc v) := by
  by_cases e : v = w
  · rw [e, hw]
  · rw [step_pc_ne h e]

omit [DecidableEq W] [DecidableEq L] in
theorem TokenInv.of_same (hi : TokenInv s) (hp : ∀ u, (t.pc u).posts = (s.pc u).posts)
    (hb : ∀ v, t.sema v + (t.pc v).taken + (s.notified v).toNat =
      s.sema v + (s.pc v).taken + (t.notified v).toNat) :
    TokenInv t := by
  refine ⟨fun u => by rw [hp]; exact hi.nodup u, fun v => ?_⟩
  obtain ⟨us, hus, hs⟩ := hi.balance v
  have ht := hb v
  exact ⟨us, hus.congr fun u => by rw [hp], by omega⟩

theorem TokenInv.step {a : W × LatchOp L} (hi : TokenInv s) (hq : QueueInv s) (h : s.step a = some t) :
    TokenInv t := by
  obtain ⟨w, op⟩ := a
  have hpc := fun v => step_pc_ne (v := v) h
  cases token_effect hq h with
  | quiet hn hs ht hp _ =>
    refine hi.of_same (same_of_step Pc.posts h hp) fun v => ?_
    rw [hn]
    by_cases e : v = w
    · rw [e, ht]
    · rw [hs v e, hpc v e]
  | use hn hw hw' hs ht hp =>
    refine hi.of_same (same_of_step Pc.posts h hp) fun v => ?_
    rw [hs]
    by_cases e : v = w
    · rw [e, hw, hw', ht]
      simp only [Bool.toNat_false, Bool.toNat_true]
      omega
    · rw [hpc v e, hn v e]
  | pick hn hnew hs ht hnd hp =>
    have htaken := same_of_step Pc.taken h ht
    refine ⟨fun u => ?_, fun v => ?_⟩
    · by_cases e : u = w
      · exact e ▸ hnd
      · rw [hpc u e]
        exact hi.nodup u
    obtain ⟨us, hus, hb⟩ := hi.balance v
    have hw : w ∉ us := fun hw => by
      have := (hus.2 w).1 hw
      rw [hp] at this
      cases this
    by_cases hv : v ∈ (t.pc w).posts
    · refine ⟨w :: us, ⟨List.nodup_cons.2 ⟨hw, hus.1⟩, fun u => ?_⟩, ?_⟩
      · rw [List.mem_cons]
        by_cases e : u = w
        · exact iff_of_true (.inl e) (e ▸ hv)
        · rw [or_iff_right e, hus.2, hpc u e]
      · rw [hnew v hv] at hb
        rw [hs, htaken, (hn v).2 (.inr hv), List.length_cons]
        simp only [Bool.toNat_false, Bool.toNat_true] at hb ⊢
        omega
    · refine ⟨us, hus.congr fun u => ?_, ?_⟩
      · by_cases e : u = w
        · rw [e, hp]
          exact iff_of_false hv nofun
        · rw [hpc u e]
      · have hsame : t.notified v = s.notified v := Bool.eq_iff_iff.2 ((hn v).trans (or_iff_left hv))
        rw [hs, htaken, hsame, hb]
  | post v ws _ hn hv hs ht hp hp' =>
    have htaken := same_of_step Pc.taken h ht
    have hnd := hi.nodup w
    rw [hp, List.nodup_cons] at hnd
    refine ⟨fun u => ?_, fun u => ?_⟩
    · by_cases e : u = w
      · rw [e, hp']
        exact hnd.2
      · rw [hpc u e]
        exact hi.nodup u
    obtain ⟨us, hus, hb⟩ := hi.balance u
    by_cases e : u = v
    · subst e
      have hw : w ∈ us := (hus.2 w).2 (by rw [hp]; exact List.mem_cons_self)
      refine ⟨us.erase w, ⟨hus.1.erase w, fun x => ?_⟩, ?_⟩
      · rw [hus.1.mem_erase_iff, hus.2]
        by_cases ex : x = w
        · subst ex
          rw [hp']
          exact iff_of_false (fun hx => hx.1 rfl) hnd.1
        · rw [and_iff_right ex, hpc x ex]
      · have hlen := List.length_pos_of_mem hw
        rw [hv, htaken, hn, List.length_erase_of_mem hw]
        omega
    · refine ⟨us, hus.congr fun x => ?_, by rw [hs u e, htaken, hn, hb]⟩
      by_cases ex : x = w
      · subst ex
        rw [hp, hp', List.mem_cons, or_iff_right e]
      · rw [hpc x ex]

/-- The invariant of the tokens with those that it needs. -/
structure PostInv (s : Latches W L) : Prop where
  count : CountInv s
  list : ListInv s
  queue : QueueInv s
  tokens : TokenInv s

omit [DecidableEq W] [DecidableEq L] in
theorem PostInv.init : PostInv (init : Latches W L) := ⟨.init, .init, .init, .init⟩

theorem PostInv.step {a : W × LatchOp L} (hi : PostInv s) (h : s.step a = some t) : PostInv t where
  count := hi.count.step h
  list := hi.list.step hi.count h
  queue := hi.queue.step hi.count hi.list h
  tokens := hi.tokens.step hi.queue h

theorem sema_le_step {w : W} {op : LatchOp L} (hi : PostInv s) (hc : TakenBefore s (w, op))
    (hle : ∀ v, s.sema v ≤ 1) (h : s.step (w, op) = some t) (v : W) : t.sema v ≤ 1 := by
  cases token_effect hi.queue h with
  | quiet hn hs ht hp hup =>
    by_cases e : v = w
    · subst e
      rcases hup with hup | hup
      · exact Nat.le_trans hup (hle v)
      · -- tokens that are given back
        obtain ⟨us, -, hb⟩ := (hi.tokens.step hi.queue h).balance v
        rw [hup] at hb
        simp only [Bool.toNat_false] at hb
        omega
    · rw [hs v e]
      exact hle v
  | pick hn hnew hs ht hnd hp =>
    rw [hs]
    exact hle v
  | post u us hr hn hu hs ht hp hp' =>
    by_cases e : v = u
    · subst e
      rw [hu, hi.tokens.sema_zero (by rw [hp]; exact List.mem_cons_self) (hc v hr)]
    · rw [hs v e]
      exact hle v
  | use hn hw hw' hs ht hp =>
    rw [hs]
    exact hle v

theorem semaphores_bounded (h : Reach Latches.step TakenBefore init s) : (∀ v, s.sema v ≤ 1) ∧
    ∀ a t, s.step a = some t → ¬ TakenBefore s a → ∃ v, 1 < t.sema v := by
  obtain ⟨hi, hle⟩ := h.inv (I := fun s => PostInv s ∧ ∀ v, s.sema v ≤ 1)
    (fun _ _ _ hi hc ht => ⟨hi.1.step ht, sema_le_step hi.1 hc hi.2 ht⟩) ⟨.init, fun _ => Nat.le_refl 1⟩
  refine ⟨hle, fun a t ht hc => ?_⟩
  obtain ⟨w, op⟩ := a
  obtain ⟨v, hc⟩ := Classical.not_forall.1 hc
  obtain ⟨hr, hc⟩ := Classical.not_imp.1 hc
  refine ⟨v, ?_⟩
  cases op with
  | lock ℓ m =>
    simp only [Latches.step] at ht
    split at ht
    · rename_i hp
      rw [hp] at hr
      cases hr
    · cases ht
  | unlock ℓ m =>
    simp only [Latches.step] at ht
    split at ht
    · rename_i hp
      rw [hp.1] at hr
      cases hr
    · cases ht
  | run =>
    simp only [Latches.step] at ht
    cases hp : s.pc w <;> rw [hp] at hr <;> simp only [Pc.posting, reduceCtorEq] at hr
    obtain rfl := Option.some.inj hr
    rw [hp] at ht
    simp only [runPc] at ht
    cases ht
    have hone := hi.tokens.sema_one (by rw [hp]; exact List.mem_cons_self) hc
    simp [hone]

/-- A worker locks, and a second one queues up to its sleep. -/
def sleepTrace : List (Fin 2 × LatchOp Unit) :=
  (0, .lock () .Exclusive) :: List.replicate 3 (0, .run) ++ (1, .lock () .Exclusive) :: List.replicate 8 (1, .run)

/-- The second worker takes its token before the first one unlocks. -/
theorem semaphores_bounded_wake : ∃ s : Latches (Fin 2) Unit, Reach Latches.step TakenBefore init s ∧
    (s.pc 1 = .idle ∧ s.held 1 () = some .Exclusive) ∧ ∀ v, s.sema v ≤ 1 := by
  have h : (exec (guarded TakenBefore Latches.step) (init : Latches (Fin 2) Unit)
      (sleepTrace ++ List.replicate 2 (1, .run) ++ (0, .unlock () .Exclusive) :: List.replicate 9 (0, .run) ++
        List.replicate 6 (1, .run))).map (fun s => decide (s.pc 1 = .idle ∧ s.held 1 () = some .Exclusive)) =
        some true := by
    decide +kernel
  obtain ⟨s, hr, hs⟩ := reach_of_test h
  exact ⟨s, hr.of_guarded, of_decide_eq_true hs, (semaphores_bounded hr.of_guarded).1⟩

/-- The second worker is woken before it has taken the token from the start. -/
theorem semaphore_overflows : ∃ s : Latches (Fin 2) Unit, Reach Latches.step anyStep init s ∧ 1 < s.sema 1 := by
  have h : (exec Latches.step (init : Latches (Fin 2) Unit)
      (sleepTrace ++ (0, .unlock () .Exclusive) :: List.replicate 8 (0, .run))).map
        (fun s => decide (1 < s.sema 1)) = some true := by
    decide +kernel
  obtain ⟨s, hr, hs⟩ := reach_of_test h
  exact ⟨s, hr, of_decide_eq_true hs⟩

end Latches

end Mimidb
