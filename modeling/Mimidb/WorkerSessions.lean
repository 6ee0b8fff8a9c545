import Mimidb.TransactionSound

/-!
# Workers and the ends of their sessions

A free worker takes a session, whose requests begin, use and end transactions;
the session ends whenever no call is under way, as the client can go away, the
reader can throw and an answer can fail to be sent at any point. Nothing looks
at the transaction then (`ended_with_session`).
-/

namespace Mimidb

variable {W : Type}

structure WorkerRun (W : Type) where
  manager : TransManager W
  busy : W → Bool
  /-- `MyTransaction` of the worker's thread is not null. -/
  mine : W → Bool
  /-- The thread is in the scope of an `ImplicitTransactionGuard` that began its transaction. -/
  guarded : W → Bool
  /-- The transaction that the worker began last. -/
  last : W → Option Nat

inductive WorkerOp where
  /-- `Worker::Submit`. -/
  | submit
  /-- The thread of the session ends. -/
  | leave
  /-- A request's next call, or the next operation of a call; `guard` says whether a guard makes the call. -/
  | call (op : TransOp) (guard : Bool)
  deriving DecidableEq, Repr

namespace WorkerRun

open TransManager CommitSeqNumber

def init : WorkerRun W := ⟨.init, fun _ => false, fun _ => false, fun _ => false, fun _ => none⟩

/-- The calls that a thread makes with its `MyTransaction`; a commit takes the worker's transaction. -/
def allowed (mine : Bool) : TransOp → Bool
  | .beginNewTransaction => !mine
  | .commit | .run => true
  | .beginNewStatement | .write _ _ _ | .abort | .visible _ | .wait _ => mine

variable [DecidableEq W]

/-- `MyTransaction` and the guard go with the transaction. -/
def after (s : WorkerRun W) (w : W) (op : TransOp) (guard : Bool) (manager : TransManager W) : WorkerRun W :=
  if op = .beginNewTransaction then
    { s with
      manager := manager
      mine := Function.update s.mine w true
      guarded := Function.update s.guarded w guard
      last := Function.update s.last w (some s.manager.xid) }
  else
    { s with
      manager := manager
      mine := Function.update s.mine w (s.mine w && (manager.transactions w).isSome)
      guarded := Function.update s.guarded w (s.guarded w && (manager.transactions w).isSome) }

def step (s : WorkerRun W) : W × WorkerOp → Option (WorkerRun W)
  | (w, .submit) =>
    if s.busy w then none
    else some { s with
      busy := Function.update s.busy w true
      mine := Function.update s.mine w false
      guarded := Function.update s.guarded w false }
  | (w, .leave) =>
    -- an exception in the scope of a guard ends its transaction first
    if s.busy w = true ∧ s.manager.pc w = .idle ∧ s.guarded w = false then
      some { s with busy := Function.update s.busy w false }
    else none
  | (w, .call op guard) =>
    if s.busy w = true ∧ allowed (s.mine w) op = true then (s.manager.step (w, op)).map (s.after w op guard)
      else none

/-- What free workers have left behind, and who runs the transactions in progress. -/
structure EndedWithSession (s : WorkerRun W) : Prop where
  free : ∀ w, s.busy w = false → s.manager.transactions w = none ∧ ∀ x, s.last w = some x →
    (s.manager.history x = Aborted ∨ isNormal (s.manager.history x) = true) ∧ s.manager.xidToWorker x = none
  run : ∀ x, s.manager.history x = InProgress →
    ∃ w tr, s.busy w = true ∧ s.manager.transactions w = some tr ∧ tr.xid = x

/-- Sessions end without a transaction, and the 64 bit counters do not wrap. -/
def Closed (s : WorkerRun W) : W × WorkerOp → Prop
  | (w, .leave) => s.mine w = false
  | (_, .submit) => True
  | (w, .call op _) => noWrap s.manager (w, op)

end WorkerRun

/-! ## Transactions that nobody runs -/

namespace TransManager

open CommitSeqNumber

def Held (s : TransManager W) (x : Nat) : Prop := ∃ w tr, s.transactions w = some tr ∧ tr.xid = x

/-- The history and the map of a transaction that ended. -/
def Ended (s : TransManager W) (x : Nat) : Prop :=
  (s.history x = Aborted ∨ isNormal (s.history x) = true) ∧ s.xidToWorker x = none

structure Tidy (s : TransManager W) : Prop extends TransInv s where
  erased : ∀ w tr, s.transactions w = some tr → (s.pc w = .abortEnd ∨ ∃ c, s.pc w = .commitEnd c) →
    s.xidToWorker tr.xid = none
  done : ∀ x, s.history x ≠ Invalid → ¬ Held s x → Ended s x

theorem Tidy.init : Tidy (init : TransManager W) where
  toTransInv := .init
  erased _ _ h := by cases h
  done _ hx _ := absurd rfl hx

section
variable [DecidableEq W] {s t : TransManager W} {w : W} {op : TransOp}

theorem step_erases {tr : Transaction} (h : s.step (w, op) = some t) (htr : s.transactions w = some tr)
    (hp : t.pc w = .abortEnd ∨ ∃ c, t.pc w = .commitEnd c) : t.xidToWorker tr.xid = none := by
  cases op with
  | run =>
    simp only [TransManager.step, htr, Option.bind_some] at h
    cases hpc : s.pc w <;> rw [hpc] at h <;> simp only [runPc, locked, eraseWorker] at h
    all_goals
      repeat' split at h
      all_goals cases h
      all_goals simp_all
  | _ =>
    simp only [TransManager.step] at h
    repeat' split at h
    all_goals cases h
    all_goals simp_all

theorem step_begins (h : s.step (w, op) = some t) (hp : t.pc w = .beginRegister) : op = .beginNewTransaction := by
  cases op with
  | beginNewTransaction => rfl
  | run =>
    simp only [TransManager.step, Option.bind_eq_some_iff] at h
    obtain ⟨tr, -, h⟩ := h
    cases hpc : s.pc w <;> rw [hpc] at h <;> simp only [runPc, locked, eraseWorker] at h
    all_goals
      repeat' split at h
      all_goals cases h
      all_goals simp_all
  | _ =>
    simp only [TransManager.step] at h
    repeat' split at h
    all_goals cases h
    all_goals simp_all

omit [DecidableEq W] in
theorem Ended.congr {x : Nat} (h : Ended s x) (hh : t.history x = s.history x)
    (hk : t.xidToWorker x = s.xidToWorker x) :
    Ended t x := by
  rw [Ended, hh, hk]
  exact h

theorem step_keeps (hi : TransInv s) (hw : noWrap s (w, op)) (h : s.step (w, op) = some t) {x : Nat}
    (hx : ∀ tr, s.transactions w = some tr → tr.xid ≠ x) :
    t.history x = s.history x ∧ t.xidToWorker x = s.xidToWorker x := by
  cases trans_effect hi hw h with
  | begin ht hp hp' hx' hh hk hc hd ha => rw [hh, hk]; exact ⟨rfl, rfl⟩
  | run tr tr' hs ht hx' hsn hp hp' hxid hh hk hc hd hd' hr ha => rw [hh, hk]; exact ⟨rfl, rfl⟩
  | mark tr v hs ht hv hh hk hp hp' hm hcm hxid hc hd ha =>
    have hne := (hx tr hs).symm
    rw [hh, hk x hne, Function.update_of_ne hne]
    exact ⟨rfl, rfl⟩
  | take hs ht hc htr hh hk hxid hd ha => rw [hh, hk]; exact ⟨rfl, rfl⟩
  | finish hs hp ht hh hk hxid hc hd ha => rw [hh, hk]; exact ⟨rfl, rfl⟩

theorem begin_spec (hw : noWrap s (w, .beginNewTransaction)) (h : s.step (w, .beginNewTransaction) = some t) :
    t.transactions w = some (.new s.xid) ∧ t.pc w = .beginRegister ∧ t.xid = s.xid + 1 := by
  simp only [TransManager.step, Option.ite_none_right_eq_some] at h
  obtain ⟨-, h⟩ := h
  cases h
  exact ⟨by simp, by simp, Nat.mod_eq_of_lt hw.2⟩

theorem transaction_of_busy (h : s.step (w, op) = some t) (hp : s.pc w ≠ .idle) :
    ∃ tr, s.transactions w = some tr := by
  cases op with
  | run =>
    obtain ⟨tr, htr, -⟩ := Option.bind_eq_some_iff.1 h
    exact ⟨tr, htr⟩
  | _ =>
    simp only [TransManager.step, if_neg hp] at h
    cases h

/-- After any other call the worker's transaction is the same one or has ended. -/
theorem step_holds (hi : TransInv s) (hw : noWrap s (w, op)) (hop : op ≠ .beginNewTransaction)
    (h : s.step (w, op) = some t) : t.xid = s.xid ∧
    ((∃ tr tr', s.transactions w = some tr ∧ t.transactions w = some tr' ∧ tr'.xid = tr.xid) ∨
      (t.transactions w = none ∧ (s.pc w = .abortEnd ∨ ∃ c, s.pc w = .commitEnd c) ∧
        t.history = s.history ∧ t.xidToWorker = s.xidToWorker)) := by
  cases trans_effect hi hw h with
  | begin ht hp hp' hx' hh hk hc hd ha => exact absurd (step_begins h hp) hop
  | run tr tr' hs ht hx' hsn hp hp' hxid hh hk hc hd hd' hr ha => exact ⟨hxid, .inl ⟨tr, tr', hs, ht, hx'⟩⟩
  | mark tr v hs ht hv hh hk hp hp' hm hcm hxid hc hd ha => exact ⟨hxid, .inl ⟨tr, tr, hs, ht, rfl⟩⟩
  | take hs ht hc htr hh hk hxid hd ha =>
    refine ⟨hxid, ?_⟩
    cases hsw : s.transactions w with
    | some tr => exact .inl ⟨tr, tr, rfl, by rw [htr, hsw], rfl⟩
    | none =>
      obtain ⟨tr, htr'⟩ := transaction_of_busy h (by rw [hs]; exact nofun)
      rw [hsw] at htr'
      cases htr'
  | finish hs hp ht hh hk hxid hc hd ha => exact ⟨hxid, .inr ⟨ht, hs, hh, hk⟩⟩

theorem Tidy.step (hi : Tidy s) (hw : noWrap s (w, op)) (hb : op = .beginNewTransaction → s.transactions w = none)
    (h : s.step (w, op) = some t) : Tidy t := by
  have hinv := hi.toTransInv
  have hne := fun v (hv : v ≠ w) => step_ne h hv
  refine ⟨hinv.step hw h, fun v tr hv hp => ?_, fun x hx hn => ?_⟩
  · by_cases e : v = w
    · subst e
      by_cases hop : op = .beginNewTransaction
      · subst hop
        rw [(begin_spec hw h).2.1] at hp
        simp at hp
      · rcases (step_holds hinv hw hop h).2 with ⟨tr0, tr', hs, ht', hxid⟩ | ⟨hnone, -, -, -⟩
        · rw [ht'] at hv
          cases hv
          rw [hxid]
          exact step_erases h hs hp
        · rw [hnone] at hv
          cases hv
    · rw [(hne v e).2] at hv
      rw [(hne v e).1] at hp
      rw [(step_keeps hinv hw h fun tr' hs he => e (hi.one v w tr tr' hv hs he.symm)).2]
      exact hi.erased v tr hv hp
  · by_cases hown : ∃ tr, s.transactions w = some tr ∧ tr.xid = x
    · obtain ⟨tr, hs, rfl⟩ := hown
      have hop : op ≠ .beginNewTransaction := fun hop => by rw [hb hop] at hs; cases hs
      rcases (step_holds hinv hw hop h).2 with ⟨tr0, tr', hs', ht', hxid⟩ | ⟨hnone, hp, hh, hk⟩
      · rw [hs] at hs'
        cases hs'
        exact absurd ⟨w, tr', ht', hxid⟩ hn
      · have hph := hi.phase w tr hs
        have herased := hi.erased w tr hs hp
        refine Ended.congr (s := s) ⟨?_, herased⟩ (by rw [hh]) (by rw [hk])
        rcases hp with hp | ⟨c, hp⟩
        · rw [hp] at hph
          exact .inl hph
        · rw [hp] at hph
          right
          rw [hph.1]
          simpa [isNormal] using hph.2
    · have hkeep := step_keeps hinv hw h fun tr hs he => hown ⟨tr, hs, he⟩
      refine (hi.done x (hkeep.1 ▸ hx) fun ⟨v, tr, hv, hvx⟩ => ?_).congr hkeep.1 hkeep.2
      by_cases e : v = w
      · subst e
        exact hown ⟨tr, hv, hvx⟩
      · exact hn ⟨v, tr, by rw [(hne v e).2]; exact hv, hvx⟩

theorem history_valid (hi : TransInv s) (hw : noWrap s (w, op)) (h : s.step (w, op) = some t) {x : Nat}
    (hx : s.history x ≠ Invalid) : t.history x ≠ Invalid := by
  cases trans_effect hi hw h with
  | begin ht hp hp' hx' hh hk hc hd ha => rwa [hh]
  | run tr tr' hs ht hx' hsn hp hp' hxid hh hk hc hd hd' hr ha => rwa [hh]
  | mark tr v hs ht hv hh hk hp hp' hm hcm hxid hc hd ha =>
    rw [hh]
    by_cases e : x = tr.xid
    · rw [e, Function.update_self]
      exact hv.2.2
    · rwa [Function.update_of_ne e]
  | take hs ht hc htr hh hk hxid hd ha => rwa [hh]
  | finish hs hp ht hh hk hxid hc hd ha => rwa [hh]

end

end TransManager

/-! ## Sessions that end without a transaction -/

namespace WorkerRun

open TransManager CommitSeqNumber

structure Orderly (s : WorkerRun W) : Prop where
  tidy : Tidy s.manager
  mine : ∀ w, s.mine w = true ↔ s.manager.transactions w ≠ none
  free : ∀ w, s.busy w = false → s.mine w = false
  last : ∀ w x, s.last w = some x →
    (∃ tr, s.manager.transactions w = some tr ∧ tr.xid = x) ∨ s.manager.history x ≠ Invalid
  owner : ∀ w v tr x, s.last w = some x → s.manager.transactions v = some tr → tr.xid = x → v = w
  lastLt : ∀ w x, s.last w = some x → x < s.manager.xid

theorem init_orderly : Orderly (init : WorkerRun W) := by
  refine ⟨.init, fun _ => ?_, fun _ _ => rfl, fun _ _ h => ?_, fun _ _ _ _ h => ?_, fun _ _ h => ?_⟩
  · simp [init, TransManager.init]
  · cases h
  · cases h
  · cases h

theorem Orderly.none_of_mine {s : WorkerRun W} (h : Orderly s) {w : W} (hm : s.mine w = false) :
    s.manager.transactions w = none := by
  by_contra hn
  rw [(h.mine w).2 hn] at hm
  cases hm

theorem Orderly.ended {s : WorkerRun W} (h : Orderly s) : EndedWithSession s := by
  refine ⟨fun w hw => ?_, fun x hx => ?_⟩
  · have hnone := h.none_of_mine (h.free w hw)
    refine ⟨hnone, fun x hl => h.tidy.done x ?_ fun ⟨v, tr, hv, hvx⟩ => ?_⟩
    · rcases h.last w x hl with ⟨tr, htr, -⟩ | hx
      · rw [hnone] at htr
        cases htr
      · exact hx
    · obtain rfl := h.owner w v tr x hl hv hvx
      rw [hnone] at hv
      cases hv
  · have hheld : Held s.manager x := by
      by_contra hn
      rcases (h.tidy.done x (by rw [hx]; exact nofun) hn).1 with he | he
      · rw [hx] at he
        cases he
      · rw [hx] at he
        cases he
    obtain ⟨w, tr, hw, hwx⟩ := hheld
    refine ⟨w, tr, ?_, hw, hwx⟩
    by_contra hb
    rw [h.none_of_mine (h.free w (Bool.eq_false_iff.2 hb))] at hw
    cases hw

section
variable [DecidableEq W] {s u : WorkerRun W} {w : W}

theorem Orderly.begin {guard : Bool} {manager : TransManager W} (h : Orderly s) (hb : s.busy w = true)
    (hm : s.mine w = false) (hw : noWrap s.manager (w, .beginNewTransaction))
    (hs : s.manager.step (w, .beginNewTransaction) = some manager) :
    Orderly (s.after w .beginNewTransaction guard manager) := by
  have hinv := h.tidy.toTransInv
  have hne := fun v (hv : v ≠ w) => step_ne hs hv
  obtain ⟨htr, -, hxid⟩ := begin_spec hw hs
  rw [WorkerRun.after, if_pos rfl]
  refine ⟨h.tidy.step hw (fun _ => h.none_of_mine hm) hs, fun v => ?_, fun v hv => ?_, fun v x hl => ?_,
    fun v v' tr x hl hv hx => ?_, fun v x hl => ?_⟩
  all_goals by_cases e : v = w
  · subst e
    simp [htr]
  · simp only [Function.update_of_ne e, (hne v e).2]
    exact h.mine v
  · subst e
    simp only at hv
    rw [hb] at hv
    cases hv
  · simp only [Function.update_of_ne e]
    exact h.free v hv
  · subst e
    simp only [Function.update_self, Option.some.injEq] at hl
    exact .inl ⟨_, htr, hl⟩
  · simp only [Function.update_of_ne e] at hl
    rcases h.last v x hl with ⟨tr, hv, hx⟩ | hx
    · exact .inl ⟨tr, by rw [(hne v e).2]; exact hv, hx⟩
    · exact .inr (history_valid hinv hw hs hx)
  · subst e
    simp only [Function.update_self, Option.some.injEq] at hl
    by_contra hvv
    simp only [(hne v' hvv).2] at hv
    exact absurd (hinv.xids v' tr hv) (by omega)
  · simp only [Function.update_of_ne e] at hl
    by_cases e' : v' = w
    · subst e'
      simp only [htr, Option.some.injEq] at hv
      subst hv
      have := h.lastLt v x hl
      rw [← hx] at this
      exact absurd this (Nat.lt_irrefl _)
    · simp only [(hne v' e').2] at hv
      exact h.owner v v' tr x hl hv hx
  · subst e
    simp only [Function.update_self, Option.some.injEq] at hl
    simp only [hxid]
    omega
  · simp only [Function.update_of_ne e] at hl
    have := h.lastLt v x hl
    simp only [hxid]
    omega

theorem Orderly.call {op : TransOp} {guard : Bool} {manager : TransManager W} (h : Orderly s)
    (hop : op ≠ .beginNewTransaction) (hw : noWrap s.manager (w, op)) (hs : s.manager.step (w, op) = some manager) :
    Orderly (s.after w op guard manager) := by
  have hinv := h.tidy.toTransInv
  have hne := fun v (hv : v ≠ w) => step_ne hs hv
  obtain ⟨hxid, hown⟩ := step_holds hinv hw hop hs
  have hback :
      ∀ v tr, manager.transactions v = some tr → ∃ tr', s.manager.transactions v = some tr' ∧ tr'.xid = tr.xid := by
    intro v tr hv
    by_cases e : v = w
    · subst e
      rcases hown with ⟨tr0, tr', hs', ht', hx⟩ | ⟨hnone, -, -, -⟩
      · rw [ht'] at hv
        cases hv
        exact ⟨tr0, hs', hx.symm⟩
      · rw [hnone] at hv
        cases hv
    · rw [(hne v e).2] at hv
      exact ⟨tr, hv, rfl⟩
  rw [WorkerRun.after, if_neg hop]
  refine ⟨h.tidy.step hw (fun he => absurd he hop) hs, fun v => ?_, fun v hv => ?_, fun v x hl => ?_,
    fun v v' tr x hl hv hx => ?_, fun v x hl => ?_⟩
  · by_cases e : v = w
    · subst e
      simp only [Function.update_self, Bool.and_eq_true, h.mine v]
      refine ⟨fun ⟨_, ht⟩ hn => ?_, fun hn => ?_⟩
      · rw [hn] at ht
        cases ht
      · obtain ⟨tr, htr⟩ := Option.ne_none_iff_exists'.1 hn
        obtain ⟨tr', htr', -⟩ := hback v tr htr
        exact ⟨by rw [htr']; exact nofun, by rw [htr]; rfl⟩
    · simp only [Function.update_of_ne e, (hne v e).2]
      exact h.mine v
  · have hfree := h.free v hv
    by_cases e : v = w
    · subst e
      simp [hfree]
    · simp only [Function.update_of_ne e]
      exact hfree
  · rcases h.last v x hl with ⟨tr, hv, hx⟩ | hx
    · by_cases e : v = w
      · subst e
        rcases hown with ⟨tr0, tr', hs', ht', hx'⟩ | ⟨hnone, hp, hh, -⟩
        · rw [hs'] at hv
          cases hv
          exact .inl ⟨tr', ht', hx'.trans hx⟩
        · right
          have hph := hinv.phase v tr hv
          simp only [hh, ← hx]
          rcases hp with hp | ⟨c, hp⟩
          · rw [hp] at hph
            rw [show s.manager.history tr.xid = Aborted from hph]
            exact nofun
          · rw [hp] at hph
            have hle := hph.2
            rw [hph.1]
            intro he
            rw [he] at hle
            cases hle
      · exact .inl ⟨tr, by rw [(hne v e).2]; exact hv, hx⟩
    · exact .inr (history_valid hinv hw hs hx)
  · obtain ⟨tr', htr', hxx⟩ := hback v' tr hv
    exact h.owner v v' tr' x hl htr' (hxx.trans hx)
  · simp only [hxid]
    exact h.lastLt v x hl

theorem Orderly.step {a : W × WorkerOp} (h : Orderly s) (hc : Closed s a) (hs : WorkerRun.step s a = some u) :
    Orderly u := by
  obtain ⟨w, op⟩ := a
  cases op with
  | submit =>
    obtain ⟨hb, hs⟩ := Option.ite_none_left_eq_some.1 hs
    cases hs
    have hmine : Function.update s.mine w false = s.mine := by
      rw [← h.free w (Bool.eq_false_iff.2 hb)]
      exact Function.update_eq_self _ _
    refine ⟨h.tidy, fun v => by rw [hmine]; exact h.mine v, fun v hv => ?_, h.last, h.owner, h.lastLt⟩
    rw [hmine]
    by_cases e : v = w
    · subst e
      simp at hv
    · simp only [Function.update_of_ne e] at hv
      exact h.free v hv
  | leave =>
    obtain ⟨-, hs⟩ := Option.ite_none_right_eq_some.1 hs
    cases hs
    refine ⟨h.tidy, h.mine, fun v hv => ?_, h.last, h.owner, h.lastLt⟩
    by_cases e : v = w
    · subst e
      exact hc
    · simp only [Function.update_of_ne e] at hv
      exact h.free v hv
  | call op guard =>
    obtain ⟨⟨hb, ha⟩, hs⟩ := Option.ite_none_right_eq_some.1 hs
    obtain ⟨manager, hm, rfl⟩ := Option.map_eq_some_iff.1 hs
    by_cases hop : op = .beginNewTransaction
    · subst hop
      exact h.begin hb (by simpa [allowed] using ha) hc hm
    · exact h.call hop hc hm

/-- While sessions end without a transaction, free workers leave nothing behind; a
session that ends with one always does. -/
theorem ended_with_session (h : Reach WorkerRun.step Closed init s) : EndedWithSession s ∧
    ∀ w u, WorkerRun.step s (w, .leave) = some u → (EndedWithSession u ↔ s.mine w = false) := by
  have hs : Orderly s := h.inv (fun _ _ _ hs hc ht => hs.step hc ht) init_orderly
  have hleave : ∀ w u, s.mine w = false → WorkerRun.step s (w, .leave) = some u → EndedWithSession u :=
    fun w u (hm : Closed s (w, .leave)) hu => (hs.step hm hu).ended
  refine ⟨hs.ended, fun w u hu => ⟨fun he => ?_, fun hm => hleave w u hm hu⟩⟩
  obtain ⟨-, hu⟩ := Option.ite_none_right_eq_some.1 hu
  cases hu
  have hnone := (he.free w (Function.update_self _ _ _)).1
  by_contra hm
  exact (hs.mine w).1 (Bool.not_eq_false _ ▸ hm) hnone

instance (s : WorkerRun W) : ∀ a : W × WorkerOp, Decidable (Closed s a)
  | (w, .leave) => inferInstanceAs (Decidable (s.mine w = false))
  | (_, .submit) => inferInstanceAs (Decidable True)
  | (w, .call op _) => inferInstanceAs (Decidable (noWrap s.manager (w, op)))

end

/-- A session that begins, writes and commits, and one whose implicit transaction is aborted. -/
def closedTrace : List (Fin 2 × WorkerOp) :=
  [(0, .submit), (0, .call .beginNewTransaction false), (0, .call .run false), (0, .call .beginNewStatement false),
    (0, .call (.write 1 1 ⟨false, false⟩) false), (1, .submit), (1, .call .beginNewTransaction true),
    (0, .call .commit false), (0, .call .run false), (1, .call .run false), (0, .call .run false),
    (0, .call .run false),
    (1, .call .abort false), (0, .call .run false), (1, .call .run false), (1, .call .run false), (0, .leave),
    (1, .leave)]

theorem ended_with_session_two : ∃ s : WorkerRun (Fin 2), Reach WorkerRun.step Closed init s ∧ s.busy 0 = false ∧
    s.last 0 = some 1 ∧ s.manager.history 1 = 5 ∧ EndedWithSession s := by
  have h : (exec (Mimidb.guarded Closed WorkerRun.step) init closedTrace).map
      (fun s => decide (s.busy 0 = false ∧ s.last 0 = some 1 ∧ s.manager.history 1 = 5)) = some true := by
        decide +kernel
  obtain ⟨s, hr, hs⟩ := reach_of_test h
  obtain ⟨h1, h2, h3⟩ := of_decide_eq_true hs
  exact ⟨s, hr.of_guarded, h1, h2, h3, (ended_with_session hr.of_guarded).1⟩

/-- The client goes away after a BEGIN, and the worker's next session begins a transaction. -/
def leftTrace : List (Fin 2 × WorkerOp) :=
  [(0, .submit), (0, .call .beginNewTransaction false), (0, .call .run false), (0, .leave), (0, .submit),
    (0, .call .beginNewTransaction false), (0, .call .run false)]

/-- Transaction 1 stays in progress and in the map, and no worker has it. -/
theorem transaction_left_behind : ∃ s : WorkerRun (Fin 2), Reach WorkerRun.step anyStep init s ∧
    s.manager.history 1 = CommitSeqNumber.InProgress ∧ s.manager.xidToWorker 1 = some 0 ∧
    (s.manager.transactions 0).map Transaction.xid = some 2 ∧ s.manager.transactions 1 = none ∧
    ¬ EndedWithSession s := by
  have h : (exec WorkerRun.step init leftTrace).map
      (fun s => decide (s.manager.history 1 = InProgress ∧ s.manager.xidToWorker 1 = some 0 ∧
        (s.manager.transactions 0).map Transaction.xid = some 2 ∧ s.manager.transactions 1 = none)) =
        some true := by
    decide +kernel
  obtain ⟨s, hr, hs⟩ := reach_of_test h
  obtain ⟨h1, h2, h3, h4⟩ := of_decide_eq_true hs
  refine ⟨s, hr, h1, h2, h3, h4, fun he => ?_⟩
  obtain ⟨w, tr, -, hw, hx⟩ := he.run 1 h1
  rcases (by omega : w = 0 ∨ w = 1) with rfl | rfl
  · rw [hw, Option.map_some, Option.some.injEq, hx] at h3
    cases h3
  · rw [hw] at h4
    cases h4

end WorkerRun

end Mimidb
