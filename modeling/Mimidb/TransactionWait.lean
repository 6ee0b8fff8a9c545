import Mimidb.TransactionSound

/-!
# Waiting for the end of a transaction

`WaitTransactionEnd` looks at three tables at three moments. What it found in
one of them stays true until the transaction is settled, so every one of its
ways out is taken after that. A transaction stays settled until its number is
given out again, which takes a turn of the 64 bit counter.
-/

namespace Mimidb

open CommitSeqNumber

/-- The end of a transaction, as `GetTransactionCsn` tells it. -/
def Settled (csn : Nat) : Prop := csn = Aborted ∨ isNormal csn = true

/-- The point is inside `WaitTransactionEnd`. -/
def TransPc.waitsFor {W : Type} (x : Nat) : TransPc W → Prop
  | .waitFind y | .waitCheck y _ | .waitLatch y => y = x
  | _ => False

namespace TransManager

variable {W : Type}

/-- `BeginNewTransaction` has registered the transaction. -/
def Begun (s : TransManager W) (x : Nat) : Prop := s.history x ≠ Invalid

def xidOf (s : TransManager W) (w : W) : Option Nat := (s.transactions w).map (·.xid)

/-- A worker begins a transaction only when it has none. -/
def BeginsIdle (s : TransManager W) : W × TransOp → Prop
  | (w, .beginNewTransaction) => (s.transactions w).isNone = true
  | _ => True

/-- The step ends a call of `WaitTransactionEnd`. -/
def WaitReturns [DecidableEq W] (s t : TransManager W) (w : W) (x : Nat) : Prop :=
  s.step (w, .run) = some t ∧ (s.pc w).waitsFor x ∧ t.pc w = .idle

instance (s : TransManager W) (a : W × TransOp) : Decidable (BeginsIdle s a) :=
  match a with
  | (w, .beginNewTransaction) => inferInstanceAs (Decidable ((s.transactions w).isNone = true))
  | (_, .beginNewStatement) | (_, .write ..) | (_, .commit) | (_, .abort) | (_, .visible _) | (_, .wait _)
  | (_, .run) =>
    inferInstanceAs (Decidable True)

/-! ## Steps -/

theorem settled_of_begun {csn : Nat} (hb : csn ≠ Invalid) (hp : csn ≠ InProgress) (hc : csn ≠ Committing)
    (hf : csn ≠ Frozen) :
    Settled csn := by
  show csn = Aborted ∨ decide (CommitSeqNumber.Min ≤ csn) = true
  rw [decide_eq_true_eq]
  simp only [Invalid, InProgress, Committing, Frozen, Aborted, CommitSeqNumber.Min] at *
  omega

theorem not_settled {csn : Nat} (h : csn = Invalid ∨ csn = InProgress ∨ csn = Committing) : ¬ Settled csn := by
  unfold Settled
  rcases h with rfl | rfl | rfl <;> decide

/-- What a step of `w` does to the tables that a waiter looks at. -/
inductive TableStep (s t : TransManager W) (w : W) [DecidableEq W] : Prop where
  | same (hx : ∀ v, t.xidOf v = s.xidOf v) (hk : t.xidToWorker = s.xidToWorker) (hh : t.history = s.history)
      (he : t.ended = s.ended)
  | begin (tr : Transaction) (hs : s.xidOf w = none)
      (ht : t.transactions = Function.update s.transactions w (some tr)) (hk : t.xidToWorker = s.xidToWorker)
      (hh : t.history = s.history) (he : t.ended = s.ended)
  | register (x : Nat) (hs : s.xidOf w = some x) (ht : t.transactions = s.transactions) (hv : s.history x = Invalid)
      (hk : t.xidToWorker = Function.update s.xidToWorker x (some w))
        (hh : t.history = Function.update s.history x InProgress)
      (he : t.ended = s.ended)
  | mark (x : Nat) (hv : s.history x = InProgress) (ht : t.transactions = s.transactions)
      (hk : t.xidToWorker = s.xidToWorker) (hh : t.history = Function.update s.history x Committing)
      (he : t.ended = s.ended)
  | publish (x csn : Nat) (hv : s.history x = InProgress ∨ s.history x = Committing) (hc : Settled csn)
      (ht : t.transactions = s.transactions) (hk : t.xidToWorker = Function.update s.xidToWorker x none)
      (hh : t.history = Function.update s.history x csn) (he : t.ended = s.ended)
  | finish (x : Nat) (hs : s.xidOf w = some x) (hv : Settled (s.history x))
      (ht : t.transactions = Function.update s.transactions w none) (hk : t.xidToWorker = s.xidToWorker)
      (hh : t.history = s.history)
        (he : t.ended = Function.update s.ended x true)

section
variable [DecidableEq W] {s t u : TransManager W} {w : W} {op : TransOp} {x : Nat}

theorem xidOf_update (v : W) (tr : Option Transaction) (ht : t.transactions = Function.update s.transactions w tr) :
    t.xidOf v = if v = w then tr.map (·.xid) else s.xidOf v := by
  unfold xidOf
  rw [ht, Function.update_apply]
  split <;> rfl

theorem table_same {tr tr' : Transaction} (hs : s.transactions w = some tr)
    (ht : t.transactions = Function.update s.transactions w (some tr')) (hx : tr'.xid = tr.xid)
    (hk : t.xidToWorker = s.xidToWorker)
    (hh : t.history = s.history) (he : t.ended = s.ended) : TableStep s t w := by
  refine .same ?_ hk hh he
  intro v
  rw [xidOf_update v _ ht]
  split
  next e =>
    subst e
    simp [xidOf, hs, hx]
  next => rfl

theorem beginNewStatement_xid (tr : Transaction) (csn : Nat) : (tr.beginNewStatement csn).xid = tr.xid := by
  unfold Transaction.beginNewStatement
  cases tr.snapshot with
  | none => rfl
  | some S =>
    simp only
    split <;> rfl

theorem table_run (hi : TransInv s) (h : s.step (w, .run) = some t) : TableStep s t w := by
  simp only [TransManager.step, Option.bind_eq_some_iff] at h
  obtain ⟨tr, htr, h⟩ := h
  have hx : s.xidOf w = some tr.xid := by simp [xidOf, htr]
  have hph := hi.phase w tr htr
  cases hp : s.pc w <;> rw [hp] at h hph <;> simp only [runPc, locked] at h
  case idle | threw => cases h
  case beginRegister =>
    split at h <;> cases h
    exact .register tr.xid hx rfl hph rfl rfl rfl
  case commitMark =>
    split at h <;> cases h
    exact .mark tr.xid hph.1 rfl rfl rfl rfl
  case commitTake =>
    cases h
    exact .same (fun _ => rfl) rfl rfl rfl
  case commitPublish c =>
    obtain ⟨hc, hk, hmin, -⟩ := hph
    split at h <;> cases h
    simp only [eraseWorker, setHistory, hk, ite_false]
    exact .publish tr.xid c (.inr hc) (.inr (decide_eq_true hmin)) rfl rfl rfl rfl
  case commitEnd c =>
    cases h
    exact .finish tr.xid hx (hph.1 ▸ .inr (decide_eq_true hph.2)) rfl rfl rfl rfl
  case abortMark =>
    obtain ⟨hc, hk⟩ := hph
    split at h <;> cases h
    simp only [eraseWorker, setHistory, hk, ite_false]
    exact .publish tr.xid Aborted (.inl hc) (.inl rfl) rfl rfl rfl rfl
  case abortEnd =>
    cases h
    exact .finish tr.xid hx (.inl hph) rfl rfl rfl rfl
  case readCsn header =>
    repeat' split at h
    all_goals cases h
    all_goals exact .same (fun _ => rfl) rfl rfl rfl
  case waitFind y =>
    split at h <;> cases h
    exact .same (fun _ => rfl) rfl rfl rfl
  case waitCheck y v =>
    repeat' split at h
    all_goals cases h
    all_goals exact .same (fun _ => rfl) rfl rfl rfl
  case waitLatch y =>
    split at h <;> cases h
    exact .same (fun _ => rfl) rfl rfl rfl

theorem table_step (hi : TransInv s) (hb : BeginsIdle s (w, op)) (h : s.step (w, op) = some t) :
    TableStep s t w := by
  cases op with
  | run => exact table_run hi h
  | beginNewTransaction =>
    simp only [TransManager.step] at h
    split at h <;> cases h
    exact .begin (.new s.xid) (by simpa [xidOf, BeginsIdle] using hb) rfl rfl rfl rfl
  | _ =>
    cases htr : s.transactions w with
    | none => simp [TransManager.step, htr] at h
    | some tr =>
      simp only [TransManager.step, htr] at h
      repeat' split at h
      all_goals cases h
      all_goals first
        | exact .same (fun _ => rfl) rfl rfl rfl
        | exact table_same htr rfl (beginNewStatement_xid tr s.csn) rfl rfl rfl
        | exact table_same htr rfl rfl rfl rfl rfl

/-! ## Settled transactions -/

theorem TableStep.settled (h : TableStep s t w) (hx : Settled (s.history x)) : t.history x = s.history x := by
  have hne : ∀ y, s.history y = Invalid ∨ s.history y = InProgress ∨ s.history y = Committing → x ≠ y := by
    rintro y hy rfl
    exact not_settled hy hx
  cases h with
  | same _ _ hh => rw [hh]
  | begin _ _ _ _ hh => rw [hh]
  | register y _ _ hv _ hh => rw [hh, Function.update_of_ne (hne y (.inl hv))]
  | mark y hv _ _ hh => rw [hh, Function.update_of_ne (hne y (.inr (.inl hv)))]
  | publish y c hv _ _ _ hh => rw [hh, Function.update_of_ne (hne y (.inr hv))]
  | finish _ _ _ _ _ hh => rw [hh]

/-- What a waiter may rely on. -/
structure WaitInv (s : TransManager W) : Prop where
  trans : TransInv s
  owner : ∀ x, s.history x = InProgress ∨ s.history x = Committing → s.xidToWorker x ≠ none
  entry : ∀ x v, s.xidToWorker x = some v → s.xidOf v = some x
  gone : ∀ x, Settled (s.history x) → s.xidToWorker x = none
  ended : ∀ x, s.ended x = true → Settled (s.history x)
  checked : ∀ w x v, s.pc w = .waitCheck x v → Settled (s.history x) ∨ s.xidOf v = some x

omit [DecidableEq W] in
theorem WaitInv.init : WaitInv (init : TransManager W) := by
  refine ⟨.init, ?_, nofun, fun _ _ => rfl, nofun, nofun⟩
  intro x hx
  exact absurd hx (by decide : ¬ (Invalid = InProgress ∨ Invalid = Committing))

/-- A transaction that a worker has keeps its worker until it is settled. -/
theorem TableStep.keeps_worker (h : TableStep s t w) {v : W} (hx : Settled (s.history x) ∨ s.xidOf v = some x) :
    Settled (t.history x) ∨ t.xidOf v = some x := by
  by_cases hf : Settled (s.history x)
  · exact .inl (h.settled hf ▸ hf)
  have hx := hx.resolve_left hf
  have hsame : t.transactions = s.transactions → Settled (t.history x) ∨ t.xidOf v = some x := by
    intro e
    exact .inr (by rw [← hx, xidOf, xidOf, e])
  cases h with
  | same ht => exact .inr ((ht v).trans hx)
  | begin tr hs ht =>
    refine .inr ?_
    rw [xidOf_update v _ ht, if_neg, hx]
    rintro rfl
    cases hs.symm.trans hx
  | register _ _ ht => exact hsame ht
  | mark _ _ ht => exact hsame ht
  | publish _ _ _ _ ht => exact hsame ht
  | finish y hs hv ht =>
    by_cases e : v = w
    · subst e
      cases hs.symm.trans hx
      exact absurd hv hf
    · exact .inr (by rw [xidOf_update v _ ht, if_neg e, hx])

theorem WaitInv.of_table (hi : WaitInv s) (ht : TransInv t) (h : TableStep s t w)
    (hp : ∀ v y u, t.pc v = .waitCheck y u → Settled (s.history y) ∨ s.xidOf u = some y) : WaitInv t := by
  have hentry : ∀ x v, s.xidToWorker x = some v → Settled (s.history x) ∨ s.xidOf v = some x :=
    fun x v hx => .inr (hi.entry x v hx)
  have hkeep : ∀ x v, s.xidToWorker x = some v → ¬ Settled (t.history x) → t.xidOf v = some x := fun x v hx hn =>
    (h.keeps_worker (hentry x v hx)).resolve_left hn
  have hnot : ∀ x v, s.xidToWorker x = some v → ¬ Settled (s.history x) := fun x v hx hf => by
    cases (hi.gone x hf).symm.trans hx
  have hended : ∀ x, s.ended x = true → Settled (t.history x) :=
    fun x hx => h.settled (hi.ended x hx) ▸ hi.ended x hx
  have hchecked : ∀ v y u, t.pc v = .waitCheck y u → Settled (t.history y) ∨ t.xidOf u = some y := fun v y u hv =>
    h.keeps_worker (hp v y u hv)
  have hkept : t.history = s.history → t.xidToWorker = s.xidToWorker →
      (∀ x, t.history x = InProgress ∨ t.history x = Committing → t.xidToWorker x ≠ none) ∧
      (∀ x v, t.xidToWorker x = some v → t.xidOf v = some x) ∧ ∀ x, Settled (t.history x) →
      t.xidToWorker x = none := by
    intro hh hk
    refine ⟨?_, ?_, ?_⟩
    · rw [hh, hk]
      exact hi.owner
    · intro x v hx
      rw [hk] at hx
      exact hkeep x v hx (by rw [hh]; exact hnot x v hx)
    · rw [hh, hk]
      exact hi.gone
  cases h with
  | same _ hk hh he =>
    obtain ⟨h1, h2, h3⟩ := hkept hh hk
    exact ⟨ht, h1, h2, h3, fun x hx => hended x (he ▸ hx), hchecked⟩
  | begin _ _ _ hk hh he =>
    obtain ⟨h1, h2, h3⟩ := hkept hh hk
    exact ⟨ht, h1, h2, h3, fun x hx => hended x (he ▸ hx), hchecked⟩
  | register y hs htr hv hk hh he =>
    refine ⟨ht, ?_, ?_, ?_, fun x hx => hended x (he ▸ hx), hchecked⟩
    · intro x hx
      rw [hk]
      by_cases e : x = y
      · rw [e, Function.update_self]
        nofun
      · rw [hh, Function.update_of_ne e] at hx
        rw [Function.update_of_ne e]
        exact hi.owner x hx
    · intro x v hx
      by_cases e : x = y
      · rw [hk, e, Function.update_self] at hx
        cases hx
        rw [e, ← hs, xidOf, xidOf, htr]
      · rw [hk, Function.update_of_ne e] at hx
        refine hkeep x v hx ?_
        rw [hh, Function.update_of_ne e]
        exact hnot x v hx
    · intro x hx
      by_cases e : x = y
      · rw [hh, e, Function.update_self] at hx
        exact absurd hx (not_settled (.inr (.inl rfl)))
      · rw [hh, Function.update_of_ne e] at hx
        rw [hk, Function.update_of_ne e]
        exact hi.gone x hx
  | mark y hv htr hk hh he =>
    refine ⟨ht, ?_, ?_, ?_, fun x hx => hended x (he ▸ hx), hchecked⟩
    · intro x hx
      rw [hk]
      by_cases e : x = y
      · exact hi.owner x (e ▸ .inl hv)
      · rw [hh, Function.update_of_ne e] at hx
        exact hi.owner x hx
    · intro x v hx
      rw [hk] at hx
      rw [← hi.entry x v hx, xidOf, xidOf, htr]
    · intro x hx
      rw [hk]
      by_cases e : x = y
      · rw [hh, e, Function.update_self] at hx
        exact absurd hx (not_settled (.inr (.inr rfl)))
      · rw [hh, Function.update_of_ne e] at hx
        exact hi.gone x hx
  | publish y c hv hc htr hk hh he =>
    refine ⟨ht, ?_, ?_, ?_, fun x hx => hended x (he ▸ hx), hchecked⟩
    · intro x hx
      by_cases e : x = y
      · rw [hh, e, Function.update_self] at hx
        exact absurd hc (not_settled (.inr hx))
      · rw [hh, Function.update_of_ne e] at hx
        rw [hk, Function.update_of_ne e]
        exact hi.owner x hx
    · intro x v hx
      by_cases e : x = y
      · rw [hk, e, Function.update_self] at hx
        cases hx
      · rw [hk, Function.update_of_ne e] at hx
        rw [← hi.entry x v hx, xidOf, xidOf, htr]
    · intro x hx
      by_cases e : x = y
      · rw [hk, e, Function.update_self]
      · rw [hh, Function.update_of_ne e] at hx
        rw [hk, Function.update_of_ne e]
        exact hi.gone x hx
  | finish y hs hv htr hk hh he =>
    obtain ⟨h1, h2, h3⟩ := hkept hh hk
    refine ⟨ht, h1, h2, h3, ?_, hchecked⟩
    intro x hx
    by_cases e : x = y
    · rw [hh, e]
      exact hv
    · rw [he, Function.update_of_ne e] at hx
      exact hended x hx

/-- A waiter that goes on to the table of the workers has found the entry of the transaction. -/
theorem WaitInv.step (hi : WaitInv s) (hw : noWrap s (w, op)) (hb : BeginsIdle s (w, op))
    (h : s.step (w, op) = some t) :
    WaitInv t := by
  refine hi.of_table (hi.trans.step hw h) (table_step hi.trans hb h) ?_
  intro v y u hv
  by_cases e : v = w
  · subst e
    cases op with
    | run =>
      simp only [TransManager.step, Option.bind_eq_some_iff] at h
      obtain ⟨tr, -, h⟩ := h
      cases hp : s.pc v <;> rw [hp] at h <;> simp only [runPc, locked, eraseWorker] at h
      case waitFind x =>
        split at h <;> cases h
        cases hx : s.xidToWorker x with
        | none => simp [hx] at hv
        | some u' =>
          simp only [hx, goto, Function.update_self, TransPc.waitCheck.injEq] at hv
          obtain ⟨rfl, rfl⟩ := hv
          exact .inr (hi.entry x u' hx)
      all_goals
        repeat' split at h
        all_goals cases h
        all_goals simp [hp] at hv
    | _ =>
      simp only [TransManager.step] at h
      repeat' split at h
      all_goals cases h
      all_goals rename_i hp _
      all_goals simp_all
  · rw [(step_ne h e).1] at hv
    exact hi.checked v y u hv

/-- All four ways out of `WaitTransactionEnd` are taken after the transaction is settled. -/
theorem WaitInv.returns (hi : WaitInv s) (hb : s.Begun x) (h : WaitReturns s t w x) : Settled (s.history x) := by
  obtain ⟨h, hx, ht⟩ := h
  simp only [TransManager.step, Option.bind_eq_some_iff] at h
  obtain ⟨tr, -, h⟩ := h
  cases hp : s.pc w <;> rw [hp] at h hx <;> simp only [runPc, locked] at h
  case waitFind y =>
    obtain rfl : y = x := hx
    split at h <;> cases h
    cases hk : s.xidToWorker y with
    | none =>
      refine settled_of_begun hb ?_ ?_ (hi.trans.history y).2
      · exact fun e => hi.owner y (.inl e) hk
      · exact fun e => hi.owner y (.inr e) hk
    | some v =>
      simp only [hk, goto, Function.update_self] at ht
      cases ht
  case waitCheck y v =>
    obtain rfl : y = x := hx
    refine (hi.checked w y v hp).resolve_right ?_
    intro hv
    simp only [xidOf, Option.map_eq_some_iff] at hv
    obtain ⟨other, ho, hx⟩ := hv
    rw [ho] at h
    simp only [hx, if_true, Option.some.injEq] at h
    subst h
    simp at ht
  case waitLatch y =>
    obtain rfl : y = x := hx
    split at h
    next he => exact hi.ended y he
    next => cases h
  all_goals cases hx

/-- The steps that the callers and the width of the counters allow. -/
def WaitStep (s : TransManager W) (a : W × TransOp) : Prop := BeginsIdle s a ∧ noWrap s a

theorem WaitInv.reach (hi : WaitInv s) (h : Reach TransManager.step WaitStep s t) : WaitInv t :=
  h.inv (fun _ _ _ hi hc h => hi.step hc.2 hc.1 h) hi

theorem settled_stays (hi : WaitInv s) (hx : Settled (s.history x)) (h : Reach TransManager.step WaitStep s t) :
    t.history x = s.history x := by
  have hinv := h.inv (I := fun t => WaitInv t ∧ t.history x = s.history x) ?_ ⟨hi, rfl⟩
  · exact hinv.2
  · intro u a v hu hc hs
    have hkeep := (table_step hu.1.trans hc.1 hs).settled (x := x) (hu.2 ▸ hx)
    exact ⟨hu.1.step hc.2 hc.1 hs, hkeep.trans hu.2⟩

theorem begun_stays (hi : WaitInv s) (hx : s.Begun x) (h : Reach TransManager.step WaitStep s t) : t.Begun x := by
  have hinv := h.inv (I := fun t => WaitInv t ∧ t.Begun x) ?_ ⟨hi, hx⟩
  · exact hinv.2
  · intro u a v hu hc hs
    exact ⟨hu.1.step hc.2 hc.1 hs, history_step hu.1.trans hc.2 hs hu.2⟩

/-- A call of `WaitTransactionEnd` for a transaction that had begun returns when the transaction is
settled, and it stays as it is. -/
theorem wait_settled {s0 s1 s t : TransManager W} {w : W} {x : Nat} (h0 : Reach TransManager.step WaitStep init s0)
    (hb : s0.Begun x) (hcall : s0.step (w, .wait x) = some s1) (hc : noWrap s0 (w, .wait x))
    (h1 : Reach TransManager.step WaitStep s1 s) (hret : WaitReturns s t w x) (hr : noWrap s (w, .run)) :
    Settled (t.history x) ∧ ∀ u, Reach TransManager.step WaitStep t u → u.history x = t.history x := by
  have hi0 : WaitInv s0 := WaitInv.init.reach h0
  have hto : Reach TransManager.step WaitStep s0 s := (Reach.refl.tail (w, .wait x) ⟨trivial, hc⟩ hcall).trans h1
  have hi : WaitInv s := hi0.reach hto
  have hs := hi.returns (begun_stays hi0 hb hto) hret
  have hidle : BeginsIdle s (w, .run) := trivial
  have ht := (table_step hi.trans hidle hret.1).settled hs
  have hset : Settled (t.history x) := ht ▸ hs
  exact ⟨hset, fun u hu => settled_stays (hi.step hr trivial hret.1) hset hu⟩

end

/-! ## A turn of the counter -/

/-- The worker is between two transactions. -/
structure Ready (s : TransManager Bool) (n : Nat) : Prop where
  pc : s.pc false = .idle
  none : s.transactions false = none
  mutex : s.mutex = 0
  xid : s.xid = n % counter

theorem Ready.cycle {s : TransManager Bool} {n : Nat} (h : Ready s n) :
    ∃ t, Reach TransManager.step BeginsIdle s t ∧ Ready t (n + 1) := by
  have hx : (s.xid + 1) % counter = (n + 1) % counter := by rw [h.xid, Nat.mod_add_mod]
  have hrun : ∃ t, exec (guarded BeginsIdle TransManager.step) s
      [(false, .beginNewTransaction), (false, .run), (false, .abort), (false, .run), (false, .run)] = some t ∧
      Ready t (n + 1) := by
    simp [exec, guarded, BeginsIdle, TransManager.step, runPc, locked, eraseWorker, h.pc, h.none, h.mutex]
    exact ⟨by simp, by simp, rfl, hx⟩
  obtain ⟨t, ht, hr⟩ := hrun
  exact ⟨t, (reach_of_exec ht).of_guarded, hr⟩

theorem Ready.cycles {s : TransManager Bool} {n : Nat} (h : Ready s n) :
    ∀ k, ∃ t, Reach TransManager.step BeginsIdle s t ∧ Ready t (n + k) := by
  intro k
  induction k with
  | zero => exact ⟨s, .refl, h⟩
  | succ k ih =>
    obtain ⟨t, ht, hr⟩ := ih
    obtain ⟨u, hu, hr'⟩ := hr.cycle
    exact ⟨u, ht.trans hu, hr'⟩

theorem Ready.begin {s : TransManager Bool} {n : Nat} (h : Ready s n) :
    ∃ t, Reach TransManager.step BeginsIdle s t ∧ t.history (n % counter) = InProgress := by
  have hrun :
    ∃ t, exec (guarded BeginsIdle TransManager.step) s [(false, .beginNewTransaction), (false, .run)] = some t ∧
      t.history (n % counter) = InProgress := by
    simp [exec, guarded, BeginsIdle, TransManager.step, runPc, locked, h.pc, h.none, h.mutex, h.xid,
      Transaction.new]
  obtain ⟨t, ht, hr⟩ := hrun
  exact ⟨t, (reach_of_exec ht).of_guarded, hr⟩

instance (s : TransManager W) (x : Nat) : Decidable (s.Begun x) := inferInstanceAs (Decidable (_ ≠ _))

instance (s : TransManager W) (a : W × TransOp) : Decidable (WaitStep s a) := inferInstanceAs (Decidable (_ ∧ _))

theorem aborted_wait : ∃ s0 s1 s t : TransManager Bool, Reach TransManager.step WaitStep init s0 ∧ s0.Begun 2 ∧
    (s0.step (true, .wait 2) = some s1 ∧ noWrap s0 (true, .wait 2)) ∧ Reach TransManager.step WaitStep s1 s ∧
    (WaitReturns s t true 2 ∧ noWrap s (true, .run)) ∧ Ready t 3 := by
  have hrun : ∃ s0, exec (guarded WaitStep TransManager.step) (init : TransManager Bool)
      [(true, .beginNewTransaction), (true, .run), (false, .beginNewTransaction), (false, .run)] = some s0 ∧
      ∃ s1, s0.step (true, .wait 2) = some s1 ∧
      ∃ s, exec (guarded WaitStep TransManager.step) s1 [(false, .abort), (false, .run), (false, .run)] = some s ∧
      ∃ t, s.step (true, .run) = some t ∧ (s0.Begun 2 ∧ noWrap s0 (true, .wait 2)) ∧
        ((s.pc true).waitsFor 2 ∧ t.pc true = .idle ∧ noWrap s (true, .run)) ∧ Ready t 3 :=
    ⟨_, rfl, _, rfl, _, rfl, _, rfl, ⟨by decide, by decide⟩, ⟨rfl, rfl, by decide⟩, ⟨rfl, rfl, rfl, rfl⟩⟩
  obtain ⟨s0, h0, s1, h1, s, hs, t, ht, ⟨hb, hw⟩, ⟨hp, hp', hw'⟩, hr⟩ := hrun
  exact ⟨s0, s1, s, t, (reach_of_exec h0).of_guarded, hb, ⟨h1, hw⟩, (reach_of_exec hs).of_guarded,
    ⟨⟨ht, hp, hp'⟩, hw'⟩, hr⟩

theorem wait_settled_aborted : ∃ s t : TransManager Bool, WaitReturns s t true 2 ∧
    Settled (t.history 2) ∧ ∀ u, Reach TransManager.step WaitStep t u → u.history 2 = t.history 2 := by
  obtain ⟨s0, s1, s, t, h0, hb, ⟨h1, hw⟩, hs, ⟨hret, hw'⟩, -⟩ := aborted_wait
  exact ⟨s, t, hret, wait_settled h0 hb h1 hw hs hret hw'⟩

/-- After a turn of the counter the number of the aborted transaction is in progress again. -/
theorem wait_settled_wraps : ¬ ∀ (s0 s1 s t u : TransManager Bool) (w : Bool) (x : Nat),
    Reach TransManager.step BeginsIdle init s0 → s0.Begun x → s0.step (w, .wait x) = some s1 →
      Reach TransManager.step BeginsIdle s1 s → WaitReturns s t w x → Reach TransManager.step BeginsIdle t u →
        Settled (t.history x) ∧ u.history x = t.history x := by
  intro hall
  obtain ⟨s0, s1, s, t, h0, hb, ⟨h1, -⟩, hs, ⟨hret, -⟩, hr⟩ := aborted_wait
  obtain ⟨v, hv, hr'⟩ := hr.cycles (2 ^ 64 - 1)
  obtain ⟨u, hu, hx⟩ := hr'.begin
  have hturn : (3 + (2 ^ 64 - 1)) % counter = 2 := by decide
  rw [hturn] at hx
  obtain ⟨hset, hsame⟩ :=
    hall s0 s1 s t u true 2 (h0.mono fun _ _ hc => hc.1) hb h1 (hs.mono fun _ _ hc => hc.1) hret (hv.trans hu)
  rw [← hsame, hx] at hset
  exact not_settled (.inr (.inl rfl)) hset

end TransManager

end Mimidb
