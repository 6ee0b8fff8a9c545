import Mimidb.Handler

/-!
# What becomes of an aborted transaction

The handler marks a transaction `ABORTED` when a request fails, and nothing
looks at the mark again. As long as no `COMMIT` and no change of a tuple
reaches the marked transaction it stays invisible (`Lost`); the first one
that does breaks the promise (`honours_iff`).
-/

namespace Mimidb

namespace Session

open Fallible

variable {γ : Type}

def changesOf (s : Session γ) (x : Nat) : List γ := (s.changes.filter (·.1 = x)).map (·.2)

/-- `x` is the current transaction and it was marked after a failure. -/
def Marked (s : Session γ) (x : Nat) : Prop :=
  ∃ tr, s.transaction = some tr ∧ tr.xid = x ∧ tr.status = .ABORTED

/-- A request that changes a tuple or publishes when it runs in the current transaction. -/
def reachesTransaction : Request γ × RequestEnv → Bool
  | (.query (.ok (.transaction .Commit)), _) => true
  | (.query (.ok (.plannable (.ok plan))), _) =>
    plan.openTable.isNone && plan.start.isNone && !plan.changes.isEmpty
  | _ => false

/-- From the moment a transaction is marked, it makes no change and nobody sees what it made. -/
def Honours (requests : List (Request γ × RequestEnv)) : Prop :=
  ∀ before between after, requests = before ++ between ++ after →
    ∀ s, handleLoop before init = (.ok (), s) → ∀ x, s.Marked x →
      ((handleLoop between).exec s).changesOf x = s.changesOf x ∧
      ∀ snapshot, csnIsVisible snapshot (((handleLoop between).exec s).history x) = false

/-- No request reaches a transaction that was marked before it. -/
def Spares (requests : List (Request γ × RequestEnv)) : Prop :=
  ∀ before q after, requests = before ++ q :: after →
    ∀ s, handleLoop before init = (.ok (), s) → (∃ x, s.Marked x) → reachesTransaction q = false

/-! ## Rules of the handler -/

section
variable {I : Session γ → Prop}

theorem outcome_maintains (what : Option String) : Maintains I (outcome what) := by
  cases what with
  | none => exact .pure
  | some what => exact .throw

theorem outcome_throws (what : String) :
    Spec I (outcome (some what)) (fun _ _ => False) fun _ => I := .throw fun _ => id

theorem sendPacket_maintains (hI : ∀ s env trace, I s → I { s with env := env, trace := trace })
    (reply : Reply) : Maintains I (sendPacket reply) := by
  refine .bind .get fun s => ?_
  split
  · exact .bind (.modify fun s h => hI s _ s.trace h) fun _ => .throw
  · exact .modify fun s h => hI s _ _ h

/-- What every request keeps, if each operation of the transaction does. -/
structure Kept (I : Session γ → Prop) : Prop where
  send : ∀ s env trace, I s → I { s with env := env, trace := trace }
  begins : Maintains I startNewTransactionCommand
  commits : Maintains I commitTransaction
  aborts : Maintains I abortTransaction
  statement : Maintains I beginNewStatement
  change : ∀ c, Maintains I (change c)
  status : Maintains I (setStatus .ABORTED)

theorem whenSelect_maintains {tag : CommandTag} {m : HandlerM γ Unit} (h : Maintains I m) :
    Maintains I (whenSelect tag m) := .ite (fun _ => h) fun _ => .pure

theorem Kept.sendPacket (h : Kept I) (reply : Reply) : Maintains I (sendPacket reply) :=
  sendPacket_maintains h.send reply

theorem Kept.abortCommand (h : Kept I) : Maintains I abortTransactionCommand :=
  .bind .get fun _ => .ite (fun _ => h.aborts) fun _ => .throw

theorem Kept.execTclQuery (h : Kept I) (command : TransactionCommand) :
    Maintains I (execTclQuery command) := by
  cases command with
  | Begin => exact .bind h.begins fun _ => h.sendPacket _
  | Rollback => exact .bind h.abortCommand fun _ => h.sendPacket _
  | Commit => exact .bind h.commits fun _ => h.sendPacket _

theorem Kept.guardAbort (h : Kept I) (e : HandlerFault) : Maintains I (guardAbort e) := by
  cases e with
  | terminated => exact .throw
  | nullTransaction => exact .throw
  | threw what => exact .bind (.tryCatch h.abortCommand fun e => by cases e <;> exact .throw) fun _ => .throw

theorem Kept.execPlan (h : Kept I) (plan : Plan γ) : Maintains I (execPlan plan) := by
  refine .bind h.statement fun _ => .bind (outcome_maintains _) fun _ => ?_
  refine .bind (whenSelect_maintains (h.sendPacket _)) fun _ => ?_
  refine .bind (outcome_maintains _) fun _ => .bind (.forM h.change _) fun _ => ?_
  refine .bind (whenSelect_maintains (.forM (fun _ => h.sendPacket _) _)) fun _ => ?_
  exact .bind (outcome_maintains _) fun _ => .bind (outcome_maintains _) fun _ => h.sendPacket _

theorem Kept.execQuery (h : Kept I) (parsed : Except String (Statement γ)) :
    Maintains I (execQuery parsed) := by
  match parsed with
  | .error _ => exact .throw
  | .ok (.transaction command) => exact h.execTclQuery command
  | .ok (.plannable (.error _)) => exact .throw
  | .ok (.unsupported _) => exact h.sendPacket _
  | .ok (.plannable (.ok plan)) =>
    refine .bind .get fun _ => .ite (fun _ => h.execPlan plan) fun _ => .bind h.begins fun _ => ?_
    exact .tryCatch (.bind (h.execPlan plan) fun _ => h.commits) h.guardAbort

theorem Kept.handleError (h : Kept I) (e : HandlerFault) : Maintains I (handleError e) := by
  cases e with
  | terminated => exact .throw
  | nullTransaction => exact .throw
  | threw what => exact .bind (h.sendPacket _) fun _ => h.status

theorem Kept.handleRequest (h : Kept I) (r : Request γ) : Maintains I (handleRequest r) := by
  cases r with
  | other type => exact h.sendPacket _
  | query parsed => exact .tryCatch (h.execQuery parsed) h.handleError

end

/-! ## Numbers of the current transaction -/

@[simp] theorem beginNewStatement_xid (tr : Transaction) (csn : Nat) :
    (tr.beginNewStatement csn).xid = tr.xid := by
  unfold Transaction.beginNewStatement
  split
  · rfl
  · split <;> rfl

@[simp] theorem beginNewStatement_status (tr : Transaction) (csn : Nat) :
    (tr.beginNewStatement csn).status = tr.status := by
  unfold Transaction.beginNewStatement
  split
  · rfl
  · split <;> rfl

/-- `MyTransaction` is the transaction of the worker's slot, `_xidToWorker` has just
this one, and a commit has nothing to flush. -/
structure Linked (s : Session γ) : Prop where
  slot : s.slot = s.transaction.map (·.xid)
  registered : ∀ x, s.xidToWorker x = true ↔ s.slot = some x
  unlogged : s.lastLsn = LogSeqNumber.Invalid

theorem Linked.of_same {s t : Session γ} (h : s.Linked) (hs : t.slot = s.slot) (ht : t.transaction = s.transaction)
    (hx : t.xidToWorker = s.xidToWorker) (hl : t.lastLsn = s.lastLsn) : t.Linked :=
  ⟨by rw [hs, ht]; exact h.slot, by rw [hs, hx]; exact h.registered, hl.trans h.unlogged⟩

theorem Linked.init : Linked (init : Session γ) := ⟨rfl, fun _ => ⟨nofun, nofun⟩, rfl⟩

/-- `I` may look at the current transaction's number and mark, but not at what moves in a request. -/
structure Steady (I : Session γ → Prop) : Prop where
  send : ∀ s env trace, I s → I { s with env := env, trace := trace }
  statement : ∀ s tr tr', s.transaction = some tr → tr'.xid = tr.xid →
    (tr'.status = tr.status ∨ tr'.status = .ABORTED) → I s → I { s with transaction := some tr' }

theorem linked_steady : Steady (Linked (γ := γ)) where
  send _ _ _ h := ⟨h.slot, h.registered, h.unlogged⟩
  statement s tr tr' htr hx _ h :=
    ⟨by rw [h.slot, htr, Option.map_some, Option.map_some, hx], h.registered, h.unlogged⟩

theorem withTransaction_spec {I : Session γ → Prop} {f : Transaction → HandlerM γ Unit}
    {Q : Unit → Session γ → Prop} {E : HandlerFault → Session γ → Prop} (h : ∀ s tr, s.transaction = some tr → I s →
      Spec (fun t => t = s) (f tr) Q E)
    (hn : ∀ s, s.transaction = none → I s → False) : Spec I (withTransaction f) Q E := by
  refine .getBind fun s hs => ?_
  cases htr : s.transaction with
  | none => exact (hn s htr hs).elim
  | some tr => exact h s tr htr hs

theorem withTransaction_maintains {I : Session γ → Prop} {f : Transaction → Session γ → Session γ}
    (h : ∀ s tr, s.transaction = some tr → I s → I (f tr s)) :
    Maintains I (withTransaction fun tr => modify (f tr)) := by
  refine .getBind fun s hs => ?_
  cases htr : s.transaction with
  | none => exact .throw fun _ e => e ▸ hs
  | some tr => exact .modify fun t e => e ▸ h s tr htr hs

theorem Steady.beginNewStatement {I : Session γ → Prop} (h : Steady I) : Maintains I beginNewStatement :=
  withTransaction_maintains fun s tr htr hs => h.statement s tr _ htr (by simp) (by simp) hs

theorem Steady.setStatus {I : Session γ → Prop} (h : Steady I) : Maintains I (setStatus .ABORTED) := by
  refine .modify fun s hs => ?_
  cases htr : s.transaction with
  | none =>
    have hsame : { s with transaction := none } = s := by rw [← htr]
    rwa [Option.map_none, hsame]
  | some tr => exact h.statement s tr _ htr rfl (.inr rfl) hs

/-- The session after the end of its transaction. -/
def ended (s : Session γ) (x v csn : Nat) : Session γ :=
  { s with
    csn := csn
    history := Function.update s.history x v
    xidToWorker := Function.update s.xidToWorker x false
    slot := none
    transaction := none
    trace := .ended x v :: s.trace }

theorem Linked.ended {s : Session γ} (h : s.Linked) {tr : Transaction} (htr : s.transaction = some tr)
    (v csn : Nat) :
    (s.ended tr.xid v csn).Linked := by
  refine ⟨rfl, fun x => ⟨fun hx => ?_, nofun⟩, h.unlogged⟩
  by_cases e : x = tr.xid
  · simp [Session.ended, e] at hx
  · simp only [Session.ended, Function.update_of_ne e] at hx
    rw [h.registered, h.slot, htr] at hx
    exact absurd (Option.some.inj hx).symm e

theorem commitTransaction_eq {s : Session γ} (h : s.Linked) {tr : Transaction} (htr : s.transaction = some tr) :
    commitTransaction s = (.ok (), s.ended tr.xid s.csn (s.csn + 1)) := by
  have hslot : s.slot = some tr.xid := by rw [h.slot, htr]; rfl
  have hreg : s.xidToWorker tr.xid = true := (h.registered _).2 hslot
  have hlsn : ¬ LogSeqNumber.isValid s.lastLsn = true := by
    rw [h.unlogged]
    decide
  unfold commitTransaction
  rw [bind_ok (get_apply s), hslot]
  simp [hlsn, endTransaction, hreg, Session.ended, bind_apply]

theorem commitTransaction_none {s : Session γ} (h : s.Linked) (htr : s.transaction = none) :
    commitTransaction s = (.error .nullTransaction, s) := by
  have hslot : s.slot = none := by rw [h.slot, htr]; rfl
  unfold commitTransaction
  rw [bind_ok (get_apply s), hslot]
  rfl

theorem abortTransaction_eq {s : Session γ} (h : s.Linked) {tr : Transaction} (htr : s.transaction = some tr) :
    abortTransaction s = match s.env.undo with
      | some what => (.error (.threw what), s)
      | none => (.ok (), s.ended tr.xid CommitSeqNumber.Aborted s.csn) := by
  have hslot : s.slot = some tr.xid := by rw [h.slot, htr]; rfl
  have hreg : s.xidToWorker tr.xid = true := (h.registered _).2 hslot
  unfold abortTransaction
  rw [bind_ok (get_apply s), htr, hslot]
  cases hu : s.env.undo with
  | some what => simp [outcome, bind_apply]
  | none => simp [outcome, endTransaction, hreg, Session.ended, bind_apply]

theorem abortTransaction_none {s : Session γ} (htr : s.transaction = none) :
    abortTransaction s = (.error .nullTransaction, s) := by
  unfold abortTransaction
  rw [bind_ok (get_apply s), htr]
  rfl

theorem finish_maintains {I : Session γ → Prop} {m : HandlerM γ Unit} {f : Session γ → Option String}
    {v csn : Session γ → Nat} (hn : ∀ s, s.transaction = none → I s → m s = (.error .nullTransaction, s))
    (hm : ∀ s tr, s.transaction = some tr → I s → m s = match f s with
      | some what => (.error (.threw what), s)
      | none => (.ok (), s.ended tr.xid (v s) (csn s)))
    (h : ∀ s tr, s.transaction = some tr → I s → I (s.ended tr.xid (v s) (csn s))) : Maintains I m := by
  intro s hs
  cases htr : s.transaction with
  | none =>
    rw [hn s htr hs]
    exact hs
  | some tr =>
    rw [hm s tr htr hs]
    cases f s with
    | some what => exact hs
    | none => exact h s tr htr hs

theorem commit_maintains {I : Session γ → Prop} (hl : ∀ s, I s → s.Linked)
    (h : ∀ s tr, s.transaction = some tr → I s → I (s.ended tr.xid s.csn (s.csn + 1))) :
    Maintains I commitTransaction :=
  finish_maintains (f := fun _ => none) (fun s htr hs => commitTransaction_none (hl s hs) htr)
    (fun s _ htr hs => commitTransaction_eq (hl s hs) htr) h

theorem abort_maintains {I : Session γ → Prop} (hl : ∀ s, I s → s.Linked)
    (h : ∀ s tr, s.transaction = some tr → I s → I (s.ended tr.xid CommitSeqNumber.Aborted s.csn)) :
    Maintains I abortTransaction :=
  finish_maintains (fun _ htr _ => abortTransaction_none htr) (fun s _ htr hs => abortTransaction_eq (hl s hs) htr)
    h

structure Good (s : Session γ) : Prop where
  linked : s.Linked
  min : CommitSeqNumber.Min ≤ s.csn
  current : ∀ tr, s.transaction = some tr → tr.xid < s.xid ∧
    s.history tr.xid = CommitSeqNumber.InProgress

theorem Good.init : Good (init : Session γ) := ⟨.init, Nat.le_refl _, fun _ h => by cases h⟩

theorem good_steady : Steady (Good (γ := γ)) where
  send s env trace h := ⟨linked_steady.send s env trace h.linked, h.min, h.current⟩
  statement s tr tr' htr hx hst h := ⟨linked_steady.statement s tr tr' htr hx hst h.linked, h.min, fun r hr => by
    cases hr
    rw [hx]
    exact h.current tr htr⟩

theorem Linked.begin {s : Session γ} (h : s.Linked) (hs : s.transaction = none) (v : Nat) : Linked { s with
    xid := s.xid + 1
    slot := some s.xid
    lastLsn := LogSeqNumber.Invalid
    transaction := some (.new s.xid)
    xidToWorker := Function.update s.xidToWorker s.xid true
    history := Function.update s.history s.xid v } := by
  refine ⟨rfl, fun x => ?_, rfl⟩
  simp only [Function.update_apply, Option.some.injEq]
  by_cases e : x = s.xid
  · simp [e]
  · have hx := h.registered x
    rw [h.slot, hs] at hx
    simp only [e, if_false, hx, Option.map_none, false_iff, reduceCtorEq]
    exact fun e' => e e'.symm

theorem start_maintains {I : Session γ → Prop} (h : ∀ s, s.transaction = none → I s → I { s with
    xid := s.xid + 1
    slot := some s.xid
    lastLsn := LogSeqNumber.Invalid
    transaction := some (.new s.xid)
    xidToWorker := Function.update s.xidToWorker s.xid true
    history :=
      Function.update s.history s.xid CommitSeqNumber.InProgress }) : Maintains I startNewTransactionCommand := by
  refine .getBind fun s hs => ?_
  cases htr : s.transaction with
  | some tr => exact .pure fun _ e => e ▸ hs
  | none =>
    refine .getBind fun s' e => ?_
    refine .bind (R := fun _ t => t = s) ?_ fun _ => .modify fun t e => e ▸ h s htr hs
    exact (outcome_maintains (I := fun t => t = s) _).conseq (fun _ e' => e'.trans e) (fun _ _ => id) fun _ _ e =>
      e ▸ hs

theorem good_kept : Kept (Good (γ := γ)) where
  send := good_steady.send
  begins := start_maintains fun s hs h => ⟨h.linked.begin hs _, h.min, fun tr htr => by
    cases htr
    exact ⟨Nat.lt_succ_self _, by simp [Transaction.new]⟩⟩
  commits := commit_maintains (fun _ h => h.linked) fun s tr htr h =>
    ⟨h.linked.ended htr _ _, Nat.le_succ_of_le h.min, fun _ h => by cases h⟩
  aborts :=
    abort_maintains (fun _ h => h.linked) fun s tr htr h => ⟨h.linked.ended htr _ _, h.min, fun _ h => by cases h⟩
  statement := good_steady.beginNewStatement
  change c := withTransaction_maintains fun s tr htr h =>
    ⟨(linked_steady.statement s tr (tr.log _) htr rfl (.inl rfl) h.linked).of_same rfl rfl rfl rfl, h.min,
    fun r hr => by
      cases hr
      exact h.current tr htr⟩
  status := good_steady.setStatus

/-! ## A marked transaction -/

/-- `x` made the changes `C` and is not visible to anybody. -/
structure Doomed (x : Nat) (C : List γ) (s : Session γ) : Prop where
  linked : s.Linked
  old : x < s.xid
  hidden : s.history x = CommitSeqNumber.InProgress ∨ s.history x = CommitSeqNumber.Aborted
  changes : s.changesOf x = C

/-- `x` has ended. -/
def Foreign (x : Nat) (C : List γ) (s : Session γ) : Prop :=
  Doomed x C s ∧ ∀ tr, s.transaction = some tr → tr.xid ≠ x

/-- `x` is still the current transaction. -/
def Broken (x : Nat) (C : List γ) (s : Session γ) : Prop := Doomed x C s ∧ s.Marked x

def Lost (x : Nat) (C : List γ) (s : Session γ) : Prop := Foreign x C s ∨ Broken x C s

theorem Doomed.of_same {x : Nat} {C : List γ} {s t : Session γ} (h : Doomed x C s) (hl : t.Linked)
    (hx : t.xid = s.xid) (hh : t.history = s.history) (hc : t.changes = s.changes) : Doomed x C t :=
  ⟨hl, by rw [hx]; exact h.old, by rw [hh]; exact h.hidden, by rw [← h.changes, changesOf, hc]; rfl⟩

theorem Doomed.update {x : Nat} {C : List γ} {s t : Session γ} (h : Doomed x C s) (hl : t.Linked)
    (hx : s.xid ≤ t.xid) {y v : Nat} (hy : y ≠ x) (hh : t.history = Function.update s.history y v)
    (hc : t.changes = s.changes) : Doomed x C t :=
  ⟨hl, Nat.lt_of_lt_of_le h.old hx, by rw [hh, Function.update_of_ne hy.symm]; exact h.hidden,
    by rw [← h.changes, changesOf, hc]; rfl⟩

theorem Doomed.steady {x : Nat} {C : List γ} : Steady (Doomed x C) where
  send s env trace h := h.of_same (linked_steady.send s env trace h.linked) rfl rfl rfl
  statement s tr tr' htr hx hst h := h.of_same (linked_steady.statement s tr tr' htr hx hst h.linked) rfl rfl rfl

theorem foreign_steady (x : Nat) (C : List γ) : Steady (Foreign x C) where
  send s env trace h := ⟨Doomed.steady.send s env trace h.1, h.2⟩
  statement s tr tr' htr hx hst h := ⟨Doomed.steady.statement s tr tr' htr hx hst h.1, fun r hr => by
    cases hr
    rw [hx]
    exact h.2 tr htr⟩

theorem broken_steady (x : Nat) (C : List γ) : Steady (Broken x C) where
  send s env trace h := ⟨Doomed.steady.send s env trace h.1, h.2⟩
  statement s tr tr' htr hx hst h := ⟨Doomed.steady.statement s tr tr' htr hx hst h.1, by
    obtain ⟨r, hr, hxid, hmark⟩ := h.2
    rw [htr] at hr
    cases hr
    exact ⟨tr', rfl, hx.trans hxid, hst.elim (fun e => e.trans hmark) id⟩⟩

/-- A transaction that has ended is out of reach of every request. -/
theorem foreign_kept (x : Nat) (C : List γ) : Kept (Foreign x C) where
  send := (foreign_steady x C).send
  begins := start_maintains fun s hs h => by
    have hne : s.xid ≠ x := Nat.ne_of_gt h.1.old
    exact ⟨h.1.update (h.1.linked.begin hs _) (Nat.le_succ _) hne rfl rfl, fun tr htr => by cases htr; exact hne⟩
  commits := commit_maintains (fun _ h => h.1.linked) fun s tr htr h =>
    ⟨h.1.update (h.1.linked.ended htr _ _) (Nat.le_refl _) (h.2 tr htr) rfl rfl, fun _ h => by cases h⟩
  aborts := abort_maintains (fun _ h => h.1.linked) fun s tr htr h =>
    ⟨h.1.update (h.1.linked.ended htr _ _) (Nat.le_refl _) (h.2 tr htr) rfl rfl, fun _ h => by cases h⟩
  statement := (foreign_steady x C).beginNewStatement
  change c := withTransaction_maintains fun s tr htr h => by
    have hne := h.2 tr htr
    have hl := linked_steady.statement s tr (tr.log (s.usn + 1)) htr rfl (.inl rfl) h.1.linked
    refine ⟨⟨hl.of_same rfl rfl rfl rfl, h.1.old, h.1.hidden, ?_⟩, fun tr' e => by cases e; exact hne⟩
    rw [← h.1.changes, changesOf, List.filter_cons_of_neg (by simpa using hne)]
    rfl
  status := (foreign_steady x C).setStatus

theorem broken_send (x : Nat) (C : List γ) (reply : Reply) : Maintains (Broken x C) (sendPacket reply) :=
  sendPacket_maintains (broken_steady x C).send reply

/-- `ROLLBACK` ends the marked transaction, if the undo does not fail. -/
theorem broken_abort (x : Nat) (C : List γ) :
    Spec (Broken x C) abortTransaction (fun _ => Foreign x C) fun _ => Broken x C := by
  intro s hs
  obtain ⟨tr, htr, hx, hst⟩ := hs.2
  rw [abortTransaction_eq hs.1.linked htr]
  cases s.env.undo with
  | some what => exact hs
  | none =>
    refine ⟨⟨hs.1.linked.ended htr _ _, hs.1.old, .inr (by simp [ended, hx]), hs.1.changes⟩, fun _ h => by cases h⟩

theorem Broken.isSome {x : Nat} {C : List γ} {s : Session γ} (h : Broken x C s) :
    s.transaction.isSome = true := by
  obtain ⟨tr, htr, _⟩ := h.2
  rw [htr]; rfl

theorem broken_start (x : Nat) (C : List γ) : Maintains (Broken x C) startNewTransactionCommand :=
  start_maintains fun s hs h => by
    have := h.isSome
    rw [hs] at this
    cases this

theorem broken_abortCommand (x : Nat) (C : List γ) :
    Spec (Broken x C) abortTransactionCommand (fun _ => Foreign x C) fun _ => Broken x C := by
  refine .getBind fun s hs => ?_
  rw [if_pos hs.isSome]
  exact (broken_abort x C).conseq (fun _ e => e ▸ hs) (fun _ _ => id) fun _ _ => id

theorem broken_execPlan (x : Nat) (C : List γ) {plan : Plan γ}
    (hp : (plan.openTable.isNone && plan.start.isNone && !plan.changes.isEmpty) = false) :
    Maintains (Broken x C) (execPlan plan) := by
  refine .bind (broken_steady x C).beginNewStatement fun _ => ?_
  cases ho : plan.openTable with
  | some what => exact Spec.bind (outcome_throws what) fun _ => .of_false
  | none =>
    refine .bind .pure fun _ => .bind (whenSelect_maintains (broken_send x C _)) fun _ => ?_
    cases hs : plan.start with
    | some what => exact Spec.bind (outcome_throws what) fun _ => .of_false
    | none =>
      have hc : plan.changes = [] := by simpa [ho, hs] using hp
      rw [hc]
      refine .bind .pure fun _ => .bind .pure fun _ => ?_
      refine .bind (whenSelect_maintains (.forM (fun _ => broken_send x C _) _)) fun _ => ?_
      refine .bind (outcome_maintains _) fun _ => .bind (outcome_maintains _) fun _ => ?_
      exact broken_send x C _

theorem Lost.kept {x : Nat} {C : List γ} {m : HandlerM γ Unit} (hf : Maintains (Foreign x C) m)
    (hb : Spec (Broken x C) m (fun _ => Lost x C) fun _ => Lost x C) : Maintains (Lost x C) m :=
  fun s hs => hs.elim
    (hf.conseq (fun _ => id) (fun _ _ => .inl) (fun _ _ => .inl) s) (hb s)

theorem lost_send (x : Nat) (C : List γ) (reply : Reply) : Maintains (Lost x C) (sendPacket reply) :=
  Lost.kept ((foreign_kept x C).sendPacket reply)
    ((broken_send x C reply).conseq (fun _ => id) (fun _ _ => .inr) fun _ _ => .inr)

theorem lost_handleError (x : Nat) (C : List γ) (e : HandlerFault) :
    Maintains (Lost x C) (handleError e) := by
  cases e with
  | terminated => exact .throw
  | nullTransaction => exact .throw
  | threw what =>
    refine .bind (lost_send x C _) fun _ => Lost.kept (foreign_kept x C).status ?_
    exact (broken_steady x C).setStatus.conseq (fun _ => id) (fun _ _ => .inr) fun _ _ => .inr

theorem broken_execQuery (x : Nat) (C : List γ) {parsed : Except String (Statement γ)} {env : RequestEnv}
    (hr : reachesTransaction (.query parsed, env) = false) :
    Spec (fun s => Broken x C s ∧ s.env = env) (execQuery parsed) (fun _ => Lost x C)
      fun _ => Lost x C := by
  have toLost : ∀ {m : HandlerM γ Unit}, Maintains (Broken x C) m →
      Spec (fun s => Broken x C s ∧ s.env = env) m (fun _ => Lost x C) fun _ => Lost x C :=
    fun h => h.conseq (fun _ => And.left) (fun _ _ => .inr) fun _ _ => .inr
  match parsed, hr with
  | .error _, _ => exact toLost .throw
  | .ok (.plannable (.error _)), _ => exact toLost .throw
  | .ok (.unsupported _), _ => exact toLost (broken_send x C _)
  | .ok (.transaction .Begin), _ =>
    exact toLost (.bind (broken_start x C) fun _ => broken_send x C _)
  | .ok (.transaction .Rollback), _ =>
    refine Spec.bind (R := fun _ => Foreign x C) ?_ fun _ =>
      ((foreign_kept x C).sendPacket _).conseq (fun _ => id) (fun _ _ => .inl) fun _ _ => .inl
    exact (broken_abortCommand x C).conseq (fun _ => And.left) (fun _ _ => id) fun _ _ => .inr
  | .ok (.transaction .Commit), hr => cases hr
  | .ok (.plannable (.ok plan)), hr =>
    refine toLost (Spec.getBind fun s hs => ?_)
    rw [if_pos hs.isSome]
    exact (broken_execPlan x C hr).conseq (fun _ e => e ▸ hs) (fun _ _ => id) fun _ _ => id

/-- A request that spares the marked transaction does not make it visible or let it change more. -/
theorem lost_handleRequest (x : Nat) (C : List γ) {r : Request γ} {env : RequestEnv} {s : Session γ}
    (hs : Lost x C s) (he : s.env = env) (hr : s.Marked x → reachesTransaction (r, env) = false) :
    Lost x C ((handleRequest r).exec s) := by
  rcases hs with hs | hs
  · exact .inl (((foreign_kept x C).handleRequest r).exec hs)
  · cases r with
    | other type => exact .inr ((broken_send x C _).exec hs)
    | query parsed =>
      have := Spec.tryCatch (broken_execQuery x C (hr hs.2)) fun e => lost_handleError x C e
      exact this.exec (fun _ _ => id) (fun _ _ => id) ⟨hs, he⟩

/-! ## Sessions -/

theorem handleLoop_cons (q : Request γ × RequestEnv) (qs : List (Request γ × RequestEnv))
    (s : Session γ) : handleLoop (q :: qs) s =
      match handleRequest q.1 { s with env := q.2 } with
      | (.ok _, t) => handleLoop qs t
      | (.error e, t) => (.error e, t) := by
  have hq : handlePacket q s = handleRequest q.1 { s with env := q.2 } := bind_ok rfl
  rcases hr : handleRequest q.1 { s with env := q.2 } with ⟨r, t⟩
  cases r with
  | ok a => exact bind_ok (hq.trans hr)
  | error e => exact bind_error (hq.trans hr)

theorem handleLoop_append {as bs : List (Request γ × RequestEnv)} {s t : Session γ}
    (h : handleLoop as s = (.ok (), t)) : handleLoop (as ++ bs) s = handleLoop bs t := by
  induction as generalizing s with
  | nil => cases h; rfl
  | cons q as ih =>
    rw [List.cons_append, handleLoop_cons]
    rw [handleLoop_cons] at h
    rcases hr : handleRequest q.1 { s with env := q.2 } with ⟨r, u⟩
    rw [hr] at h
    cases r with
    | ok _ => exact ih h
    | error e => cases h

theorem good_handlePacket (q : Request γ × RequestEnv) : Maintains Good (handlePacket q) :=
  .bind (.modify fun s h => good_steady.send s q.2 s.trace h) fun _ => good_kept.handleRequest q.1

theorem good_handleLoop (qs : List (Request γ × RequestEnv)) :
    Good ((handleLoop qs).exec (init : Session γ)) :=
  (Maintains.forM good_handlePacket qs).exec Good.init

theorem broken_of_marked {qs : List (Request γ × RequestEnv)} {s : Session γ}
    (h : handleLoop qs init = (.ok (), s)) {x : Nat} (hx : s.Marked x) :
    Broken x (s.changesOf x) s := by
  have hg : Good s := by
    have := good_handleLoop qs
    rwa [Fallible.exec, h] at this
  obtain ⟨tr, htr, rfl, hst⟩ := hx
  obtain ⟨h1, h2⟩ := hg.current tr htr
  exact ⟨⟨hg.linked, h1, .inl h2, rfl⟩, tr, htr, rfl, hst⟩

/-- A marked transaction stays lost through all requests that spare it. -/
theorem lost_handleLoop {x : Nat} {C : List γ} (between : List (Request γ × RequestEnv)) :
    ∀ {before after : List (Request γ × RequestEnv)} {s : Session γ},
      Spares (before ++ between ++ after) → handleLoop before init = (.ok (), s) → Lost x C s →
      Lost x C ((handleLoop between).exec s) := by
  induction between with
  | nil => exact fun _ _ hs => hs
  | cons q qs ih =>
    intro before after s hsp hb hs
    have hone : Lost x C ((handleRequest q.1).exec { s with env := q.2 }) := by
      have hs' : Lost x C { s with env := q.2 } :=
        hs.imp (fun h => (foreign_steady x C).send s _ s.trace h)
          fun h => (broken_steady x C).send s _ s.trace h
      exact lost_handleRequest x C hs' rfl fun hm => hsp before q (qs ++ after) (by simp) s hb ⟨x, hm⟩
    unfold Fallible.exec at hone ⊢
    rw [handleLoop_cons]
    rcases hr : handleRequest q.1 { s with env := q.2 } with ⟨r, u⟩
    rw [hr] at hone
    cases r with
    | ok _ =>
      have hsp' : Spares ((before ++ [q]) ++ qs ++ after) := by simpa using hsp
      refine ih hsp' ?_ hone
      rw [handleLoop_append hb, handleLoop_cons, hr]
      rfl
    | error e => exact hone

theorem honours_of_spares {qs : List (Request γ × RequestEnv)} (h : Spares qs) : Honours qs := by
  rintro before between after rfl s hb x hx
  have hl := lost_handleLoop between h hb (.inr (broken_of_marked hb hx))
  have hd : Doomed x (s.changesOf x) ((handleLoop between).exec s) := hl.elim And.left And.left
  refine ⟨hd.changes, fun snapshot => ?_⟩
  rcases hd.hidden with e | e <;> rw [e] <;> simp

/-! ## Requests that reach the marked transaction -/

/-- The number that a commit publishes stays in the history. -/
theorem commit_publishes {x k : Nat} :
    Spec (fun s : Session γ => s.Linked ∧ s.csn = k ∧ ∃ tr, s.transaction = some tr ∧ tr.xid = x)
      (handleRequest (.query (.ok (.transaction .Commit))))
      (fun _ t => t.history x = k) fun _ t => t.history x = k := by
  have hst : Steady (fun s : Session γ => s.history x = k) := ⟨fun _ _ _ => id, fun _ _ _ _ _ _ => id⟩
  refine Spec.tryCatch (R := fun _ t => t.history x = k) ?_ fun e => ?_
  · refine Spec.bind (R := fun _ (t : Session γ) => t.history x = k) ?_ fun _ => sendPacket_maintains hst.send _
    rintro s ⟨hl, hk, tr, htr, hx⟩
    unfold commitTransactionCommand
    rw [commitTransaction_eq hl htr]
    simp [ended, hx, hk]
  · cases e with
    | terminated => exact .throw fun _ => id
    | nullTransaction => exact .throw fun _ => id
    | threw what => exact .bind (sendPacket_maintains hst.send _) fun _ => hst.setStatus

/-- The list of changes only grows. -/
def Grown (x n : Nat) (s : Session γ) : Prop := s.Linked ∧ n < (s.changesOf x).length

theorem grown_steady (x n : Nat) : Steady (Grown (γ := γ) x n) where
  send s env trace h := ⟨linked_steady.send s env trace h.1, h.2⟩
  statement s tr tr' htr hx hst h := ⟨linked_steady.statement s tr tr' htr hx hst h.1, h.2⟩

theorem changed_linked {s : Session γ} {tr : Transaction} (h : s.Linked) (htr : s.transaction = some tr) (c : γ) :
    Linked { s with
    usn := s.usn + 1
    transaction := some (tr.log (s.usn + 1))
    changes := (tr.xid, c) :: s.changes } :=
  (linked_steady.statement s tr (tr.log (s.usn + 1)) htr rfl (.inl rfl) h).of_same rfl rfl rfl rfl

theorem grown_kept (x n : Nat) : Kept (Grown (γ := γ) x n) where
  send := (grown_steady x n).send
  begins := start_maintains fun s hs h => ⟨h.1.begin hs _, h.2⟩
  commits := commit_maintains (fun _ h => h.1) fun s tr htr h => ⟨h.1.ended htr _ _, h.2⟩
  aborts := abort_maintains (fun _ h => h.1) fun s tr htr h => ⟨h.1.ended htr _ _, h.2⟩
  statement := (grown_steady x n).beginNewStatement
  change c := withTransaction_maintains fun s tr htr h => by
    refine ⟨changed_linked h.1 htr c, Nat.lt_of_lt_of_le h.2 ?_⟩
    simp only [changesOf, List.length_map]
    exact ((List.sublist_cons_self _ _).filter _).length_le
  status := (grown_steady x n).setStatus

/-- `x` is current and made `n` changes. -/
def Made (x n : Nat) (s : Session γ) : Prop :=
  s.Linked ∧ (s.changesOf x).length = n ∧ ∃ tr, s.transaction = some tr ∧ tr.xid = x

theorem made_steady (x n : Nat) : Steady (Made (γ := γ) x n) where
  send s env trace h := ⟨linked_steady.send s env trace h.1, h.2⟩
  statement s tr tr' htr hx hst h := by
    obtain ⟨hl, hn, r, hr, e⟩ := h
    rw [htr] at hr
    cases hr
    exact ⟨linked_steady.statement s tr tr' htr hx hst hl, hn, tr', rfl, hx.trans e⟩

theorem change_made (x n : Nat) (c : γ) {E : HandlerFault → Session γ → Prop} :
    Spec (Made x n) (change c) (fun _ => Grown x n) E := by
  refine .getBind fun s hs => ?_
  obtain ⟨hl, hn, tr, htr, rfl⟩ := hs
  rw [htr]
  refine .modify fun t e => ?_
  subst e
  refine ⟨changed_linked hl htr c, ?_⟩
  simp only [changesOf, List.filter_cons, decide_true, ite_true, List.map_cons, List.length_cons]
  exact Nat.lt_succ_of_le (Nat.le_of_eq hn.symm)

/-- A plan that gets as far as its first change adds it to those of the current transaction. -/
theorem execPlan_changes {x n : Nat} {plan : Plan γ} (ho : plan.openTable = none)
    (hs : plan.start = none) (hc : plan.changes ≠ []) :
    Spec (Made x n) (execPlan plan) (fun _ => Grown x n) fun _ => Grown x n := by
  have hk := grown_kept (γ := γ) x n
  have htag : plan.tag ≠ .Select := fun e => hc (plan.selects e)
  have hsel : ∀ m : HandlerM γ Unit, whenSelect plan.tag m = pure () := fun m => if_neg htag
  obtain ⟨c, cs, hcs⟩ := List.exists_cons_of_ne_nil hc
  unfold execPlan
  rw [ho, hs, hsel, hsel, hcs]
  refine .bind (R := fun _ => Made x n) (withTransaction_spec (fun s tr htr h => .modify fun t e => ?_)
    fun s htr h => ?_) fun _ => ?_
  · exact e ▸ (made_steady x n).statement s tr _ htr (by simp) (by simp) h
  · obtain ⟨-, -, tr, h, -⟩ := h
    cases htr.symm.trans h
  refine .bind (R := fun _ => Made x n) (.pure fun _ => id) fun _ => ?_
  refine .bind (R := fun _ => Made x n) (.pure fun _ => id) fun _ => ?_
  refine .bind (R := fun _ => Made x n) (.pure fun _ => id) fun _ => ?_
  refine .bind (.bind (change_made x n c) fun _ => Maintains.forM hk.change cs) fun _ => ?_
  exact Maintains.bind .pure fun _ => .bind (outcome_maintains _) fun _ =>
    .bind (outcome_maintains _) fun _ => hk.sendPacket _

theorem spares_of_honours {qs : List (Request γ × RequestEnv)} (h : Honours qs) : Spares qs := by
  rintro before q after rfl s hb ⟨x, hx⟩
  obtain ⟨r, env⟩ := q
  have hbr := broken_of_marked hb hx
  obtain ⟨hch, hinv⟩ := h before [(r, env)] after (by simp) s hb x hx
  have hone : (handleLoop [(r, env)]).exec s = (handleRequest r).exec { s with env := env } := by
    unfold Fallible.exec
    rw [handleLoop_cons]
    rcases handleRequest r { s with env := env } with ⟨res, t⟩
    cases res <;> rfl
  rw [hone] at hch hinv
  obtain ⟨tr, htr, hxid, hst⟩ := hx
  by_contra hr
  rw [Bool.not_eq_false] at hr
  match r, hr with
  | .query (.ok (.transaction .Commit)), hr =>
    have hg : Good s := by
      have := good_handleLoop before
      rwa [Fallible.exec, hb] at this
    have hp := (commit_publishes (x := x) (k := s.csn)).exec (fun _ _ => id) (fun _ _ => id)
      (s := { s with env := env }) ⟨linked_steady.send s env s.trace hg.linked, rfl, tr, htr, hxid⟩
    have := hinv ⟨s.csn + 1, 0⟩
    rw [hp, csnIsVisible_normal hg.min] at this
    simp at this
  | .query (.ok (.plannable (.ok plan))), hr =>
    simp only [reachesTransaction, Bool.and_eq_true, Option.isNone_iff_eq_none, Bool.not_eq_true',
      List.isEmpty_eq_false_iff] at hr
    obtain ⟨⟨ho, hs⟩, hc⟩ := hr
    have hk := grown_kept (γ := γ) x (s.changesOf x).length
    have hl : Linked { s with env := env } := linked_steady.send s env s.trace hbr.1.linked
    have hp : Spec (fun t => t = { s with env := env }) (handleRequest (.query (.ok (.plannable (.ok plan)))))
        (fun _ => Grown x (s.changesOf x).length) fun _ => Grown x (s.changesOf x).length := by
      refine .tryCatch (.getBind fun t e => ?_) hk.handleError
      rw [if_pos (by rw [e]; exact hbr.isSome)]
      exact (execPlan_changes ho hs hc).conseq (fun _ e' => by rw [e', e]; exact ⟨hl, rfl, tr, htr, hxid⟩)
        (fun _ _ => id) fun _ _ => id
    have := (hp.exec (fun _ _ => id) (fun _ _ => id) rfl).2
    rw [hch] at this
    exact Nat.lt_irrefl _ this

/-- A session keeps its failed transactions invisible exactly if no request reaches one. -/
theorem honours_iff (qs : List (Request γ × RequestEnv)) : Honours qs ↔ Spares qs :=
  ⟨spares_of_honours, honours_of_spares⟩

def insertOne : Plan Unit := ⟨.Insert, none, none, [], [()], none, none, 1, by simp⟩

/-- `BEGIN`, an `INSERT`, a `SELECT` with a column that there is not, `COMMIT`. -/
def failedSelect : List (Request Unit) :=
  [.query (.ok (.transaction .Begin)),
    .query (.ok (.plannable (.ok insertOne))),
    .query (.ok (.plannable (.error "could not find column: c"))),
    .query (.ok (.transaction .Commit))]

theorem failedSelect_published : ¬ Honours (failedSelect.map (·, ⟨[], none, none, none⟩)) := by
  intro h
  let qs := failedSelect.map fun r => (r, (⟨[], none, none, none⟩ : RequestEnv))
  have hs : handleLoop (qs.take 3) init = (.ok (), (handleLoop (qs.take 3)).exec init) := rfl
  have hx : ((handleLoop (qs.take 3)).exec init).Marked 1 := ⟨_, rfl, rfl, rfl⟩
  have := (h (qs.take 3) (qs.drop 3) [] rfl _ hs 1 hx).2 ⟨6, 0⟩
  revert this
  decide

end Session

end Mimidb
