import Mimidb.CommitDurability
import Mimidb.DirtyState
import Mimidb.EvictionDurability

/-!
# Pages that are flushed and their log records

The bytes of the pages of a table, in memory and in the relation file, beside
the log. A heap call writes its record and then changes its pages one by one;
the steps of calls, flushes, evictions and commits come in any order. The log
is synced by a commit at the earliest; a flush of a page does not wait for
that.
-/

namespace Mimidb

open HeapStore

/-- The pages whose tuples a record is about. -/
def HeapWALRecord.pages : HeapWALRecord → List Nat
  | .Insert tupId _ => [tupId.pageno]
  | .Update _ oldTupleId newTupleId _ => [oldTupleId.pageno, newTupleId.pageno]
  | .Delete _ location => [location.pageno]

/-! ## Calls in steps -/

/-- What a call does to a page after it wrote its record. -/
inductive PageStep where
  | change (setsLsn : Bool) (pageno : Nat) (f : Memory → Except Fault Memory)
  | mark (pageno : Nat)

namespace PageStep

def run : PageStep → HeapM Unit
  | .change _ pageno f => changePage pageno f
  | .mark pageno => markDirty pageno

def runAll : List PageStep → HeapM Unit
  | [] => pure ()
  | step :: steps => do
    step.run
    runAll steps

theorem runAll_append (as bs : List PageStep) : runAll (as ++ bs) = runAll as >>= fun _ => runAll bs := by
  induction as with
  | nil => rfl
  | cons a as ih => rw [List.cons_append, runAll, ih, runAll, Fallible.bind_bind]

theorem runAll_one (a : PageStep) : runAll [a] = a.run := Fallible.bind_unit _

end PageStep

namespace HeapTable

variable {V : Type} (t : HeapTable V)

/-- `InsertTuple` on a page with room, up to its record. -/
def logInsert (pageno : Nat) (heapTuple : List UInt8) : HeapM Nat := do
  let page ← getPage pageno
  let newTupId : TupleId := ⟨pageno, HeapPage.itemsCount page⟩
  let _usn ← insertUndoRecord (.Delete t.tableId newTupId)
  writeLogRecord (.Insert newTupId heapTuple)

def insertSteps (pageno lsn : Nat) (heapTuple : List UInt8) : List PageStep :=
  [.change true pageno fun page => HeapPage.insertLast t.dbg page lsn heapTuple]

def updateSteps (oldTID newTID : TupleId) (usn : Int) (bytes : List UInt8) (lsn : Nat) : List PageStep :=
  (if newTID = oldTID then [.change false oldTID.pageno (HeapPage.overwrite t.dbg · newTID.itemid bytes)]
  else [.change false newTID.pageno (HeapPage.relocate t.dbg · newTID.itemid bytes),
    .change false oldTID.pageno (HeapPage.markUpdated t.dbg · oldTID.itemid t.myXid usn)]) ++
  [.change true oldTID.pageno fun page => .ok (HeapPage.setLsn page lsn)] ++
  (if newTID.pageno ≠ oldTID.pageno then [.change true newTID.pageno fun page => .ok (HeapPage.setLsn page lsn)]
    else []) ++
  [.mark oldTID.pageno] ++ (if newTID.pageno ≠ oldTID.pageno then [.mark newTID.pageno] else [])

/-- `DeleteTuple` from the undo record on, up to its record; the results are the numbers of both records. -/
def logDelete (tid : TupleId) (addr : Nat) : HeapM (Int × Nat) := do
  let page ← getPage tid.pageno
  let length := (HeapPage.itemAt page tid.itemid).length
  Fallible.ofExcept (HeapPage.access addr length)
  let usn ← insertUndoRecord (.Insert t.tableId tid (page.slice addr length))
  let lsn ← writeLogRecord (.Delete t.tableId tid)
  return (usn, lsn)

def deleteSteps (tid : TupleId) (addr : Nat) (usn : Int) (lsn : Nat) : List PageStep :=
  [.change true tid.pageno fun page => do
    let page ← HeapPage.memcpy page addr (HeapPageTupleHeader.toBytes ⟨t.myXid, usn, ⟨true, false⟩⟩)
    return HeapPage.setLsn page lsn]

theorem performInsert_steps (pageno : Nat) (heapTuple : List UInt8) : t.performInsert pageno heapTuple =
    t.logInsert pageno heapTuple >>= fun lsn => PageStep.runAll (t.insertSteps pageno lsn heapTuple) := by
  simp only [performInsert, logInsert, insertSteps, Fallible.bind_bind, PageStep.runAll_one, PageStep.run]

theorem performUpdate_steps (old : HeapTuple V) (values : V) (newTID : TupleId) :
    t.performUpdate old values newTID =
    t.logUpdate old values newTID >>= fun r => PageStep.runAll (t.updateSteps old.tid newTID r.1 r.2.1 r.2.2) := by
  unfold performUpdate
  refine bind_congr fun r => ?_
  unfold updateSteps writeUpdate finishUpdate
  split_ifs <;> simp only [PageStep.runAll_append, PageStep.runAll, PageStep.run, List.append_nil,
    Fallible.bind_bind, Fallible.bind_unit]

theorem performDelete_steps (tid : TupleId) (addr : Nat) : t.performDelete tid addr =
    t.logDelete tid addr >>= fun r => PageStep.runAll (t.deleteSteps tid addr r.1 r.2) := by
  simp only [performDelete, logDelete, deleteSteps, Fallible.bind_bind, PageStep.runAll_one, PageStep.run]
  rfl

end HeapTable

/-! ## Runs -/

/-- The LSN that a page was last given, and the records of the changes in it,
each with the page that it was made on. -/
structure PageTrace where
  lsn : Nat
  changes : List (Nat × Nat)
  deriving DecidableEq

/-- A page that `FlushBuffer` wrote, and the log at that time. -/
structure FlushWrite where
  page : Memory
  trace : PageTrace
  -- the log is synced up to here, and written up to there
  flushed : Nat
  walEnd : Nat
  wal : List (Nat × HeapWALRecord)

structure FlushRun where
  store : HeapStore
  flushed : Nat
  /-- The pages of the relation file. -/
  disk : Nat → Memory
  trace : Nat → PageTrace
  diskTrace : Nat → PageTrace
  /-- What the call of a worker has left to do, with the LSN of its record. -/
  pending : Nat → Nat × List PageStep
  /-- `Transaction::_lastLsn`. -/
  lastLsn : Nat → Nat
  writes : List FlushWrite

inductive FlushOp (V : Type) where
  -- the record of a call
  | insert (w : Nat) (t : HeapTable V) (pageno : Nat) (heapTuple : List UInt8)
  | update (w : Nat) (t : HeapTable V) (old : HeapTuple V) (values : V) (newTID : TupleId)
  | delete (w : Nat) (t : HeapTable V) (tid : TupleId) (addr : Nat)
  -- its next step
  | next (w : Nat)
  -- a new page in the file and in memory, and its initialisation
  | extend
  | init (pageno : Nat)
  | undo (dbg : Bool) (usn : Int)
  -- a record of another table
  | others (record : HeapWALRecord)
  -- the file may fail to sync
  | flush (pageno : Nat) (fsync : Bool)
  -- the detach of a page that is not dirty, and its next read
  | evict (pageno : Nat)
  | begin (xid : Nat)
  | commit (xid : Nat) (fsync : Bool)

/-- A step of the call whose record has the number `lsn` leaves it in the trace of the page. -/
def PageStep.traced (lsn : Nat) (trace : Nat → PageTrace) : PageStep → Nat → PageTrace
  | .change setsLsn pageno _ => Function.update trace pageno
    ⟨if setsLsn then lsn else (trace pageno).lsn, (pageno, lsn) :: (trace pageno).changes⟩
  | .mark _ => trace

namespace FlushRun

variable {V : Type}

def emptyStore : HeapStore := ⟨0, fun _ _ => 0, fun _ => false, 0, fun _ => none, 0, []⟩

def init : FlushRun :=
  ⟨emptyStore, 0, emptyStore.page, fun _ => ⟨0, []⟩, fun _ => ⟨0, []⟩, fun _ => (0, []),
  fun _ => LogSeqNumber.Invalid, []⟩

/-- A worker that is in no call writes the record of one; an exception ends the call. -/
def log {α : Type} (s : FlushRun) (w : Nat) (m : HeapM α) (rest : α → Nat × List PageStep) : Option FlushRun :=
  if (s.pending w).2 = [] then
    match m s.store with
    | (.ok a, u) => some { s with store := u, pending := Function.update s.pending w (rest a) }
    | (.error (.runtimeError _), u) => some { s with store := u }
    | (.error _, _) => none
  else none

def next (s : FlushRun) (w : Nat) : Option FlushRun :=
  match (s.pending w).2 with
  | [] => none
  | step :: steps =>
    match step.run s.store with
    | (.ok (), u) => some { s with
      store := u
      trace := step.traced (s.pending w).1 s.trace
      pending := Function.update s.pending w ((s.pending w).1, steps) }
    | (.error _, _) => none

/-- `FlushBuffer`; the page stays dirty if it cannot be synced. -/
def flushBuffer (s : FlushRun) (pageno : Nat) (fsync : Bool) : FlushRun :=
  if s.store.dirty pageno then { s with
    store := { s.store with dirty := Function.update s.store.dirty pageno !fsync }
    disk := Function.update s.disk (EvictRun.writePageno pageno) (s.store.page pageno)
    diskTrace := Function.update s.diskTrace (EvictRun.writePageno pageno) (s.trace pageno)
    writes := ⟨s.store.page pageno, s.trace pageno, s.flushed, s.store.walEnd, s.store.wal⟩ :: s.writes }
  else s

/-- The pages that a change without a record leaves; a crash ends the run. -/
def unlogged (s : FlushRun) (m : HeapM Unit) : Option FlushRun :=
  match m s.store with
  | (.ok (), u) | (.error (.runtimeError _), u) => some { s with store := u }
  | (.error _, _) => none

def extend (s : FlushRun) : Option FlushRun :=
  match extendRelation s.store with
  | (.ok pageno, u) => some { s with
    store := u
    disk := Function.update s.disk (EvictRun.writePageno pageno) fun _ => 0
    trace := Function.update s.trace pageno ⟨0, []⟩
    diskTrace := Function.update s.diskTrace (EvictRun.writePageno pageno) ⟨0, []⟩ }
  | (.error _, _) => none

/-- The initialisation of a page that is new sets its LSN to 0. -/
def initPage (s : FlushRun) (pageno : Nat) : Option FlushRun :=
  (s.unlogged (EvictRun.initPage pageno)).map fun t =>
    if HeapPage.isNew (s.store.page pageno) then
      { t with trace := Function.update s.trace pageno { s.trace pageno with lsn := 0 } }
    else t

def step (s : FlushRun) : FlushOp V → Option FlushRun
  | .insert w t pageno heapTuple => s.log w (t.logInsert pageno heapTuple) fun lsn =>
    (lsn, t.insertSteps pageno lsn heapTuple)
  | .update w t old values newTID =>
    s.log w (t.logUpdate old values newTID) fun r => (r.2.2, t.updateSteps old.tid newTID r.1 r.2.1 r.2.2)
  | .delete w t tid addr => s.log w (t.logDelete tid addr) fun r => (r.2, t.deleteSteps tid addr r.1 r.2)
  | .next w => s.next w
  | .extend => s.extend
  | .init pageno => s.initPage pageno
  | .undo dbg usn => s.unlogged (performUndo dbg usn)
  | .others record => s.unlogged do let _ ← writeLogRecord record
  | .flush pageno fsync => some (s.flushBuffer pageno fsync)
  | .evict pageno =>
    if s.store.dirty pageno then none
    else some { s with
      store := { s.store with page := Function.update s.store.page pageno (s.disk pageno) }
      trace := Function.update s.trace pageno (s.diskTrace pageno) }
  | .begin xid => some { s with lastLsn := Function.update s.lastLsn xid LogSeqNumber.Invalid }
  | .commit xid fsync =>
    if LogSeqNumber.isValid (s.lastLsn xid) then
      (WriteAheadLog.flush s.flushed s.store.walEnd (s.lastLsn xid) fsync).map fun flushed =>
      { s with flushed := flushed }
    else some s

/-- The record of each change of a page is in the log; if no tuple was written over the LSN of the page, the log is
written up to it, and it is 0 or that of a record. -/
structure Logged (walEnd : Nat) (wal : List (Nat × HeapWALRecord)) (page : Memory) (trace : PageTrace) : Prop where
  changes : ∀ c ∈ trace.changes, ∃ record, (c.2, record) ∈ wal ∧ c.1 ∈ record.pages
  lsn : HeapPage.lsn page = trace.lsn → HeapPage.lsn page ≤ walEnd + 1 ∧
    (HeapPage.lsn page = 0 ∨ ∃ record, (HeapPage.lsn page, record) ∈ wal)

/-- What `FlushBuffer` wrote had its records in the log, and what is in the file has them. -/
structure WrittenAfterLog (s : FlushRun) : Prop where
  writes : ∀ w ∈ s.writes, Logged w.walEnd w.wal w.page w.trace
  file : ∀ pageno, Logged s.store.walEnd s.store.wal (s.disk pageno) (s.diskTrace pageno)

structure Grows (s u : HeapStore) : Prop where
  walEnd : s.walEnd ≤ u.walEnd
  wal : ∀ e ∈ s.wal, e ∈ u.wal

variable {s0 : HeapStore} {t : HeapTable V}

theorem Grows.refl (s : HeapStore) : Grows s s := ⟨Nat.le_refl _, fun _ h => h⟩

theorem Grows.of_same {s u v : HeapStore} (h : Grows s u) (hend : v.walEnd = u.walEnd) (hwal : v.wal = u.wal) :
    Grows s v :=
  ⟨hend ▸ h.walEnd, fun e he => hwal ▸ h.wal e he⟩

theorem changePage_grows (pageno : Nat) (f : Memory → Except Fault Memory) :
    Fallible.Maintains (Grows s0) (changePage pageno f) :=
  .bind (HeapTable.getPage_maintains pageno) fun _ => .bind (HeapTable.ofExcept_maintains _) fun _ _ h =>
  h.of_same rfl rfl

theorem markDirty_grows (pageno : Nat) : Fallible.Maintains (Grows s0) (markDirty pageno) :=
  fun _ h => h.of_same rfl rfl

theorem insertUndoRecord_grows (record : HeapUndoRecord) :
    Fallible.Maintains (Grows s0) (insertUndoRecord record) :=
  fun _ h => h.of_same rfl rfl

theorem writeLogRecord_grows (record : HeapWALRecord) : Fallible.Spec (Grows s0) (writeLogRecord record)
    (fun lsn u => Grows s0 u ∧ lsn ≤ u.walEnd + 1 ∧ (lsn, record) ∈ u.wal) fun _ => Grows s0 := by
  intro s h
  exact ⟨⟨Nat.le_trans h.walEnd (by simp only; omega), fun e he => List.mem_cons_of_mem _ (h.wal e he)⟩,
    Nat.le_refl _, List.mem_cons_self⟩

theorem performUndo_grows (dbg : Bool) (usn : Int) : Fallible.Maintains (Grows s0) (performUndo dbg usn) := by
  have hget := fun p => HeapTable.getPage_maintains (I := Grows s0) p
  have hof : ∀ {α : Type} (x : Except Fault α), Fallible.Maintains (Grows s0) (Fallible.ofExcept x : HeapM α) :=
    fun x => HeapTable.ofExcept_maintains x
  have hown :
    ∀ pageno index what, Fallible.Maintains (Grows s0) (UndoApplierVisitor.readOwn dbg usn pageno index what) :=
    fun pageno index what => .bind (hget _) fun _ => .bind (hof _) fun _ => .ite (fun _ _ h => h) fun _ => .pure
  refine .bind .get fun s => ?_
  cases s.undo usn with
  | none => exact .throw
  | some record =>
    cases record with
    | Delete table tid =>
      refine .bind (hget _) fun _ => .bind (hof _) fun _ => .ite (fun _ => .pure) fun _ => ?_
      refine .bind (hof _) fun _ => .bind (hof _) fun _ => .ite (fun _ => .pure) fun _ => ?_
      exact .bind (fun _ h => h.of_same rfl rfl) fun _ => markDirty_grows _
    | Update table old new image =>
      show Fallible.Maintains (Grows s0) (UndoApplierVisitor.visitUpdate dbg usn old new image)
      unfold UndoApplierVisitor.visitUpdate
      refine .ite (fun _ => .bind (hown _ _ _) fun _ => changePage_grows _ _) fun _ => ?_
      exact .bind (hown _ _ _) fun _ => .bind (hown _ _ _) fun _ => .bind (changePage_grows _ _) fun _ =>
        changePage_grows _ _
    | Insert table tid image =>
      refine .bind (hget _) fun _ => .bind (hof _) fun _ => .ite (fun _ => .pure) fun _ => ?_
      exact .bind (hof _) fun _ => changePage_grows _ _

theorem PageStep.run_grows (step : PageStep) : Fallible.Maintains (Grows s0) step.run := by
  cases step with
  | change setsLsn pageno f => exact changePage_grows pageno f
  | mark pageno => exact markDirty_grows pageno

/-! ## Records before changes -/

/-- Every change that is left to do has its record in the log. -/
def Ready (s : HeapStore) (lsn : Nat) (steps : List PageStep) : Prop :=
  ∀ setsLsn pageno f, .change setsLsn pageno f ∈ steps →
  lsn ≤ s.walEnd + 1 ∧ ∃ record, (lsn, record) ∈ s.wal ∧ pageno ∈ record.pages

theorem logInsert_ready (pageno : Nat) (heapTuple : List UInt8) :
    Fallible.Spec (Grows s0) (t.logInsert pageno heapTuple)
    (fun lsn u => Grows s0 u ∧ Ready u lsn (t.insertSteps pageno lsn heapTuple)) fun _ => Grows s0 := by
  refine Fallible.Spec.bind (HeapTable.getPage_maintains _) fun page =>
    Fallible.Spec.bind (insertUndoRecord_grows _) fun _ => ?_
  refine Fallible.Spec.conseq (writeLogRecord_grows _) (fun _ => id) (fun lsn u hu => ⟨hu.1, ?_⟩) fun _ _ => id
  intro setsLsn p f hf
  simp only [HeapTable.insertSteps, List.mem_singleton, PageStep.change.injEq] at hf
  exact ⟨hu.2.1, _, hu.2.2, by simp [HeapWALRecord.pages, hf.2.1]⟩

theorem logUpdate_ready (old : HeapTuple V) (values : V) (newTID : TupleId) :
    Fallible.Spec (Grows s0) (t.logUpdate old values newTID)
    (fun r u => Grows s0 u ∧ Ready u r.2.2 (t.updateSteps old.tid newTID r.1 r.2.1 r.2.2)) fun _ => Grows s0 := by
  refine Fallible.Spec.bind (HeapTable.ofExcept_maintains _) fun _ => Fallible.Spec.bind (insertUndoRecord_grows _)
    fun _ => ?_
  refine Fallible.Spec.bind (HeapTable.ofExcept_maintains _) fun _ =>
    Fallible.Spec.bind (HeapTable.ofExcept_maintains _) fun _ => ?_
  refine Fallible.Spec.bind (writeLogRecord_grows _) fun lsn => Fallible.Spec.pure fun u hu => ⟨hu.1, ?_⟩
  intro setsLsn p f hf
  refine ⟨hu.2.1, _, hu.2.2, ?_⟩
  unfold HeapTable.updateSteps at hf
  split_ifs at hf <;> simp at hf <;> simp [HeapWALRecord.pages] <;> tauto

theorem logDelete_ready (tid : TupleId) (addr : Nat) : Fallible.Spec (Grows s0) (t.logDelete tid addr)
    (fun r u => Grows s0 u ∧ Ready u r.2 (t.deleteSteps tid addr r.1 r.2)) fun _ => Grows s0 := by
  refine Fallible.Spec.bind (HeapTable.getPage_maintains _) fun page =>
    Fallible.Spec.bind (HeapTable.ofExcept_maintains _) fun _ => ?_
  refine Fallible.Spec.bind (insertUndoRecord_grows _) fun usn => Fallible.Spec.bind (writeLogRecord_grows _)
    fun lsn => ?_
  refine Fallible.Spec.pure fun u hu => ⟨hu.1, ?_⟩
  intro setsLsn p f hf
  simp only [HeapTable.deleteSteps, List.mem_singleton, PageStep.change.injEq] at hf
  exact ⟨hu.2.1, _, hu.2.2, by simp [HeapWALRecord.pages, hf.2.1]⟩

/-- What a page was given is known to the log. -/
structure Known (walEnd : Nat) (wal : List (Nat × HeapWALRecord)) (trace : PageTrace) : Prop where
  upTo : trace.lsn ≤ walEnd + 1
  record : trace.lsn = 0 ∨ ∃ record, (trace.lsn, record) ∈ wal
  changes : ∀ c ∈ trace.changes, ∃ record, (c.2, record) ∈ wal ∧ c.1 ∈ record.pages

theorem Known.logged {walEnd : Nat} {wal : List (Nat × HeapWALRecord)} {trace : PageTrace}
    (h : Known walEnd wal trace) (page : Memory) :
    Logged walEnd wal page trace :=
  ⟨h.changes, fun hl => by rw [hl]; exact ⟨h.upTo, h.record⟩⟩

theorem Known.zero (walEnd : Nat) (wal : List (Nat × HeapWALRecord)) : Known walEnd wal ⟨0, []⟩ :=
  ⟨Nat.zero_le _, .inl rfl, by simp⟩

theorem Known.mono {s u : HeapStore} {trace : PageTrace} (h : Known s.walEnd s.wal trace) (hg : Grows s u) :
    Known u.walEnd u.wal trace where
  upTo := Nat.le_trans h.upTo (Nat.succ_le_succ hg.walEnd)
  record := h.record.imp_right fun ⟨record, hr⟩ => ⟨record, hg.wal _ hr⟩
  changes c hc := by
    obtain ⟨record, hr, hp⟩ := h.changes c hc
    exact ⟨record, hg.wal _ hr, hp⟩

theorem Ready.mono {s u : HeapStore} {lsn : Nat} {steps : List PageStep} (h : Ready s lsn steps) (hg : Grows s u) :
    Ready u lsn steps := by
  intro setsLsn pageno f hf
  obtain ⟨hle, record, hr, hp⟩ := h setsLsn pageno f hf
  exact ⟨Nat.le_trans hle (Nat.succ_le_succ hg.walEnd), record, hg.wal _ hr, hp⟩

theorem Known.update {walEnd : Nat} {wal : List (Nat × HeapWALRecord)} {traces : Nat → PageTrace}
    {trace : PageTrace} (h : ∀ p, Known walEnd wal (traces p)) (ht : Known walEnd wal trace) (pageno p : Nat) :
    Known walEnd wal (Function.update traces pageno trace p) := by
  by_cases hp : p = pageno
  · rw [hp, Function.update_self]
    exact ht
  · rw [Function.update_of_ne hp]
    exact h p

structure LogInv (s : FlushRun) : Prop where
  trace : ∀ p, Known s.store.walEnd s.store.wal (s.trace p)
  diskTrace : ∀ p, Known s.store.walEnd s.store.wal (s.diskTrace p)
  writes : ∀ w ∈ s.writes, Known w.walEnd w.wal w.trace
  pending : ∀ w, Ready s.store (s.pending w).1 (s.pending w).2

theorem LogInv.after {s : FlushRun} (h : LogInv s) : s.WrittenAfterLog :=
  ⟨fun w hw => (h.writes w hw).logged _, fun p => (h.diskTrace p).logged _⟩

variable {s u : FlushRun}

theorem LogInv.of_grows (h : LogInv s) {store : HeapStore} (hg : Grows s.store store) :
    LogInv { s with store := store } :=
  ⟨fun p => (h.trace p).mono hg, fun p => (h.diskTrace p).mono hg, h.writes, fun w => (h.pending w).mono hg⟩

theorem LogInv.log (h : LogInv s) {α : Type} {w : Nat} {m : HeapM α} {rest : α → Nat × List PageStep}
    (hm : Fallible.Spec (Grows s.store) m (fun a u => Grows s.store u ∧ Ready u (rest a).1 (rest a).2) fun _ =>
      Grows s.store)
    (hs : s.log w m rest = some u) : LogInv u := by
  unfold FlushRun.log at hs
  split_ifs at hs
  have hrun := hm s.store (Grows.refl _)
  split at hs
  · next a store he =>
    rw [he] at hrun
    cases hs
    have hi := h.of_grows hrun.1
    refine ⟨hi.trace, hi.diskTrace, hi.writes, fun w' => ?_⟩
    by_cases hw : w' = w
    · simp only [hw, Function.update_self]
      exact hrun.2
    · simp only [Function.update_of_ne hw]
      exact hi.pending w'
  · next what store he =>
    rw [he] at hrun
    cases hs
    exact h.of_grows hrun
  · cases hs

theorem LogInv.unlogged (h : LogInv s) {m : HeapM Unit} (hm : Fallible.Maintains (Grows s.store) m)
    (hs : s.unlogged m = some u) :
    LogInv u ∧ u = { s with store := u.store } := by
  have hrun := hm s.store (Grows.refl _)
  unfold FlushRun.unlogged at hs
  split at hs
  · next store he =>
    rw [he] at hrun
    cases hs
    exact ⟨h.of_grows hrun, rfl⟩
  · next what store he =>
    rw [he] at hrun
    cases hs
    exact ⟨h.of_grows hrun, rfl⟩
  · cases hs

/-- A step of a call changes a page whose record is in the log. -/
theorem LogInv.next (h : LogInv s) {w : Nat} (hs : s.next w = some u) : LogInv u := by
  unfold FlushRun.next at hs
  have hp := h.pending w
  split at hs
  · cases hs
  · next step steps heq =>
    rw [heq] at hp
    split at hs
    · next store he =>
      cases hs
      have hg : Grows s.store store := (PageStep.run_grows step).ok (Grows.refl _) he
      have hi := h.of_grows hg
      refine ⟨fun p => ?_, hi.diskTrace, hi.writes, fun w' => ?_⟩
      · cases step with
        | change setsLsn pageno f =>
          obtain ⟨hle, record, hr, hpage⟩ := hp.mono hg setsLsn pageno f List.mem_cons_self
          refine Known.update hi.trace ⟨?_, ?_, fun c hc => ?_⟩ pageno p
          · show (if setsLsn = true then _ else _) ≤ _
            split_ifs
            · exact hle
            · exact (hi.trace pageno).upTo
          · show (if setsLsn = true then _ else _) = _ ∨ ∃ record, ((if setsLsn = true then _ else _), record) ∈ _
            split_ifs
            · exact .inr ⟨record, hr⟩
            · exact (hi.trace pageno).record
          · rcases List.mem_cons.1 hc with rfl | hc
            · exact ⟨record, hr, hpage⟩
            · exact (hi.trace pageno).changes c hc
        | mark pageno => exact hi.trace p
      · by_cases hw : w' = w
        · simp only [hw, Function.update_self]
          exact fun setsLsn pageno f hf => hp.mono hg setsLsn pageno f (List.mem_cons_of_mem _ hf)
        · simp only [Function.update_of_ne hw]
          exact hi.pending w'
    · cases hs

theorem LogInv.step {op : FlushOp V} (h : LogInv s) (hs : s.step op = some u) : LogInv u := by
  cases op with
  | insert w t pageno heapTuple =>
    simp only [FlushRun.step] at hs
    exact h.log (logInsert_ready pageno heapTuple) hs
  | update w t old values newTID =>
    simp only [FlushRun.step] at hs
    exact h.log (logUpdate_ready old values newTID) hs
  | delete w t tid addr =>
    simp only [FlushRun.step] at hs
    exact h.log (logDelete_ready tid addr) hs
  | next w => exact h.next hs
  | extend =>
    have hzero := Known.zero s.store.walEnd s.store.wal
    simp only [FlushRun.step, FlushRun.extend, extendRelation] at hs
    split_ifs at hs
    cases hs
    exact ⟨Known.update h.trace hzero _, Known.update h.diskTrace hzero _, h.writes, h.pending⟩
  | init pageno =>
    simp only [FlushRun.step, FlushRun.initPage] at hs
    obtain ⟨v, hv, hu⟩ := Option.map_eq_some_iff.1 hs
    obtain ⟨hi, hsame⟩ := h.unlogged (changePage_grows pageno _) hv
    split_ifs at hu
    · subst hu
      refine ⟨Known.update (fun p => ?_) ⟨Nat.zero_le _, .inl rfl, ?_⟩ pageno, hi.diskTrace, hi.writes, hi.pending⟩
      · have := hi.trace p
        rwa [hsame] at this
      · have := (hi.trace pageno).changes
        rwa [hsame] at this
    · exact hu ▸ hi
  | undo dbg usn =>
    simp only [FlushRun.step] at hs
    exact (h.unlogged (performUndo_grows dbg usn) hs).1
  | others record =>
    simp only [FlushRun.step] at hs
    refine (h.unlogged (.bind ?_ fun _ => .pure) hs).1
    exact Fallible.Spec.conseq (writeLogRecord_grows record) (fun _ => id) (fun _ _ h => h.1) fun _ _ => id
  | flush pageno fsync =>
    cases hs
    unfold FlushRun.flushBuffer
    split_ifs
    · refine ⟨h.trace, Known.update h.diskTrace (h.trace pageno) _, fun w hw => ?_, h.pending⟩
      rcases List.mem_cons.1 hw with rfl | hw
      · exact h.trace pageno
      · exact h.writes w hw
    · exact h
  | evict pageno =>
    simp only [FlushRun.step] at hs
    split_ifs at hs
    cases hs
    exact ⟨Known.update h.trace (h.diskTrace pageno) pageno, h.diskTrace, h.writes, h.pending⟩
  | begin xid =>
    cases hs
    exact ⟨h.trace, h.diskTrace, h.writes, h.pending⟩
  | commit xid fsync =>
    simp only [FlushRun.step] at hs
    split_ifs at hs
    · obtain ⟨flushed, -, rfl⟩ := Option.map_eq_some_iff.1 hs
      exact ⟨h.trace, h.diskTrace, h.writes, h.pending⟩
    · cases hs
      exact h

/-- The entry `e` of the pool holds the page `pageno` of the relation in the buffer `b`. -/
structure Pooled (s : FlushRun) (pool : BufferManager Memory) (relid pageno e b : Nat) : Prop where
  tag : pool.tag e = ⟨relid, pageno⟩
  buffer : pool.buffer e = some b
  contents : pool.contents b = s.store.page pageno
  dirty : (pool.state e).dirty = s.store.dirty pageno
  file : ∀ p, pool.disk ⟨relid, p⟩ = s.disk p

/-- `FlushBuffer` of the pool writes the page as `flushBuffer` does here. -/
theorem Pooled.flushBuffer {s : FlushRun} {pool : BufferManager Memory} {relid pageno e b : Nat}
    (h : s.Pooled pool relid pageno e b) (dbg : Bool) (hlock : (pool.state e).locked = false)
    (hio : (pool.state e).ioInProgress = false) (hfiles : pool.io = []) (hvalid : pageno ≠ PageNumber.Invalid) :
    ∃ pool', BufferManager.flushBuffer dbg e pool = (.ok (), pool') ∧
      (s.flushBuffer pageno true).Pooled pool' relid pageno e b := by
  obtain ⟨htag, hbuf, hcont, hdirty, hfile⟩ := h
  have hself : pool.withState e (pool.state e) = pool := BufferManager.withState_eq rfl
  cases hst : pool.state e with
  | mk r locked tv it fl io d dv =>
    rw [hst] at hlock hio hdirty hself
    obtain rfl : locked = false := hlock
    obtain rfl : io = false := hio
    rw [← hself]
    cases d with
    | false =>
      refine ⟨_, BufferManager.flushBuffer_clean dbg r tv it fl dv, ?_⟩
      rw [FlushRun.flushBuffer, if_neg (by rw [← hdirty]; simp), hself]
      exact ⟨htag, hbuf, hcont, by rw [hst]; exact hdirty, hfile⟩
    | true =>
      have hplace : BufferManager.offset (pool.tag e) / Config.PageSize = EvictRun.writePageno pageno := by
        rw [htag]
        rfl
      refine ⟨_, BufferManager.flushBuffer_writes dbg r tv it fl dv hbuf hfiles (htag ▸ hvalid), ?_⟩
      rw [FlushRun.flushBuffer, if_pos hdirty.symm]
      refine ⟨htag, hbuf, hcont, ?_, fun p => ?_⟩
      · simp [BufferManager.withState]
      · show Function.update pool.disk _ _ ⟨relid, p⟩ = Function.update s.disk _ _ p
        rw [hplace, htag, hcont]
        by_cases hp : p = EvictRun.writePageno pageno
        · simp [hp]
        · have hne : (⟨relid, p⟩ : PageTag) ≠ ⟨relid, EvictRun.writePageno pageno⟩ :=
            fun he => hp (PageTag.mk.inj he).2
          rw [Function.update_of_ne hp, Function.update_of_ne hne]
          exact hfile p

end FlushRun

end Mimidb
