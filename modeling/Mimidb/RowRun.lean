import Mimidb.HeapTable
import Mimidb.LaterPages

/-!
# Rows that transactions change

Transactions scan slots and change what the scans returned, with everything
that `UpdateTuple` and `DeleteTuple` do between the two latches of a page: the
comparison of the writers, the wait for a transaction without the latch, and
the write after it. The scan of a statement comes to a slot once, and a tuple
that it returned is changed once. How slots lie on a page is not the subject
here; whether a changed tuple fits its slot is open in every step.
-/

namespace Mimidb

/-- A tuple in a slot, or in the image of an undo record. -/
structure RowVersion (V : Type) where
  xid : Nat
  undo : Int
  deleted : Bool
  values : V
  deriving DecidableEq, Repr

inductive RowRecord (V : Type) where
  | Delete (location : TupleId)
  | Update (oldLocation newLocation : TupleId) (image : RowVersion V)
  | Insert (location : TupleId) (image : RowVersion V)
  deriving DecidableEq, Repr

/-- A tuple that a scan returned. -/
structure RowTuple (V : Type) where
  tid : TupleId
  version : RowVersion V
  deriving DecidableEq, Repr

/-- `UpdateTuple`, in place or to a new slot, or `DeleteTuple`. -/
inductive RowChange (V : Type) where
  | update (values : V) (newSlot : Option TupleId)
  | delete
  deriving DecidableEq, Repr

/-- Where a call is that gave its latch back. -/
inductive WaitPc where
  | released
  -- in `WaitTransactionEnd`
  | waiting (xid : Nat)
  -- `wait_tnx_end` is over
  | returned
  deriving DecidableEq, Repr

structure RowCall (V : Type) where
  tuple : RowTuple V
  change : RowChange V
  pc : WaitPc
  deriving DecidableEq, Repr

/-- A change that was written: over `replaced`, for a call on `base`. -/
structure RowWrite (V : Type) where
  xid : Nat
  usn : Int
  tid : TupleId
  base : RowVersion V
  replaced : RowVersion V
  deriving DecidableEq, Repr

structure RowRun (W V : Type) where
  tm : TransManager W
  slots : TupleId → Option (RowVersion V)
  /-- The items that an undo has set dead. -/
  dead : TupleId → Bool
  undo : Int → Option (RowRecord V)
  /-- The undo log of the transaction of a worker, the last record first. -/
  log : W → List Int
  /-- The transactions that have begun to undo. -/
  aborting : Nat → Bool
  /-- The slots that the scan of the running statement has behind it. -/
  visited : W → List TupleId
  /-- What it returned and the statement has not changed. -/
  scanned : W → List (RowTuple V)
  calls : W → Option (RowCall V)
  writes : List (RowWrite V)

inductive RowOp (V : Type) where
  | trans (op : TransOp)
  | insert (tid : TupleId) (values : V) (usn : Int)
  -- `GetNextTuple` at a slot
  | scan (tid : TupleId)
  -- a call up to the write, or to the release of the latch
  | change (tuple : RowTuple V) (change : RowChange V) (usn : Int)
  -- `wait_tnx_end` up to `WaitTransactionEnd`, and after it
  | lookup
  | decide
  -- the rest of a call that waited
  | resume (usn : Int)
  -- the next record in `UndoAllRecords`
  | undo
  deriving DecidableEq, Repr

namespace RowRun

variable {W V : Type}

def init : RowRun W V where
  tm := .init
  slots _ := none
  dead _ := false
  undo _ := none
  log _ := []
  aborting _ := false
  visited _ := []
  scanned _ := []
  calls _ := none
  writes := []

/-! ## Scans -/

/-- `tuple_is_visible`; it does not return while the writer is in the middle of its commit. -/
def tupleIsVisible (s : RowRun W V) (myXid : Nat) (snapshot : Snapshot) (v : RowVersion V) : Option Bool :=
  if v.xid = myXid then some (!decide (snapshot.cid ≤ v.undo))
  else if s.tm.history v.xid = CommitSeqNumber.Committing then none
  else some (csnIsVisible snapshot (s.tm.history v.xid))

/-- The walk of `find_visible_tuple_page`. -/
def findVisible (s : RowRun W V) (myXid : Nat) (snapshot : Snapshot) :
    (fuel : Nat) → Int → Option (Option (RowTuple V))
  | 0, _ => none
  | fuel + 1, usn =>
    if UndoSeqNumber.isValid usn then
      match s.undo usn with
      | none => none
      | some (.Delete _) => some none
      | some (.Update oldLocation newLocation image) =>
        if newLocation ≠ oldLocation then some none
        else do
          if ← s.tupleIsVisible myXid snapshot image then return some ⟨newLocation, image⟩
          else findVisible s myXid snapshot fuel image.undo
      | some (.Insert location image) => do
        if ← s.tupleIsVisible myXid snapshot image then return some ⟨location, image⟩
        else findVisible s myXid snapshot fuel image.undo
    else some none

/-- What a scan returns for a slot, if it goes on from there. -/
def scanSlot (s : RowRun W V) (myXid : Nat) (snapshot : Snapshot) (tid : TupleId) : Option (Option (RowTuple V)) :=
  match s.slots tid, s.dead tid with
  | some page, false => do
    if ← s.tupleIsVisible myXid snapshot page then return (if page.deleted then none else some ⟨tid, page⟩)
    -- undo numbers get smaller on the way
    else s.findVisible myXid snapshot (page.undo.toNat + 1) page.undo
  | _, _ => some none

/-! ## Changes -/

section
variable [DecidableEq W] [DecidableEq V]

/-- The part of a call under the latch that writes. -/
def write (s : RowRun W V) (w : W) (tuple : RowTuple V) (change : RowChange V) (usn : Int) : Option (RowRun W V) :=
  match s.tm.transactions w, s.slots tuple.tid with
  | some tr, some page => (s.tm.step (w, .write usn usn ⟨false, false⟩)).bind fun tm =>
    let t : RowRun W V := { s with
      tm := tm
      log := Function.update s.log w (usn :: s.log w)
      calls := Function.update s.calls w none
      writes := ⟨tr.xid, usn, tuple.tid, tuple.version, page⟩ :: s.writes }
    match change with
    | .update values none => some { t with
      undo := Function.update s.undo usn (some (.Update tuple.tid tuple.tid tuple.version))
      slots := Function.update s.slots tuple.tid (some ⟨tr.xid, usn, false, values⟩) }
    | .update values (some new) =>
      if s.slots new = none then some { t with
        undo := Function.update s.undo usn (some (.Update tuple.tid new tuple.version))
        slots := Function.update (Function.update s.slots new (some ⟨tr.xid, usn, false, values⟩))
          tuple.tid (some { page with xid := tr.xid, undo := usn, deleted := true }) }
      else none
    | .delete => some { t with
      undo := Function.update s.undo usn (some (.Insert tuple.tid page))
      slots := Function.update s.slots tuple.tid (some { page with xid := tr.xid, undo := usn, deleted := true }) }
  | _, _ => none

/-- The end of `wait_tnx_end`; the exception ends the call. -/
def decideCsn (s : RowRun W V) (w : W) (call : RowCall V) (csn : Nat) : RowRun W V :=
  let call := if csn = CommitSeqNumber.Aborted then some { call with pc := .returned } else none
  { s with calls := Function.update s.calls w call }

/-- `Visit` of the undo applier for a record. -/
def visit (s : RowRun W V) (usn : Int) : RowRecord V → Option (RowRun W V)
  | .Delete location =>
    match s.slots location with
    | none => none
    | some page =>
      if s.dead location = true ∨ page.undo ≠ usn then some s
      else some { s with dead := Function.update s.dead location true }
  | .Update oldLocation newLocation image =>
    match s.slots oldLocation, s.slots newLocation with
    | some old, some new =>
      if old.undo ≠ usn ∨ new.undo ≠ usn then none
      else some { s with
        slots := Function.update s.slots oldLocation (some image)
        dead := if newLocation = oldLocation then s.dead else Function.update s.dead newLocation true }
    | _, _ => none
  | .Insert location image =>
    match s.slots location with
    | none => none
    | some page =>
      if page.undo ≠ usn then some s
      else some { s with slots := Function.update s.slots location (some image) }

/-- The transaction of the worker has begun to undo. -/
def undoing (s : RowRun W V) (w : W) : Bool := ((s.tm.transactions w).map fun tr => s.aborting tr.xid).getD false

/-- What the handler does itself; the rest belongs to the calls. -/
def handles (s : RowRun W V) (w : W) : TransOp → Bool
  | .beginNewTransaction => true
  | .beginNewStatement | .commit => !s.undoing w
  -- `AbortTransaction` behind `UndoAllRecords`
  | .abort => (s.log w).isEmpty
  | _ => false

/-- A statement begins with a scan of its own. -/
def opens : TransOp → Bool
  | .beginNewTransaction | .beginNewStatement => true
  | _ => false

def handled (s : RowRun W V) (w : W) (op : TransOp) (tm : TransManager W) : RowRun W V :=
  { s with
    tm := tm
    visited := if opens op = true then Function.update s.visited w [] else s.visited
    scanned := if opens op = true then Function.update s.scanned w [] else s.scanned
    log := if op = .beginNewTransaction then Function.update s.log w [] else s.log
    aborting := match op, s.tm.transactions w with
      | .abort, some tr => Function.update s.aborting tr.xid true
      | _, _ => s.aborting }

def step (s : RowRun W V) : W × RowOp V → Option (RowRun W V)
  | (w, .trans .run) => (s.tm.step (w, .run)).map fun tm => { s with tm := tm }
  | (w, .trans op) =>
    if s.calls w = none ∧ s.handles w op = true then (s.tm.step (w, op)).map (s.handled w op) else none
  | (w, .insert tid values usn) =>
    match s.tm.transactions w with
    | some tr =>
      if s.calls w = none ∧ s.aborting tr.xid = false ∧ s.slots tid = none then
        (s.tm.step (w, .write usn UndoSeqNumber.Invalid ⟨false, false⟩)).map fun tm => { s with
          tm := tm
          slots := Function.update s.slots tid (some ⟨tr.xid, UndoSeqNumber.Invalid, false, values⟩)
          undo := Function.update s.undo usn (some (.Delete tid))
          log := Function.update s.log w (usn :: s.log w) }
      else none
    | none => none
  | (w, .scan tid) =>
    match (s.tm.transactions w).bind fun tr => tr.snapshot.map fun snapshot => (tr, snapshot) with
    | some (tr, snapshot) =>
      if s.calls w = none ∧ s.tm.pc w = .idle ∧ s.aborting tr.xid = false ∧ tid ∉ s.visited w then
        (s.scanSlot tr.xid snapshot tid).map fun tuple => { s with
          visited := Function.update s.visited w (tid :: s.visited w)
          scanned := Function.update s.scanned w (tuple.toList ++ s.scanned w) }
      else none
    | none => none
  | (w, .change tuple change usn) =>
    match s.tm.transactions w, s.slots tuple.tid with
    | some tr, some page =>
      if s.calls w = none ∧ s.tm.pc w = .idle ∧ s.aborting tr.xid = false ∧ tuple ∈ s.scanned w then
        let t : RowRun W V := { s with scanned := Function.update s.scanned w ((s.scanned w).erase tuple) }
        if page.xid = tuple.version.xid then t.write w tuple change usn
        else some { t with calls := Function.update s.calls w (some ⟨tuple, change, .released⟩) }
      else none
    | _, _ => none
  | (w, .lookup) =>
    match (s.calls w).bind fun call => (s.slots call.tuple.tid).map fun page => (call, page) with
    | some (call, page) =>
      let csn := s.tm.history page.xid
      if call.pc ≠ .released ∨ csn = CommitSeqNumber.Committing then none
      else if csn = CommitSeqNumber.InProgress then (s.tm.step (w, .wait page.xid)).map fun tm =>
        { s with tm := tm, calls := Function.update s.calls w (some { call with pc := .waiting page.xid }) }
      else some (s.decideCsn w call csn)
    | none => none
  | (w, .decide) =>
    match s.calls w with
    | some ⟨tuple, change, .waiting x⟩ =>
      if s.tm.pc w = .idle ∧ s.tm.history x ≠ CommitSeqNumber.Committing then
        some (s.decideCsn w ⟨tuple, change, .waiting x⟩ (s.tm.history x))
      else none
    | _ => none
  | (w, .resume usn) =>
    match s.calls w with
    | some ⟨tuple, change, .returned⟩ => s.write w tuple change usn
    | _ => none
  | (w, .undo) =>
    match s.tm.transactions w, s.log w with
    | some tr, usn :: log =>
      if s.calls w = none ∧ s.tm.pc w = .idle then
        ((s.undo usn).bind fun record => s.visit usn record).map fun t => { t with
          log := Function.update s.log w log
          aborting := Function.update s.aborting tr.xid true
          scanned := Function.update s.scanned w [] }
      else none
    | _, _ => none

end

end RowRun

end Mimidb
