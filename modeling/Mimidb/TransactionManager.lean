import Mimidb.Run
import Mimidb.Visibility

/-!
# The transaction manager, one critical section at a time

A step runs one atomic operation of one worker: an operation on one of the
counters, or a section under `_mutex`. The sections that give the mutex back
run in one step and need it to be free; the retry of `GetTransactionCsn` does
not give its share back (`std::shared_lock::release` only forgets it), which
`mutex` counts. `LWLatch` grants a share of a free latch only, so every later
section waits for ever.
-/

namespace Mimidb

inductive TransactionStatus where
  | RUNNING
  | COMMITTED
  | ABORTED
  deriving DecidableEq, Repr

structure Transaction where
  xid : Nat
  status : TransactionStatus
  snapshot : Option Snapshot
  /-- The records of the undo log, the last one first. -/
  undoLog : Option (List Int)
  deriving DecidableEq, Repr

namespace Transaction

def new (xid : Nat) : Transaction := ⟨xid, .RUNNING, none, none⟩

def lastUsn (tr : Transaction) : Int :=
  match tr.undoLog with
  | some (usn :: _) => usn
  | _ => UndoSeqNumber.Invalid

/-- `csn` is the counter of the transaction manager. -/
def beginNewStatement (tr : Transaction) (csn : Nat) : Transaction :=
  match tr.snapshot with
  | none => { tr with snapshot := some ⟨csn, UndoSeqNumber.Invalid⟩ }
  | some snapshot =>
    if UndoSeqNumber.isValid tr.lastUsn then { tr with snapshot := some ⟨snapshot.csn, tr.lastUsn + 1⟩ } else tr

/-- A change: its undo record is appended to the transaction's undo log. -/
def log (tr : Transaction) (usn : Int) : Transaction :=
  { tr with undoLog := some (usn :: tr.undoLog.getD []) }

end Transaction

/-- Program points: each names the atomic operation that comes next. -/
inductive TransPc (W : Type) where
  | idle
  | beginRegister
  -- `CommitTransaction`
  | commitMark
  | commitTake
  | commitPublish (csn : Nat)
  | commitEnd (csn : Nat)
  -- `AbortTransaction`
  | abortMark
  | abortEnd
  -- `GetTransactionCsn`, called by `tuple_is_visible`
  | readCsn (header : HeapPageTupleHeader)
  -- `WaitTransactionEnd`
  | waitFind (xid : Nat)
  | waitCheck (xid : Nat) (workerId : W)
  | waitLatch (xid : Nat)
  | threw (what : String)
  deriving DecidableEq, Repr

/-- An answer of `tuple_is_visible` in the transaction `reader`. -/
structure VisibleAnswer where
  reader : Nat
  snapshot : Snapshot
  header : HeapPageTupleHeader
  visible : Bool
  deriving DecidableEq, Repr

structure TransManager (W : Type) where
  csn : Nat
  xid : Nat
  /-- Shares of `_mutex` that were not given back. -/
  mutex : Nat
  transactions : W → Option Transaction
  xidToWorker : Nat → Option W
  history : Nat → Nat
  /-- The transactions whose own latch was released. -/
  ended : Nat → Bool
  /-- The end of the undo log. -/
  usn : Int
  /-- Headers that were written to tuples. -/
  headers : List HeapPageTupleHeader
  pc : W → TransPc W
  answers : List VisibleAnswer
  failed : Bool

inductive TransOp where
  | beginNewTransaction
  | beginNewStatement
  /-- A change with undo record `usn`; an inserted tuple keeps the invalid pointer. -/
  | write (usn undo : Int) (flags : HeapTupleFlags)
  | commit
  | abort
  | visible (header : HeapPageTupleHeader)
  | wait (xid : Nat)
  | run
  deriving DecidableEq, Repr

namespace TransManager

variable {W : Type}

def init : TransManager W where
  csn := CommitSeqNumber.Min
  xid := TransactionId.Min
  mutex := 0
  transactions _ := none
  xidToWorker _ := none
  history _ := CommitSeqNumber.Invalid
  ended _ := false
  usn := 0
  headers := []
  pc _ := .idle
  answers := []
  failed := false

variable [DecidableEq W]

@[simp] def goto (s : TransManager W) (w : W) (p : TransPc W) : TransManager W :=
  { s with pc := Function.update s.pc w p }

@[simp] def setTransaction (s : TransManager W) (w : W) (tr : Option Transaction) : TransManager W :=
  { s with transactions := Function.update s.transactions w tr }

@[simp] def setHistory (s : TransManager W) (x : Nat) (csn : Nat) :
    TransManager W := { s with history := Function.update s.history x csn }

@[simp] def setWorker (s : TransManager W) (x : Nat) (w : Option W) : TransManager W :=
  { s with xidToWorker := Function.update s.xidToWorker x w }

@[simp] def setEnded (s : TransManager W) (x : Nat) : TransManager W :=
  { s with ended := Function.update s.ended x true }

@[simp] def answer (s : TransManager W) (a : VisibleAnswer) : TransManager W :=
  { s with answers := a :: s.answers }

@[simp] def check (s : TransManager W) (b : Bool) : TransManager W :=
  { s with failed := s.failed || !b }

/-- The 64 bit of the counters. -/
def counter : Nat := 2 ^ 64

/-- Erase the transaction from `_xidToWorker`; the entry has to be there. -/
def eraseWorker (s : TransManager W) (w : W) (x : Nat) (p : TransPc W) (what : String) :
    TransManager W :=
  if s.xidToWorker x = none then s.goto w (.threw what) else (s.setWorker x none).goto w p

/-- A section under `_mutex`. -/
def locked (s : TransManager W) (t : TransManager W) : Option (TransManager W) :=
  if s.mutex = 0 then some t else none

/-- The operation at a program point inside a call; `tr` is the worker's transaction. -/
def runPc (s : TransManager W) (w : W) (tr : Transaction) : TransPc W → Option (TransManager W)
  | .idle => none
  | .beginRegister =>
    s.locked (((s.setWorker tr.xid (some w)).setHistory tr.xid CommitSeqNumber.InProgress).goto w .idle)
  | .commitMark => s.locked ((s.setHistory tr.xid CommitSeqNumber.Committing).goto w .commitTake)
  | .commitTake => some ({ s with csn := (s.csn + 1) % counter }.goto w (.commitPublish s.csn))
  | .commitPublish csn =>
    s.locked ((s.setHistory tr.xid csn).eraseWorker w tr.xid (.commitEnd csn)
      "XidToWorker transaction table is broken - no entry found")
  | .commitEnd csn =>
    some ((((s.check (CommitSeqNumber.isNormal csn)).setEnded tr.xid).setTransaction w none).goto w .idle)
  | .abortMark =>
    s.locked ((s.setHistory tr.xid CommitSeqNumber.Aborted).eraseWorker w tr.xid .abortEnd
      "XidToWorker tnx table is broken - no transaction entry found")
  | .abortEnd => some (((s.setEnded tr.xid).setTransaction w none).goto w .idle)
  | .readCsn header =>
    match tr.snapshot with
    | none => none
    | some snapshot =>
      let csn := s.history header.xid
      -- the share is only forgotten before the next try
      if csn = CommitSeqNumber.Committing then s.locked { s with mutex := s.mutex + 1 }
      else s.locked (((s.check (csn != CommitSeqNumber.Invalid)).answer
        ⟨tr.xid, snapshot, header, csnIsVisible snapshot csn⟩).goto w .idle)
  | .waitFind x =>
    s.locked (s.goto w (match s.xidToWorker x with
      | none => .idle
      | some workerId => .waitCheck x workerId))
  | .waitCheck x workerId =>
    match s.transactions workerId with
    | none => some (s.goto w .idle)
    | some other =>
      if other.xid = x then some ((s.check (x != tr.xid)).goto w (.waitLatch x))
      else some (s.goto w .idle)
  | .waitLatch x => if s.ended x then some (s.goto w .idle) else none
  | .threw _ => none

/-- An idle worker makes a call, a busy one runs its next operation. -/
def step (s : TransManager W) : W × TransOp → Option (TransManager W)
  | (w, .run) => (s.transactions w).bind fun tr => s.runPc w tr (s.pc w)
  | (w, op) =>
    if s.pc w = .idle then
      match op, s.transactions w with
      | .beginNewTransaction, _ =>
        some (({ s with xid := (s.xid + 1) % counter }.setTransaction w (some (.new s.xid))).goto w
          .beginRegister)
      | .beginNewStatement, some tr => some (s.setTransaction w (some (tr.beginNewStatement s.csn)))
      | .write usn undo flags, some tr =>
        if s.usn < usn ∧ (undo = usn ∨ undo = UndoSeqNumber.Invalid) then
          some ({ s with usn := usn, headers := ⟨tr.xid, undo, flags⟩ :: s.headers }.setTransaction w
            (some (tr.log usn)))
        else none
      | .commit, some _ => some (s.goto w .commitMark)
      | .abort, some tr =>
        some ((s.setTransaction w (some { tr with undoLog := tr.undoLog.map fun _ => [] })).goto w
          .abortMark)
      | .visible header, some tr =>
        match tr.snapshot with
        | none => none
        | some snapshot =>
          if header ∉ s.headers then none
          else if header.xid = tr.xid then
            some (s.answer ⟨tr.xid, snapshot, header, ownIsVisible snapshot header⟩)
          else some (s.goto w (.readCsn header))
      | .wait x, some _ => some (s.goto w (.waitFind x))
      | _, _ => none
    else none

end TransManager

end Mimidb
