import Mimidb.Fallible
import Mimidb.TransactionManager

/-!
# A client session

`handleLoop` answers the requests of one client. What lies outside the
handler comes with the request: how parsing, planning, the plan's calls, the
log flush, the undo and every `SendPacket` end, each with the text of its
exception when it throws. The transaction tables are those of this session;
`changes` lists every tuple change with the transaction that made it.
-/

namespace Mimidb

inductive TransactionCommand where
  | Begin
  | Rollback
  | Commit
  deriving DecidableEq, Repr

inductive CommandTag where
  | Unknown
  | Select
  | Insert
  | Update
  | Delete
  deriving DecidableEq, Repr

/-- A planned statement and how the calls of its node end. -/
structure Plan (γ : Type) where
  tag : CommandTag
  openTable : Option String
  start : Option String
  /-- The tuples that `Execute` returns. -/
  rows : List (List (Option String))
  /-- The changes that `Execute` makes until it ends or throws. -/
  changes : List γ
  execute : Option String
  finish : Option String
  rowsProcessed : Int
  selects : tag = .Select → changes = []

inductive Statement (γ : Type) where
  | transaction (command : TransactionCommand)
  | plannable (plan : Except String (Plan γ))
  | unsupported (type : Nat)

/-- A packet; a query comes with the result of its parsing. -/
inductive Request (γ : Type) where
  | query (parsed : Except String (Statement γ))
  | other (type : Nat)

/-- How the handler's own calls end while it answers one request. -/
structure RequestEnv where
  sends : List (Option String)
  begins : Option String
  flush : Option String
  undo : Option String
  deriving DecidableEq, Repr

inductive Reply where
  | tupleDescription (attrs : List String)
  | dataRow (values : List (Option String))
  | commandComplete (tag : String) (rows : Int)
  | errorResponse (message : String)
  deriving DecidableEq, Repr

/-- What others see of a session. -/
inductive Event where
  | sent (reply : Reply)
  | ended (xid csn : Nat)
  deriving DecidableEq, Repr

inductive HandlerFault where
  | threw (what : String)
  /-- An exception that leaves a destructor. -/
  | terminated
  /-- A transaction is used that is not there. -/
  | nullTransaction
  deriving DecidableEq, Repr

structure Session (γ : Type) where
  xid : Nat
  csn : Nat
  usn : Nat
  history : Nat → Nat
  /-- `MyTransaction`. -/
  transaction : Option Transaction
  /-- The number of the transaction in `_transactions` of this worker. -/
  slot : Option Nat
  /-- `_lastLsn` of the transaction, which only `WriteWAL` would set. -/
  lastLsn : Nat
  /-- The transactions that `_xidToWorker` gives to this worker. -/
  xidToWorker : Nat → Bool
  changes : List (Nat × γ)
  /-- The last event comes first. -/
  trace : List Event
  env : RequestEnv

abbrev HandlerM (γ : Type) := Fallible (Session γ) HandlerFault

namespace Session

variable {γ : Type}

def init : Session γ where
  xid := TransactionId.Min
  csn := CommitSeqNumber.Min
  usn := 0
  history _ := CommitSeqNumber.Invalid
  transaction := none
  slot := none
  lastLsn := LogSeqNumber.Invalid
  xidToWorker _ := false
  changes := []
  trace := []
  env := ⟨[], none, none, none⟩

/-- The outcome of an outside call. -/
def outcome (what : Option String) : HandlerM γ Unit :=
  match what with
  | none => pure ()
  | some what => throw (.threw what)

def sendPacket (reply : Reply) : HandlerM γ Unit := do
  let s ← get
  match s.env.sends with
  | some what :: sends => do
    modify fun s => { s with env := { s.env with sends := sends } }
    throw (.threw what)
  | sends =>
    modify fun s => { s with env := { s.env with sends := sends.tail }, trace := .sent reply :: s.trace }

/-! ## The transaction manager, for one worker -/

def beginNewTransaction : HandlerM γ Unit := do
  let s ← get
  outcome s.env.begins
  modify fun s => { s with
    xid := s.xid + 1
    slot := some s.xid
    lastLsn := LogSeqNumber.Invalid
    transaction := some (.new s.xid)
    xidToWorker := Function.update s.xidToWorker s.xid true
    history := Function.update s.history s.xid CommitSeqNumber.InProgress }

/-- The last section under `_mutex`, and the end of the transaction's object. -/
def endTransaction (xid csn : Nat) (what : String) : HandlerM γ Unit := do
  let s ← get
  modify fun s => { s with history := Function.update s.history xid csn, trace := .ended xid csn :: s.trace }
  if s.xidToWorker xid then
    modify fun s => { s with
      xidToWorker := Function.update s.xidToWorker xid false
      slot := none
      transaction := none }
  else throw (.threw what)

def commitTransaction : HandlerM γ Unit := do
  let s ← get
  match s.slot with
  | none => throw .nullTransaction
  | some xid => do
    if LogSeqNumber.isValid s.lastLsn then outcome s.env.flush
    modify fun s => { s with csn := s.csn + 1 }
    endTransaction xid s.csn "XidToWorker transaction table is broken - no entry found"

def abortTransaction : HandlerM γ Unit := do
  let s ← get
  match s.transaction, s.slot with
  | some _, some xid => do
    outcome s.env.undo
    endTransaction xid CommitSeqNumber.Aborted "XidToWorker tnx table is broken - no transaction entry found"
  | _, _ => throw .nullTransaction

/-! ## The handler -/

def startNewTransactionCommand : HandlerM γ Unit := do
  let s ← get
  if s.transaction.isSome then pure () else beginNewTransaction

def handleBegin : HandlerM γ Unit := do
  startNewTransactionCommand
  sendPacket (.commandComplete "BEGIN" (-1))

def commitTransactionCommand : HandlerM γ Unit := commitTransaction

def handleCommit : HandlerM γ Unit := do
  commitTransactionCommand
  sendPacket (.commandComplete "COMMIT" (-1))

def abortTransactionCommand : HandlerM γ Unit := do
  let s ← get
  if s.transaction.isSome then abortTransaction else throw (.threw "There is no transaction")

def handleRollback : HandlerM γ Unit := do
  abortTransactionCommand
  sendPacket (.commandComplete "ROLLBACK" (-1))

def execTclQuery : TransactionCommand → HandlerM γ Unit
  | .Begin => handleBegin
  | .Rollback => handleRollback
  | .Commit => handleCommit

/-- The destructor of `ImplicitTransactionGuard` after an exception. -/
def guardAbort : HandlerFault → HandlerM γ Unit
  | .terminated => throw .terminated
  | .nullTransaction => throw .nullTransaction
  | .threw what => do
    tryCatch abortTransactionCommand fun
      | .nullTransaction => throw .nullTransaction
      | _ => throw .terminated
    throw (.threw what)

/-- The scope of an `ImplicitTransactionGuard` that ends with its `Commit`. -/
def withImplicitTransaction (body : HandlerM γ Unit) : HandlerM γ Unit := do
  let s ← get
  if s.transaction.isSome then body
  else do
    startNewTransactionCommand
    tryCatch (do body; commitTransactionCommand) guardAbort

def cmdTagToString : CommandTag → String
  | .Select => "SELECT"
  | .Insert => "INSERT"
  | .Update => "UPDATE"
  | .Delete => "DELETE"
  | .Unknown => "UNKNOWN"

/-- A use of `MyTransaction`. -/
def withTransaction (f : Transaction → HandlerM γ Unit) : HandlerM γ Unit := do
  let s ← get
  match s.transaction with
  | none => throw .nullTransaction
  | some tr => f tr

def beginNewStatement : HandlerM γ Unit := withTransaction fun tr =>
  modify fun s => { s with transaction := some (tr.beginNewStatement s.csn) }

/-- One change of a tuple, which starts with its undo record. -/
def change (c : γ) : HandlerM γ Unit := withTransaction fun tr =>
  modify fun s => { s with
    usn := s.usn + 1
    transaction := some (tr.log (s.usn + 1))
    changes := (tr.xid, c) :: s.changes }

/-- What is sent for a `SELECT` only. -/
def whenSelect (tag : CommandTag) (m : HandlerM γ Unit) : HandlerM γ Unit :=
  if tag = .Select then m else pure ()

/-- What `exec_plannable_query` does inside its transaction. -/
def execPlan (plan : Plan γ) : HandlerM γ Unit := do
  beginNewStatement
  outcome plan.openTable
  whenSelect plan.tag (sendPacket (.tupleDescription ["a", "b"]))
  outcome plan.start
  plan.changes.forM change
  whenSelect plan.tag (plan.rows.forM fun row => sendPacket (.dataRow row))
  outcome plan.execute
  outcome plan.finish
  sendPacket (.commandComplete (cmdTagToString plan.tag) plan.rowsProcessed)

def execPlannableQuery : Except String (Plan γ) → HandlerM γ Unit
  | .error what => throw (.threw what)
  | .ok plan => withImplicitTransaction (execPlan plan)

def execStatement : Statement γ → HandlerM γ Unit
  | .transaction command => execTclQuery command
  | .plannable plan => execPlannableQuery plan
  | .unsupported type => sendPacket (.errorResponse s!"Statement {type} is not supported")

def execQuery : Except String (Statement γ) → HandlerM γ Unit
  | .error what => throw (.threw what)
  | .ok statement => execStatement statement

def setStatus (status : TransactionStatus) : HandlerM γ Unit :=
  modify fun s => { s with transaction := s.transaction.map fun tr => { tr with status := status } }

/-- The `catch` block of `handle_loop`. -/
def handleError : HandlerFault → HandlerM γ Unit
  | .terminated => throw .terminated
  | .nullTransaction => throw .nullTransaction
  | .threw what => do
    sendPacket (.errorResponse what)
    setStatus .ABORTED

def handleRequest : Request γ → HandlerM γ Unit
  | .other type => sendPacket (.errorResponse s!"Packet type {type} is not supported")
  | .query parsed => tryCatch (execQuery parsed) handleError

/-- One turn of the loop, with what the outside does in it. -/
def handlePacket (q : Request γ × RequestEnv) : HandlerM γ Unit := do
  modify fun s => { s with env := q.2 }
  handleRequest q.1

/-- An exception that leaves the loop ends the session. -/
def handleLoop (requests : List (Request γ × RequestEnv)) : HandlerM γ Unit :=
  requests.forM handlePacket

end Session

end Mimidb
