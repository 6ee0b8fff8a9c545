import Mimidb.HeapRun
import Mimidb.RowInvariant
import Mimidb.VersionChain

/-!
# Rows in the bytes of pages

The run of rows again, on the bytes of the pages and on the records of the
undo log: tuples are put behind the line pointers of a page, written over in
their slots and decoded by the scans. Tuples keep to their slots here, and the
relation stays below 4 GiB.
-/

namespace Mimidb

open HeapStore

inductive ByteChange where
  | update (values : Values)
  | delete
  deriving DecidableEq

structure ByteCall where
  tuple : HeapTuple Values
  change : ByteChange
  pc : WaitPc
  deriving DecidableEq

structure ByteRun (W : Type) where
  tm : TransManager W
  store : HeapStore
  /-- The pages of the relation file. -/
  disk : Nat → Memory
  log : W → List Int
  aborting : Nat → Bool
  visited : W → List TupleId
  scanned : W → List (HeapTuple Values)
  calls : W → Option ByteCall

inductive ByteOp where
  | trans (op : TransOp)
  | insert (values : Values) (pageno : Nat)
  | scan (tid : TupleId)
  | change (tuple : HeapTuple Values) (change : ByteChange)
  | lookup
  | decide
  | resume
  | undo
  -- for whatever call
  | extend
  -- records of other tables
  | others (bytes : Nat)
  | evict (pageno : Nat)

namespace ByteChange

/-- The new version has room in the old slot. -/
def fits (t : HeapTable Values) (s : HeapStore) (tid : TupleId) : ByteChange → Bool
  | .update values => t.fits s tid values
  | .delete => true

def perform (t : HeapTable Values) (tuple : HeapTuple Values) : ByteChange → HeapM Unit
  | .update values => t.performUpdate tuple values tuple.tid
  | .delete => t.deleteAt tuple.tid

end ByteChange

namespace ByteRun

variable {W : Type}

def init : ByteRun W where
  tm := .init
  store := ⟨0, fun _ _ => 0, fun _ => false, 0, fun _ => none, 0, []⟩
  disk _ _ := 0
  log _ := []
  aborting _ := false
  visited _ := []
  scanned _ := []
  calls _ := none

section
variable (dbg : Bool) (tableId : Nat) (desc : TupleDescriptor)

/-- The writer of the tuple on the page. -/
def pageXid (s : ByteRun W) (tid : TupleId) : Option Nat :=
  match HeapPage.tupleAt dbg (s.store.page tid.pageno) tid.itemid with
  | .ok (_, _, header) => some header.xid
  | .error _ => none

def scanSlot (s : ByteRun W) (myXid : Nat) (snapshot : Snapshot) (tid : TupleId) :
    Except Fault (Option (HeapTuple Values)) :=
  (s.store.view dbg desc s.tm.history myXid).itemTuple snapshot tid.pageno tid.itemid

variable [DecidableEq W]

def write (s : ByteRun W) (w : W) (tuple : HeapTuple Values) (change : ByteChange) : Option (ByteRun W) :=
  match s.tm.transactions w with
  | none => none
  | some tr =>
    let t := heapTable dbg tableId tr.xid desc
    let usn : Int := s.store.undoSize + 1
    if change.fits t s.store tuple.tid = true then
      match change.perform t tuple s.store with
      | (.ok (), u) => (s.tm.step (w, .write usn usn ⟨false, false⟩)).map fun tm => { s with
          tm := tm
          store := u
          log := Function.update s.log w (usn :: s.log w)
          calls := Function.update s.calls w none }
      | (.error _, _) => none
    else none

def decideCsn (s : ByteRun W) (w : W) (call : ByteCall) (csn : Nat) : ByteRun W :=
  let call := if csn = CommitSeqNumber.Aborted then some { call with pc := .returned } else none
  { s with calls := Function.update s.calls w call }

def undoing (s : ByteRun W) (w : W) : Bool := ((s.tm.transactions w).map fun tr => s.aborting tr.xid).getD false

def handles (s : ByteRun W) (w : W) : TransOp → Bool
  | .beginNewTransaction => true
  | .beginNewStatement | .commit => !s.undoing w
  | .abort => (s.log w).isEmpty
  | _ => false

def handled (s : ByteRun W) (w : W) (op : TransOp) (tm : TransManager W) : ByteRun W :=
  { s with
    tm := tm
    visited := if RowRun.opens op = true then Function.update s.visited w [] else s.visited
    scanned := if RowRun.opens op = true then Function.update s.scanned w [] else s.scanned
    log := if op = .beginNewTransaction then Function.update s.log w [] else s.log
    aborting := match op, s.tm.transactions w with
      | .abort, some tr => Function.update s.aborting tr.xid true
      | _, _ => s.aborting }

def step (s : ByteRun W) : W × ByteOp → Option (ByteRun W)
  | (w, .trans .run) => (s.tm.step (w, .run)).map fun tm => { s with tm := tm }
  | (w, .trans op) =>
    if s.calls w = none ∧ s.handles w op = true then (s.tm.step (w, op)).map (s.handled w op) else none
  | (w, .insert values pageno) =>
    match s.tm.transactions w with
    | some tr =>
      let t := heapTable dbg tableId tr.xid desc
      let usn : Int := s.store.undoSize + 1
      if s.calls w = none ∧ s.aborting tr.xid = false ∧ pageno < s.store.pagesCount ∧
        t.mayInsert s.store values pageno = true then
        match t.insertOn values pageno s.store with
        | (.ok (), u) => (s.tm.step (w, .write usn UndoSeqNumber.Invalid ⟨false, false⟩)).map fun tm => { s with
            tm := tm
            store := u
            log := Function.update s.log w (usn :: s.log w) }
        | (.error _, _) => none
      else none
    | none => none
  | (w, .scan tid) =>
    match (s.tm.transactions w).bind fun tr => tr.snapshot.map fun snapshot => (tr, snapshot) with
    | some (tr, snapshot) =>
      if (s.calls w = none ∧ s.tm.pc w = .idle ∧ s.aborting tr.xid = false ∧ tid ∉ s.visited w) ∧
          tid.itemid < HeapPage.itemsCount (s.store.page tid.pageno) then
        match s.scanSlot dbg desc tr.xid snapshot tid with
        | .ok tuple => some { s with
            visited := Function.update s.visited w (tid :: s.visited w)
            scanned := Function.update s.scanned w (tuple.toList ++ s.scanned w) }
        | .error _ => none
      else none
    | none => none
  | (w, .change tuple change) =>
    match s.tm.transactions w, s.pageXid dbg tuple.tid with
    | some tr, some xid =>
      if s.calls w = none ∧ s.tm.pc w = .idle ∧ s.aborting tr.xid = false ∧ (s.scanned w).contains tuple = true then
        let t : ByteRun W := { s with scanned := Function.update s.scanned w ((s.scanned w).erase tuple) }
        if xid = tuple.header.xid then t.write dbg tableId desc w tuple change
        else some { t with calls := Function.update s.calls w (some ⟨tuple, change, .released⟩) }
      else none
    | _, _ => none
  | (w, .lookup) =>
    match (s.calls w).bind fun call => (s.pageXid dbg call.tuple.tid).map fun xid => (call, xid) with
    | some (call, xid) =>
      let csn := s.tm.history xid
      if call.pc ≠ .released ∨ csn = CommitSeqNumber.Committing then none
      else if csn = CommitSeqNumber.InProgress then (s.tm.step (w, .wait xid)).map fun tm =>
        { s with tm := tm, calls := Function.update s.calls w (some { call with pc := .waiting xid }) }
      else some (s.decideCsn w call csn)
    | none => none
  | (w, .decide) =>
    match s.calls w with
    | some ⟨tuple, change, .waiting x⟩ =>
      if s.tm.pc w = .idle ∧ s.tm.history x ≠ CommitSeqNumber.Committing then
        some (s.decideCsn w ⟨tuple, change, .waiting x⟩ (s.tm.history x))
      else none
    | _ => none
  | (w, .resume) =>
    match s.calls w with
    | some ⟨tuple, change, .returned⟩ => s.write dbg tableId desc w tuple change
    | _ => none
  | (w, .undo) =>
    match s.tm.transactions w, s.log w with
    | some tr, usn :: log =>
      if s.calls w = none ∧ s.tm.pc w = .idle then
        match performUndo dbg usn s.store with
        | (.ok (), u) => some { s with
            store := u
            log := Function.update s.log w log
            aborting := Function.update s.aborting tr.xid true
            scanned := Function.update s.scanned w [] }
        | (.error _, _) => none
      else none
    | _, _ => none
  | (_, .extend) => some { s with
      store := s.store.grown
      disk := Function.update s.disk (EvictRun.writePageno s.store.pagesCount) fun _ => 0 }
  | (_, .others bytes) => some { s with store := { s.store with undoSize := s.store.undoSize + bytes } }
  | (_, .evict pageno) =>
    some { s with store := (s.store.evicted s.disk pageno).1, disk := (s.store.evicted s.disk pageno).2 }

end

/-! ## The rows -/

section
variable (dbg : Bool) (tableId : Nat) (desc : TupleDescriptor)

/-- What a scan decodes of values that were written. -/
def stored (values : Values) : Values :=
  match TupleSerializer.serialize dbg desc values with
  | .ok (data, hasnulls) => (TupleSerializer.deserialize dbg desc data hasnulls data.length).toOption.getD values
  | .error _ => values

def rowOf (tuple : HeapTuple Values) : RowTuple Values :=
  ⟨tuple.tid, ⟨tuple.header.xid, tuple.header.undo, tuple.header.flags.Deleted, tuple.values⟩⟩

def changeOf : ByteChange → RowChange Values
  | .update values => .update (stored dbg desc values) none
  | .delete => .delete

def callOf (call : ByteCall) : RowCall Values := ⟨rowOf call.tuple, changeOf dbg desc call.change, call.pc⟩

/-- What a step is for the rows. -/
def rowOps (s : ByteRun W) : W × ByteOp → List (W × RowOp Values)
  | (w, .trans op) => [(w, .trans op)]
  | (w, .insert values pageno) =>
    [(w, .insert ⟨pageno, HeapPage.itemsCount (s.store.page pageno)⟩ (stored dbg desc values)
      (s.store.undoSize + 1))]
  | (w, .scan tid) => [(w, .scan tid)]
  | (w, .change tuple change) => [(w, .change (rowOf tuple) (changeOf dbg desc change) (s.store.undoSize + 1))]
  | (w, .lookup) => [(w, .lookup)]
  | (w, .decide) => [(w, .decide)]
  | (w, .resume) => [(w, .resume (s.store.undoSize + 1))]
  | (w, .undo) => [(w, .undo)]
  | (_, .extend) | (_, .others _) | (_, .evict _) => []

/-- Statements insert rows where the page has room, a call that waited finds the writer of its tuple, and an evicted
page is dirty or as it is in the file. -/
def Sheltered (s : ByteRun W) (a : W × ByteOp) : Prop :=
  match a.2 with
  | .insert values pageno =>
    (∀ tr ∈ s.tm.transactions a.1, tr.snapshot ≠ none) ∧
      let page := s.store.page pageno
      ∀ tr ∈ s.tm.transactions a.1, ∀ bytes ∈ ((heapTable dbg tableId tr.xid desc).serialize
        ((heapTable dbg tableId tr.xid desc).newHeader values) values).toOption,
        HeapPage.Vacant page (HeapPage.upper page - BitUtils.maxAlign bytes.length) bytes.length
  | .resume => ∀ call ∈ s.calls a.1, ∀ xid ∈ s.pageXid dbg call.tuple.tid, xid = call.tuple.header.xid
  | .evict pageno => s.store.Unlost s.disk pageno
  | _ => True

/-- The counters do not wrap, and the undo log does not reach its last number. -/
def noWrap (s : ByteRun W) (a : W × ByteOp) : Prop :=
  (s.tm.csn + 1 < TransManager.counter ∧ s.tm.xid + 1 < TransManager.counter) ∧
    match a.2 with
    | .insert _ _ | .change _ _ | .resume => (s.store.undoSize : Int) + 1 ≤ UndoSeqNumber.Max
    | _ => True

end

end ByteRun

end Mimidb
