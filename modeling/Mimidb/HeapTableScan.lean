import Mimidb.HeapPage

/-!
# Scans of a heap table

The state that a scan reads does not change while it runs: a transaction that
is in the middle of its commit stays there, so waiting for it does not end.
`visibleTuples` says what a scan is for.
-/

namespace Mimidb

structure TupleId where
  pageno : Nat
  itemid : Nat
  deriving DecidableEq, Repr

inductive HeapUndoRecord where
  | Delete (tableId : Nat) (tupId : TupleId)
  | Update (tableId : Nat) (oldLocation newLocation : TupleId) (tupleData : List UInt8)
  | Insert (tableId : Nat) (location : TupleId) (tupleData : List UInt8)
  deriving DecidableEq, Repr

/-- A record of the undo log, by its resource manager. -/
inductive IRMgrUndoRecord where
  | heap (record : HeapUndoRecord)
  | other
  deriving DecidableEq, Repr

structure HeapTuple (V : Type) where
  header : HeapPageTupleHeader
  values : V
  tid : TupleId
  deriving DecidableEq, Repr

/-- What a transaction reads of a table. -/
structure HeapView (V : Type) where
  dbg : Bool
  /-- Bytes of the relation file. -/
  size : Nat
  page : Nat → Memory
  history : Nat → Nat
  myXid : Nat
  /-- Bytes of the undo log; no chain of records is longer. -/
  undoSize : Nat
  getRecord : Int → Except Fault IRMgrUndoRecord
  /-- `TupleSerializer::Deserialize` of the bytes behind the header, with `hasnulls` and `size`. -/
  deserialize : List UInt8 → Bool → Nat → Except Fault V

structure HeapTableScan where
  tupleId : TupleId
  lastPageNumber : Nat
  snapshot : Snapshot
  ended : Bool
  deriving DecidableEq, Repr

namespace HeapView

variable {V : Type} (c : HeapView V)

def getPageCount : Nat := c.size / Config.PageSize % 2 ^ 32

def getTransactionCsn (xid : Nat) : Except Fault Nat :=
  if c.history xid = CommitSeqNumber.Committing then .error .diverges else .ok (c.history xid)

def tupleIsVisible (snapshot : Snapshot) (header : HeapPageTupleHeader) : Except Fault Bool :=
  if header.xid = c.myXid then .ok (ownIsVisible snapshot header)
  else do
    let csn ← c.getTransactionCsn header.xid
    assert c.dbg (csn != CommitSeqNumber.Invalid)
    return csnIsVisible snapshot csn

/-- `bytes` are those from the header to the end of the page or of the image. -/
def buildHeapTuple (bytes : List UInt8) (size : Nat) (tid : TupleId) : Except Fault (HeapTuple V) := do
  if bytes.length < HeapPageTupleHeader.size then throw .outOfBounds
  let header := HeapPageTupleHeader.ofBytes bytes
  let values ← c.deserialize (bytes.drop HeapPageTupleHeader.size) header.flags.HasNulls
    ((size + (2 ^ 64 - HeapPageTupleHeader.size)) % 2 ^ 64)
  return ⟨header, values, tid⟩

/-- The header of a saved image and the tuple in it if it is visible. -/
def imageTuple (snapshot : Snapshot) (tupleData : List UInt8) (tid : TupleId) :
    Except Fault (Int × Option (HeapTuple V)) := do
  if tupleData.length < HeapPageTupleHeader.size then throw .outOfBounds
  let header := HeapPageTupleHeader.ofBytes tupleData
  if ← c.tupleIsVisible snapshot header then
    let tuple ← c.buildHeapTuple tupleData tupleData.length tid
    return (header.undo, some tuple)
  else return (header.undo, none)

/-- The loop of `find_visible_tuple_page`; `fuel` bounds its rounds. -/
def findVisibleTuplePage (snapshot : Snapshot) : Nat → Int → Except Fault (Option (HeapTuple V))
  | 0, usn => if UndoSeqNumber.isValid usn then .error .diverges else .ok none
  | fuel + 1, usn =>
    if UndoSeqNumber.isValid usn then do
      match ← c.getRecord usn with
      | .other => throw (.runtimeError "invalid rmgrid")
      | .heap (.Delete _ _) => return none
      | .heap (.Update _ oldLocation newLocation tupleData) =>
        -- the version before a move is left to the scan of the other slot
        if newLocation ≠ oldLocation then return none
        match ← c.imageTuple snapshot tupleData newLocation with
        | (_, some tuple) => return some tuple
        | (undo, none) => findVisibleTuplePage snapshot fuel undo
      | .heap (.Insert _ location tupleData) =>
        match ← c.imageTuple snapshot tupleData location with
        | (_, some tuple) => return some tuple
        | (undo, none) => findVisibleTuplePage snapshot fuel undo
    else .ok none

/-- The body of the loop of `GetNextTuple`. -/
def itemTuple (snapshot : Snapshot) (pageno index : Nat) : Except Fault (Option (HeapTuple V)) := do
  let page := c.page pageno
  let itemid ← HeapPage.getItemId c.dbg page index
  if !itemid.isNormal then return none
  assert c.dbg itemid.hasHeader
  let addr ← HeapPage.getTuple c.dbg itemid
  let header ← HeapPage.readHeader page addr
  if ← c.tupleIsVisible snapshot header then
    if header.flags.Deleted then return none
    some <$> c.buildHeapTuple (page.slice addr (Config.PageSize - addr)) itemid.length ⟨pageno, index⟩
  else c.findVisibleTuplePage snapshot c.undoSize header.undo

/-- The loop of `GetNextTuple` over the `n` items from `index` on. -/
def nextItem (snapshot : Snapshot) (pageno : Nat) :
    (n index : Nat) → Except Fault (Option (HeapTuple V) × Nat)
  | 0, index => .ok (none, index)
  | n + 1, index => do
    match ← c.itemTuple snapshot pageno index with
    | some tuple => return (some tuple, index)
    | none => nextItem snapshot pageno n (index + 1)

end HeapView

namespace HeapTableScan

variable {V : Type} (c : HeapView V)

def beginScan (snapshot : Snapshot) : Except Fault HeapTableScan := do
  assert c.dbg (c.getPageCount != PageNumber.Invalid)
  return ⟨⟨0, 0⟩, c.getPageCount, snapshot, c.getPageCount == 0⟩

def getNextTuple (scan : HeapTableScan) : Except Fault (Option (HeapTuple V) × HeapTableScan) :=
  if scan.ended then .ok (none, scan)
  else do
    let pageno := scan.tupleId.pageno
    let items := HeapPage.itemsCount (c.page pageno)
    let (tuple, index) ←
      c.nextItem scan.snapshot pageno (items - scan.tupleId.itemid) scan.tupleId.itemid
    if items ≤ index then
      let newPageno := (pageno + 1) % 2 ^ 32
      return (tuple, { scan with tupleId := ⟨newPageno, 0⟩, ended := scan.lastPageNumber ≤ newPageno })
    else return (tuple, { scan with tupleId := ⟨pageno, (index + 1) % 2 ^ 16⟩ })

/-- Calls of `GetNextTuple` until the first one without a tuple, as the plan nodes make them. -/
inductive Drives : HeapTableScan → List (HeapTuple V) → HeapTableScan → Prop where
  | finish {scan scan' : HeapTableScan} : getNextTuple c scan = .ok (none, scan') → Drives scan [] scan'
  | tuple {scan scan' scan'' : HeapTableScan} {t : HeapTuple V} {ts : List (HeapTuple V)} :
    getNextTuple c scan = .ok (some t, scan') → Drives scan' ts scan'' → Drives scan (t :: ts) scan''

end HeapTableScan

/-! ## What a scan is for -/

/-- The results of `f` on the `n` numbers from `start` on, in order. -/
def collect {α : Type} (f : Nat → Except Fault (List α)) : (n start : Nat) → Except Fault (List α)
  | 0, _ => .ok []
  | n + 1, start => do
    let xs ← f start
    let ys ← collect f n (start + 1)
    return xs ++ ys

namespace HeapView

variable {V : Type} (c : HeapView V)

/-- The visible versions of the `n` slots from `start` on. -/
def slotTuples (snapshot : Snapshot) (pageno n start : Nat) : Except Fault (List (HeapTuple V)) :=
  collect (fun index => Option.toList <$> c.itemTuple snapshot pageno index) n start

def pageTuples (snapshot : Snapshot) (pageno : Nat) : Except Fault (List (HeapTuple V)) :=
  c.slotTuples snapshot pageno (HeapPage.itemsCount (c.page pageno)) 0

/-- The visible version of every slot of the table. -/
def visibleTuples (snapshot : Snapshot) : Except Fault (List (HeapTuple V)) :=
  collect (c.pageTuples snapshot) c.getPageCount 0

/-- A scan returns the visible version of every slot, in order and once. -/
def ScanComplete (snapshot : Snapshot) : Prop :=
  ∃ scan scan' out, HeapTableScan.beginScan c snapshot = .ok scan ∧ HeapTableScan.Drives c scan out scan' ∧
    c.visibleTuples snapshot = .ok out

end HeapView

end Mimidb
