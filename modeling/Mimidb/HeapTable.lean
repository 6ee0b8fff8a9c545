import Mimidb.Fallible
import Mimidb.HeapTableScan

/-!
# Changes of a heap table

The parts of `InsertTuple`, `UpdateTuple` and `DeleteTuple` that change one
page come first, then the calls. A call runs alone but for `wait`, which
stands for what others do while it waits for the end of a transaction with
no latch held.
-/

namespace Mimidb

namespace BitUtils

/-- `TypeAlign` to the 8 bytes of a `size_t`. -/
def maxAlign (n : Nat) : Nat := (n + 7) / 8 * 8

end BitUtils

namespace TupleId

def size : Nat := 8

end TupleId

/-! ## Pages -/

namespace HeapPage

/-- `memcpy` to a page. -/
def memcpy (page : Memory) (addr : Nat) (bytes : List UInt8) : Except Fault Memory := do
  access addr bytes.length
  return page.blit addr bytes

/-- The update in place: the item keeps its length. -/
def overwrite (dbg : Bool) (page : Memory) (index : Nat) (bytes : List UInt8) : Except Fault Memory := do
  let itemId ← getItemId dbg page index
  let addr ← getTuple dbg itemId
  memcpy page addr bytes

/-- The update to a new slot, on the page of the old one or another; `upper` stays. -/
def relocate (dbg : Bool) (page : Memory) (index : Nat) (bytes : List UInt8) : Except Fault Memory := do
  let itemId ← getItemId dbg page index
  let offset := (upper page + (2 ^ 64 - bytes.length)) % 2 ^ 16
  let itemId ← itemId.setNormal dbg (bytes.length % 2 ^ 16) offset
  let page := setLower (setItem page index itemId) (lower page + ItemId.size)
  let addr ← getTuple dbg itemId
  memcpy page addr bytes

/-- The old slot after an update to a new one. -/
def markUpdated (dbg : Bool) (page : Memory) (index xid : Nat) (usn : Int) : Except Fault Memory := do
  let itemId ← getItemId dbg page index
  let addr ← getTuple dbg itemId
  access addr HeapPageTupleHeader.size
  let page := page.writeLE (addr + 16) 8 (page.readLE (addr + 16) 8 ||| 1)
  return (page.writeLE addr 8 xid).writeLE (addr + 8) 8 (usn % 2 ^ 64).toNat

/-- The page of `InsertTuple`: the item array is written without a check of the index. -/
def insertLast (dbg : Bool) (page : Memory) (lsn : Nat) (bytes : List UInt8) : Except Fault Memory := do
  let page := setLsn page lsn
  let index := itemsCount page
  access (itemAddr index) ItemId.size
  let offset := (upper page + (2 ^ 64 - BitUtils.maxAlign bytes.length)) % 2 ^ 16
  let itemId ← { itemAt page index with flags := ItemState.Normal }.setLength dbg (bytes.length % 2 ^ 16)
  let itemId ← itemId.setOffset dbg offset
  let page := setItem page index itemId
  let addr ← getTuple dbg itemId
  let page ← memcpy page addr bytes
  let page := setLower page (lower page + ItemId.size)
  return setUpper page (upper page + (2 ^ 16 - BitUtils.maxAlign bytes.length % 2 ^ 16))

end HeapPage

/-! ## Logs -/

namespace HeapUndoRecord

def calculateSize : HeapUndoRecord → Nat
  | .Delete _ _ => 4 + TupleId.size
  | .Update _ _ _ tupleData => 4 + TupleId.size + TupleId.size + tupleData.length
  | .Insert _ _ tupleData => 4 + TupleId.size + tupleData.length

end HeapUndoRecord

inductive HeapWALRecord where
  | Insert (tupId : TupleId) (tupleData : List UInt8)
  | Update (tableId : Nat) (oldTupleId newTupleId : TupleId) (tupleData : List UInt8)
  | Delete (tableId : Nat) (location : TupleId)
  deriving DecidableEq, Repr

namespace HeapWALRecord

def calculateSize : HeapWALRecord → Nat
  | .Insert _ tupleData => TupleId.size + tupleData.length
  | .Update _ _ _ tupleData => 4 + TupleId.size + TupleId.size + tupleData.length
  | .Delete _ _ => 4 + TupleId.size

end HeapWALRecord

/-! ## Tables -/

/-- One table with the logs of its changes. -/
structure HeapStore where
  /-- Bytes of the relation file. -/
  size : Nat
  page : Nat → Memory
  dirty : Nat → Bool
  undoSize : Nat
  undo : Int → Option HeapUndoRecord
  walEnd : Nat
  /-- The records by LSN, the last one first. -/
  wal : List (Nat × HeapWALRecord)

abbrev HeapM := Fallible HeapStore Fault

namespace HeapStore

def getPage (pageno : Nat) : HeapM Memory := fun s => (.ok (s.page pageno), s)

def setPage (pageno : Nat) (page : Memory) : HeapM Unit := fun s =>
  (.ok (), { s with page := Function.update s.page pageno page })

def markDirty (pageno : Nat) : HeapM Unit := fun s =>
  (.ok (), { s with dirty := Function.update s.dirty pageno true })

def changePage (pageno : Nat) (f : Memory → Except Fault Memory) : HeapM Unit := do
  let page ← getPage pageno
  setPage pageno (← Fallible.ofExcept (f page))

def pagesCount (s : HeapStore) : Nat := s.size / Config.PageSize % 2 ^ 32

/-- `UndoLog::InsertUndoRecord`. -/
def insertUndoRecord (record : HeapUndoRecord) : HeapM Int := fun s =>
  let usn : Int := s.undoSize + 1
  (.ok usn, { s with
    undo := Function.update s.undo usn (some record)
    undoSize := s.undoSize + 24 + BitUtils.maxAlign record.calculateSize })

/-- `WriteAheadLog::WriteLogRecord`; the header has 24 bytes. -/
def writeLogRecord (record : HeapWALRecord) : HeapM Nat := fun s =>
  let walEnd := s.walEnd + 24 + record.calculateSize
  (.ok (walEnd + 1), { s with walEnd := walEnd, wal := (walEnd + 1, record) :: s.wal })

/-- `ExtendRelation` with nobody else at work. -/
def extendRelation : HeapM Nat := fun s =>
  let nblocks := s.pagesCount
  if nblocks = PageNumber.Invalid then
    (.error (.runtimeError "could not write page: pageno is invalid"), s)
  else (.ok nblocks, { s with
    size := max s.size (Config.PageSize * nblocks % 2 ^ 32 + Config.PageSize)
    page := Function.update s.page nblocks fun _ => 0 })

end HeapStore

structure HeapTable (V : Type) where
  dbg : Bool
  tableId : Nat
  myXid : Nat
  /-- `TupleSerializer::Serialize`. -/
  serializeValues : V → Except Fault (List UInt8)
  hasNulls : V → Bool

namespace HeapTable

open HeapStore

variable {V : Type} (t : HeapTable V)

/-- `HeapTupleSerializer::Serialize`; the flags of the header are computed anew. -/
def serialize (header : HeapPageTupleHeader) (values : V) : Except Fault (List UInt8) := do
  let data ← t.serializeValues values
  return { header with flags := ⟨false, t.hasNulls values⟩ }.toBytes ++ data

/-- The header of `formHeapPageTuple`. -/
def newHeader (values : V) : HeapPageTupleHeader :=
  ⟨t.myXid, UndoSeqNumber.Invalid, ⟨false, t.hasNulls values⟩⟩

/-- The first of the `n` pages from `pageno` on with enough room; `held` is latched by the caller. -/
def searchPages (held : Option Nat) (freeSpace : Nat) : (n pageno : Nat) → HeapM (Option Nat)
  | 0, _ => pure none
  | n + 1, pageno => do
    if held = some pageno then throw .deadlock
    let page ← getPage pageno
    if HeapPage.getFreeSpace page < freeSpace then searchPages held freeSpace n (pageno + 1)
    else return some pageno

def searchPageFreeSpace (held : Option Nat) (freeSpace : Nat) : HeapM Nat := do
  let s ← get
  match ← searchPages held freeSpace s.pagesCount 0 with
  | some pageno => return pageno
  | none =>
    let pageno ← extendRelation
    changePage pageno fun page => .ok (if HeapPage.isNew page then HeapPage.init page else page)
    let page ← getPage pageno
    Fallible.ofExcept (assert t.dbg (HeapPage.getFreeSpace page < freeSpace))
    return pageno

/-- `fuel` bounds the rounds of the loop. -/
def insertTuple (values : V) : Nat → HeapM Unit
  | 0 => throw .diverges
  | fuel + 1 => do
    let heapTuple ← Fallible.ofExcept (t.serialize (t.newHeader values) values)
    let freeSpace := heapTuple.length + ItemId.size
    let pageno ← t.searchPageFreeSpace none freeSpace
    let page ← getPage pageno
    if HeapPage.getFreeSpace page < freeSpace then insertTuple values fuel
    else do
      let newTupId : TupleId := ⟨pageno, HeapPage.itemsCount page⟩
      -- the tuple was serialized before, so its undo pointer stays invalid
      let _usn ← insertUndoRecord (.Delete t.tableId newTupId)
      let lsn ← writeLogRecord (.Insert newTupId heapTuple)
      changePage pageno fun page => HeapPage.insertLast t.dbg page lsn heapTuple

/-- The address of a tuple on its page. -/
def locate (tid : TupleId) : HeapM Nat := do
  let page ← getPage tid.pageno
  let itemId ← Fallible.ofExcept (HeapPage.getItemId t.dbg page tid.itemid)
  Fallible.ofExcept (HeapPage.getTuple t.dbg itemId)

/-- The check for a concurrent change; `wait` is called without the latch. -/
def checkUnchanged (wait : Nat → HeapM Unit) (old : HeapTuple V) (addr : Nat) : HeapM Unit := do
  let page ← getPage old.tid.pageno
  let header ← Fallible.ofExcept (HeapPage.readHeader page addr)
  if header.xid ≠ old.header.xid then wait header.xid

/-- The page for a tuple that does not fit on the page of its old version. -/
def searchNewPage (held size : Nat) : Nat → HeapM TupleId
  | 0 => throw .diverges
  | fuel + 1 => do
    let pageno ← t.searchPageFreeSpace (some held) (size + ItemId.size)
    let page ← getPage pageno
    if size + ItemId.size ≤ HeapPage.getFreeSpace page then return ⟨pageno, HeapPage.itemsCount page⟩
    else searchNewPage held size fuel

/-- Which slot the new version of `size` bytes goes to. -/
def findPlace (oldTID : TupleId) (size fuel : Nat) : HeapM TupleId := do
  let oldPage ← getPage oldTID.pageno
  if size ≤ (HeapPage.itemAt oldPage oldTID.itemid).length then return oldTID
  else if size + ItemId.size ≤ HeapPage.getFreeSpace oldPage then
    return ⟨oldTID.pageno, HeapPage.itemsCount oldPage⟩
  else t.searchNewPage oldTID.pageno size fuel

/-- Both versions in the logs; the bytes for the page and the LSN. -/
def logUpdate (old : HeapTuple V) (values : V) (newTID : TupleId) : HeapM (Int × List UInt8 × Nat) := do
  let image ← Fallible.ofExcept (t.serialize old.header old.values)
  let usn ← insertUndoRecord (.Update t.tableId old.tid newTID image)
  let bytes ← Fallible.ofExcept (t.serialize { t.newHeader values with undo := usn } values)
  Fallible.ofExcept (assert t.dbg (bytes.length < 2 ^ 16 - 1))
  -- the constructor of the record takes the old location first
  let lsn ← writeLogRecord (.Update t.tableId newTID old.tid bytes)
  return (usn, bytes, lsn)

/-- The pages of an update. -/
def writeUpdate (oldTID newTID : TupleId) (usn : Int) (bytes : List UInt8) : HeapM Unit :=
  if newTID = oldTID then changePage oldTID.pageno (HeapPage.overwrite t.dbg · newTID.itemid bytes)
  else do
    changePage newTID.pageno (HeapPage.relocate t.dbg · newTID.itemid bytes)
    changePage oldTID.pageno (HeapPage.markUpdated t.dbg · oldTID.itemid t.myXid usn)

/-- The LSN and the dirty mark on the pages of an update. -/
def finishUpdate (oldTID newTID : TupleId) (lsn : Nat) : HeapM Unit := do
  changePage oldTID.pageno fun page => .ok (HeapPage.setLsn page lsn)
  if newTID.pageno ≠ oldTID.pageno then
    changePage newTID.pageno fun page => .ok (HeapPage.setLsn page lsn)
  markDirty oldTID.pageno
  if newTID.pageno ≠ oldTID.pageno then markDirty newTID.pageno

/-- `UpdateTuple` up to the choice of the new slot. -/
def prepareUpdate (wait : Nat → HeapM Unit) (old : HeapTuple V) (values : V) (fuel : Nat) :
    HeapM TupleId := do
  let newTup ← Fallible.ofExcept (t.serialize (t.newHeader values) values)
  let addr ← t.locate old.tid
  checkUnchanged wait old addr
  t.findPlace old.tid newTup.length fuel

/-- `UpdateTuple` from the choice of the new slot on. -/
def performUpdate (old : HeapTuple V) (values : V) (newTID : TupleId) : HeapM Unit := do
  let (usn, bytes, lsn) ← t.logUpdate old values newTID
  t.writeUpdate old.tid newTID usn bytes
  finishUpdate old.tid newTID lsn

def updateTuple (wait : Nat → HeapM Unit) (old : HeapTuple V) (values : V) (fuel : Nat) : HeapM Unit := do
  let newTID ← t.prepareUpdate wait old values fuel
  t.performUpdate old values newTID

/-- `DeleteTuple`; the page is not marked dirty. -/
def deleteTuple (wait : Nat → HeapM Unit) (tuple : HeapTuple V) : HeapM Unit := do
  let tid := tuple.tid
  let addr ← t.locate tid
  checkUnchanged wait tuple addr
  let page ← getPage tid.pageno
  let length := (HeapPage.itemAt page tid.itemid).length
  Fallible.ofExcept (HeapPage.access addr length)
  let usn ← insertUndoRecord (.Insert t.tableId tid (page.slice addr length))
  let lsn ← writeLogRecord (.Delete t.tableId tid)
  changePage tid.pageno fun page => do
    let page ← HeapPage.memcpy page addr (HeapPageTupleHeader.toBytes ⟨t.myXid, usn, ⟨true, false⟩⟩)
    return HeapPage.setLsn page lsn

end HeapTable

end Mimidb
