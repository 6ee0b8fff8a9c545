import Mimidb.HeapTable

/-!
# Undo

`UndoApplierVisitor` and the undo of a whole transaction. The comparison of
the saved image with the tuple on the page compares two addresses, which are
never equal, so its branch is not taken.
-/

namespace Mimidb

open HeapStore

namespace HeapPage

/-- An item and the address and the header of its tuple. -/
def tupleAt (dbg : Bool) (page : Memory) (index : Nat) : Except Fault (ItemId × Nat × HeapPageTupleHeader) := do
  let itemId ← getItemId dbg page index
  let addr ← getTuple dbg itemId
  let header ← readHeader page addr
  return (itemId, addr, header)

end HeapPage

namespace UndoApplierVisitor

variable (dbg : Bool) (usn : Int)

/-- `Visit(DeleteUndoRecord)`. -/
def visitDelete (tupId : TupleId) : HeapM Unit := do
  let page ← getPage tupId.pageno
  let itemId ← Fallible.ofExcept (HeapPage.getItemId dbg page tupId.itemid)
  if !itemId.isNormal then return
  let addr ← Fallible.ofExcept (HeapPage.getTuple dbg itemId)
  let header ← Fallible.ofExcept (HeapPage.readHeader page addr)
  if header.undo ≠ usn then return
  setPage tupId.pageno (HeapPage.setItem page tupId.itemid itemId.setDead)
  markDirty tupId.pageno

/-- The tuple of a slot that is written back, which has to be the one of this record. -/
def readOwn (pageno index : Nat) (what : String) : HeapM (ItemId × Nat) := do
  let page ← getPage pageno
  let (itemId, addr, header) ← Fallible.ofExcept (HeapPage.tupleAt dbg page index)
  if header.undo ≠ usn then throw (.runtimeError what)
  return (itemId, addr)

/-- `Visit(UpdateUndoRecord)`. -/
def visitUpdate (oldLocation newLocation : TupleId) (tupleData : List UInt8) : HeapM Unit :=
  if newLocation = oldLocation then do
    let (_, addr) ← readOwn dbg usn oldLocation.pageno oldLocation.itemid
      "can not undo update: tuple was concurrently modified"
    changePage oldLocation.pageno (HeapPage.memcpy · addr tupleData)
  else do
    let (_, addr) ← readOwn dbg usn oldLocation.pageno oldLocation.itemid
      "can not undo update: old tuple was concurrently modified"
    let (newItemId, _) ← readOwn dbg usn newLocation.pageno newLocation.itemid
      "can not undo update: new tuple was concurrently modified"
    changePage oldLocation.pageno (HeapPage.memcpy · addr tupleData)
    changePage newLocation.pageno fun page => .ok (HeapPage.setItem page newLocation.itemid newItemId.setDead)

/-- `Visit(InsertUndoRecord)`. -/
def visitInsert (location : TupleId) (tupleData : List UInt8) : HeapM Unit := do
  let page ← getPage location.pageno
  let (itemId, addr, header) ← Fallible.ofExcept (HeapPage.tupleAt dbg page location.itemid)
  if header.undo ≠ usn then return
  Fallible.ofExcept (assert dbg (tupleData.length ≤ itemId.length))
  changePage location.pageno (HeapPage.memcpy · addr tupleData)

def visit : HeapUndoRecord → HeapM Unit
  | .Delete _ tupId => visitDelete dbg usn tupId
  | .Update _ oldLocation newLocation tupleData => visitUpdate dbg usn oldLocation newLocation tupleData
  | .Insert _ location tupleData => visitInsert dbg usn location tupleData

end UndoApplierVisitor

/-- `UndoLog::PerformUndo`. -/
def performUndo (dbg : Bool) (usn : Int) : HeapM Unit := do
  match (← get).undo usn with
  | some record => UndoApplierVisitor.visit dbg usn record
  | none => throw (.runtimeError "could not read UndoLogRecordHeader")

namespace VirtualUndoLog

/-- The history is given with its last record first. -/
def undoAllRecords (dbg : Bool) (history : List Int) : HeapM Unit := history.forM (performUndo dbg)

end VirtualUndoLog

end Mimidb
