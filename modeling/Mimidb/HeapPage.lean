import Mimidb.Bytes
import Mimidb.Config
import Mimidb.Visibility

/-!
# Heap pages

A page starts with its header (the LSN and the two ends of the free space)
and the line pointers; tuples fill it from the end.
-/

namespace Mimidb

/-! ## Line pointers -/

namespace ItemState

def Unused : Nat := 0
def Normal : Nat := 1
def Dead : Nat := 2

end ItemState

/-- A 32 bit word: the state in its 2 lowest bits, offset and length in 15 bits each. -/
structure ItemId where
  flags : Nat
  offset : Nat
  length : Nat
  deriving DecidableEq, Repr

namespace ItemId

def size : Nat := 4

def ofWord (n : Nat) : ItemId := ⟨n % 4, n / 4 % 2 ^ 15, n / 2 ^ 17 % 2 ^ 15⟩

def toWord (i : ItemId) : Nat := i.flags % 4 + 4 * (i.offset % 2 ^ 15) + 2 ^ 17 * (i.length % 2 ^ 15)

def isNormal (i : ItemId) : Bool := i.flags == ItemState.Normal

def isDead (i : ItemId) : Bool := i.flags == ItemState.Dead

def hasHeader (i : ItemId) : Bool := i.isNormal || i.isDead

def setLength (dbg : Bool) (i : ItemId) (length : Nat) : Except Fault ItemId := do
  assert dbg (length % 2 ^ 15 = length)
  return { i with length := length % 2 ^ 15 }

def setOffset (dbg : Bool) (i : ItemId) (offset : Nat) : Except Fault ItemId := do
  assert dbg (offset % 2 ^ 15 = offset)
  return { i with offset := offset % 2 ^ 15 }

def setDead (_ : ItemId) : ItemId := ⟨ItemState.Dead, 0, 0⟩

def setNormal (dbg : Bool) (i : ItemId) (length offset : Nat) : Except Fault ItemId := do
  let i ← i.setLength dbg length
  let i ← i.setOffset dbg offset
  return { i with flags := ItemState.Normal }

end ItemId

/-! ## Tuple headers -/

namespace HeapPageTupleHeader

def size : Nat := 24

def ofBytes (bs : List UInt8) : HeapPageTupleHeader where
  xid := decodeLE (bs.take 8)
  undo := signed 64 (decodeLE ((bs.drop 8).take 8))
  flags :=
    let n := decodeLE ((bs.drop 16).take 8)
    ⟨n.testBit 0, n.testBit 1⟩

def flagBits (flags : HeapTupleFlags) : Nat := flags.Deleted.toNat + 2 * flags.HasNulls.toNat

def toBytes (h : HeapPageTupleHeader) : List UInt8 :=
  encodeLE 8 h.xid ++ encodeLE 8 (h.undo % 2 ^ 64).toNat ++ encodeLE 8 (flagBits h.flags)

end HeapPageTupleHeader

/-! ## Pages -/

namespace HeapPage

def SizeOfHeapPageHeader : Nat := 12

/-- `sizeof(HeapPageHeader)`, with the padding at its end. -/
def sizeofHeapPageHeader : Nat := 16

def lsn (page : Memory) : Nat := page.readLE 0 8

def lower (page : Memory) : Nat := page.readLE 8 2

def upper (page : Memory) : Nat := page.readLE 10 2

def setLsn (page : Memory) (n : Nat) : Memory := page.writeLE 0 8 n

def setLower (page : Memory) (n : Nat) : Memory := page.writeLE 8 2 n

def setUpper (page : Memory) (n : Nat) : Memory := page.writeLE 10 2 n

/-- The length of the item array is computed in 64 bits. -/
def itemsCount (page : Memory) : Nat :=
  (lower page + (2 ^ 64 - SizeOfHeapPageHeader)) % 2 ^ 64 / ItemId.size % 2 ^ 16

def itemAddr (index : Nat) : Nat := SizeOfHeapPageHeader + ItemId.size * index

def itemAt (page : Memory) (index : Nat) : ItemId := .ofWord (page.readLE (itemAddr index) 4)

def setItem (page : Memory) (index : Nat) (i : ItemId) : Memory :=
  page.writeLE (itemAddr index) 4 i.toWord

/-- An access to `n` bytes of a page. -/
def access (addr n : Nat) : Except Fault Unit :=
  if addr + n ≤ Config.PageSize then .ok () else .error .outOfBounds

def getItemId (dbg : Bool) (page : Memory) (index : Nat) : Except Fault ItemId := do
  assert dbg (index < itemsCount page)
  access (itemAddr index) ItemId.size
  return itemAt page index

/-- The address of the tuple. -/
def getTuple (dbg : Bool) (itemId : ItemId) : Except Fault Nat := do
  assert dbg itemId.isNormal
  assert dbg (itemId.offset < Config.PageSize)
  assert dbg (sizeofHeapPageHeader < itemId.offset)
  return itemId.offset

def headerAt (page : Memory) (addr : Nat) : HeapPageTupleHeader :=
  .ofBytes (page.slice addr HeapPageTupleHeader.size)

def readHeader (page : Memory) (addr : Nat) : Except Fault HeapPageTupleHeader := do
  access addr HeapPageTupleHeader.size
  return headerAt page addr

/-- The difference is an `int` that becomes a `size_t`. -/
def getFreeSpace (page : Memory) : Nat := (upper page + (2 ^ 64 - lower page)) % 2 ^ 64

def isNew (page : Memory) : Bool := lower page == 0

def init (page : Memory) : Memory :=
  setUpper (setLower (setLsn page 0) SizeOfHeapPageHeader) Config.PageSize

end HeapPage

end Mimidb
