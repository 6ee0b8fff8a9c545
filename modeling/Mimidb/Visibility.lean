import Mathlib.Algebra.Order.Ring.Int

/-!
# Commit sequence numbers, snapshots and visibility

A transaction's state is its commit sequence number: one of a few reserved
values while it has none, and a normal number (`Min` or more) once it has
committed. A snapshot sees the transactions that committed below its own
number, and of its own transaction the versions written before its command.
-/

namespace Mimidb

namespace TransactionId

def Invalid : Nat := 0
def Min : Nat := 1

end TransactionId

namespace CommitSeqNumber

def Invalid : Nat := 0
/-- Visible to everybody. -/
def Frozen : Nat := 1
def InProgress : Nat := 2
def Aborted : Nat := 3
/-- The transaction is about to get its number. -/
def Committing : Nat := 4
def Min : Nat := 5

def isNormal (csn : Nat) : Bool := Min ≤ csn

end CommitSeqNumber

namespace UndoSeqNumber

def Invalid : Int := 0
def Max : Int := 2 ^ 62 - 1

def isValid (usn : Int) : Bool := usn != Invalid && usn ≤ Max

end UndoSeqNumber

namespace LogSeqNumber

def Invalid : Nat := 0

def isValid (lsn : Nat) : Bool := lsn != Invalid

end LogSeqNumber

structure Snapshot where
  csn : Nat
  /-- Own versions with this undo position or a later one are not visible. -/
  cid : Int
  deriving DecidableEq, Repr

structure HeapTupleFlags where
  Deleted : Bool
  HasNulls : Bool
  deriving DecidableEq, Repr

structure HeapPageTupleHeader where
  xid : Nat
  undo : Int
  flags : HeapTupleFlags
  deriving DecidableEq, Repr

/-- The part of `tuple_is_visible` after `GetTransactionCsn`. -/
def csnIsVisible (snapshot : Snapshot) (csn : Nat) : Bool :=
  if csn = CommitSeqNumber.InProgress ∨ csn = CommitSeqNumber.Aborted then false
  else csn = CommitSeqNumber.Frozen ∨ csn < snapshot.csn

/-- The part of `tuple_is_visible` about versions of the own transaction. -/
def ownIsVisible (snapshot : Snapshot) (header : HeapPageTupleHeader) : Bool :=
  !decide (snapshot.cid ≤ header.undo)

/-- `tuple_is_visible` where no transaction is in the middle of its commit. -/
def tupleIsVisible (getTransactionCsn : Nat → Nat) (myXid : Nat)
    (snapshot : Snapshot) (header : HeapPageTupleHeader) : Bool :=
  if header.xid = myXid then ownIsVisible snapshot header
  else csnIsVisible snapshot (getTransactionCsn header.xid)

theorem csnIsVisible_normal {csn : Nat} (h : CommitSeqNumber.Min ≤ csn)
    (snapshot : Snapshot) : csnIsVisible snapshot csn = decide (csn < snapshot.csn) := by
  simp only [CommitSeqNumber.Min] at h
  have h1 : csn ≠ CommitSeqNumber.InProgress := by simp only [CommitSeqNumber.InProgress]; omega
  have h2 : csn ≠ CommitSeqNumber.Aborted := by simp only [CommitSeqNumber.Aborted]; omega
  have h3 : csn ≠ CommitSeqNumber.Frozen := by simp only [CommitSeqNumber.Frozen]; omega
  simp [csnIsVisible, h1, h2, h3]

@[simp] theorem csnIsVisible_inProgress (snapshot : Snapshot) :
    csnIsVisible snapshot CommitSeqNumber.InProgress = false := by simp [csnIsVisible]

@[simp] theorem csnIsVisible_aborted (snapshot : Snapshot) :
    csnIsVisible snapshot CommitSeqNumber.Aborted = false := by simp [csnIsVisible]

end Mimidb
