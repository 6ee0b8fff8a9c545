import Mimidb.HeapLayout
import Mimidb.HeapWrites
import Mimidb.WalBytes

/-!
# What the log says about a change

The records of the heap calls beside what the calls do: an insert does not
name its table, and an update to a new slot has its two locations in each
other's field.
-/

namespace Mimidb

/-- A change of a table; an insert has no old location, a delete no new one and no tuple. -/
structure LoggedChange where
  table : Option Nat
  old : Option TupleId
  new : Option TupleId
  tuple : Option (List UInt8)
  deriving DecidableEq, Repr

/-- The change that a record names. -/
def HeapWALRecord.change : HeapWALRecord → LoggedChange
  | .Insert tupId tupleData => ⟨none, none, some tupId, some tupleData⟩
  | .Update tableId oldTupleId newTupleId tupleData =>
    ⟨some tableId, some oldTupleId, some newTupleId, some tupleData⟩
  | .Delete tableId location => ⟨some tableId, some location, none, none⟩

namespace HeapTable

open HeapStore

variable {V : Type} (t : HeapTable V) (s u : HeapStore) (record : HeapWALRecord) (change : LoggedChange)

/-- The insert that a call makes on the page its search led to: the record it
writes and the tuple it puts last there. -/
def Inserts (values : V) : Prop := ∃ bytes pageno lsn s0, t.serialize (t.newHeader values) values = .ok bytes ∧
  SameLogs s s0 ∧ t.performInsert pageno bytes s0 = (.ok (), u) ∧ u.wal = (lsn, record) :: s0.wal ∧
  change = ⟨some t.tableId, none, some ⟨pageno, HeapPage.itemsCount (s0.page pageno)⟩, some bytes⟩

/-- The update that a call makes: the slot that it chooses, the record it
writes, and what it then puts on the pages. -/
def Updates (wait : Nat → HeapM Unit) (old : HeapTuple V) (values : V) (fuel : Nat) : Prop :=
  ∃ newTID usn bytes lsn s0 s1 s2, t.prepareUpdate wait old values fuel s = (.ok newTID, s0) ∧
    t.logUpdate old values newTID s0 = (.ok (usn, bytes, lsn), s1) ∧
    t.writeUpdate old.tid newTID usn bytes s1 = (.ok (), s2) ∧ finishUpdate old.tid newTID lsn s2 = (.ok (), u) ∧
    u.wal = (lsn, record) :: s0.wal ∧ change = ⟨some t.tableId, some old.tid, some newTID, some bytes⟩

/-- The delete that a call makes: the tuple whose header it overwrites. -/
def Deletes (wait : Nat → HeapM Unit) (old : HeapTuple V) : Prop := ∃ addr lsn s0,
  t.prepareDelete wait old s = (.ok addr, s0) ∧ t.performDelete old.tid addr s0 = (.ok (), u) ∧
  u.wal = (lsn, record) :: s0.wal ∧ change = ⟨some t.tableId, some old.tid, none, none⟩

variable {t s u} {values : V} {fuel : Nat} {wait : Nat → HeapM Unit} {old : HeapTuple V}

theorem insertTuple_inserts (h : t.insertTuple values fuel s = (.ok (), u)) :
    ∃ record change, t.Inserts s u record change values ∧ record.change ≠ change := by
  obtain ⟨bytes, pageno, s0, hser, hlogs, -, h⟩ := insertTuple_ok h
  obtain ⟨lsn, s1, hw, hu, -, -⟩ := performInsert_wal h
  refine ⟨_, _, ⟨bytes, pageno, lsn, s0, hser, hlogs, h, hu.trans hw, rfl⟩, ?_⟩
  intro he
  cases congrArg LoggedChange.table he

theorem updateTuple_updates (h : t.updateTuple wait old values fuel s = (.ok (), u)) :
    ∃ record change, t.Updates s u record change wait old values fuel ∧
      (record.change = change ↔ change.new = change.old) := by
  obtain ⟨newTID, s0, hprepare, h⟩ := Fallible.bind_eq_ok.1 h
  obtain ⟨⟨usn, bytes, lsn⟩, s1, hlog, h⟩ := Fallible.bind_eq_ok.1 h
  obtain ⟨_, s2, hwrite, hfinish⟩ := Fallible.bind_eq_ok.1 h
  have hwal : u.wal = (lsn, .Update t.tableId newTID old.tid bytes) :: s0.wal := by
    rw [finishUpdate_wal hfinish, writeUpdate_wal hwrite, logUpdate_wal hlog]
  refine ⟨_, _, ⟨newTID, usn, bytes, lsn, s0, s1, s2, hprepare, hlog, hwrite, hfinish, hwal, rfl⟩, ?_⟩
  simp only [HeapWALRecord.change, LoggedChange.mk.injEq, Option.some.injEq, true_and, and_true]
  exact ⟨fun he => he.1, fun he => ⟨he, he.symm⟩⟩

theorem deleteTuple_deletes (h : t.deleteTuple wait old s = (.ok (), u)) :
    ∃ record change, t.Deletes s u record change wait old ∧ record.change = change := by
  rw [deleteTuple_eq] at h
  obtain ⟨addr, s0, hprepare, h⟩ := Fallible.bind_eq_ok.1 h
  obtain ⟨lsn, hw⟩ := performDelete_wal h
  exact ⟨_, _, ⟨addr, lsn, s0, hprepare, h, hw, rfl⟩, rfl⟩

variable (t)

/-- A log is read back from its bytes exactly if none of its records can be mistaken; the record of a delete names
the change, that of an update exactly if the tuple stays in its slot, and that of an insert never. -/
theorem wal_describes :
    (∀ log, WriteAheadLog.Fits log → (WriteAheadLog.Determined log ↔ ∀ e ∈ log, e.2.Unmistakable)) ∧
    (∀ values fuel s u, t.insertTuple values fuel s = (.ok (), u) →
      ∃ record change, t.Inserts s u record change values ∧ record.change ≠ change) ∧
    (∀ wait old values fuel s u, t.updateTuple wait old values fuel s = (.ok (), u) →
      ∃ record change, t.Updates s u record change wait old values fuel ∧
        (record.change = change ↔ change.new = change.old)) ∧
    ∀ wait old s u, t.deleteTuple wait old s = (.ok (), u) →
      ∃ record change, t.Deletes s u record change wait old ∧ record.change = change :=
  ⟨fun _ hf => WriteAheadLog.determined_iff hf, fun _ _ _ _ h => insertTuple_inserts h,
    fun _ _ _ _ _ _ h => updateTuple_updates h, fun _ _ _ _ h => deleteTuple_deletes h⟩

/-- A delete on a page with a large number. -/
theorem wal_describes_delete : WriteAheadLog.Determined [(1, .Delete 5 ⟨2 ^ 16, 1⟩)] := by
  refine ((wal_describes (byteTable true)).1 _ (by decide)).2 fun e he => ?_
  rw [List.mem_singleton.1 he]
  exact Nat.le_refl _

def otherTable : HeapTable (List UInt8) := { byteTable true with tableId := 2 }

/-- A delete and an insert with the same bytes; an insert that writes the same record for every table; an update to
a new slot whose record has the locations swapped. -/
theorem wal_ambiguous :
    ((∃ log log', WriteAheadLog.Fits log ∧ WriteAheadLog.Fits log' ∧ log ≠ log' ∧
      WriteAheadLog.fileBytes log = WriteAheadLog.fileBytes log') ∧
    ((byteTable true).insertTuple [7] 1 oneRow).1 = .ok () ∧ (otherTable.insertTuple [7] 1 oneRow).1 = .ok () ∧
      ((byteTable true).insertTuple [7] 1 oneRow).2.wal = (otherTable.insertTuple [7] 1 oneRow).2.wal) ∧
    ∃ u, (byteTable false).updateTuple (fun _ => pure ()) firstRow [1, 2] 1 oneRow = (.ok (), u) ∧
      u.wal.map (fun e => e.2.change.old) = [some ⟨0, 1⟩] ∧ firstRow.tid = ⟨0, 0⟩ := by
  refine ⟨⟨⟨[(1, .Delete 5 ⟨0, 1⟩)],
    [(1, .Insert ⟨5, 0⟩ [1, 0, 0, 0])], by decide, by decide, by decide, by decide⟩, ?_⟩, ?_⟩
  · exact ⟨by decide +kernel, by decide +kernel, by decide +kernel⟩
  · exact ⟨_, Prod.ext rfl rfl, by decide +kernel, rfl⟩

end HeapTable

end Mimidb
