import Mimidb.HeapLayout
import Mimidb.HeapWrites
import Mimidb.Run

/-!
# The write-ahead log at commit

One transaction from its begin to the publication of its CSN. The heap calls
write their records to the log themselves, so `_lastLsn`, which only
`Transaction::WriteWAL` sets, is never valid and `CommitTransaction` flushes
nothing (`durable_iff`).
-/

namespace Mimidb

/-- What `WriteAheadLog::Flush` leaves in `_flushed`; it throws when the file cannot be synced. -/
def WriteAheadLog.flush (flushed walEnd lsn : Nat) (fsync : Bool) : Option Nat :=
  if flushed ≤ lsn - 1 then some flushed else if fsync then some walEnd else none

structure CommitRun where
  store : HeapStore
  /-- `WriteAheadLog::_flushed`. -/
  flushed : Nat
  /-- `Transaction::_lastLsn`. -/
  lastLsn : Nat
  /-- The LSNs of the records that the transaction wrote. -/
  written : List Nat
  /-- What `Flush` was called with. -/
  flushes : List Nat
  /-- Heap calls that returned. -/
  returned : Nat
  /-- `CommitTransaction` is at the publication of the CSN. -/
  publishes : Bool

inductive CommitOp (V : Type) where
  | insert (t : HeapTable V) (values : V) (fuel : Nat)
  | update (t : HeapTable V) (wait : Nat → HeapM Unit) (old : HeapTuple V) (values : V) (fuel : Nat)
  | delete (t : HeapTable V) (wait : Nat → HeapM Unit) (tuple : HeapTuple V)
  /-- Whatever other transactions do. -/
  | others (store : HeapStore)
  /-- The file operations of a flush may fail. -/
  | commit (fsync : Bool)

namespace CommitRun

variable {V : Type}

def begin (store : HeapStore) (flushed : Nat) : CommitRun :=
  ⟨store, flushed, LogSeqNumber.Invalid, [], [], 0, false⟩

/-- The records that a log has more than an older one. -/
def newRecords (s s' : HeapStore) : List Nat := (s'.wal.take (s'.wal.length - s.wal.length)).map Prod.fst

/-- A change by the transaction. -/
def change (s : CommitRun) (m : HeapM Unit) : CommitRun :=
  let s' := { s with store := m.exec s.store, written := newRecords s.store (m.exec s.store) ++ s.written }
  match (m s.store).1 with
  | .ok () => { s' with returned := s.returned + 1 }
  | .error _ => s'

/-- A call that prepares its change, waiting for others, and makes it. -/
def call {α : Type} (s : CommitRun) (prepare : HeapM α) (perform : α → HeapM Unit) : CommitRun :=
  match prepare s.store with
  | (.ok a, store) => { s with store := store }.change (perform a)
  | (.error _, store) => { s with store := store }

def flush (s : CommitRun) (lsn : Nat) (fsync : Bool) : Option CommitRun :=
  (WriteAheadLog.flush s.flushed s.store.walEnd lsn fsync).map fun flushed =>
    { s with flushes := lsn :: s.flushes, flushed := flushed }

/-- `CommitTransaction` up to the publication. -/
def commit (s : CommitRun) (fsync : Bool) : Option CommitRun :=
  if LogSeqNumber.isValid s.lastLsn then (s.flush s.lastLsn fsync).map fun s => { s with publishes := true }
  else some { s with publishes := true }

def step (s : CommitRun) (op : CommitOp V) : Option CommitRun :=
  if s.publishes then none
  else match op with
    | .insert t values fuel => some (s.change (t.insertTuple values fuel))
    | .update t wait old values fuel =>
      some (s.call (t.prepareUpdate wait old values fuel) (t.performUpdate old values))
    | .delete t wait tuple => some (s.call (t.prepareDelete wait tuple) (t.performDelete tuple.tid))
    | .others store => some { s with store := store }
    | .commit fsync => s.commit fsync

/-- The last LSN covers every record, and a flush was called with as much. -/
structure Durable (s : CommitRun) : Prop where
  flushed : ∀ lsn ∈ s.written, ∃ upto ∈ s.flushes, lsn ≤ upto
  covered : s.written ≠ [] → LogSeqNumber.isValid s.lastLsn = true ∧ ∀ lsn ∈ s.written, lsn ≤ s.lastLsn

/-! ## Steps -/

/-- No LSN was noted, and every call that returned wrote its record. -/
structure Unnoted (s : CommitRun) : Prop where
  lastLsn : s.lastLsn = LogSeqNumber.Invalid
  flushes : s.flushes = []
  returned : s.returned ≤ s.written.length

theorem newRecords_cons {s s' : HeapStore} {lsn : Nat} {record : HeapWALRecord}
    (h : s'.wal = (lsn, record) :: s.wal) : newRecords s s' = [lsn] := by
  have hlen : s'.wal.length - s.wal.length = 1 := by rw [h, List.length_cons]; omega
  unfold newRecords
  rw [hlen, h]
  rfl

/-- A change that writes a record whenever it returns. -/
def Logs (m : HeapM Unit) : Prop := ∀ s u, m s = (.ok (), u) → newRecords s u ≠ []

theorem Logs.of_wal {m : HeapM Unit} (h : ∀ s u, m s = (.ok (), u) → ∃ lsn record, u.wal = (lsn, record) :: s.wal) :
    Logs m := by
  intro s u hm
  obtain ⟨lsn, record, hw⟩ := h s u hm
  rw [newRecords_cons hw]
  exact List.cons_ne_nil _ _

theorem insertTuple_logs (t : HeapTable V) (values : V) (fuel : Nat) : Logs (t.insertTuple values fuel) := by
  apply Logs.of_wal
  intro s u h
  obtain ⟨heapTuple, pageno, s1, -, hlogs, -, h⟩ := HeapTable.insertTuple_ok h
  rw [← hlogs.wal]
  obtain ⟨lsn, s2, hw, hu, -⟩ := HeapTable.performInsert_wal h
  exact ⟨lsn, _, hu.trans hw⟩

theorem Unnoted.change {s : CommitRun} {m : HeapM Unit} (h : Unnoted s) (hm : Logs m) : Unnoted (s.change m) := by
  have hr := h.returned
  unfold CommitRun.change
  simp only
  split
  · rename_i hok
    have hm := hm s.store (m.exec s.store) (Prod.ext hok rfl)
    refine ⟨h.lastLsn, h.flushes, ?_⟩
    have := List.length_pos_of_ne_nil hm
    show s.returned + 1 ≤ _
    rw [List.length_append]
    omega
  · refine ⟨h.lastLsn, h.flushes, ?_⟩
    rw [List.length_append]
    exact Nat.le_add_left_of_le hr

theorem Unnoted.call {α : Type} {s : CommitRun} {prepare : HeapM α} {perform : α → HeapM Unit} (h : Unnoted s)
    (hm : ∀ a, Logs (perform a)) : Unnoted (s.call prepare perform) := by
  unfold CommitRun.call
  split
  · exact Unnoted.change ⟨h.lastLsn, h.flushes, h.returned⟩ (hm _)
  · exact ⟨h.lastLsn, h.flushes, h.returned⟩

theorem Unnoted.step {s t : CommitRun} {op : CommitOp V} (h : Unnoted s) (hs : step s op = some t) : Unnoted t := by
  unfold CommitRun.step at hs
  split_ifs at hs
  cases op with
  | insert table values fuel =>
    cases hs
    exact h.change (insertTuple_logs table values fuel)
  | update table wait old values fuel =>
    cases hs
    refine h.call fun newTID => Logs.of_wal fun _ _ h => ?_
    obtain ⟨lsn, usn, bytes, s1, s2, hw, hu, -⟩ := HeapTable.performUpdate_wal h
    exact ⟨lsn, _, hu.trans hw⟩
  | delete table wait tuple =>
    cases hs
    refine h.call fun addr => Logs.of_wal fun _ _ h => ?_
    obtain ⟨lsn, hw⟩ := HeapTable.performDelete_wal h
    exact ⟨lsn, _, hw⟩
  | others store =>
    cases hs
    exact ⟨h.lastLsn, h.flushes, h.returned⟩
  | commit fsync =>
    have hv : LogSeqNumber.isValid s.lastLsn = false := by rw [h.lastLsn]; rfl
    simp only [CommitRun.commit, hv, Bool.false_eq_true, if_false, Option.some.injEq] at hs
    subst hs
    exact ⟨h.lastLsn, h.flushes, h.returned⟩

/-! ## Runs -/

theorem Unnoted.durable_iff_nil {s : CommitRun} (h : Unnoted s) : Durable s ↔ s.written = [] := by
  refine ⟨fun hd => ?_, fun hw => ⟨fun lsn hm => ?_, fun hne => absurd hw hne⟩⟩
  · by_contra hne
    have := (hd.covered hne).1
    rw [h.lastLsn] at this
    cases this
  · rw [hw] at hm
    cases hm

/-- A transaction is durable at the publication of its CSN only if it changed nothing. -/
theorem durable_iff {store : HeapStore} {flushed : Nat} {s : CommitRun}
    (h : Reach (step (V := V)) anyStep (begin store flushed) s) :
    (Durable s ↔ s.written = []) ∧ (s.returned ≠ 0 → ¬ Durable s) := by
  have hs : Unnoted s := h.inv (fun s op t hs _ ht => hs.step ht) ⟨rfl, rfl, Nat.le_refl _⟩
  refine ⟨hs.durable_iff_nil, fun hr hd => hr ?_⟩
  have hw := hs.durable_iff_nil.1 hd
  have := hs.returned
  rw [hw] at this
  exact Nat.le_zero.1 this

theorem durable_iff_empty : ∃ s, Reach (step (V := List UInt8)) anyStep (begin oneRow 0) s ∧ s.publishes = true ∧
    Durable s := by
  have h : (exec (step (V := List UInt8)) (begin oneRow 0) [.commit true]).map (fun s =>
      s.publishes && s.written == []) = some true := by decide
  obtain ⟨s, hr, hp⟩ := reach_of_test h
  simp only [Bool.and_eq_true, beq_iff_eq] at hp
  exact ⟨s, hr, hp.1, (durable_iff hr).1.2 hp.2⟩

/-- One insert and the commit: the record's LSN is 58, and nothing is flushed. -/
theorem insert_unflushed :
    ∃ s, Reach (step (V := List UInt8)) anyStep (begin oneRow 0) s ∧ s.publishes = true ∧ s.returned = 1 ∧
    s.written = [58] ∧ s.flushes = [] ∧ ¬ Durable s := by
  have h : (exec step (begin oneRow 0) [.insert (byteTable true) [7] 1, .commit true]).map (fun s =>
      s.publishes && s.returned == 1 && s.written == [58] && s.flushes == []) = some true := by decide +kernel
  obtain ⟨s, hr, hp⟩ := reach_of_test h
  simp only [Bool.and_eq_true, beq_iff_eq] at hp
  obtain ⟨⟨⟨h1, h2⟩, h3⟩, h4⟩ := hp
  refine ⟨s, hr, h1, h2, h3, h4, fun hd => ?_⟩
  obtain ⟨upto, hm, -⟩ := hd.flushed 58 (by rw [h3]; exact List.mem_singleton.2 rfl)
  rw [h4] at hm
  cases hm

end CommitRun

end Mimidb
