import Mimidb.HeapCalls
import Mimidb.Run

/-!
# Runs of a table

Any number of transactions scan and change one table, commit and abort, among
the undo records of other tables and evictions of pages. A step is what a call
does under the latch of its page: an update or a delete that waited for the
end of another transaction goes on with the tuple that it was given, so its
step comes in the state after the wait.
-/

namespace Mimidb

open HeapStore

inductive Phase where
  | running
  | aborting
  | ended
  deriving DecidableEq

structure HeapRun where
  store : HeapStore
  /-- The pages of the relation file. -/
  disk : Nat → Memory
  /-- The tuples that scans have returned. -/
  scanned : List (HeapTuple Values)
  phase : Nat → Phase
  -- the history of a transaction, its last record first, is `undone xid ++ pending xid`
  pending : Nat → List Int
  undone : Nat → List Int

inductive HeapOp where
  | scan (reader : Nat) (history : Nat → Nat) (snapshot : Snapshot) (tid : TupleId)
  | insert (xid : Nat) (values : Values) (pageno : Nat)
  | update (xid : Nat) (old : HeapTuple Values) (values : Values) (newTID : TupleId)
  | delete (xid : Nat) (tuple : HeapTuple Values)
  /-- `UndoAllRecords` comes to its next record. -/
  | undo (xid : Nat)
  | commit (xid : Nat)
  | abort (xid : Nat)
  /-- A new page, for whatever call. -/
  | extend
  /-- Undo records of other tables. -/
  | others (bytes : Nat)
  /-- `tryVacateEntry`, and the next read of the page. -/
  | evict (pageno : Nat)

namespace HeapRun

variable (dbg : Bool) (tableId : Nat) (desc : TupleDescriptor)

/-- The writers of the tuples have ended, and others may run. -/
def start (store : HeapStore) (phase : Nat → Phase) : HeapRun :=
  ⟨store, store.page, [], phase, fun _ => [], fun _ => []⟩

/-- The record of a change is the next one of the undo log. -/
def pushed (s : HeapRun) (u : HeapStore) (xid : Nat) : HeapRun :=
  { s with store := u, pending := Function.update s.pending xid ((s.store.undoSize + 1 : Int) :: s.pending xid) }

/-- A change by a running transaction. -/
def change (s : HeapRun) (xid : Nat) (m : HeapM Unit) : Option HeapRun :=
  if s.phase xid = .running then
    match m s.store with
    | (.ok (), u) => some (s.pushed u xid)
    | (.error _, _) => none
  else none

/-- The record of `usn` was undone, and `pending` ones are left. -/
def popped (s : HeapRun) (u : HeapStore) (xid : Nat) (usn : Int) (pending : List Int) : HeapRun :=
  { s with
    store := u
    phase := Function.update s.phase xid .aborting
    pending := Function.update s.pending xid pending
    undone := Function.update s.undone xid (s.undone xid ++ [usn]) }

def undoNext (s : HeapRun) (xid : Nat) : Option HeapRun :=
  match s.pending xid with
  | [] => none
  | usn :: pending =>
    match performUndo dbg usn s.store with
    | (.ok (), u) => some (s.popped u xid usn pending)
    | (.error _, _) => none

def scan (s : HeapRun) (reader : Nat) (history : Nat → Nat) (snapshot : Snapshot) (tid : TupleId) :
    Option HeapRun :=
  if tid.itemid < HeapPage.itemsCount (s.store.page tid.pageno) then
    match (s.store.view dbg desc history reader).itemTuple snapshot tid.pageno tid.itemid with
    | .ok (some tuple) => some { s with scanned := tuple :: s.scanned }
    | _ => none
  else none

/-- A page of zeros in the file, which is initialised in memory. -/
def grow (s : HeapRun) : HeapRun :=
  { s with
    store := s.store.grown
    disk := Function.update s.disk (EvictRun.writePageno s.store.pagesCount) fun _ => 0 }

def step (s : HeapRun) : HeapOp → Option HeapRun
  | .scan reader history snapshot tid => s.scan dbg desc reader history snapshot tid
  | .insert xid values pageno =>
    let t := heapTable dbg tableId xid desc
    if t.mayInsert s.store values pageno = true then s.change xid (t.insertOn values pageno) else none
  | .update xid old values newTID =>
    let t := heapTable dbg tableId xid desc
    if old ∈ s.scanned ∧ t.mayUpdate s.store old values newTID =
      true then s.change xid (t.performUpdate old values newTID)
    else none
  | .delete xid tuple =>
    if tuple ∈ s.scanned then s.change xid ((heapTable dbg tableId xid desc).deleteAt tuple.tid) else none
  | .undo xid => if s.phase xid = .ended then none else s.undoNext dbg xid
  | .commit xid =>
    if s.phase xid = .running then some { s with phase := Function.update s.phase xid .ended } else none
  | .abort xid => if s.pending xid = [] then some { s with phase := Function.update s.phase xid .ended } else none
  | .extend => some s.grow
  | .others bytes => some { s with store := { s.store with undoSize := s.store.undoSize + bytes } }
  | .evict pageno =>
    some { s with store := (s.store.evicted s.disk pageno).1, disk := (s.store.evicted s.disk pageno).2 }

/-! ## Conditions -/

/-- Transaction ids have 64 bits, and the undo log has not outgrown its numbers. -/
def Setting (s : HeapRun) : HeapOp → Prop
  | .insert xid _ _ | .update xid _ _ _ | .delete xid _ =>
    xid < 2 ^ 64 ∧ (s.store.undoSize : Int) + 1 ≤ UndoSeqNumber.Max
  | _ => True

instance (s : HeapRun) (op : HeapOp) : Decidable (Setting s op) := by
  unfold Setting
  cases op <;> infer_instance

/-- A step writes to the slots that it is for, and a new slot is made in a vacant place. -/
def InSlots (s : HeapRun) : HeapOp → Prop
  | .insert xid values pageno =>
    let page := s.store.page pageno
    ∀ bytes, (heapTable dbg tableId xid desc).serialize ((heapTable dbg tableId xid desc).newHeader values) values =
    .ok bytes →
      HeapPage.Vacant page (HeapPage.upper page - BitUtils.maxAlign bytes.length) bytes.length
  | .update xid old values newTID =>
    let t := heapTable dbg tableId xid desc
    let page := s.store.page newTID.pageno
    s.store.Placed old.tid ∧
      (∀ image, t.serialize old.header old.values = .ok image → image.length ≤ (s.store.item old.tid).length) ∧
      (newTID ≠ old.tid → ∀ bytes, t.serialize (t.newHeader values) values = .ok bytes →
        HeapPage.Vacant page (HeapPage.upper page - bytes.length) bytes.length)
  | .delete _ tuple => s.store.Placed tuple.tid
  | .undo xid => ∀ usn ∈ (s.pending xid).head?, ∀ record, s.store.undo usn = some record → record.Found s.store
  | _ => True

/-! ## Calls -/

section
variable {dbg tableId desc} {s : HeapRun} {u : HeapStore} {xid fuel : Nat} {values : Values}
  {old tuple : HeapTuple Values}

/-- A change of `xid` after the relation has grown, perhaps. -/
def Runs (dbg : Bool) (tableId : Nat) (desc : TupleDescriptor) (s : HeapRun) (xid : Nat) (u : HeapStore) : Prop :=
  ∃ disk, Reach (step dbg tableId desc) anyStep s { s.pushed u xid with disk := disk }

theorem change_eq {m : HeapM Unit} (hrun : s.phase xid = .running) (hm : m s.store = (.ok (), u)) :
    s.change xid m = some (s.pushed u xid) := by
  unfold change
  rw [if_pos hrun, hm]

theorem grew_reach (h : s.store.Grew u) :
    ∃ disk, Reach (step dbg tableId desc) anyStep s { s with store := u, disk := disk } := by
  induction h with
  | refl => exact ⟨s.disk, .refl⟩
  | grown h ih =>
    obtain ⟨disk, ih⟩ := ih
    exact ⟨_, .tail .extend ih trivial rfl⟩

theorem Runs.of_step {m : HeapM Unit} {v : HeapStore} (op : HeapOp) (hgrew : s.store.Grew u)
    (hrun : s.phase xid = .running) (hm : m u = (.ok (), v))
    (hstep : ∀ disk, step dbg tableId desc { s with store := u, disk := disk } op =
      change { s with store := u, disk := disk } xid m) :
    Runs dbg tableId desc s xid v := by
  obtain ⟨disk, hr⟩ := @grew_reach dbg tableId desc s u hgrew
  refine ⟨disk, .tail op hr trivial ?_⟩
  rw [hstep disk, change_eq (s := { s with store := u, disk := disk }) hrun hm]
  unfold pushed
  simp only [hgrew.undoSize]

theorem insertTuple_runs (hrun : s.phase xid = .running)
    (h : (heapTable dbg tableId xid desc).insertTuple values fuel s.store = (.ok (), u)) :
    Runs dbg tableId desc s xid u := by
  obtain ⟨s1, p, bytes, hgrew, hser, hfit, h⟩ := HeapTable.insertTuple_inv h
  have hmay : (heapTable dbg tableId xid desc).mayInsert s1 values p = true := by
    unfold HeapTable.mayInsert
    rw [hser]
    exact decide_eq_true hfit
  have hon : (heapTable dbg tableId xid desc).insertOn values p s1 = (.ok (), u) := by
    unfold HeapTable.insertOn
    simp only [Fallible.bind_apply, Fallible.ofExcept, hser]
    exact h
  refine .of_step (.insert xid values p) hgrew hrun hon fun disk => ?_
  unfold HeapRun.step
  simp only [hmay, if_true]

theorem deleteTuple_runs (hrun : s.phase xid = .running) (hscanned : tuple ∈ s.scanned)
    (h : (heapTable dbg tableId xid desc).deleteTuple (fun _ => pure ()) tuple s.store = (.ok (), u)) :
    Runs dbg tableId desc s xid u := by
  refine .of_step (.delete xid tuple) .refl hrun (HeapTable.deleteTuple_inv h) fun disk => ?_
  unfold HeapRun.step
  simp only [hscanned, if_true]

/-- `UpdateTuple` after its wait is an update after the growth of the relation. -/
theorem updateTuple_runs (hrun : s.phase xid = .running) (hscanned : old ∈ s.scanned)
    (h : (heapTable dbg tableId xid desc).updateTuple (fun _ => pure ()) old values fuel s.store = (.ok (), u)) :
    Runs dbg tableId desc s xid u := by
  obtain ⟨s1, newTID, hgrew, hmay, h⟩ := HeapTable.updateTuple_inv h
  refine .of_step (.update xid old values newTID) hgrew hrun h fun disk => ?_
  unfold HeapRun.step
  simp only [hscanned, hmay, and_self, if_true]

end

end HeapRun

end Mimidb
