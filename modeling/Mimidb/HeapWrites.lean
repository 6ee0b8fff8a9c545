import Mimidb.HeapTable

/-!
# The changes of the heap calls

`InsertTuple` and `DeleteTuple` up to their change and the change itself, as
`UpdateTuple` is cut already, and what the search for a page leaves alone.
-/

namespace Mimidb

namespace HeapTable

open HeapStore

variable {V : Type} (t : HeapTable V)

/-- `InsertTuple` on a page with room. -/
def performInsert (pageno : Nat) (heapTuple : List UInt8) : HeapM Unit := do
  let page ← getPage pageno
  let newTupId : TupleId := ⟨pageno, HeapPage.itemsCount page⟩
  let _usn ← insertUndoRecord (.Delete t.tableId newTupId)
  let lsn ← writeLogRecord (.Insert newTupId heapTuple)
  changePage pageno fun page => HeapPage.insertLast t.dbg page lsn heapTuple

/-- `DeleteTuple` up to the undo record; the result is the address of the tuple. -/
def prepareDelete (wait : Nat → HeapM Unit) (tuple : HeapTuple V) : HeapM Nat := do
  let addr ← t.locate tuple.tid
  checkUnchanged wait tuple addr
  return addr

/-- `DeleteTuple` from the undo record on. -/
def performDelete (tid : TupleId) (addr : Nat) : HeapM Unit := do
  let page ← getPage tid.pageno
  let length := (HeapPage.itemAt page tid.itemid).length
  Fallible.ofExcept (HeapPage.access addr length)
  let usn ← insertUndoRecord (.Insert t.tableId tid (page.slice addr length))
  let lsn ← writeLogRecord (.Delete t.tableId tid)
  changePage tid.pageno fun page => do
    let page ← HeapPage.memcpy page addr (HeapPageTupleHeader.toBytes ⟨t.myXid, usn, ⟨true, false⟩⟩)
    return HeapPage.setLsn page lsn

theorem insertTuple_succ (values : V) (fuel : Nat) : t.insertTuple values (fuel + 1) = (do
    let heapTuple ← Fallible.ofExcept (t.serialize (t.newHeader values) values)
    let pageno ← t.searchPageFreeSpace none (heapTuple.length + ItemId.size)
    let page ← getPage pageno
    if HeapPage.getFreeSpace page < heapTuple.length + ItemId.size then t.insertTuple values fuel
    else t.performInsert pageno heapTuple) := by
  rw [insertTuple]
  refine bind_congr fun heapTuple => bind_congr fun pageno => ?_
  funext s
  simp only [Fallible.bind_apply, getPage]
  split_ifs
  · rfl
  · simp only [performInsert, Fallible.bind_apply, getPage]

theorem deleteTuple_eq (wait : Nat → HeapM Unit) (tuple : HeapTuple V) :
    t.deleteTuple wait tuple = t.prepareDelete wait tuple >>= t.performDelete tuple.tid := by
  funext s
  unfold deleteTuple prepareDelete
  simp only [Fallible.bind_apply]
  rcases t.locate tuple.tid s with ⟨_ | addr, s1⟩
  · rfl
  · simp only
    rcases checkUnchanged wait tuple addr s1 with ⟨_ | _, s2⟩ <;> rfl

end HeapTable

/-! ## What the search for a page leaves alone -/

/-- The states differ in pages and in the size of the file at most. -/
structure SameLogs (s s' : HeapStore) : Prop where
  undoSize : s'.undoSize = s.undoSize
  undo : s'.undo = s.undo
  walEnd : s'.walEnd = s.walEnd
  wal : s'.wal = s.wal
  dirty : s'.dirty = s.dirty

namespace SameLogs

theorem refl (s : HeapStore) : SameLogs s s := ⟨rfl, rfl, rfl, rfl, rfl⟩

theorem trans {s s' s'' : HeapStore} (h : SameLogs s s') (h' : SameLogs s' s'') : SameLogs s s'' :=
  ⟨h'.undoSize.trans h.undoSize, h'.undo.trans h.undo, h'.walEnd.trans h.walEnd, h'.wal.trans h.wal,
    h'.dirty.trans h.dirty⟩

end SameLogs

namespace HeapTable

open HeapStore Fallible

variable {V : Type} {t : HeapTable V} {s0 : HeapStore}

theorem getPage_maintains {I : HeapStore → Prop} (pageno : Nat) : Maintains I (getPage pageno) := fun _ h => h

theorem ofExcept_maintains {I : HeapStore → Prop} {α : Type} (x : Except Fault α) :
    Maintains I (Fallible.ofExcept x : HeapM α) := by
  intro s hs
  cases x <;> exact hs

theorem changePage_sameLogs (pageno : Nat) (f : Memory → Except Fault Memory) :
    Maintains (SameLogs s0) (changePage pageno f) := by
  refine .bind (getPage_maintains pageno) fun page => .bind (ofExcept_maintains _) fun page' => ?_
  exact fun s h => ⟨h.undoSize, h.undo, h.walEnd, h.wal, h.dirty⟩

theorem extendRelation_sameLogs : Maintains (SameLogs s0) extendRelation := by
  intro s h
  unfold extendRelation
  simp only
  split_ifs
  · exact h
  · exact ⟨h.undoSize, h.undo, h.walEnd, h.wal, h.dirty⟩

theorem searchPages_sameLogs (held : Option Nat) (freeSpace : Nat) :
    ∀ n pageno, Maintains (SameLogs s0) (searchPages held freeSpace n pageno) := by
  intro n
  induction n with
  | zero => exact fun _ => .pure
  | succ n ih =>
    intro pageno
    unfold searchPages
    refine .ite (fun _ => .bind .throw fun _ => ?_) fun _ => ?_
    all_goals
      refine .bind (getPage_maintains pageno) fun page => .ite (fun _ => ih _) fun _ => .pure

theorem searchPageFreeSpace_sameLogs (held : Option Nat) (freeSpace : Nat) :
    Maintains (SameLogs s0) (t.searchPageFreeSpace held freeSpace) := by
  refine .bind .get fun s => .bind (searchPages_sameLogs held freeSpace _ _) fun found => ?_
  cases found with
  | some pageno => exact .pure
  | none =>
    refine .bind extendRelation_sameLogs fun pageno => .bind (changePage_sameLogs pageno _) fun _ => ?_
    exact .bind (getPage_maintains pageno) fun page => .bind (ofExcept_maintains _) fun _ => .pure

theorem insertTuple_ok {values : V} {fuel : Nat} {s u : HeapStore} (h : t.insertTuple values fuel s = (.ok (), u)) :
    ∃ heapTuple pageno s1, t.serialize (t.newHeader values) values = .ok heapTuple ∧ SameLogs s s1 ∧
      heapTuple.length + ItemId.size ≤ HeapPage.getFreeSpace (s1.page pageno) ∧
      t.performInsert pageno heapTuple s1 = (.ok (), u) := by
  induction fuel generalizing s with
  | zero => cases h
  | succ fuel ih =>
    rw [insertTuple_succ] at h
    obtain ⟨heapTuple, _, hs, h⟩ := Fallible.bind_eq_ok.1 h
    obtain ⟨hser, rfl⟩ := Fallible.ofExcept_eq_ok.1 hs
    obtain ⟨pageno, s1, hf, h⟩ := Fallible.bind_eq_ok.1 h
    have hlogs : SameLogs s s1 := by
      have := searchPageFreeSpace_sameLogs (t := t) none (heapTuple.length + ItemId.size) s (SameLogs.refl s)
      rwa [hf] at this
    obtain ⟨page, _, hp, h⟩ := Fallible.bind_eq_ok.1 h
    cases hp
    split_ifs at h with hroom
    · obtain ⟨heapTuple, pageno, s2, h1, h2, h3, h4⟩ := ih h
      exact ⟨heapTuple, pageno, s2, h1, hlogs.trans h2, h3, h4⟩
    · exact ⟨heapTuple, pageno, s1, hser, hlogs, by omega, h⟩

/-! ## The WAL record of a change -/

theorem changePage_wal {pageno : Nat} {f : Memory → Except Fault Memory} {s u : HeapStore}
    (h : changePage pageno f s = (.ok (), u)) : u.wal = s.wal := by
  have := changePage_sameLogs pageno f s (SameLogs.refl s)
  rw [h] at this
  exact this.wal

theorem performInsert_wal {pageno : Nat} {heapTuple : List UInt8} {s u : HeapStore}
    (h : t.performInsert pageno heapTuple s = (.ok (), u)) : ∃ lsn s1,
      s1.wal = (lsn, .Insert ⟨pageno, HeapPage.itemsCount (s.page pageno)⟩ heapTuple) :: s.wal ∧ u.wal = s1.wal ∧
      s1.page = s.page ∧ changePage pageno (fun page => HeapPage.insertLast t.dbg page lsn heapTuple) s1 =
      (.ok (), u) := by
  obtain ⟨_, _, hp, h⟩ := Fallible.bind_eq_ok.1 h
  cases hp
  obtain ⟨_, _, hu, h⟩ := Fallible.bind_eq_ok.1 h
  cases hu
  obtain ⟨lsn, _, hw, h⟩ := Fallible.bind_eq_ok.1 h
  cases hw
  exact ⟨_, _, rfl, changePage_wal h, rfl, h⟩

theorem performDelete_wal {tid : TupleId} {addr : Nat} {s u : HeapStore}
    (h : t.performDelete tid addr s = (.ok (), u)) : ∃ lsn, u.wal = (lsn, .Delete t.tableId tid) :: s.wal := by
  obtain ⟨_, _, hp, h⟩ := Fallible.bind_eq_ok.1 h
  cases hp
  obtain ⟨_, _, ha, h⟩ := Fallible.bind_eq_ok.1 h
  obtain ⟨_, rfl⟩ := Fallible.ofExcept_eq_ok.1 ha
  obtain ⟨_, _, hu, h⟩ := Fallible.bind_eq_ok.1 h
  cases hu
  obtain ⟨lsn, _, hw, h⟩ := Fallible.bind_eq_ok.1 h
  cases hw
  exact ⟨_, changePage_wal h⟩

theorem logUpdate_wal {old : HeapTuple V} {values : V} {newTID : TupleId} {s u : HeapStore} {usn : Int}
    {bytes : List UInt8} {lsn : Nat} (h : t.logUpdate old values newTID s = (.ok (usn, bytes, lsn), u)) :
    u.wal = (lsn, .Update t.tableId newTID old.tid bytes) :: s.wal := by
  obtain ⟨_, _, h1, h⟩ := Fallible.bind_eq_ok.1 h
  obtain ⟨_, rfl⟩ := Fallible.ofExcept_eq_ok.1 h1
  obtain ⟨_, _, hu, h⟩ := Fallible.bind_eq_ok.1 h
  cases hu
  obtain ⟨_, _, h2, h⟩ := Fallible.bind_eq_ok.1 h
  obtain ⟨_, rfl⟩ := Fallible.ofExcept_eq_ok.1 h2
  obtain ⟨_, _, h3, h⟩ := Fallible.bind_eq_ok.1 h
  obtain ⟨_, rfl⟩ := Fallible.ofExcept_eq_ok.1 h3
  obtain ⟨_, _, hw, h⟩ := Fallible.bind_eq_ok.1 h
  cases hw
  cases h
  rfl

theorem writeUpdate_wal {oldTID newTID : TupleId} {usn : Int} {bytes : List UInt8} {s u : HeapStore}
    (h : t.writeUpdate oldTID newTID usn bytes s = (.ok (), u)) : u.wal = s.wal := by
  unfold writeUpdate at h
  split_ifs at h
  · exact changePage_wal h
  · obtain ⟨_, s1, h1, h2⟩ := Fallible.bind_eq_ok.1 h
    exact (changePage_wal h2).trans (changePage_wal h1)

theorem finishUpdate_wal {oldTID newTID : TupleId} {lsn : Nat} {s u : HeapStore}
    (h : finishUpdate oldTID newTID lsn s = (.ok (), u)) : u.wal = s.wal := by
  obtain ⟨_, s1, h1, h⟩ := Fallible.bind_eq_ok.1 h
  rw [← changePage_wal h1]
  split_ifs at h
  · obtain ⟨_, s2, h2, h⟩ := Fallible.bind_eq_ok.1 h
    rw [← changePage_wal h2]
    obtain ⟨_, _, h3, h⟩ := Fallible.bind_eq_ok.1 h
    cases h3
    cases h
    rfl
  · obtain ⟨_, _, h3, h⟩ := Fallible.bind_eq_ok.1 h
    cases h3
    cases h
    rfl

theorem performUpdate_wal {old : HeapTuple V} {values : V} {newTID : TupleId} {s u : HeapStore}
    (h : t.performUpdate old values newTID s = (.ok (), u)) : ∃ lsn usn bytes s1 s2,
      s1.wal = (lsn, .Update t.tableId newTID old.tid bytes) :: s.wal ∧ u.wal = s1.wal ∧
      t.writeUpdate old.tid newTID usn bytes s1 = (.ok (), s2) := by
  obtain ⟨⟨usn, bytes, lsn⟩, s1, h1, h⟩ := Fallible.bind_eq_ok.1 h
  obtain ⟨_, s2, h2, h⟩ := Fallible.bind_eq_ok.1 h
  exact ⟨lsn, usn, bytes, s1, s2, logUpdate_wal h1, by rw [finishUpdate_wal h, writeUpdate_wal h2], h2⟩

end HeapTable

end Mimidb
