import Mimidb.VersionChain

/-!
# Images of tuples

`UpdateTuple` saves the old version by serializing the scanned tuple again. The
serializer is canonical on what it writes: the bytes of a version are read back
whatever follows them in the slot, and serializing what was read gives them.
-/

namespace Mimidb

namespace HeapPageTupleHeader

/-- The bytes of a tuple after the transaction and the undo pointer of its header were set. -/
def stamp (bytes : List UInt8) (xid : Nat) (undo : Int) : List UInt8 :=
  encodeLE 8 xid ++ encodeLE 8 (undo % 2 ^ 64).toNat ++ bytes.drop 16

theorem stamp_toBytes (header : HeapPageTupleHeader) (data : List UInt8) (xid : Nat) (undo : Int) :
    stamp (header.toBytes ++ data) xid undo = HeapPageTupleHeader.toBytes ⟨xid, undo, header.flags⟩ ++ data := by
  have hdrop : (header.toBytes ++ data).drop 16 = encodeLE 8 (flagBits header.flags) ++ data := by
    rw [toBytes, List.append_assoc]
    exact List.drop_left' (by simp)
  rw [stamp, hdrop, toBytes, List.append_assoc, List.append_assoc, List.append_assoc]

end HeapPageTupleHeader

/-! ## What an update saves -/

namespace HeapTable

open HeapStore

variable {V : Type} {t : HeapTable V} {old : HeapTuple V} {values : V} {newTID : TupleId} {s u : HeapStore}
  {image : List UInt8}

/-- The undo log has no other records than `undo`. -/
def UndoIs (undo : Int → Option HeapUndoRecord) (s : HeapStore) : Prop := s.undo = undo

section
variable {undo : Int → Option HeapUndoRecord}

theorem changePage_undoIs (pageno : Nat) (f : Memory → Except Fault Memory) :
    Fallible.Maintains (UndoIs undo) (changePage pageno f) :=
  .bind (getPage_maintains pageno) fun _ => .bind (ofExcept_maintains _) fun _ _ h => h

theorem writeUpdate_undoIs (oldTID : TupleId) (usn : Int) (bytes : List UInt8) :
    Fallible.Maintains (UndoIs undo) (t.writeUpdate oldTID newTID usn bytes) := by
  unfold writeUpdate
  exact .ite (fun _ => changePage_undoIs _ _) fun _ => .bind (changePage_undoIs _ _) fun _ => changePage_undoIs _ _

theorem finishUpdate_undoIs (oldTID : TupleId) (lsn : Nat) :
    Fallible.Maintains (UndoIs undo) (finishUpdate oldTID newTID lsn) := by
  have hmark : ∀ pageno, Fallible.Maintains (UndoIs undo) (markDirty pageno) := fun _ _ h => h
  unfold finishUpdate
  refine .bind (changePage_undoIs _ _) fun _ => ?_
  split_ifs
  · exact .bind (changePage_undoIs _ _) fun _ => .bind (hmark _) fun _ => hmark _
  · exact .bind (hmark _) fun _ => .pure

end

/-- The undo log with the image of the old version. -/
def savedUndo (t : HeapTable V) (s : HeapStore) (oldTID newTID : TupleId) (image : List UInt8) :
    Int → Option HeapUndoRecord :=
  Function.update s.undo (s.undoSize + 1) (some (.Update t.tableId oldTID newTID image))

theorem logUpdate_saves (himage : t.serialize old.header old.values = .ok image) :
    Fallible.Spec (fun u => u = s) (t.logUpdate old values newTID)
      (fun _ => UndoIs (t.savedUndo s old.tid newTID image))
      fun _ => UndoIs (t.savedUndo s old.tid newTID image) := by
  unfold logUpdate
  rw [himage]
  have hfirst : Fallible.Spec (fun u => u = s) (Fallible.ofExcept (.ok image) : HeapM (List UInt8))
      (fun bytes u => bytes = image ∧ u = s) fun _ => UndoIs (t.savedUndo s old.tid newTID image) :=
        fun u hu => ⟨rfl, hu⟩
  refine .bind hfirst fun bytes => .bind (R := fun _ => UndoIs (t.savedUndo s old.tid newTID image)) ?_ fun usn =>
    ?_
  · rintro u ⟨rfl, rfl⟩
    rfl
  · have hwal : ∀ record, Fallible.Maintains (UndoIs (t.savedUndo s old.tid newTID image))
      (writeLogRecord record) := fun _ _ h => h
    exact .bind (ofExcept_maintains _) fun _ => .bind (ofExcept_maintains _) fun _ => .bind (hwal _) fun _ =>
      .pure fun _ h => h

/-- However the update ends, it has saved the image. -/
theorem performUpdate_saves (himage : t.serialize old.header old.values = .ok image) :
    ((t.performUpdate old values newTID).exec s).undo = t.savedUndo s old.tid newTID image := by
  have hspec : Fallible.Spec (fun u => u = s) (t.performUpdate old values newTID)
      (fun _ => UndoIs (t.savedUndo s old.tid newTID image)) fun _ =>
      UndoIs (t.savedUndo s old.tid newTID image) := by
    unfold performUpdate
    exact .bind (logUpdate_saves himage) fun _ => .bind (writeUpdate_undoIs _ _ _) fun _ => finishUpdate_undoIs _ _
  have hs := hspec s rfl
  unfold Fallible.exec
  rcases h : t.performUpdate old values newTID s with ⟨r, u⟩
  rw [h] at hs
  cases r with
  | ok a => exact hs
  | error e => exact hs

end HeapTable

/-! ## Versions and their slots -/

section
variable {dbg : Bool} {desc : TupleDescriptor} {tableId myXid : Nat} {header : HeapPageTupleHeader}
  {values : Values}
  {bytes : List UInt8}

/-- What the serializer writes is, whatever its header is set to, a version of values that fit. -/
theorem isVersion_stamp (h : (heapTable dbg tableId myXid desc).serialize header values = .ok bytes) {xid : Nat}
    {undo : Int} (hx : xid < 2 ^ 64) (hu : -(2 ^ 63) ≤ undo ∧ undo < 2 ^ 63) :
    ∃ header' values', IsVersion dbg desc header' values' (HeapPageTupleHeader.stamp bytes xid undo) := by
  obtain ⟨data, hdata, h⟩ := bind_eq_ok.1 h
  obtain ⟨⟨data', hasnulls⟩, hser, rfl⟩ := map_eq_ok.1 hdata
  obtain ⟨values', htyped, hser', hnulls⟩ := TupleSerializer.serialize_typed hser
  have hflag := TupleSerializer.serialize_hasNulls hser
  refine ⟨⟨xid, undo, ⟨false, values'.any Option.isNone⟩⟩, values', ⟨hx, hu⟩, rfl, htyped, data', ?_, ?_⟩
  · rw [← hnulls]
    exact hser'
  · cases h
    rw [HeapPageTupleHeader.stamp_toBytes]
    show HeapPageTupleHeader.toBytes ⟨xid, undo, ⟨false, (values.take desc.getMaxAttrNumber).any Option.isNone⟩⟩ ++
      data' = _
    rw [← hflag, hnulls]

/-- The image is the only one of the tuple that it has, with anything behind it; an update of the tuple that a
scan read from a slot with these bytes saves just them. -/
structure Faithful (dbg : Bool) (desc : TupleDescriptor) (image : List UInt8) : Prop where
  reads : ∀ (c : HeapView Values), c.deserialize = TupleSerializer.deserialize dbg desc →
    ∀ tid, ∃ tuple : HeapTuple Values, (∀ slack size, c.buildHeapTuple (image ++ slack) size tid = .ok tuple) ∧
      ∀ tableId myXid, (heapTable dbg tableId myXid desc).serialize tuple.header tuple.values = .ok image
  saves : ∀ (s : HeapStore) (tid : TupleId) (slack : List UInt8), s.Placed tid → s.content tid = image ++ slack →
    ∀ history myXid snapshot, (s.view dbg desc history myXid).tupleIsVisible snapshot (.ofBytes (s.content tid)) =
    .ok true →
      ∃ tuple, (s.view dbg desc history myXid).itemTuple snapshot tid.pageno tid.itemid = .ok (some tuple) ∧
        ∀ tableId newTID values (u : HeapStore),
          (((heapTable dbg tableId myXid desc).performUpdate tuple values newTID).exec u).undo =
            (heapTable dbg tableId myXid desc).savedUndo u tid newTID image

theorem IsVersion.faithful (h : IsVersion dbg desc header values bytes) : Faithful dbg desc bytes := by
  refine ⟨fun c hc tid => ⟨⟨header, values, tid⟩, fun slack size => h.build_eq hc slack size tid,
    fun _ _ => h.serialize⟩, ?_⟩
  intro s tid slack hp hcontent history myXid snapshot hvisible
  refine ⟨⟨header, values, tid⟩, ?_, fun tableId newTID new u => HeapTable.performUpdate_saves h.serialize⟩
  rw [itemTuple_eq hp, hvisible, hcontent, h.ofBytes_eq, HeapStore.slotTuple_of_version hp h hcontent, h.flags]
  rfl

/-- Whatever the serializer writes is such an image, for every transaction and undo pointer in its header. -/
theorem image_faithful (h : (heapTable dbg tableId myXid desc).serialize header values = .ok bytes) {xid : Nat}
    {undo : Int} (hx : xid < 2 ^ 64) (hu : -(2 ^ 63) ≤ undo ∧ undo < 2 ^ 63) :
    Faithful dbg desc (HeapPageTupleHeader.stamp bytes xid undo) := by
  obtain ⟨header', values', hv⟩ := isVersion_stamp h hx hu
  exact hv.faithful

/-- A row of two integers of which the second is NULL. -/
theorem image_faithful_null :
    ∃ bytes, (heapTable true 5 7 ⟨[⟨4, true⟩, ⟨2, true⟩]⟩).serialize ⟨7, 0, ⟨false, false⟩⟩
      [some (.scalar (-2)), none] = .ok bytes ∧ bytes.length = 29 ∧
    Faithful true ⟨[⟨4, true⟩, ⟨2, true⟩]⟩ (HeapPageTupleHeader.stamp bytes 8 41) := by
  have h :
    (heapTable true 5 7 ⟨[⟨4, true⟩, ⟨2, true⟩]⟩).serialize ⟨7, 0, ⟨false, false⟩⟩ [some (.scalar (-2)), none] =
      .ok (HeapPageTupleHeader.toBytes ⟨7, 0, ⟨false, true⟩⟩ ++ [1, 254, 255, 255, 255]) := by decide +kernel
  exact ⟨_, h, by decide, image_faithful h (by decide) (by decide)⟩

end

end Mimidb
