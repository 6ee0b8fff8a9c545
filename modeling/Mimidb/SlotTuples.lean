import Mimidb.HeapSlots

/-!
# The tuples in slots

A table of rows with attributes, and what a scan decodes of a slot. A version
is what the serializer writes for a header and values; behind it a slot may
hold anything, as an item keeps its length when its tuple shrinks.
-/

namespace Mimidb

abbrev Values := List (Option Datum)

/-- `HeapTable` with its `TupleSerializer`. -/
def heapTable (dbg : Bool) (tableId myXid : Nat) (desc : TupleDescriptor) : HeapTable Values where
  dbg := dbg
  tableId := tableId
  myXid := myXid
  serializeValues values := Prod.fst <$> TupleSerializer.serialize dbg desc values
  hasNulls values := (values.take desc.getMaxAttrNumber).any Option.isNone

/-- What a transaction reads of the table. -/
def HeapStore.view (s : HeapStore) (dbg : Bool) (desc : TupleDescriptor) (history : Nat → Nat) (myXid : Nat) :
    HeapView Values where
  dbg := dbg
  size := s.size
  page := s.page
  history := history
  myXid := myXid
  undoSize := s.undoSize
  getRecord usn :=
    match s.undo usn with
    | some record => .ok (.heap record)
    | none => .error (.runtimeError "could not read UndoLogRecordHeader")
  deserialize := TupleSerializer.deserialize dbg desc

namespace HeapView

variable {V : Type} (c : HeapView V)

/-- The tuple of a slot, whoever wrote it. -/
def slotTuple (tid : TupleId) : Except Fault (HeapTuple V) := do
  let page := c.page tid.pageno
  let itemId ← HeapPage.getItemId c.dbg page tid.itemid
  let addr ← HeapPage.getTuple c.dbg itemId
  c.buildHeapTuple (page.slice addr (Config.PageSize - addr)) itemId.length tid

theorem buildHeapTuple_header {c : HeapView V} {bytes : List UInt8} {size : Nat} {tid : TupleId}
    {tuple : HeapTuple V} (h : c.buildHeapTuple bytes size tid = .ok tuple) : tuple.header = .ofBytes bytes := by
  unfold buildHeapTuple at h
  split_ifs at h
  · cases h
  · obtain ⟨_, _, h⟩ := bind_eq_ok.1 h
    cases h
    rfl

end HeapView

/-! ## Versions -/

/-- `bytes` are what the serializer writes for the header and the values. -/
structure IsVersion (dbg : Bool) (desc : TupleDescriptor) (header : HeapPageTupleHeader) (values : Values)
    (bytes : List UInt8) : Prop where
  bounded : header.Bounded
  flags : header.flags = ⟨false, values.any Option.isNone⟩
  typed : TupleSerializer.Typed dbg desc values
  bytes : ∃ data, TupleSerializer.serialize dbg desc values = .ok (data, values.any Option.isNone) ∧
    bytes = header.toBytes ++ data

section
variable {dbg : Bool} {desc : TupleDescriptor} {header : HeapPageTupleHeader} {values : Values}
  {bytes rest : List UInt8}
  {tableId myXid : Nat} {usn : Int}

theorem TupleSerializer.Typed.take_eq (h : TupleSerializer.Typed dbg desc values) :
    values.take desc.getMaxAttrNumber = values := by
  have hlen := List.Forall₂.length_eq h.fits
  refine List.take_of_length_le ?_
  rw [← hlen]
  exact List.length_take_le _ _

theorem IsVersion.serialize (h : IsVersion dbg desc header values bytes) :
    (heapTable dbg tableId myXid desc).serialize header values = .ok bytes := by
  obtain ⟨data, hser, rfl⟩ := h.bytes
  have hvalues : (heapTable dbg tableId myXid desc).serializeValues values = .ok data := by
    show Prod.fst <$> TupleSerializer.serialize dbg desc values = _
    rw [hser]
    rfl
  have hflags : { header with flags := ⟨false, (heapTable dbg tableId myXid desc).hasNulls values⟩ } = header := by
    show { header with flags := ⟨false, (values.take desc.getMaxAttrNumber).any Option.isNone⟩ } = header
    rw [h.typed.take_eq, ← h.flags]
  rw [HeapTable.serialize_eq header hvalues, hflags]

theorem TupleSerializer.serialize_hasNulls {data : List UInt8} {hasnulls : Bool}
    (h : TupleSerializer.serialize dbg desc values = .ok (data, hasnulls)) :
    hasnulls = (values.take desc.getMaxAttrNumber).any Option.isNone := by
  unfold TupleSerializer.serialize at h
  simp only at h
  by_cases hcount : desc.getMaxAttrNumber = 2 ^ 16 - 1
  · rw [if_pos hcount] at h
    cases h
  · rw [if_neg hcount] at h
    obtain ⟨_, _, h⟩ := bind_eq_ok.1 h
    obtain ⟨_, _, h⟩ := bind_eq_ok.1 h
    cases h
    rfl

/-- What `UpdateTuple` writes is a version, though perhaps not of the values given. -/
theorem isVersion_of_serialize {data : List UInt8} (hb : HeapPageTupleHeader.Bounded ⟨myXid, usn, ⟨false, false⟩⟩)
    (h : (heapTable dbg tableId myXid desc).serializeValues values = .ok data) :
    ∃ header values', header.xid = myXid ∧ header.undo = usn ∧
      IsVersion dbg desc header values' ((heapTable dbg tableId myXid desc).versionBytes usn values data) := by
  obtain ⟨⟨data', hasnulls⟩, hser, rfl⟩ := map_eq_ok.1 h
  obtain ⟨values', htyped, hser', hnulls⟩ := TupleSerializer.serialize_typed hser
  have hflag := TupleSerializer.serialize_hasNulls hser
  refine ⟨⟨myXid, usn, ⟨false, values'.any Option.isNone⟩⟩, values', rfl, rfl, ⟨hb.xid, hb.undo⟩, rfl, htyped,
    data', ?_, ?_⟩
  · rw [← hnulls]
    exact hser'
  · show HeapPageTupleHeader.toBytes ⟨myXid, usn, ⟨false, (values.take desc.getMaxAttrNumber).any Option.isNone⟩⟩ ++
      data' = _
    rw [← hflag, hnulls]

theorem IsVersion.size_le (h : IsVersion dbg desc header values bytes) :
    HeapPageTupleHeader.size ≤ bytes.length := by
  obtain ⟨data, -, rfl⟩ := h.bytes
  rw [List.length_append, HeapPageTupleHeader.toBytes_length]
  exact Nat.le_add_right _ _

theorem IsVersion.ofBytes_eq (h : IsVersion dbg desc header values bytes) (rest : List UInt8) :
    HeapPageTupleHeader.ofBytes (bytes ++ rest) = header := by
  obtain ⟨data, -, rfl⟩ := h.bytes
  rw [List.append_assoc]
  exact HeapPageTupleHeader.ofBytes_toBytes h.bounded _

theorem IsVersion.build_eq (h : IsVersion dbg desc header values bytes) {c : HeapView Values}
    (hc : c.deserialize = TupleSerializer.deserialize dbg desc) (rest : List UInt8) (size : Nat) (tid : TupleId) :
    c.buildHeapTuple (bytes ++ rest) size tid = .ok ⟨header, values, tid⟩ := by
  have hge : ¬ (bytes ++ rest).length < HeapPageTupleHeader.size := by
    have := h.size_le
    rw [List.length_append]
    omega
  simp only [HeapView.buildHeapTuple, if_neg hge, h.ofBytes_eq, hc, h.flags]
  obtain ⟨data, hser, rfl⟩ := h.bytes
  obtain ⟨data', hser', hdes⟩ := TupleSerializer.deserialize_serialize h.typed
  have hdata : data' = data := by
    rw [hser] at hser'
    cases hser'
    rfl
  subst hdata
  rw [List.append_assoc, List.drop_left' header.toBytes_length]
  show (do
    let values ← TupleSerializer.deserialize dbg desc (data' ++ rest) (values.any Option.isNone) _
    return (⟨header, values, tid⟩ : HeapTuple Values)) = _
  rw [hdes]
  rfl

end

/-! ## Slots -/

namespace HeapStore

variable {s : HeapStore} {tid : TupleId} {dbg : Bool} {desc : TupleDescriptor} {history : Nat → Nat} {myXid : Nat}

theorem Placed.slice_eq (h : s.Placed tid) : ∃ rest, (s.page tid.pageno).slice (s.item tid).offset
    (Config.PageSize - (s.item tid).offset) = s.content tid ++ rest := by
  have hin := h.inside
  have hlen : Config.PageSize - (s.item tid).offset =
      (s.item tid).length + (Config.PageSize - (s.item tid).offset - (s.item tid).length) := by
    simp only [item]
    omega
  rw [hlen, Memory.slice_append]
  exact ⟨_, rfl⟩

theorem Placed.slotTuple_eq (h : s.Placed tid) (dbg : Bool) (desc : TupleDescriptor) (history : Nat → Nat)
    (myXid : Nat) :
    ∃ rest, (s.view dbg desc history myXid).slotTuple tid =
      (s.view dbg desc history myXid).buildHeapTuple (s.content tid ++ rest) (s.item tid).length tid := by
  obtain ⟨rest, hrest⟩ := h.slice_eq
  refine ⟨rest, ?_⟩
  rw [← hrest]
  unfold HeapView.slotTuple
  simp only [view, h.getItemId_eq]
  show (do
    let addr ← HeapPage.getTuple dbg (HeapPage.itemAt (s.page tid.pageno) tid.itemid)
    _) = _
  rw [HeapPage.Placed.getTuple_eq h]
  rfl

theorem slotTuple_of_version {header : HeapPageTupleHeader} {values : Values} {bytes rest : List UInt8}
    (h : s.Placed tid) (hv : IsVersion dbg desc header values bytes) (hc : s.content tid = bytes ++ rest) :
    (s.view dbg desc history myXid).slotTuple tid = .ok ⟨header, values, tid⟩ := by
  obtain ⟨rest', hr⟩ := h.slotTuple_eq dbg desc history myXid
  rw [hr, hc, List.append_assoc]
  exact hv.build_eq rfl _ _ _

end HeapStore

end Mimidb
