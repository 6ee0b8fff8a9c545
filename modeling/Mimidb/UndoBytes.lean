import Mimidb.WalBytes

/-!
# The bytes of the undo log

A record of the undo log has a header, with the length of the record proper,
and padding up to the next multiple of eight. `formatUndoRecord` writes it,
`readHeader` and `parseUndo` read it back.
-/

namespace Mimidb

namespace TupleId

def ofBytes (bytes : List UInt8) : TupleId := ⟨decodeLE (bytes.take 4), decodeLE ((bytes.drop 4).take 2)⟩

end TupleId

namespace HeapUndoRecord

/-- `HeapUndoRecordType`. -/
def getType : HeapUndoRecord → Nat
  | .Delete _ _ => 1
  | .Update _ _ _ _ => 2
  | .Insert _ _ _ => 3

def serialize : HeapUndoRecord → List UInt8
  | .Delete tableId tupId => encodeLE 4 tableId ++ tupId.toBytes
  | .Update tableId oldLocation newLocation tupleData =>
    encodeLE 4 tableId ++ (oldLocation.toBytes ++ (newLocation.toBytes ++ tupleData))
  | .Insert tableId location tupleData => encodeLE 4 tableId ++ (location.toBytes ++ tupleData)

/-- The fields have the widths of their types. -/
def Fits : HeapUndoRecord → Prop
  | .Delete tableId tupId => tableId < 2 ^ 32 ∧ tupId.Fits
  | .Update tableId oldLocation newLocation _ => tableId < 2 ^ 32 ∧ oldLocation.Fits ∧ newLocation.Fits
  | .Insert tableId location _ => tableId < 2 ^ 32 ∧ location.Fits

end HeapUndoRecord

instance : (r : HeapUndoRecord) → Decidable r.Fits
  | .Delete tableId tupId => inferInstanceAs (Decidable (tableId < 2 ^ 32 ∧ tupId.Fits))
  | .Update tableId oldLocation newLocation _ =>
    inferInstanceAs (Decidable (tableId < 2 ^ 32 ∧ oldLocation.Fits ∧ newLocation.Fits))
  | .Insert tableId location _ => inferInstanceAs (Decidable (tableId < 2 ^ 32 ∧ location.Fits))

namespace HeapResourceManager

def parseUndo (t : Nat) (data : List UInt8) : Except Fault HeapUndoRecord :=
  let tableId := decodeLE (data.take 4)
  let cursor := data.drop 4
  if t = 1 then
    if data.length ≠ 4 + TupleId.size then .error (.runtimeError "record size does not match")
    else .ok (.Delete tableId (TupleId.ofBytes cursor))
  else if t = 2 then
    -- the length of the tuple would be negative
    if data.length < 4 + TupleId.size + TupleId.size then .error .outOfBounds
    else .ok (.Update tableId (TupleId.ofBytes cursor) (TupleId.ofBytes (cursor.drop 8)) (cursor.drop 16))
  else if t = 3 then
    if data.length < 4 + TupleId.size then .error .outOfBounds
    else .ok (.Insert tableId (TupleId.ofBytes cursor) (cursor.drop 8))
  else .error (.runtimeError s!"unknown heap record type: {t}")

end HeapResourceManager

structure UndoLogRecordHeader where
  Xid : Nat
  ResourceManager : Nat
  RecordType : Nat
  DataLength : Nat
  deriving DecidableEq, Repr

namespace UndoLogRecordHeader

def size : Nat := 24

/-- With three bytes of padding behind the type. -/
def toBytes (header : UndoLogRecordHeader) : List UInt8 :=
  encodeLE 8 header.Xid ++ (encodeLE 4 header.ResourceManager ++ (encodeLE 1 header.RecordType ++
    ([0, 0, 0] ++ encodeLE 8 header.DataLength)))

def ofBytes (bytes : List UInt8) : UndoLogRecordHeader where
  Xid := decodeLE (bytes.take 8)
  ResourceManager := decodeLE ((bytes.drop 8).take 4)
  RecordType := decodeLE ((bytes.drop 12).take 1)
  DataLength := decodeLE ((bytes.drop 16).take 8)

end UndoLogRecordHeader

namespace UndoLog

def recordHeader (xid : Nat) (record : HeapUndoRecord) : UndoLogRecordHeader :=
  ⟨xid, ResourceManagerId.Heap, record.getType, record.calculateSize⟩

def padding (record : HeapUndoRecord) : List UInt8 :=
  List.replicate (BitUtils.maxAlign record.calculateSize - record.calculateSize) 0

/-- The buffer is zero where neither the header nor the record is written. -/
def formatUndoRecord (xid : Nat) (record : HeapUndoRecord) : List UInt8 :=
  (recordHeader xid record).toBytes ++ (record.serialize ++ padding record)

end UndoLog

/-! ## Fields -/

section
variable {tid : TupleId} {record : HeapUndoRecord} {xid : Nat}

theorem decode_field {w n : Nat} (hn : n < 256 ^ w) (rest : List UInt8) :
    decodeLE ((encodeLE w n ++ rest).take w) = n := by
  rw [List.take_left' (encodeLE_length w n), decodeLE_encodeLE, Nat.mod_eq_of_lt hn]

theorem TupleId.ofBytes_toBytes (h : tid.Fits) (rest : List UInt8) : ofBytes (tid.toBytes ++ rest) = tid := by
  have hdrop : (tid.toBytes ++ rest).drop 4 = encodeLE 2 tid.itemid ++ ([0, 0] ++ rest) := by
    rw [toBytes, List.append_assoc, List.drop_left' (encodeLE_length 4 _), List.append_assoc]
  have hpageno : decodeLE ((tid.toBytes ++ rest).take 4) = tid.pageno := by
    rw [toBytes, List.append_assoc]
    exact decode_field h.1 _
  rw [ofBytes, hdrop, hpageno, decode_field h.2]

theorem TupleId.drop_toBytes (tid : TupleId) (rest : List UInt8) : (tid.toBytes ++ rest).drop 8 = rest :=
  List.drop_left' tid.toBytes_length

theorem HeapUndoRecord.serialize_length (r : HeapUndoRecord) : r.serialize.length = r.calculateSize := by
  cases r <;> simp [serialize, calculateSize, TupleId.toBytes_length, TupleId.size] <;> omega

theorem UndoLogRecordHeader.toBytes_length (header : UndoLogRecordHeader) : header.toBytes.length = size := by
  simp [toBytes, size]

theorem UndoLogRecordHeader.ofBytes_toBytes (header : UndoLogRecordHeader) (hx : header.Xid < 2 ^ 64)
    (hm : header.ResourceManager < 2 ^ 32) (ht : header.RecordType < 2 ^ 8) (hl : header.DataLength < 2 ^ 64)
    (rest : List UInt8) : ofBytes (header.toBytes ++ rest) = header := by
  obtain ⟨xid, manager, type, length⟩ := header
  simp only [toBytes, List.append_assoc] at hx hm ht hl ⊢
  have h8 :
    (encodeLE 8 xid ++ (encodeLE 4 manager ++ (encodeLE 1 type ++ ([0, 0, 0] ++ (encodeLE 8 length ++ rest))))).drop
      8 =
      encodeLE 4 manager ++ (encodeLE 1 type ++ ([0, 0, 0] ++ (encodeLE 8 length ++ rest))) :=
    List.drop_left' (encodeLE_length 8 xid)
  have h12 := congrArg (List.drop 4) h8
  rw [List.drop_drop, List.drop_left' (encodeLE_length 4 manager)] at h12
  have h16 := congrArg (List.drop 4) h12
  have htype :
      (encodeLE 1 type ++ ([0, 0, 0] ++ (encodeLE 8 length ++ rest))).drop 4 = encodeLE 8 length ++ rest := by
    rw [← List.append_assoc]
    exact List.drop_left' (by simp)
  rw [List.drop_drop, htype] at h16
  rw [ofBytes, h8, h12, h16, decode_field hx, decode_field hm, decode_field ht, decode_field hl]

theorem HeapUndoRecord.parse_serialize (hf : record.Fits) :
    HeapResourceManager.parseUndo record.getType record.serialize = .ok record := by
  have hlen := record.serialize_length
  cases record with
  | Delete tableId tupId =>
    have htable : decodeLE ((Delete tableId tupId).serialize.take 4) = tableId := decode_field (w := 4) hf.1 _
    have hcursor : (Delete tableId tupId).serialize.drop 4 = tupId.toBytes ++ [] := by
      rw [serialize, List.drop_left' (encodeLE_length 4 tableId), List.append_nil]
    simp only [HeapResourceManager.parseUndo, getType, hlen, htable, hcursor, TupleId.ofBytes_toBytes hf.2]
    rfl
  | Update tableId oldLocation newLocation tupleData =>
    have htable : decodeLE ((Update tableId oldLocation newLocation tupleData).serialize.take 4) = tableId :=
      decode_field (w := 4) hf.1 _
    have hcursor : (Update tableId oldLocation newLocation tupleData).serialize.drop 4 =
        oldLocation.toBytes ++ (newLocation.toBytes ++ tupleData) := List.drop_left' (encodeLE_length 4 tableId)
    have h16 : (oldLocation.toBytes ++ (newLocation.toBytes ++ tupleData)).drop 16 = tupleData := by
      rw [← List.drop_drop (i := 8) (j := 8), TupleId.drop_toBytes, TupleId.drop_toBytes]
    have hge : ¬ 4 + TupleId.size + TupleId.size + tupleData.length < 4 + TupleId.size + TupleId.size := by omega
    simp only [HeapResourceManager.parseUndo, getType, hlen, htable, hcursor, h16, calculateSize, if_neg hge,
      TupleId.ofBytes_toBytes hf.2.1, TupleId.drop_toBytes, TupleId.ofBytes_toBytes hf.2.2]
    rfl
  | Insert tableId location tupleData =>
    have htable : decodeLE ((Insert tableId location tupleData).serialize.take 4) = tableId :=
      decode_field (w := 4) hf.1 _
    have hcursor : (Insert tableId location tupleData).serialize.drop 4 = location.toBytes ++ tupleData :=
      List.drop_left' (encodeLE_length 4 tableId)
    have hge : ¬ 4 + TupleId.size + tupleData.length < 4 + TupleId.size := by omega
    simp only [HeapResourceManager.parseUndo, getType, hlen, htable, hcursor, calculateSize, if_neg hge,
      TupleId.ofBytes_toBytes hf.2, TupleId.drop_toBytes]
    rfl

theorem UndoLog.formatUndoRecord_length (xid : Nat) (record : HeapUndoRecord) :
    (formatUndoRecord xid record).length = 24 + BitUtils.maxAlign record.calculateSize := by
  have hle : record.calculateSize ≤ BitUtils.maxAlign record.calculateSize := by
    unfold BitUtils.maxAlign
    omega
  rw [formatUndoRecord, List.length_append, UndoLogRecordHeader.toBytes_length, List.length_append,
    HeapUndoRecord.serialize_length, padding, List.length_replicate, Nat.add_sub_cancel' hle,
    UndoLogRecordHeader.size]

end

end Mimidb
