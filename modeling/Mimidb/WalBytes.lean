import Mimidb.Bytes
import Mimidb.HeapTable

/-!
# The bytes of the write-ahead log

`WriteLogRecord` puts a header with the transaction, the resource manager and
the length before a record. The type of the record is not part of it, so an
insert can have the bytes of an update or a delete.
-/

namespace Mimidb

namespace TupleId

/-- The bytes of a `TupleId`, with two of padding at the end. -/
def toBytes (tid : TupleId) : List UInt8 := encodeLE 4 tid.pageno ++ (encodeLE 2 tid.itemid ++ [0, 0])

/-- The fields have the widths of their types. -/
def Fits (tid : TupleId) : Prop := tid.pageno < 2 ^ 32 ∧ tid.itemid < 2 ^ 16

end TupleId

namespace HeapWALRecord

/-- `Serialize`. -/
def serialize : HeapWALRecord → List UInt8
  | .Insert tupId tupleData => tupId.toBytes ++ tupleData
  | .Update tableId oldTupleId newTupleId tupleData =>
    encodeLE 4 tableId ++ (oldTupleId.toBytes ++ (newTupleId.toBytes ++ tupleData))
  | .Delete tableId location => encodeLE 4 tableId ++ location.toBytes

def Fits : HeapWALRecord → Prop
  | .Insert tupId _ => tupId.Fits
  | .Update tableId oldTupleId newTupleId _ => tableId < 2 ^ 32 ∧ oldTupleId.Fits ∧ newTupleId.Fits
  | .Delete tableId location => tableId < 2 ^ 32 ∧ location.Fits

/-- No record of another type has these bytes. -/
def Unmistakable : HeapWALRecord → Prop
  | .Insert _ tupleData =>
    ¬ (tupleData.length = 4 ∧ tupleData.drop 2 = [0, 0]) ∧
      ¬ (12 ≤ tupleData.length ∧ (tupleData.drop 2).take 2 = [0, 0] ∧ (tupleData.drop 10).take 2 = [0, 0])
  | .Update _ oldTupleId _ _ => 2 ^ 16 ≤ oldTupleId.pageno
  | .Delete _ location => 2 ^ 16 ≤ location.pageno

end HeapWALRecord

instance (tid : TupleId) : Decidable tid.Fits := inferInstanceAs (Decidable (_ ∧ _))

instance : (r : HeapWALRecord) → Decidable r.Fits
  | .Insert tupId _ => inferInstanceAs (Decidable tupId.Fits)
  | .Update tableId oldTupleId newTupleId _ =>
    inferInstanceAs (Decidable (tableId < 2 ^ 32 ∧ oldTupleId.Fits ∧ newTupleId.Fits))
  | .Delete tableId location => inferInstanceAs (Decidable (tableId < 2 ^ 32 ∧ location.Fits))

namespace ResourceManagerId

def Heap : Nat := 1

end ResourceManagerId

namespace WriteAheadLog

/-- `WALRecordHeader`, with four bytes of padding behind the resource manager. -/
def header (xid rmgrId length : Nat) : List UInt8 :=
  encodeLE 8 xid ++ (encodeLE 4 rmgrId ++ ([0, 0, 0, 0] ++ encodeLE 8 length))

/-- The bytes that `WriteLogRecord` appends. -/
def recordBytes (xid : Nat) (record : HeapWALRecord) : List UInt8 :=
  header xid ResourceManagerId.Heap record.calculateSize ++ record.serialize

/-- The file after the records of a log, each with its transaction. -/
def fileBytes (log : List (Nat × HeapWALRecord)) : List UInt8 := log.flatMap fun e => recordBytes e.1 e.2

def Fits (log : List (Nat × HeapWALRecord)) : Prop :=
  ∀ e ∈ log, e.1 < 2 ^ 64 ∧ e.2.Fits ∧ e.2.calculateSize < 2 ^ 64

instance (log : List (Nat × HeapWALRecord)) : Decidable (Fits log) := inferInstanceAs (Decidable (∀ e ∈ log, _))

/-- No other log has the same bytes. -/
def Determined (log : List (Nat × HeapWALRecord)) : Prop :=
  ∀ log', Fits log' → fileBytes log' = fileBytes log → log' = log

end WriteAheadLog

/-! ## Fields -/

theorem encodeLE_inj {w n m : Nat} (hn : n < 256 ^ w) (hm : m < 256 ^ w) (h : encodeLE w n = encodeLE w m) :
    n = m := by
  have hd := congrArg decodeLE h
  rwa [decodeLE_encodeLE, decodeLE_encodeLE, Nat.mod_eq_of_lt hn, Nat.mod_eq_of_lt hm] at hd

theorem encodeLE_add (a b n : Nat) : encodeLE (a + b) n = encodeLE a n ++ encodeLE b (n / 256 ^ a) := by
  induction a generalizing n with
  | zero => simp [encodeLE]
  | succ a ih =>
    rw [Nat.add_right_comm, encodeLE, encodeLE, ih, List.cons_append, Nat.div_div_eq_div_mul, Nat.pow_succ']

theorem high_zero_iff {n : Nat} (hn : n < 2 ^ 32) : encodeLE 2 (n / 256 ^ 2) = [0, 0] ↔ n < 2 ^ 16 := by
  constructor
  · intro h
    have hzero : encodeLE 2 (n / 256 ^ 2) = encodeLE 2 0 := h
    have hdiv := encodeLE_inj (by omega) (by decide) hzero
    omega
  · intro h
    have hdiv : n / 256 ^ 2 = 0 := by omega
    rw [hdiv]
    rfl

theorem TupleId.toBytes_length (tid : TupleId) : tid.toBytes.length = 8 := by
  simp [toBytes]

theorem TupleId.toBytes_inj {tid tid' : TupleId} (h : tid.Fits) (h' : tid'.Fits) (he : tid.toBytes = tid'.toBytes) :
    tid = tid' := by
  obtain ⟨hp, hrest⟩ := List.append_inj he (by simp)
  obtain ⟨hi, -⟩ := List.append_inj hrest (by simp)
  have hpageno := encodeLE_inj h.1 h'.1 hp
  have hitemid := encodeLE_inj h.2 h'.2 hi
  cases tid
  cases tid'
  simp_all

/-! ## Records -/

namespace HeapWALRecord

variable {r r' : HeapWALRecord}

theorem serialize_length (r : HeapWALRecord) : r.serialize.length = r.calculateSize := by
  cases r <;> simp [serialize, calculateSize, TupleId.toBytes_length, TupleId.size]
  omega

theorem insert_bytes {loc : TupleId} {n m : Nat} {data rest : List UInt8}
    (h : loc.toBytes ++ data = encodeLE 4 n ++ (encodeLE 4 m ++ rest)) :
    encodeLE 4 loc.pageno = encodeLE 4 n ∧ encodeLE 2 loc.itemid = encodeLE 2 m ∧
    encodeLE 2 (m / 256 ^ 2) = [0, 0] ∧ data = rest := by
  rw [TupleId.toBytes, List.append_assoc] at h
  obtain ⟨hp, h⟩ := List.append_inj h (by simp)
  rw [show (4 : Nat) = 2 + 2 from rfl, encodeLE_add, List.append_assoc, List.append_assoc] at h
  obtain ⟨hi, h⟩ := List.append_inj h (by simp)
  obtain ⟨hz, h⟩ := List.append_inj h (by simp)
  exact ⟨hp, hi, hz.symm, h⟩

/-- An insert has the bytes of what starts with two numbers if the second one is small. -/
theorem insert_mistaken {n m : Nat} (hm : m < 2 ^ 16) (rest : List UInt8) :
    (TupleId.mk n m).toBytes ++ rest = encodeLE 4 n ++ (encodeLE 4 m ++ rest) := by
  have hz : encodeLE 2 (m / 256 ^ 2) = [0, 0] := (high_zero_iff (by omega)).2 hm
  have hsplit : encodeLE 4 m = encodeLE 2 m ++ [0, 0] := by
    rw [show (4 : Nat) = 2 + 2 from rfl, encodeLE_add, hz]
  rw [hsplit, TupleId.toBytes]
  simp only [List.append_assoc]

theorem delete_eq (tableId : Nat) (location : TupleId) : (HeapWALRecord.Delete tableId location).serialize =
    encodeLE 4 tableId ++ (encodeLE 4 location.pageno ++ (encodeLE 2 location.itemid ++ [0, 0])) := rfl

theorem update_eq (tableId : Nat) (old new : TupleId) (data : List UInt8) :
    (HeapWALRecord.Update tableId old new data).serialize =
    encodeLE 4 tableId ++
    (encodeLE 4 old.pageno ++ (encodeLE 2 old.itemid ++ ([0, 0] ++ (new.toBytes ++ data)))) := by
  simp only [serialize, TupleId.toBytes, List.append_assoc]

/-- Two records with the same bytes, one of them unmistakable, are the same. -/
theorem eq_of_serialize (h : r.Fits) (h' : r'.Fits) (hu : r.Unmistakable) (he : r'.serialize = r.serialize) :
    r' = r := by
  cases r with
  | Insert loc data =>
    cases r' with
    | Insert loc' data' =>
      obtain ⟨hloc, rfl⟩ := List.append_inj he (by simp [TupleId.toBytes_length])
      rw [TupleId.toBytes_inj h' h hloc]
    | Update tableId old new data' =>
      rw [update_eq] at he
      obtain ⟨-, -, -, rfl⟩ := insert_bytes he.symm
      refine absurd ⟨?_, ?_, ?_⟩ hu.2
      · simp [TupleId.toBytes_length]
        omega
      · simp
      · have hitem : (encodeLE 2 old.itemid).drop 10 = [] := List.drop_eq_nil_of_le (by simp)
        have hpage : (encodeLE 4 new.pageno).drop 6 = [] := List.drop_eq_nil_of_le (by simp)
        simp [TupleId.toBytes, List.drop_append, hitem, hpage]
    | Delete tableId location =>
      rw [delete_eq] at he
      obtain ⟨-, -, -, rfl⟩ := insert_bytes he.symm
      exact absurd ⟨by simp, by simp⟩ hu.1
  | Update tableId old new data =>
    cases r' with
    | Insert loc' data' =>
      rw [update_eq] at he
      obtain ⟨-, -, hz, -⟩ := insert_bytes he
      have hsmall := (high_zero_iff h.2.1.1).1 hz
      have hlarge : 2 ^ 16 ≤ old.pageno := hu
      omega
    | Update tableId' old' new' data' =>
      obtain ⟨ht, he⟩ := List.append_inj he (by simp)
      obtain ⟨hold, he⟩ := List.append_inj he (by simp [TupleId.toBytes_length])
      obtain ⟨hnew, rfl⟩ := List.append_inj he (by simp [TupleId.toBytes_length])
      rw [encodeLE_inj h'.1 h.1 ht, TupleId.toBytes_inj h'.2.1 h.2.1 hold, TupleId.toBytes_inj h'.2.2 h.2.2 hnew]
    | Delete tableId' location' =>
      have hlen := congrArg List.length he
      simp [serialize_length, calculateSize, TupleId.size] at hlen
      omega
  | Delete tableId location =>
    cases r' with
    | Insert loc' data' =>
      rw [delete_eq] at he
      obtain ⟨-, -, hz, -⟩ := insert_bytes he
      have hsmall := (high_zero_iff h.2.1).1 hz
      have hlarge : 2 ^ 16 ≤ location.pageno := hu
      omega
    | Update tableId' old' new' data' =>
      have hlen := congrArg List.length he
      simp [serialize_length, calculateSize, TupleId.size] at hlen
      omega
    | Delete tableId' location' =>
      obtain ⟨ht, hloc⟩ := List.append_inj he (by simp)
      rw [encodeLE_inj h'.1 h.1 ht, TupleId.toBytes_inj h'.2 h.2 hloc]

theorem decode_lt {bs : List UInt8} {w : Nat} (h : bs.length = w) : decodeLE bs < 256 ^ w := h ▸ decodeLE_lt bs

theorem encode_decode {bs : List UInt8} {w : Nat} (h : bs.length = w) : encodeLE w (decodeLE bs) = bs :=
  h ▸ encodeLE_decodeLE bs

theorem toBytes_decode {bs : List UInt8} (h : 8 ≤ bs.length) (hz : (bs.drop 6).take 2 = [0, 0]) :
    (TupleId.mk (decodeLE (bs.take 4)) (decodeLE ((bs.drop 4).take 2))).Fits ∧
      (TupleId.mk (decodeLE (bs.take 4)) (decodeLE ((bs.drop 4).take 2))).toBytes ++ bs.drop 8 = bs := by
  have hpage : (bs.take 4).length = 4 := by rw [List.length_take]; omega
  have hitem : ((bs.drop 4).take 2).length = 2 := by rw [List.length_take, List.length_drop]; omega
  refine ⟨⟨decode_lt hpage, decode_lt hitem⟩, ?_⟩
  rw [TupleId.toBytes, encode_decode hpage, encode_decode hitem, ← hz]
  have h8 : bs.drop 8 = (bs.drop 6).drop 2 := by rw [List.drop_drop]
  have h6 : bs.drop 6 = (bs.drop 4).drop 2 := by rw [List.drop_drop]
  rw [List.append_assoc, List.append_assoc, h8, List.take_append_drop, h6, List.take_append_drop,
    List.take_append_drop]

theorem mistaken (h : r.Fits) (hu : ¬ r.Unmistakable) :
    ∃ r' : HeapWALRecord, r'.Fits ∧ r' ≠ r ∧ r'.serialize = r.serialize := by
  cases r with
  | Delete tableId location =>
    have hsmall : location.pageno < 2 ^ 16 := Nat.not_le.1 hu
    refine ⟨.Insert ⟨tableId, location.pageno⟩ (encodeLE 2 location.itemid ++ [0, 0]), ⟨h.1, hsmall⟩, nofun, ?_⟩
    rw [delete_eq]
    exact insert_mistaken hsmall _
  | Update tableId old new data =>
    have hsmall : old.pageno < 2 ^ 16 := Nat.not_le.1 hu
    refine ⟨.Insert ⟨tableId, old.pageno⟩ (encodeLE 2 old.itemid ++ ([0, 0] ++ (new.toBytes ++ data))),
      ⟨h.1, hsmall⟩, nofun, ?_⟩
    rw [update_eq]
    exact insert_mistaken hsmall _
  | Insert loc data =>
    have hitem : loc.itemid < 2 ^ 16 := h.2
    -- the bytes of the item and its padding are those of a page number
    have hstart : ∀ rest, loc.toBytes ++ rest = encodeLE 4 loc.pageno ++ (encodeLE 4 loc.itemid ++ rest) :=
      insert_mistaken hitem
    have hcases : (data.length = 4 ∧ data.drop 2 = [0, 0]) ∨
        (12 ≤ data.length ∧ (data.drop 2).take 2 = [0, 0] ∧ (data.drop 10).take 2 = [0, 0]) := by
      by_cases hc : data.length = 4 ∧ data.drop 2 = [0, 0]
      · exact .inl hc
      · exact .inr (Classical.not_not.1 fun hc' => hu ⟨hc, hc'⟩)
    rcases hcases with ⟨hlen, hz⟩ | ⟨hlen, hz, hz'⟩
    · have htake : (data.take 2).length = 2 := by rw [List.length_take]; omega
      refine ⟨.Delete loc.pageno ⟨loc.itemid, decodeLE (data.take 2)⟩, ⟨h.1, by simp only; omega, decode_lt htake⟩,
        nofun, ?_⟩
      rw [delete_eq]
      simp only [encode_decode htake]
      rw [← hz, List.take_append_drop]
      exact (hstart data).symm
    · have htake : (data.take 2).length = 2 := by rw [List.length_take]; omega
      have hrest : 8 ≤ (data.drop 4).length := by rw [List.length_drop]; omega
      obtain ⟨hfits, hnew⟩ := toBytes_decode hrest (by rw [List.drop_drop]; exact hz')
      refine ⟨.Update loc.pageno ⟨loc.itemid, decodeLE (data.take 2)⟩ _ ((data.drop 4).drop 8),
        ⟨h.1, ⟨by simp only; omega, decode_lt htake⟩, hfits⟩, nofun, ?_⟩
      rw [update_eq, hnew]
      simp only [encode_decode htake]
      have h4 : data.drop 4 = (data.drop 2).drop 2 := by rw [List.drop_drop]
      rw [← hz, h4, List.take_append_drop, List.take_append_drop]
      exact (hstart data).symm

end HeapWALRecord

/-! ## Logs -/

namespace WriteAheadLog

theorem header_length (xid rmgrId length : Nat) : (header xid rmgrId length).length = 24 := by
  simp [header]

theorem header_inj {xid xid' rmgrId length length' : Nat} (hx : xid < 2 ^ 64) (hx' : xid' < 2 ^ 64)
    (hl : length < 2 ^ 64) (hl' : length' < 2 ^ 64) (h : header xid rmgrId length = header xid' rmgrId length') :
    xid = xid' ∧ length = length' := by
  obtain ⟨hxid, h⟩ := List.append_inj h (by simp)
  obtain ⟨-, h⟩ := List.append_inj h (by simp)
  obtain ⟨-, hlen⟩ := List.append_inj h (by simp)
  exact ⟨encodeLE_inj hx hx' hxid, encodeLE_inj hl hl' hlen⟩

theorem payloads_eq :
    ∀ {log log' : List (Nat × HeapWALRecord)}, Fits log → Fits log' → fileBytes log = fileBytes log' →
    log.map (fun e => (e.1, e.2.serialize)) = log'.map fun e => (e.1, e.2.serialize)
  | [], [], _, _, _ => rfl
  | [], e :: log', _, _, h => by
    have hlen := congrArg List.length h
    simp [fileBytes, recordBytes, header_length] at hlen
    omega
  | e :: log, [], _, _, h => by
    have hlen := congrArg List.length h
    simp [fileBytes, recordBytes, header_length] at hlen
  | e :: log, e' :: log', hf, hf', h => by
    obtain ⟨hx, -, hl⟩ := hf e List.mem_cons_self
    obtain ⟨hx', -, hl'⟩ := hf' e' List.mem_cons_self
    have hbytes : recordBytes e.1 e.2 ++ fileBytes log = recordBytes e'.1 e'.2 ++ fileBytes log' := h
    rw [recordBytes, recordBytes, List.append_assoc, List.append_assoc] at hbytes
    obtain ⟨hheader, hbytes⟩ := List.append_inj hbytes (by rw [header_length, header_length])
    obtain ⟨hxid, hlen⟩ := header_inj hx hx' hl hl' hheader
    obtain ⟨hrecord, hrest⟩ :=
      List.append_inj hbytes (by rw [HeapWALRecord.serialize_length, HeapWALRecord.serialize_length, hlen])
    have ih := payloads_eq (fun r hr => hf r (List.mem_cons_of_mem _ hr))
      (fun r hr => hf' r (List.mem_cons_of_mem _ hr)) hrest
    rw [List.map_cons, List.map_cons, hxid, hrecord, ih]

theorem determined_of_unmistakable : ∀ {log log' : List (Nat × HeapWALRecord)}, Fits log → Fits log' →
    (∀ e ∈ log, e.2.Unmistakable) →
    log'.map (fun e => (e.1, e.2.serialize)) = log.map (fun e => (e.1, e.2.serialize)) → log' = log
  | [], [], _, _, _, _ => rfl
  | [], _ :: _, _, _, _, h => nomatch h
  | _ :: _, [], _, _, _, h => nomatch h
  | e :: log, e' :: log', hf, hf', hu, h => by
    rw [List.map_cons, List.map_cons, List.cons.injEq, Prod.mk.injEq] at h
    obtain ⟨⟨hx, hs⟩, h⟩ := h
    have hr := HeapWALRecord.eq_of_serialize (hf e List.mem_cons_self).2.1 (hf' e' List.mem_cons_self).2.1
      (hu e List.mem_cons_self) hs
    have ih := determined_of_unmistakable (fun r hr => hf r (List.mem_cons_of_mem _ hr))
      (fun r hr => hf' r (List.mem_cons_of_mem _ hr)) (fun r hr => hu r (List.mem_cons_of_mem _ hr)) h
    rw [ih]
    congr 1
    exact Prod.ext hx hr

/-- A log can be read back from its bytes exactly if no record can be taken for one of another type. -/
theorem determined_iff {log : List (Nat × HeapWALRecord)} (hf : Fits log) :
    Determined log ↔ ∀ e ∈ log, e.2.Unmistakable := by
  constructor
  · intro hd e he
    by_contra hu
    obtain ⟨hx, hfits, hl⟩ := hf e he
    obtain ⟨r, hr, hne, hs⟩ := HeapWALRecord.mistaken hfits hu
    have hsize : r.calculateSize = e.2.calculateSize := by
      rw [← HeapWALRecord.serialize_length, ← HeapWALRecord.serialize_length, hs]
    obtain ⟨before, after, rfl⟩ := List.append_of_mem he
    have hsame : before ++ (e.1, r) :: after = before ++ e :: after := by
      refine hd _ (fun e' he' => ?_) ?_
      · rcases List.mem_append.1 he' with he' | he'
        · exact hf e' (List.mem_append_left _ he')
        · rcases List.mem_cons.1 he' with rfl | he'
          · exact ⟨hx, hr, by rw [hsize]; exact hl⟩
          · exact hf e' (List.mem_append_right _ (List.mem_cons_of_mem _ he'))
      · simp only [fileBytes, List.flatMap_append, List.flatMap_cons, recordBytes, hs, hsize]
    rw [List.append_cancel_left_eq, List.cons.injEq] at hsame
    exact hne (congrArg Prod.snd hsame.1)
  · intro hu log' hf' h
    exact determined_of_unmistakable hf hf' hu (payloads_eq hf' hf h)

end WriteAheadLog

end Mimidb
