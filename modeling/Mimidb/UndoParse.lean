import Mimidb.UndoBytes

/-!
# What the undo parser accepts

`ParseUndo` tests the length of the record of a delete only. The other two are
read before their length is looked at, so a buffer that is shorter than the
fixed part of its type is read beyond its end. Any other buffer is rejected or
is what the parsed record serializes to.
-/

namespace Mimidb

namespace HeapResourceManager

/-- Where records of type `t` have the padding of a `TupleId`. -/
def paddingOffsets (t : Nat) : List Nat := if t = 2 then [10, 11, 18, 19] else [10, 11]

/-- The buffer is rejected without a read outside of it, or it is a serialized record of type `t`. -/
def ParsesExactly (t : Nat) (data : List UInt8) : Prop :=
  match parseUndo t data with
  | .error fault => fault ≠ .outOfBounds
  | .ok record => record.getType = t ∧ record.calculateSize = data.length ∧ record.serialize.length = data.length ∧
    ∀ i ∉ paddingOffsets t, record.serialize[i]? = data[i]?

end HeapResourceManager

namespace TupleId

variable {bytes : List UInt8}

theorem toBytes_ofBytes (h : 8 ≤ bytes.length) :
    (ofBytes bytes).toBytes = bytes.take 4 ++ ((bytes.drop 4).take 2 ++ [0, 0]) := by
  have hpageno : encodeLE 4 (decodeLE (bytes.take 4)) = bytes.take 4 := encodeLE_decodeLE_take (by omega)
  have hitemid : encodeLE 2 (decodeLE ((bytes.drop 4).take 2)) = (bytes.drop 4).take 2 :=
    encodeLE_decodeLE_take (by rw [List.length_drop]; omega)
  rw [toBytes, ofBytes, hpageno, hitemid]

theorem toBytes_ofBytes_get (h : 8 ≤ bytes.length) {i : Nat} (hi : i < 6) :
    (ofBytes bytes).toBytes[i]? = bytes[i]? := by
  have hfirst : (bytes.take 4).length = 4 := by rw [List.length_take]; omega
  have hsecond : ((bytes.drop 4).take 2).length = 2 := by rw [List.length_take, List.length_drop]; omega
  rw [toBytes_ofBytes h]
  by_cases h4 : i < 4
  · rw [List.getElem?_append_left (by omega), List.getElem?_take_of_lt h4]
  · rw [List.getElem?_append_right (by omega), List.getElem?_append_left (by omega), hfirst,
      List.getElem?_take_of_lt (by omega), List.getElem?_drop, Nat.add_sub_cancel' (by omega)]

end TupleId

namespace HeapResourceManager

variable {t : Nat} {data rest : List UInt8}

theorem get_field {w i : Nat} {a : List UInt8} (ha : a.length = w) (hleft : i < w → a[i]? = data[i]?)
    (hright : w ≤ i → rest[i - w]? = (data.drop w)[i - w]?) : (a ++ rest)[i]? = data[i]? := by
  by_cases hi : i < w
  · rw [List.getElem?_append_left (by omega), hleft hi]
  · rw [List.getElem?_append_right (by omega), ha, hright (by omega), List.getElem?_drop,
      Nat.add_sub_cancel' (by omega)]

theorem get_tableId {i : Nat} (h : 4 ≤ data.length) (hright : 4 ≤ i → rest[i - 4]? = (data.drop 4)[i - 4]?) :
    (encodeLE 4 (decodeLE (data.take 4)) ++ rest)[i]? = data[i]? :=
  get_field (encodeLE_length _ _) (fun hi => by rw [encodeLE_decodeLE_take h, List.getElem?_take_of_lt hi]) hright

theorem get_location {i : Nat} (h : 8 ≤ data.length) (h6 : i ≠ 6) (h7 : i ≠ 7)
    (hright : 8 ≤ i → rest[i - 8]? = (data.drop 8)[i - 8]?) :
    ((TupleId.ofBytes data).toBytes ++ rest)[i]? = data[i]? :=
  get_field (TupleId.toBytes_length _) (fun hi => TupleId.toBytes_ofBytes_get h (by omega)) hright

theorem mem_padding {i : Nat} (h : i ∉ paddingOffsets t) : i ≠ 10 ∧ i ≠ 11 ∧ (t = 2 → i ≠ 18 ∧ i ≠ 19) := by
  unfold paddingOffsets at h
  split_ifs at h with ht
  · simp only [List.mem_cons, List.not_mem_nil, or_false, not_or] at h
    exact ⟨h.1, h.2.1, fun _ => h.2.2⟩
  · simp only [List.mem_cons, List.not_mem_nil, or_false, not_or] at h
    exact ⟨h.1, h.2, fun h2 => absurd h2 ht⟩

theorem delete_exact (hlen : data.length = 12) : ParsesExactly 1 data := by
  have hok : parseUndo 1 data = .ok (.Delete (decodeLE (data.take 4)) (TupleId.ofBytes (data.drop 4))) := by
    rw [parseUndo, if_pos rfl, if_neg (fun hne => hne hlen)]
  have hnil : data.drop 12 = [] := List.drop_eq_nil_of_le hlen.le
  rw [ParsesExactly, hok]
  refine ⟨rfl, hlen.symm, ?_, fun i hi => ?_⟩
  · rw [HeapUndoRecord.serialize_length, hlen]
    rfl
  · obtain ⟨h10, h11, -⟩ := mem_padding hi
    rw [HeapUndoRecord.serialize, ← List.append_nil (TupleId.toBytes _)]
    refine get_tableId (by omega) fun h4 => get_location (by rw [List.length_drop]; omega) (by omega) (by omega)
      fun _ => ?_
    rw [List.drop_drop, hnil]

theorem update_exact (hlen : 20 ≤ data.length) : ParsesExactly 2 data := by
  have hok : parseUndo 2 data = .ok (.Update (decodeLE (data.take 4)) (TupleId.ofBytes (data.drop 4))
      (TupleId.ofBytes ((data.drop 4).drop 8)) ((data.drop 4).drop 16)) := by
    have hge : ¬ data.length < 4 + TupleId.size + TupleId.size := Nat.not_lt.2 hlen
    rw [parseUndo, if_neg (by decide), if_pos rfl, if_neg hge]
  have hsize : (HeapUndoRecord.Update (decodeLE (data.take 4)) (TupleId.ofBytes (data.drop 4))
      (TupleId.ofBytes ((data.drop 4).drop 8)) ((data.drop 4).drop 16)).calculateSize = data.length := by
    simp only [HeapUndoRecord.calculateSize, TupleId.size, List.length_drop]
    omega
  rw [ParsesExactly, hok]
  refine ⟨rfl, hsize, by rw [HeapUndoRecord.serialize_length, hsize], fun i hi => ?_⟩
  obtain ⟨h10, h11, hsecond⟩ := mem_padding hi
  obtain ⟨h18, h19⟩ := hsecond rfl
  rw [HeapUndoRecord.serialize]
  refine get_tableId (by omega) fun h4 => get_location (by rw [List.length_drop]; omega) (by omega) (by omega)
    fun h8 =>
    get_location (by rw [List.length_drop, List.length_drop]; omega) (by omega) (by omega) fun _ => ?_
  rw [List.drop_drop (i := 8)]

theorem insert_exact (hlen : 12 ≤ data.length) : ParsesExactly 3 data := by
  have hok : parseUndo 3 data = .ok (.Insert (decodeLE (data.take 4)) (TupleId.ofBytes (data.drop 4))
      ((data.drop 4).drop 8)) := by
    have hge : ¬ data.length < 4 + TupleId.size := Nat.not_lt.2 hlen
    rw [parseUndo, if_neg (by decide), if_neg (by decide), if_pos rfl, if_neg hge]
  have hsize : (HeapUndoRecord.Insert (decodeLE (data.take 4)) (TupleId.ofBytes (data.drop 4))
      ((data.drop 4).drop 8)).calculateSize = data.length := by
    simp only [HeapUndoRecord.calculateSize, TupleId.size, List.length_drop]
    omega
  rw [ParsesExactly, hok]
  refine ⟨rfl, hsize, by rw [HeapUndoRecord.serialize_length, hsize], fun i hi => ?_⟩
  obtain ⟨h10, h11, -⟩ := mem_padding hi
  rw [HeapUndoRecord.serialize]
  exact get_tableId (by omega) fun h4 => get_location (by rw [List.length_drop]; omega) (by omega) (by omega)
    fun _ => rfl

/-- Every record is accepted, and a buffer is read inside its bounds and taken for what it is if and only if
it has the fixed part of an update or an insert. -/
theorem parse_exact_iff (t : Nat) (data : List UInt8) :
    (ParsesExactly t data ↔ (t = 2 → 20 ≤ data.length) ∧ (t = 3 → 12 ≤ data.length)) ∧
      ∀ record : HeapUndoRecord, record.Fits → parseUndo record.getType record.serialize = .ok record := by
  refine ⟨?_, fun record hf => HeapUndoRecord.parse_serialize hf⟩
  constructor
  · intro h
    constructor
    · intro ht
      subst ht
      by_contra hlt
      have hshort : data.length < 4 + TupleId.size + TupleId.size := Nat.not_le.1 hlt
      have herr : parseUndo 2 data = .error .outOfBounds := by
        rw [parseUndo, if_neg (by decide), if_pos rfl, if_pos hshort]
      rw [ParsesExactly, herr] at h
      exact h rfl
    · intro ht
      subst ht
      by_contra hlt
      have hshort : data.length < 4 + TupleId.size := Nat.not_le.1 hlt
      have herr : parseUndo 3 data = .error .outOfBounds := by
        rw [parseUndo, if_neg (by decide), if_neg (by decide), if_pos rfl, if_pos hshort]
      rw [ParsesExactly, herr] at h
      exact h rfl
  · rintro ⟨hupdate, hinsert⟩
    by_cases h1 : t = 1
    · subst h1
      by_cases hlen : data.length = 12
      · exact delete_exact hlen
      · have hne : data.length ≠ 4 + TupleId.size := hlen
        have herr : parseUndo 1 data = .error (.runtimeError "record size does not match") := by
          rw [parseUndo, if_pos rfl, if_pos hne]
        rw [ParsesExactly, herr]
        intro h
        cases h
    · by_cases h2 : t = 2
      · subst h2
        exact update_exact (hupdate rfl)
      · by_cases h3 : t = 3
        · subst h3
          exact insert_exact (hinsert rfl)
        · rw [ParsesExactly, parseUndo, if_neg h1, if_neg h2, if_neg h3]
          intro h
          cases h

/-- An update whose record ends behind the table. -/
theorem short_update_read : parseUndo 2 [5, 0, 0, 0] = .error .outOfBounds ∧ ¬ ParsesExactly 2 [5, 0, 0, 0] := by
  have herr : parseUndo 2 [5, 0, 0, 0] = .error .outOfBounds := rfl
  refine ⟨herr, fun h => ?_⟩
  rw [ParsesExactly, herr] at h
  exact h rfl

end HeapResourceManager

end Mimidb
