import Mimidb.TupleSerializer

/-!
# The buffer of a serialized tuple

`Serialize` as it runs: a first pass adds the sizes up, a buffer of that size
is allocated, and a rolling bit mask and a cursor go through it. The bytes are
those of `serialize`, and all of the buffer is written.
-/

namespace Mimidb

structure SerializedTupleInfo where
  Tuple : List UInt8
  HasNulls : Bool
  deriving DecidableEq, Repr

namespace TupleSerializer

/-! ## The first pass -/

def valueSize (dbg : Bool) (attr : AttributeDescriptor) (value : Datum) : Except Fault Nat :=
  if attr.byVal then do
    assert dbg (0 < attr.length)
    return (attr.length % 2 ^ 64).toNat
  else if 0 < attr.length then .ok attr.length.toNat
  else match value with
    | .scalar _ => .error .outOfBounds
    | .pointer bytes => do
      if bytes.length < 4 then throw .outOfBounds
      let length := decodeLE (bytes.take 4)
      assert dbg (0 < length)
      return 4 + length

/-- Whether one value is NULL, and the size of those that are not. -/
def valuesSize (dbg : Bool) : List AttributeDescriptor → List Datum → List Bool → Except Fault (Bool × Nat)
  | [], _, _ => .ok (false, 0)
  | _ :: attrs, _ :: values, true :: isnull => do
    let (_, tupsize) ← valuesSize dbg attrs values isnull
    return (true, tupsize)
  | attr :: attrs, value :: values, false :: isnull => do
    let size ← valueSize dbg attr value
    let (hasnulls, tupsize) ← valuesSize dbg attrs values isnull
    return (hasnulls, size + tupsize)
  | _ :: _, _, _ => .error .outOfBounds

/-- What is allocated. -/
def tupleSize (dbg : Bool) (attrs : List AttributeDescriptor) (values : List Datum) (isnull : List Bool) :
    Except Fault (Bool × Nat) := do
  let (hasnulls, tupsize) ← valuesSize dbg attrs values isnull
  return (hasnulls, if hasnulls then tupsize + BitUtils.bitmapSize attrs.length else tupsize)

/-! ## The bitmap and the values -/

/-- `bytes` are written at `cursor`. -/
def store (buffer : List UInt8) (cursor : Nat) (bytes : List UInt8) : Except Fault (List UInt8) :=
  if cursor + bytes.length ≤ buffer.length then
    .ok (buffer.take cursor ++ (bytes ++ buffer.drop (cursor + bytes.length)))
  else .error .outOfBounds

/-- `bitmask` is the bit of the attribute before, in the byte that `bitmap` points to. -/
def markBits : List Bool → List UInt8 → Int → Nat → Except Fault (List UInt8)
  | [], buffer, _, _ => .ok buffer
  | null :: isnull, buffer, bitmap, bitmask =>
    let (bitmap, bitmask) := if bitmask = 0x80 then (bitmap + 1, 1) else (bitmap, bitmask <<< 1)
    if null then markBits isnull buffer bitmap bitmask
    else if bitmap < 0 ∨ buffer.length ≤ bitmap then .error .outOfBounds
    else markBits isnull (buffer.modify bitmap.toNat fun b => b ||| UInt8.ofNat bitmask) bitmap bitmask

def writeValue (attr : AttributeDescriptor) (value : Datum) (buffer : List UInt8) (cursor : Nat) :
    Except Fault (List UInt8 × Nat) :=
  if attr.byVal then
    match scalarWidth attr.length, value with
    | none, _ => .error (.runtimeError "invalid by val attr length")
    | some w, .scalar n => do
      let buffer ← store buffer cursor (encodeLE w (n % 256 ^ w).toNat)
      return (buffer, cursor + w)
    | some _, .pointer _ => .error .outOfBounds
  else match value with
    | .scalar _ => .error .outOfBounds
    | .pointer data =>
      if 0 < attr.length then do
        if data.length < attr.length.toNat then throw .outOfBounds
        let buffer ← store buffer cursor (data.take attr.length.toNat)
        return (buffer, cursor + attr.length.toNat)
      else do
        let length := decodeLE (data.take 4)
        let buffer ← store buffer cursor (encodeLE 4 length)
        let cursor := cursor + 4
        let data := data.drop 4
        -- the copy takes a negative length for a huge one
        if 2 ^ 31 ≤ length ∨ data.length < length then throw .outOfBounds
        let buffer ← store buffer cursor (data.take length)
        return (buffer, cursor + length)

def writeValues : List AttributeDescriptor → List Datum → List Bool → List UInt8 → Nat →
    Except Fault (List UInt8 × Nat)
  | [], _, _, buffer, cursor => .ok (buffer, cursor)
  | _ :: attrs, _ :: values, true :: isnull, buffer, cursor => writeValues attrs values isnull buffer cursor
  | attr :: attrs, value :: values, false :: isnull, buffer, cursor => do
    let (buffer, cursor) ← writeValue attr value buffer cursor
    writeValues attrs values isnull buffer cursor
  | _ :: _, _, _, _, _ => .error .outOfBounds

/-- The buffer when all is written, and where the cursor ends. -/
def fillBuffer (attrs : List AttributeDescriptor) (values : List Datum) (isnull : List Bool) (hasnulls : Bool)
    (buffer : List UInt8) : Except Fault (List UInt8 × Nat) :=
  if hasnulls then do
    let bmsize := BitUtils.bitmapSize attrs.length
    let buffer ← store buffer 0 (List.replicate bmsize 0)
    -- one byte before the bitmap, so that the first attribute starts a byte
    let buffer ← markBits (isnull.take attrs.length) buffer (-1) 0x80
    writeValues attrs values isnull buffer bmsize
  else writeValues attrs values isnull buffer 0

def serializeTuple (dbg : Bool) (desc : TupleDescriptor) (values : List Datum) (isnull : List Bool) :
    Except Fault SerializedTupleInfo := do
  let maxAttno := desc.getMaxAttrNumber
  if maxAttno = 2 ^ 16 - 1 then throw .diverges
  let attrs := desc.attributes.take maxAttno
  let (hasnulls, tupsize) ← tupleSize dbg attrs values isnull
  let (buffer, _) ← fillBuffer attrs values isnull hasnulls (List.replicate tupsize 0)
  return ⟨buffer, hasnulls⟩

/-! ## Sizes -/

/-- The values with their NULL pattern. -/
def nullable (values : List Datum) (isnull : List Bool) : List (Option Datum) :=
  List.zipWith (fun value null => if null then none else some value) values isnull

/-- A value for each attribute, which holds it if it is not NULL. -/
structure Codable (dbg : Bool) (desc : TupleDescriptor) (values : List Datum) (isnull : List Bool) : Prop where
  count : desc.attributes.length ≤ 65534
  lengths : values.length = desc.attributes.length ∧ isnull.length = desc.attributes.length
  fits : ∀ (i : Nat) (attr : AttributeDescriptor) (value : Datum), desc.attributes[i]? = some attr →
    values[i]? = some value → isnull[i]? = some false → Fits dbg attr value

section
variable {dbg : Bool} {attr : AttributeDescriptor} {value : Datum} {bytes : List UInt8}

theorem valueSize_encodeValue (hf : Fits dbg attr value) (he : encodeValue attr value = .ok bytes) :
    valueSize dbg attr value = .ok bytes.length := by
  unfold encodeValue at he
  unfold valueSize
  cases value with
  | scalar n =>
    obtain ⟨hval, w, hw, -⟩ := hf
    have hpos := scalarWidth_pos hw
    have hcases := scalarWidth_cases hw
    simp only [hval, if_true, hw] at he ⊢
    cases he
    rw [encodeLE_length, show assert dbg (0 < attr.length) = .ok () by simp [assert, hpos.1]]
    have hlen : (attr.length % 2 ^ 64).toNat = w := by omega
    rw [hlen]
    rfl
  | pointer data =>
    obtain ⟨hval, hf⟩ := hf
    simp only [hval, Bool.false_eq_true, if_false] at he ⊢
    by_cases hfixed : 0 < attr.length
    · rw [if_pos hfixed] at he hf ⊢
      rw [if_neg (by omega)] at he
      cases he
      rw [List.length_take, Nat.min_eq_left (by omega)]
    · rw [if_neg hfixed] at he hf ⊢
      obtain ⟨h4, hpos, hlt, hlen⟩ := hf
      rw [if_neg (by omega)] at he
      have hassert : assert dbg (0 < decodeLE (data.take 4)) = .ok () := by cases dbg <;> simp [assert, hpos]
      have hcount : (encodeLE 4 (decodeLE (data.take 4)) ++ (data.drop 4).take (decodeLE (data.take 4))).length =
          4 + decodeLE (data.take 4) := by
        rw [List.length_append, encodeLE_length, List.length_take, List.length_drop]
        omega
      cases he
      rw [hcount, if_neg (by omega), hassert]
      rfl

variable {attrs : List AttributeDescriptor} {values : List Datum} {isnull : List Bool}

theorem valuesSize_encodeValues (hn : isnull.length = attrs.length) (hv : values.length = attrs.length)
    (hf : FitsAll dbg attrs (nullable values isnull))
    (he : encodeValues attrs (nullable values isnull) = .ok bytes) :
    valuesSize dbg attrs values isnull = .ok ((nullable values isnull).any Option.isNone, bytes.length) := by
  induction attrs generalizing values isnull bytes with
  | nil =>
    obtain rfl := List.length_eq_zero_iff.1 hv
    cases he
    rfl
  | cons attr attrs ih =>
    obtain ⟨value, values, rfl⟩ := List.exists_cons_of_length_eq_add_one hv
    obtain ⟨null, isnull, rfl⟩ := List.exists_cons_of_length_eq_add_one hn
    have hn' : isnull.length = attrs.length := Nat.succ.inj hn
    have hv' : values.length = attrs.length := Nat.succ.inj hv
    cases hf with
    | cons h1 hf =>
      cases null with
      | true =>
        rw [valuesSize, ih hn' hv' hf he]
        rfl
      | false =>
        obtain ⟨first, hfirst, he⟩ := bind_eq_ok.1 he
        obtain ⟨rest, hrest, he⟩ := bind_eq_ok.1 he
        cases he
        rw [valuesSize, valueSize_encodeValue (h1 value rfl) hfirst, ih hn' hv' hf hrest, List.length_append]
        rfl

end

/-! ## Writing -/

section
variable {attr : AttributeDescriptor} {value : Datum} {before rest bytes : List UInt8}

theorem store_append (before rest bytes : List UInt8) (h : bytes.length ≤ rest.length) :
    store (before ++ rest) before.length bytes = .ok (before ++ bytes ++ rest.drop bytes.length) := by
  have htake : (before ++ rest).take before.length = before := List.take_left
  have hdrop : (before ++ rest).drop (before.length + bytes.length) = rest.drop bytes.length := by
    rw [List.drop_append, List.drop_eq_nil_of_le (by omega), List.nil_append, Nat.add_sub_cancel_left]
  unfold store
  rw [if_pos (by rw [List.length_append]; omega), htake, hdrop, List.append_assoc]

theorem writeValue_encodeValue (he : encodeValue attr value = .ok bytes) (h : bytes.length ≤ rest.length) :
    writeValue attr value (before ++ rest) before.length =
      .ok (before ++ bytes ++ rest.drop bytes.length, before.length + bytes.length) := by
  unfold encodeValue at he
  unfold writeValue
  cases hval : attr.byVal with
  | true =>
    simp only [hval, if_true] at he ⊢
    cases hw : scalarWidth attr.length with
    | none => rw [hw] at he; cases he
    | some w =>
      rw [hw] at he
      cases value with
      | pointer _ => cases he
      | scalar n =>
        cases he
        simp only [store_append _ _ _ h]
        rw [encodeLE_length]
        rfl
  | false =>
    simp only [hval, Bool.false_eq_true, if_false] at he ⊢
    cases value with
    | scalar _ => cases he
    | pointer data =>
      simp only at he ⊢
      by_cases hfixed : 0 < attr.length
      · rw [if_pos hfixed] at he ⊢
        by_cases hshort : data.length < attr.length.toNat
        · rw [if_pos hshort] at he
          cases he
        rw [if_neg hshort] at he
        cases he
        have hlen : (data.take attr.length.toNat).length = attr.length.toNat := by
          rw [List.length_take]
          omega
        simp only [hlen] at h ⊢
        rw [if_neg hshort, store_append _ _ _ (by rw [hlen]; exact h), hlen]
        rfl
      · rw [if_neg hfixed] at he ⊢
        by_cases hbad : 2 ^ 31 ≤ decodeLE (data.take 4) ∨ data.length < 4 + decodeLE (data.take 4)
        · rw [if_pos hbad] at he
          cases he
        rw [if_neg hbad] at he
        cases he
        have hdata : ((data.drop 4).take (decodeLE (data.take 4))).length = decodeLE (data.take 4) := by
          rw [List.length_take, List.length_drop]
          omega
        rw [List.length_append, encodeLE_length, hdata] at h ⊢
        have h4 : (before ++ encodeLE 4 (decodeLE (data.take 4))).length = before.length + 4 := by
          rw [List.length_append, encodeLE_length]
        have hfirst := store_append before rest (encodeLE 4 (decodeLE (data.take 4)))
          (by rw [encodeLE_length]; omega)
        have hsecond := store_append (before ++ encodeLE 4 (decodeLE (data.take 4))) (rest.drop 4)
          ((data.drop 4).take (decodeLE (data.take 4))) (by rw [hdata, List.length_drop]; omega)
        rw [h4, hdata] at hsecond
        rw [encodeLE_length] at hfirst
        rw [hfirst]
        show (do
          if 2 ^ 31 ≤ decodeLE (data.take 4) ∨
            (data.drop 4).length < decodeLE (data.take 4) then throw Fault.outOfBounds
          let buffer ← store (before ++ encodeLE 4 (decodeLE (data.take 4)) ++ rest.drop 4) (before.length + 4)
            ((data.drop 4).take (decodeLE (data.take 4)))
          return (buffer, before.length + 4 + decodeLE (data.take 4))) = _
        rw [if_neg (by rw [List.length_drop]; omega), hsecond, List.drop_drop,
          Nat.add_assoc, ← List.append_assoc before]
        rfl

variable {attrs : List AttributeDescriptor} {values : List Datum} {isnull : List Bool}

theorem writeValues_encodeValues (before rest : List UInt8) (hn : isnull.length = attrs.length)
    (hv : values.length = attrs.length) (he : encodeValues attrs (nullable values isnull) = .ok bytes)
    (h : bytes.length ≤ rest.length) :
    writeValues attrs values isnull (before ++ rest) before.length =
      .ok (before ++ bytes ++ rest.drop bytes.length, before.length + bytes.length) := by
  induction attrs generalizing values isnull bytes before rest with
  | nil =>
    cases he
    rw [writeValues, List.append_nil, List.length_nil, List.drop_zero, Nat.add_zero]
  | cons attr attrs ih =>
    obtain ⟨value, values, rfl⟩ := List.exists_cons_of_length_eq_add_one hv
    obtain ⟨null, isnull, rfl⟩ := List.exists_cons_of_length_eq_add_one hn
    have hn' : isnull.length = attrs.length := Nat.succ.inj hn
    have hv' : values.length = attrs.length := Nat.succ.inj hv
    cases null with
    | true => exact ih before rest hn' hv' he h
    | false =>
      obtain ⟨first, hfirst, he⟩ := bind_eq_ok.1 he
      obtain ⟨more, hmore, he⟩ := bind_eq_ok.1 he
      cases he
      rw [List.length_append] at h ⊢
      have hnext := ih (before ++ first) (rest.drop first.length) hn' hv' hmore
        (by rw [List.length_drop]; omega)
      rw [List.length_append, List.drop_drop] at hnext
      rw [writeValues, writeValue_encodeValue hfirst (by omega)]
      show writeValues attrs values isnull (before ++ first ++ rest.drop first.length)
        (before.length + first.length) = _
      rw [hnext, ← List.append_assoc before, Nat.add_assoc]

end

/-! ## The rolling bit mask -/

section
variable {values : List Datum} {isnull : List Bool}

theorem setBits_append (bitmap rest : List UInt8) (idx : Nat) (values : List (Option Datum))
    (h : idx + values.length ≤ 8 * bitmap.length) :
    setBits (bitmap ++ rest) idx values = setBits bitmap idx values ++ rest := by
  induction values generalizing bitmap idx with
  | nil => rfl
  | cons o values ih =>
    rw [List.length_cons] at h
    cases o with
    | none => exact ih _ _ (by omega)
    | some value =>
      have hmodify : (bitmap ++ rest).modify (idx / 8) (fun b => UInt8.ofNat (b.toNat ||| 2 ^ (idx % 8))) =
          bitmap.modify (idx / 8) (fun b => UInt8.ofNat (b.toNat ||| 2 ^ (idx % 8))) ++ rest := by
        have hlt : idx / 8 < bitmap.length := by omega
        rw [List.modify_eq_take_cons_drop (by rw [List.length_append]; omega), List.modify_eq_take_cons_drop hlt,
          List.take_append_of_le_length hlt.le, List.drop_append_of_le_length hlt, List.getElem_append_left hlt]
        simp only [List.append_assoc, List.cons_append]
      rw [setBits, setBits, hmodify, ih _ _ (by rw [List.length_modify]; omega)]

/-- Before attribute `idx` the mask is the bit, and the pointer the byte, of attribute `idx - 1`. -/
theorem markBits_setBits (buffer : List UInt8) (idx : Nat) (hv : values.length = isnull.length)
    (h : idx + isnull.length ≤ 8 * buffer.length) :
    markBits isnull buffer (((idx : Int) - 1) / 8) (2 ^ ((idx + 7) % 8)) =
    .ok (setBits buffer idx (nullable values isnull)) := by
  induction isnull generalizing values buffer idx with
  | nil =>
    obtain rfl := List.length_eq_zero_iff.1 hv
    rfl
  | cons null isnull ih =>
    obtain ⟨value, values, rfl⟩ := List.exists_cons_of_length_eq_add_one hv
    have hv' : values.length = isnull.length := Nat.succ.inj hv
    rw [List.length_cons] at h
    have hnext : (if 2 ^ ((idx + 7) % 8) = 0x80 then (((idx : Int) - 1) / 8 + 1, 1)
        else (((idx : Int) - 1) / 8, 2 ^ ((idx + 7) % 8) <<< 1)) =
          ((((idx + 1 : Nat) : Int) - 1) / 8, 2 ^ ((idx + 1 + 7) % 8)) := by
      by_cases h0 : idx % 8 = 0
      · have h7 : (idx + 7) % 8 = 7 := by omega
        have h8 : (idx + 1 + 7) % 8 = 0 := by omega
        rw [h7, h8, if_pos (by norm_num), Prod.mk.injEq]
        exact ⟨by omega, by norm_num⟩
      · have h7 : (idx + 7) % 8 < 7 := by omega
        have h8 : (idx + 1 + 7) % 8 = (idx + 7) % 8 + 1 := by omega
        have hne : 2 ^ ((idx + 7) % 8) ≠ 0x80 := fun he =>
          Nat.ne_of_lt (Nat.pow_lt_pow_right (a := 2) (by norm_num) h7) he
        rw [if_neg hne, h8, Nat.shiftLeft_eq, pow_one, pow_succ, Prod.mk.injEq]
        exact ⟨by omega, rfl⟩
    have hbyte : ((((idx + 1 : Nat) : Int) - 1) / 8) = ((idx / 8 : Nat) : Int) := by omega
    have hbit : (idx + 1 + 7) % 8 = idx % 8 := by omega
    rw [markBits, hnext]
    cases null with
    | true =>
      simp only [if_true]
      exact ih _ (idx + 1) hv' (by omega)
    | false =>
      have hin : ¬ ((((idx + 1 : Nat) : Int) - 1) / 8 < 0 ∨
          (buffer.length : Int) ≤ (((idx + 1 : Nat) : Int) - 1) / 8) := by
        omega
      simp only [Bool.false_eq_true, if_false, if_neg hin]
      rw [ih _ (idx + 1) hv' (by rw [List.length_modify]; omega), hbyte, Int.toNat_natCast, hbit]
      simp only [nullable, List.zipWith_cons_cons, Bool.false_eq_true, if_false, setBits, UInt8.ofNat_or,
        UInt8.ofNat_toNat]

end

/-! ## Round trip of the buffer -/

section
variable {dbg : Bool} {desc : TupleDescriptor} {values : List Datum} {isnull : List Bool}

theorem nullable_length (hv : values.length = isnull.length) : (nullable values isnull).length = isnull.length := by
  rw [nullable, List.length_zipWith, hv, Nat.min_self]

theorem Codable.max (h : Codable dbg desc values isnull) : desc.getMaxAttrNumber = desc.attributes.length :=
  Nat.mod_eq_of_lt (Nat.lt_of_le_of_lt h.count (by norm_num))

theorem Codable.typed (h : Codable dbg desc values isnull) : Typed dbg desc (nullable values isnull) where
  count := by
    have hcount := h.count
    rw [h.max]
    omega
  fits := by
    rw [h.max, List.take_length]
    have hlen := nullable_length (h.lengths.1.trans h.lengths.2.symm)
    refine List.forall₂_iff_get.2 ⟨by rw [hlen, h.lengths.2], fun i hi hi' d hd => ?_⟩
    have hvi : i < values.length := h.lengths.1 ▸ hi
    have hni : i < isnull.length := h.lengths.2 ▸ hi
    have hd' : (if isnull[i] then none else some values[i]) = some d := by
      simpa [nullable] using hd
    cases hnull : isnull[i] with
    | true => rw [hnull] at hd'; cases hd'
    | false =>
      rw [hnull] at hd'
      cases hd'
      exact h.fits i _ _ (List.getElem?_eq_getElem hi) (List.getElem?_eq_getElem hvi)
        (by rw [List.getElem?_eq_getElem hni, hnull])

/-- Whatever is in the buffer before, all of it is written, with the bytes of `serialize`. -/
theorem fillBuffer_serialize {attrs : List AttributeDescriptor} {data : List UInt8} (buffer : List UInt8)
    (hn : isnull.length = attrs.length) (hv : values.length = attrs.length)
    (he : encodeValues attrs (nullable values isnull) = .ok data)
    (hb : buffer.length = if (nullable values isnull).any Option.isNone then data.length + BitUtils.bitmapSize
      attrs.length
      else data.length) :
    fillBuffer attrs values isnull ((nullable values isnull).any Option.isNone) buffer =
      .ok ((if (nullable values isnull).any Option.isNone then nullBitmap (nullable values isnull) else []) ++ data,
        buffer.length) := by
  have hlen : (nullable values isnull).length = attrs.length := (nullable_length (hv.trans hn.symm)).trans hn
  cases hnull : (nullable values isnull).any Option.isNone with
  | false =>
    rw [hnull] at hb
    simp only [Bool.false_eq_true, if_false] at hb ⊢
    have hw := writeValues_encodeValues [] buffer hn hv he hb.ge
    rw [List.drop_eq_nil_of_le hb.le] at hw
    simp only [List.nil_append, List.append_nil, List.length_nil, Nat.zero_add] at hw
    simp only [fillBuffer, Bool.false_eq_true, if_false, hw, hb, List.nil_append]
  | true =>
    rw [hnull] at hb
    simp only [if_true] at hb ⊢
    have hsize :
      (List.replicate (BitUtils.bitmapSize attrs.length) (0 : UInt8)).length = BitUtils.bitmapSize attrs.length :=
      List.length_replicate
    have hzero := store_append [] buffer
      (List.replicate (BitUtils.bitmapSize attrs.length) 0) (by omega)
    rw [hsize, List.length_nil, List.nil_append, List.nil_append] at hzero
    have hroom : 0 + attrs.length ≤ 8 * BitUtils.bitmapSize attrs.length := by
      unfold BitUtils.bitmapSize
      omega
    have hmark := markBits_setBits
      (List.replicate (BitUtils.bitmapSize attrs.length) 0 ++ buffer.drop (BitUtils.bitmapSize attrs.length)) 0
      (hv.trans hn.symm) (by rw [List.length_append, hsize]; omega)
    have hbits := setBits_append (List.replicate (BitUtils.bitmapSize attrs.length) 0)
      (buffer.drop (BitUtils.bitmapSize attrs.length)) 0 (nullable values isnull)
      (by rw [hlen, hsize]; exact hroom)
    have hmap : setBits (List.replicate (BitUtils.bitmapSize attrs.length) 0) 0 (nullable values isnull) =
        nullBitmap (nullable values isnull) := by rw [nullBitmap, hlen]
    have hmaplen : (nullBitmap (nullable values isnull)).length = BitUtils.bitmapSize attrs.length := by
      rw [nullBitmap_length, hlen]
    rw [hbits, hmap] at hmark
    have hw := writeValues_encodeValues (nullBitmap (nullable values isnull))
      (buffer.drop (BitUtils.bitmapSize attrs.length)) hn hv he (by rw [List.length_drop]; omega)
    have hdone : (buffer.drop (BitUtils.bitmapSize attrs.length)).drop data.length = [] :=
      List.drop_eq_nil_of_le (by rw [List.length_drop]; omega)
    rw [hmaplen, hdone, List.append_nil] at hw
    have htake : isnull.take attrs.length = isnull := by rw [← hn, List.take_length]
    rw [fillBuffer, if_pos rfl]
    simp only [hzero, htake]
    show (do
      let buffer ← markBits isnull (List.replicate (BitUtils.bitmapSize attrs.length) 0 ++
        buffer.drop (BitUtils.bitmapSize attrs.length)) (((0 : Nat) - 1 : Int) / 8) (2 ^ ((0 + 7) % 8))
      writeValues attrs values isnull buffer (BitUtils.bitmapSize attrs.length)) = _
    rw [hmark, hb, Nat.add_comm data.length]
    exact hw

/-- The tuple fills what was allocated for it, and is read back with its NULL pattern. -/
theorem tuple_round_trip (h : Codable dbg desc values isnull) :
    ∃ tupsize tuple, tupleSize dbg desc.attributes values isnull = .ok (tuple.HasNulls, tupsize) ∧
      serializeTuple dbg desc values isnull = .ok tuple ∧
      (∀ buffer, buffer.length = tupsize →
        fillBuffer desc.attributes values isnull tuple.HasNulls buffer = .ok (tuple.Tuple, tupsize)) ∧
      tuple.Tuple.length = tupsize ∧
      deserialize dbg desc tuple.Tuple tuple.HasNulls tuple.Tuple.length = .ok (nullable values isnull) := by
  obtain ⟨hv, hn⟩ := h.lengths
  have htyped := h.typed
  have hfits := htyped.fits
  rw [h.max, List.take_length] at hfits
  obtain ⟨data, he, -⟩ := extractValues_encodeValues hfits
  obtain ⟨bytes, hser, hdes⟩ := deserialize_serialize htyped
  have hsize : tupleSize dbg desc.attributes values isnull = .ok ((nullable values isnull).any Option.isNone,
      if (nullable values isnull).any Option.isNone then data.length + BitUtils.bitmapSize desc.attributes.length
      else data.length) := by
    rw [tupleSize, valuesSize_encodeValues hn hv hfits he]
    rfl
  have hlen : (nullable values isnull).length = desc.attributes.length :=
    (nullable_length (hv.trans hn.symm)).trans hn
  have hbytes : bytes = (if (nullable values isnull).any Option.isNone then nullBitmap (nullable values isnull)
      else []) ++ data := by
    have hcheck := checkSizes_ok hfits
    simp only [serialize, if_neg htyped.count] at hser
    rw [h.max, List.take_length, hcheck, ← hlen, List.take_length] at hser
    simp only [he] at hser
    cases hser
    rfl
  have hfill := fun buffer hb => fillBuffer_serialize buffer hn hv he hb
  rw [← hbytes] at hfill
  have hzero := hfill (List.replicate _ 0) List.length_replicate
  have hwrite :
      serializeTuple dbg desc values isnull = .ok ⟨bytes, (nullable values isnull).any Option.isNone⟩ := by
    have hcount := htyped.count
    simp only [serializeTuple, if_neg hcount]
    rw [h.max, List.take_length, hsize]
    show (do
      let (buffer, _) ← fillBuffer desc.attributes values isnull ((nullable values isnull).any Option.isNone)
        (List.replicate _ 0)
      return SerializedTupleInfo.mk buffer ((nullable values isnull).any Option.isNone)) = _
    rw [hzero]
    rfl
  refine ⟨_, ⟨bytes, (nullable values isnull).any Option.isNone⟩, hsize, hwrite, fun buffer hb => ?_, ?_, ?_⟩
  · rw [hfill buffer hb, hb]
  · rw [hbytes, List.length_append]
    cases (nullable values isnull).any Option.isNone
    · exact Nat.zero_add _
    · simp only [if_true, nullBitmap_length, hlen, Nat.add_comm]
  · have hd := hdes [] bytes.length
    rwa [List.append_nil] at hd

end

/-- A number, a string of two bytes, and a NULL. -/
theorem tuple_round_trip_null : let desc := TupleDescriptor.mk [⟨4, true⟩, ⟨-1, false⟩, ⟨3, false⟩]
    let values := [.scalar (-5), .pointer [2, 0, 0, 0, 7, 8], .scalar 0]
    let isnull := [false, false, true]
    serializeTuple true desc values isnull = .ok ⟨[3, 0xfb, 0xff, 0xff, 0xff, 2, 0, 0, 0, 7, 8], true⟩ ∧
      ∃ tuple, serializeTuple true desc values isnull = .ok tuple ∧
        deserialize true desc tuple.Tuple tuple.HasNulls tuple.Tuple.length =
          .ok [some (.scalar (-5)), some (.pointer [2, 0, 0, 0, 7, 8]), none] := by
  intro desc values isnull
  have hcodable : Codable true desc values isnull := by
    refine ⟨by decide, ⟨rfl, rfl⟩, fun i attr value ha hv hn => ?_⟩
    match i with
    | 0 => cases ha; cases hv; exact ⟨rfl, 4, rfl, by decide, by decide⟩
    | 1 => cases ha; cases hv; exact ⟨rfl, by decide⟩
    | 2 => cases hn
    | i + 3 => cases ha
  obtain ⟨_, tuple, -, hser, -, -, hdes⟩ := tuple_round_trip hcodable
  exact ⟨by decide +kernel, tuple, hser, hdes⟩

end TupleSerializer

end Mimidb
