import Mathlib.Data.List.Forall2
import Mathlib.Tactic.NormNum
import Mimidb.Bytes
import Mimidb.Config

/-!
# Tuple serialization

The bytes of a tuple behind its header: the bitmap of the attributes that are
not NULL, if one is, and the values in order. A pointer is given by the
memory it points to.
-/

namespace Mimidb

structure AttributeDescriptor where
  /-- `-1` for variable width. -/
  length : Int
  byVal : Bool
  deriving DecidableEq, Repr

structure TupleDescriptor where
  attributes : List AttributeDescriptor
  deriving DecidableEq, Repr

namespace TupleDescriptor

/-- An `AttrNumber` has 16 bits. -/
def getMaxAttrNumber (desc : TupleDescriptor) : Nat := desc.attributes.length % 2 ^ 16

end TupleDescriptor

inductive Datum where
  | scalar (value : Int)
  | pointer (bytes : List UInt8)
  deriving DecidableEq, Repr

namespace BitUtils

def bitmapSize (n : Nat) : Nat := (n + 7) / 8

end BitUtils

namespace TupleSerializer

/-! ## Serialization -/

/-- The size of a value, in the first pass. -/
def checkSize (dbg : Bool) (attr : AttributeDescriptor) : Option Datum → Except Fault Unit
  | none => .ok ()
  | some value =>
    if attr.byVal then assert dbg (0 < attr.length)
    else if 0 < attr.length then .ok ()
    else match value with
      | .scalar _ => .error .outOfBounds
      | .pointer bytes =>
        if bytes.length < 4 then .error .outOfBounds else assert dbg (0 < decodeLE (bytes.take 4))

def checkSizes (dbg : Bool) : List AttributeDescriptor → List (Option Datum) → Except Fault Unit
  | [], _ => .ok ()
  | _ :: _, [] => .error .outOfBounds
  | attr :: attrs, value :: values => do
    checkSize dbg attr value
    checkSizes dbg attrs values

/-- The width of a by-value attribute. -/
def scalarWidth (length : Int) : Option Nat :=
  if length = 1 then some 1 else if length = 2 then some 2 else if length = 4 then some 4
  else if length = 8 then some 8 else none

def encodeValue (attr : AttributeDescriptor) (value : Datum) : Except Fault (List UInt8) :=
  if attr.byVal then
    match scalarWidth attr.length, value with
    | none, _ => .error (.runtimeError "invalid by val attr length")
    | some w, .scalar n => .ok (encodeLE w (n % 256 ^ w).toNat)
    | some _, .pointer _ => .error .outOfBounds
  else match value with
    | .scalar _ => .error .outOfBounds
    | .pointer bytes =>
      if 0 < attr.length then
        if bytes.length < attr.length.toNat then .error .outOfBounds else .ok (bytes.take attr.length.toNat)
      else
        let length := decodeLE (bytes.take 4)
        -- the copy takes a negative length for a huge one
        if 2 ^ 31 ≤ length ∨ bytes.length < 4 + length then .error .outOfBounds
        else .ok (encodeLE 4 length ++ (bytes.drop 4).take length)

def encodeValues : List AttributeDescriptor → List (Option Datum) → Except Fault (List UInt8)
  | [], _ => .ok []
  | _ :: _, [] => .error .outOfBounds
  | _ :: attrs, none :: values => encodeValues attrs values
  | attr :: attrs, some value :: values => do
    let bytes ← encodeValue attr value
    let rest ← encodeValues attrs values
    return bytes ++ rest

/-- Set the bits, from `idx` on, of the attributes that are not NULL. -/
def setBits (bitmap : List UInt8) (idx : Nat) : List (Option Datum) → List UInt8
  | [] => bitmap
  | none :: values => setBits bitmap (idx + 1) values
  | some _ :: values =>
    setBits (bitmap.modify (idx / 8) fun b => UInt8.ofNat (b.toNat ||| 2 ^ (idx % 8))) (idx + 1) values

def nullBitmap (values : List (Option Datum)) : List UInt8 :=
  setBits (List.replicate (BitUtils.bitmapSize values.length) 0) 0 values

/-- The bytes and whether one value is NULL. With 65535 attributes the loops do not end. -/
def serialize (dbg : Bool) (desc : TupleDescriptor) (values : List (Option Datum)) :
    Except Fault (List UInt8 × Bool) := do
  let maxAttno := desc.getMaxAttrNumber
  if maxAttno = 2 ^ 16 - 1 then throw .diverges
  let attrs := desc.attributes.take maxAttno
  checkSizes dbg attrs values
  let values := values.take maxAttno
  let hasnulls := values.any Option.isNone
  let data ← encodeValues attrs values
  return ((if hasnulls then nullBitmap values else []) ++ data, hasnulls)

/-! ## Deserialization -/

/-- A value and its length. -/
def extractAttrDatum (dbg : Bool) (cursor : List UInt8) (attr : AttributeDescriptor) : Except Fault (Datum × Nat) :=
  if attr.byVal then do
    assert dbg (0 < attr.length)
    match scalarWidth attr.length with
    | none => do
      assert dbg false
      throw (.runtimeError s!"unknown type length {attr.length % 2 ^ 64}")
    | some w =>
      if cursor.length < w then throw .outOfBounds
      return (.scalar (signed (8 * w) (decodeLE (cursor.take w))), w)
  else if 0 < attr.length then
    if cursor.length < attr.length.toNat then .error .outOfBounds
    else .ok (.pointer (cursor.take attr.length.toNat), attr.length.toNat)
  else
    let dataLen := decodeLE (cursor.take 4)
    if cursor.length < 4 ∨ 2 ^ 31 ≤ dataLen ∨ cursor.length < 4 + dataLen then .error .outOfBounds
    else .ok (.pointer (cursor.take (4 + dataLen)), 4 + dataLen)

/-- The values, of which `nulls` says which are NULL. -/
def extractValues (dbg : Bool) :
    List AttributeDescriptor → List Bool → List UInt8 → Except Fault (List (Option Datum))
  | [], _, _ => .ok []
  | _ :: _, [], _ => .error .outOfBounds
  | _ :: attrs, true :: nulls, cursor => do
    let values ← extractValues dbg attrs nulls cursor
    return none :: values
  | attr :: attrs, false :: nulls, cursor => do
    let (value, length) ← extractAttrDatum dbg cursor attr
    let values ← extractValues dbg attrs nulls (cursor.drop length)
    return some value :: values

def bitAt (bitmap : List UInt8) (idx : Nat) : Bool := (bitmap.getD (idx / 8) 0).toNat.testBit (idx % 8)

def deserialize (dbg : Bool) (desc : TupleDescriptor) (array : List UInt8) (hasnulls : Bool) (_size : Nat) :
    Except Fault (List (Option Datum)) := do
  let maxAttno := desc.getMaxAttrNumber
  if maxAttno = 2 ^ 16 - 1 then throw .diverges
  let attrs := desc.attributes.take maxAttno
  if hasnulls then
    let size := BitUtils.bitmapSize maxAttno
    if array.length < size then throw .outOfBounds
    let nulls := (List.range maxAttno).map fun idx => !bitAt array idx
    extractValues dbg attrs nulls (array.drop size)
  else extractValues dbg attrs (List.replicate maxAttno false) array

/-! ## Round trip -/

/-- A value that an attribute can hold. -/
def Fits (dbg : Bool) (attr : AttributeDescriptor) : Datum → Prop
  | .scalar n => attr.byVal = true ∧ ∃ w, scalarWidth attr.length = some w ∧ -(256 ^ w) ≤ 2 * n ∧ 2 * n < 256 ^ w
  | .pointer bytes => attr.byVal = false ∧
    if 0 < attr.length then bytes.length = attr.length.toNat
    else 4 ≤ bytes.length ∧ (dbg = true → 0 < decodeLE (bytes.take 4)) ∧ decodeLE (bytes.take 4) < 2 ^ 31 ∧
      bytes.length = 4 + decodeLE (bytes.take 4)

def FitsAll (dbg : Bool) : List AttributeDescriptor → List (Option Datum) → Prop :=
  List.Forall₂ fun attr value => ∀ d, value = some d → Fits dbg attr d

/-- Values for the attributes of a descriptor that the loops can count. -/
structure Typed (dbg : Bool) (desc : TupleDescriptor) (values : List (Option Datum)) : Prop where
  count : desc.getMaxAttrNumber ≠ 2 ^ 16 - 1
  fits : FitsAll dbg (desc.attributes.take desc.getMaxAttrNumber) values

section
variable {dbg : Bool} {attr : AttributeDescriptor} {value : Datum} {rest : List UInt8}

theorem scalarWidth_pos {length : Int} {w : Nat} (h : scalarWidth length = some w) :
    0 < length ∧ (w : Int) = length := by
  unfold scalarWidth at h
  split_ifs at h <;> cases h <;> omega

theorem scalarWidth_cases {length : Int} {w : Nat} (h : scalarWidth length = some w) :
    w = 1 ∨ w = 2 ∨ w = 4 ∨ w = 8 := by
  unfold scalarWidth at h
  split_ifs at h <;> cases h <;> simp

theorem signed_residue {w : Nat} {n : Int} (hw : w = 1 ∨ w = 2 ∨ w = 4 ∨ w = 8) (hlo : -(256 ^ w) ≤ 2 * n)
    (hhi : 2 * n < 256 ^ w) : signed (8 * w) ((n % 256 ^ w).toNat % 256 ^ w) = n := by
  unfold signed
  rcases hw with rfl | rfl | rfl | rfl <;> norm_num at hlo hhi ⊢ <;> split_ifs <;> omega

theorem extractAttrDatum_encodeValue (h : Fits dbg attr value) :
    ∃ bytes, encodeValue attr value = .ok bytes ∧
      ∀ rest, extractAttrDatum dbg (bytes ++ rest) attr = .ok (value, bytes.length) := by
  cases value with
  | scalar n =>
    obtain ⟨hval, w, hw, hlo, hhi⟩ := h
    have hpos := (scalarWidth_pos hw).1
    refine ⟨encodeLE w (n % 256 ^ w).toNat, by simp [encodeValue, hval, hw], fun rest => ?_⟩
    have htake : (encodeLE w (n % 256 ^ w).toNat ++ rest).take w = encodeLE w (n % 256 ^ w).toNat :=
      List.take_left' (encodeLE_length _ _)
    have hassert : assert dbg (0 < attr.length) = .ok () := by simp [assert, hpos]
    simp only [extractAttrDatum, hval, if_true, hassert, hw, htake, decodeLE_encodeLE,
      signed_residue (scalarWidth_cases hw) hlo hhi, List.length_append, encodeLE_length]
    rw [if_neg (by omega)]
    rfl
  | pointer bytes =>
    obtain ⟨hval, h⟩ := h
    unfold encodeValue extractAttrDatum
    simp only [hval, Bool.false_eq_true, if_false]
    split_ifs at h with hfixed
    · refine ⟨bytes, ?_, fun rest => ?_⟩
      · rw [if_pos hfixed, if_neg (by omega), ← h, List.take_length]
      · rw [if_pos hfixed, if_neg (by rw [List.length_append]; omega), List.take_left' h, h]
    · obtain ⟨h4, hpos, hlt, hlen⟩ := h
      have henc : encodeLE 4 (decodeLE (bytes.take 4)) = bytes.take 4 :=
        encodeLE_decodeLE_take (by omega)
      refine ⟨bytes, ?_, fun rest => ?_⟩
      · have hdrop : (bytes.drop 4).take (decodeLE (bytes.take 4)) = bytes.drop 4 :=
          List.take_of_length_le (by rw [List.length_drop]; omega)
        rw [if_neg hfixed, if_neg (by omega), henc, hdrop, List.take_append_drop]
      · have htake : (bytes ++ rest).take 4 = bytes.take 4 := List.take_append_of_le_length h4
        rw [if_neg hfixed]
        simp only [htake]
        rw [if_neg (by rw [List.length_append]; omega), List.take_left' hlen, hlen]

theorem checkSize_ok {o : Option Datum} (h : ∀ d, o = some d → Fits dbg attr d) :
    checkSize dbg attr o = .ok () := by
  cases o with
  | none => rfl
  | some value =>
    have hf := h value rfl
    unfold checkSize
    cases value with
    | scalar n =>
      obtain ⟨hval, w, hw, -⟩ := hf
      simp [hval, assert, (scalarWidth_pos hw).1]
    | pointer bytes =>
      obtain ⟨hval, hf⟩ := hf
      simp only [hval, Bool.false_eq_true, if_false]
      split_ifs at hf ⊢ with h1 h2
      · rfl
      · omega
      · cases dbg <;> simp [assert, hf.2.1]

variable {attrs : List AttributeDescriptor} {values : List (Option Datum)}

theorem checkSizes_ok (h : FitsAll dbg attrs values) :
    checkSizes dbg attrs values = .ok () := by
  induction h with
  | nil => rfl
  | cons hf _ ih =>
    unfold checkSizes
    rw [checkSize_ok hf]
    exact ih

theorem extractValues_encodeValues (h : FitsAll dbg attrs values) :
    ∃ bytes, encodeValues attrs values = .ok bytes ∧
      ∀ rest, extractValues dbg attrs (values.map Option.isNone) (bytes ++ rest) = .ok values := by
  induction h with
  | nil => exact ⟨[], rfl, fun _ => rfl⟩
  | @cons attr o attrs values hf _ ih =>
    obtain ⟨bytes, henc, hext⟩ := ih
    cases o with
    | none =>
      refine ⟨bytes, henc, fun rest => ?_⟩
      rw [List.map_cons, Option.isNone_none, extractValues, hext rest]
      rfl
    | some value =>
      obtain ⟨first, h1, h2⟩ := extractAttrDatum_encodeValue (hf value rfl)
      refine ⟨first ++ bytes, ?_, fun rest => ?_⟩
      · rw [encodeValues, h1, henc]
        rfl
      · rw [List.map_cons, Option.isNone_some, extractValues, List.append_assoc, h2]
        show (do
          let values ← extractValues dbg attrs (values.map Option.isNone)
            ((first ++ (bytes ++ rest)).drop first.length)
          return some value :: values) = _
        rw [List.drop_left, hext rest]
        rfl

end

/-! ## The bitmap -/

section
variable {bitmap : List UInt8} {values : List (Option Datum)} {idx : Nat}

theorem bitAt_modify {j : Nat} (hi : idx / 8 < bitmap.length) :
    bitAt (bitmap.modify (idx / 8) fun b => UInt8.ofNat (b.toNat ||| 2 ^ (idx % 8))) j =
      (bitAt bitmap j || decide (j = idx)) := by
  unfold bitAt
  simp only [List.getD_eq_getElem?_getD, List.getElem?_modify]
  by_cases hj : idx / 8 = j / 8
  · obtain ⟨b, hb⟩ : ∃ b, bitmap[j / 8]? = some b := ⟨_, List.getElem?_eq_getElem (hj ▸ hi)⟩
    have hlt : b.toNat ||| 2 ^ (idx % 8) < 2 ^ 8 :=
      Nat.or_lt_two_pow (UInt8.toNat_lt _) (Nat.pow_lt_pow_right (by decide) (Nat.mod_lt _ (by decide)))
    have hbit : decide (idx % 8 = j % 8) = decide (j = idx) := by
      rw [decide_eq_decide]
      omega
    rw [hb]
    simp only [hj, if_true, Option.map_eq_map, Option.map_some, Option.getD_some, UInt8.toNat_ofNat',
      Nat.mod_eq_of_lt hlt, Nat.testBit_or, Nat.testBit_two_pow, hbit]
  · have hne : j ≠ idx := fun he => hj (by rw [he])
    simp [hj, hne]

theorem setBits_length : (setBits bitmap idx values).length = bitmap.length := by
  induction values generalizing bitmap idx with
  | nil => rfl
  | cons o values ih => cases o <;> simp [setBits, ih]

theorem bitAt_setBits {j : Nat} (hfit : idx + values.length ≤ 8 * bitmap.length) :
    bitAt (setBits bitmap idx values) j =
      (bitAt bitmap j || (decide (idx ≤ j) && ((values[j - idx]?.getD none).isSome))) := by
  induction values generalizing bitmap idx with
  | nil => simp [setBits]
  | cons o values ih =>
    rw [List.length_cons] at hfit
    have hsucc : ∀ h : idx + 1 ≤ j, (o :: values)[j - idx]? = values[j - (idx + 1)]? := by
      intro h
      have : j - idx = (j - (idx + 1)) + 1 := by omega
      rw [this, List.getElem?_cons_succ]
    cases o with
    | none =>
      rw [setBits, ih (by omega)]
      rcases Nat.lt_trichotomy j idx with h | h | h
      · have h1 : decide (idx + 1 ≤ j) = false := decide_eq_false (by omega)
        have h2 : decide (idx ≤ j) = false := decide_eq_false (by omega)
        rw [h1, h2]
        rfl
      · subst h
        simp
      · have h1 : decide (idx + 1 ≤ j) = true := decide_eq_true (by omega)
        have h2 : decide (idx ≤ j) = true := decide_eq_true (by omega)
        rw [h1, h2, hsucc (by omega)]
    | some value =>
      rw [setBits, ih (by rw [List.length_modify]; omega), bitAt_modify (by omega)]
      rcases Nat.lt_trichotomy j idx with h | h | h
      · have h1 : decide (idx + 1 ≤ j) = false := decide_eq_false (by omega)
        have h2 : decide (idx ≤ j) = false := decide_eq_false (by omega)
        have h3 : decide (j = idx) = false := decide_eq_false (by omega)
        rw [h1, h2, h3, Bool.or_false]
        rfl
      · subst h
        simp
      · have h1 : decide (idx + 1 ≤ j) = true := decide_eq_true (by omega)
        have h2 : decide (idx ≤ j) = true := decide_eq_true (by omega)
        have h3 : decide (j = idx) = false := decide_eq_false (by omega)
        rw [h1, h2, h3, hsucc (by omega), Bool.or_false]

theorem nullBitmap_length : (nullBitmap values).length = BitUtils.bitmapSize values.length := by
  rw [nullBitmap, setBits_length, List.length_replicate]

theorem bitAt_append {rest : List UInt8} {j : Nat} (h : j / 8 < bitmap.length) :
    bitAt (bitmap ++ rest) j = bitAt bitmap j := by
  simp only [bitAt, List.getD_eq_getElem?_getD, List.getElem?_append_left h]

theorem nulls_nullBitmap (rest : List UInt8) :
    ((List.range values.length).map fun idx => !bitAt (nullBitmap values ++ rest) idx) =
    values.map Option.isNone := by
  refine List.ext_getElem (by simp) fun i h1 h2 => ?_
  have hi : i < values.length := by simpa using h1
  have hfit : 0 + values.length ≤ 8 * (List.replicate (BitUtils.bitmapSize values.length) (0 : UInt8)).length := by
    rw [List.length_replicate, BitUtils.bitmapSize]
    omega
  have hzero : bitAt (List.replicate (BitUtils.bitmapSize values.length) 0) i = false := by
    simp only [bitAt, List.getD_eq_getElem?_getD, List.getElem?_replicate]
    split_ifs <;> simp
  rw [List.getElem_map, List.getElem_range, List.getElem_map, bitAt_append, nullBitmap, bitAt_setBits hfit, hzero]
  · simp [List.getElem?_eq_getElem hi]
  · rw [nullBitmap_length, BitUtils.bitmapSize]
    omega

end

theorem deserialize_serialize {dbg : Bool} {desc : TupleDescriptor} {values : List (Option Datum)}
    (h : Typed dbg desc values) :
    ∃ bytes, serialize dbg desc values = .ok (bytes, values.any Option.isNone) ∧
      ∀ rest size, deserialize dbg desc (bytes ++ rest) (values.any Option.isNone) size = .ok values := by
  have hmax : desc.getMaxAttrNumber = values.length := by
    have hlen := List.Forall₂.length_eq h.fits
    rw [List.length_take, TupleDescriptor.getMaxAttrNumber] at hlen
    rw [← hlen, TupleDescriptor.getMaxAttrNumber]
    exact (Nat.min_eq_left (Nat.mod_le _ _)).symm
  have hcount := h.count
  obtain ⟨data, henc, hext⟩ := extractValues_encodeValues h.fits
  refine ⟨(if values.any Option.isNone then nullBitmap values else []) ++ data, ?_, fun rest size => ?_⟩
  · simp only [serialize, if_neg hcount, checkSizes_ok h.fits]
    simp only [hmax, List.take_length] at henc ⊢
    rw [henc]
    rfl
  · simp only [deserialize, if_neg hcount]
    simp only [hmax] at hext ⊢
    cases hn : values.any Option.isNone with
    | true =>
      simp only [if_true]
      have hge : ¬ (nullBitmap values ++ data ++ rest).length < BitUtils.bitmapSize values.length := by
        rw [List.length_append, List.length_append, nullBitmap_length]
        omega
      have hdrop : (nullBitmap values ++ data ++ rest).drop (BitUtils.bitmapSize values.length) = data ++ rest := by
        rw [List.append_assoc]
        exact List.drop_left' nullBitmap_length
      rw [if_neg hge, hdrop, List.append_assoc, nulls_nullBitmap]
      exact hext rest
    | false =>
      have hnone : List.replicate values.length false = values.map Option.isNone := by
        refine (List.eq_replicate_iff.2 ⟨by simp, fun b hb => ?_⟩).symm
        obtain ⟨o, ho, rfl⟩ := List.mem_map.1 hb
        simpa [Option.isSome_iff_ne_none] using List.any_eq_false.1 hn o ho
      simp only [Bool.false_eq_true, if_false, List.nil_append, hnone]
      exact hext rest

/-! ## What was serialized -/

section
variable {dbg : Bool} {attr : AttributeDescriptor} {attrs : List AttributeDescriptor} {value : Datum}
  {values : List (Option Datum)} {bytes : List UInt8}

theorem signed_fits {w n : Nat} (hw : w = 1 ∨ w = 2 ∨ w = 4 ∨ w = 8) (hn : n < 256 ^ w) :
    -(256 ^ w) ≤ 2 * signed (8 * w) n ∧ 2 * signed (8 * w) n < 256 ^ w := by
  unfold signed
  rcases hw with rfl | rfl | rfl | rfl <;> norm_num at hn ⊢ <;> split_ifs <;> omega

theorem signed_encode {w n : Nat} (hw : w = 1 ∨ w = 2 ∨ w = 4 ∨ w = 8) (hn : n < 256 ^ w) :
    (signed (8 * w) n % 256 ^ w).toNat = n := by
  unfold signed
  rcases hw with rfl | rfl | rfl | rfl <;> norm_num at hn ⊢ <;> split_ifs <;> omega

theorem encodeValue_fits (hc : checkSize dbg attr (some value) = .ok ()) (h : encodeValue attr value = .ok bytes) :
    ∃ value', Fits dbg attr value' ∧ encodeValue attr value' = .ok bytes := by
  unfold encodeValue at h
  cases hval : attr.byVal with
  | true =>
    simp only [hval, if_true] at h
    cases hw : scalarWidth attr.length with
    | none => rw [hw] at h; cases h
    | some w =>
      rw [hw] at h
      cases value with
      | pointer _ => cases h
      | scalar n =>
        have hcases := scalarWidth_cases hw
        have hlt : (n % 256 ^ w).toNat < 256 ^ w := by
          rcases hcases with rfl | rfl | rfl | rfl <;> omega
        refine ⟨.scalar (signed (8 * w) (n % 256 ^ w).toNat), ⟨hval, w, hw, signed_fits hcases hlt⟩, ?_⟩
        simp only [encodeValue, hval, if_true, hw, signed_encode hcases hlt]
        exact h
  | false =>
    simp only [hval, Bool.false_eq_true, if_false] at h
    cases value with
    | scalar n => cases h
    | pointer mem =>
      simp only at h
      split_ifs at h with hfixed hshort hbad
      · cases h
        refine ⟨.pointer (mem.take attr.length.toNat), ⟨hval, ?_⟩, ?_⟩
        · rw [if_pos hfixed, List.length_take]
          omega
        · have hlen : (mem.take attr.length.toNat).length = attr.length.toNat := by rw [List.length_take]; omega
          simp only [encodeValue, hval, Bool.false_eq_true, if_false, hfixed, if_true, hlen, Nat.lt_irrefl,
            List.take_take, Nat.min_self]
      · cases h
        simp only [not_or, not_le, Nat.not_lt] at hbad
        unfold checkSize at hc
        simp only [hval, Bool.false_eq_true, if_false, hfixed] at hc
        split_ifs at hc
        have hdec : decodeLE ((mem.take (4 + decodeLE (mem.take 4))).take 4) = decodeLE (mem.take 4) := by
          rw [List.take_take, Nat.min_eq_left (by omega)]
        have hlen : (mem.take (4 + decodeLE (mem.take 4))).length = 4 + decodeLE (mem.take 4) := by
          rw [List.length_take]
          omega
        refine ⟨.pointer (mem.take (4 + decodeLE (mem.take 4))), ⟨hval, ?_⟩, ?_⟩
        · rw [if_neg hfixed, hdec, hlen]
          refine ⟨by omega, fun hd => ?_, hbad.1, rfl⟩
          by_contra hz
          simp [assert, hd, hz] at hc
        · simp only [encodeValue, hval, Bool.false_eq_true, if_false, hfixed, hdec, hlen]
          rw [if_neg (by omega), List.drop_take, List.take_take]
          congr 4
          omega

theorem encodeValues_fits (hc : checkSizes dbg attrs values = .ok ()) (h : encodeValues attrs values = .ok bytes)
    (hlen : values.length ≤ attrs.length) :
    ∃ values', FitsAll dbg attrs values' ∧ encodeValues attrs values' = .ok bytes ∧
      values'.map Option.isNone = values.map Option.isNone := by
  induction attrs generalizing values bytes with
  | nil =>
    obtain rfl := List.length_eq_zero_iff.1 (Nat.le_zero.1 hlen)
    exact ⟨[], .nil, h, rfl⟩
  | cons attr attrs ih =>
    cases values with
    | nil => cases h
    | cons o values =>
      obtain ⟨_, h1, hrest⟩ := bind_eq_ok.1 hc
      have hle : values.length ≤ attrs.length := Nat.le_of_succ_le_succ hlen
      cases o with
      | none =>
        obtain ⟨values', hf, he, hn⟩ := ih hrest h hle
        exact ⟨none :: values', .cons nofun hf, he, by rw [List.map_cons, List.map_cons, hn]⟩
      | some value =>
        obtain ⟨first, he, h⟩ := bind_eq_ok.1 h
        obtain ⟨rest, hr, h⟩ := bind_eq_ok.1 h
        obtain ⟨values', hf, he', hn⟩ := ih hrest hr hle
        obtain ⟨value', hv, hve⟩ := encodeValue_fits h1 he
        refine ⟨some value' :: values', .cons (fun d hd => by cases hd; exact hv) hf, ?_, by
          rw [List.map_cons, List.map_cons, hn]; rfl⟩
        rw [encodeValues, hve, he']
        exact h

theorem checkSizes_take {n : Nat} (hc : checkSizes dbg attrs values = .ok ()) (hn : attrs.length ≤ n) :
    checkSizes dbg attrs (values.take n) = .ok () := by
  induction attrs generalizing values n with
  | nil => rfl
  | cons attr attrs ih =>
    obtain ⟨n, rfl⟩ : ∃ m, n = m + 1 := ⟨n - 1, by rw [List.length_cons] at hn; omega⟩
    cases values with
    | nil => cases hc
    | cons o values =>
      obtain ⟨_, h1, hc⟩ := bind_eq_ok.1 hc
      rw [List.take_succ_cons, checkSizes, h1]
      exact ih hc (by rw [List.length_cons] at hn; omega)

theorem nullBitmap_congr {values' : List (Option Datum)}
    (h : values'.map Option.isNone = values.map Option.isNone) :
    nullBitmap values' = nullBitmap values := by
  have hset : ∀ (bitmap : List UInt8) (idx : Nat), setBits bitmap idx values' = setBits bitmap idx values := by
    induction values' generalizing values with
    | nil =>
      cases values with
      | nil => exact fun _ _ => rfl
      | cons o values => simp at h
    | cons o' values' ih =>
      cases values with
      | nil => simp at h
      | cons o values =>
        rw [List.map_cons, List.map_cons, List.cons.injEq] at h
        intro bitmap idx
        cases o' <;> cases o <;> simp only [Option.isNone_none, Option.isNone_some, Bool.true_eq_false,
          Bool.false_eq_true, false_and] at h <;> exact ih h.2 _ _
  have hlen : values'.length = values.length := by simpa using congrArg List.length h
  rw [nullBitmap, nullBitmap, hlen, hset]

theorem serialize_typed {desc : TupleDescriptor} {hasnulls : Bool}
    (h : serialize dbg desc values = .ok (bytes, hasnulls)) :
    ∃ values', Typed dbg desc values' ∧ serialize dbg desc values' = .ok (bytes, hasnulls) ∧
      hasnulls = values'.any Option.isNone := by
  unfold serialize at h
  simp only at h
  by_cases hcount : desc.getMaxAttrNumber = 2 ^ 16 - 1
  · rw [if_pos hcount] at h
    cases h
  · rw [if_neg hcount] at h
    obtain ⟨_, hc, h⟩ := bind_eq_ok.1 h
    obtain ⟨data, he, h⟩ := bind_eq_ok.1 h
    cases h
    have hattrs : (desc.attributes.take desc.getMaxAttrNumber).length = desc.getMaxAttrNumber := by
      rw [List.length_take]
      exact Nat.min_eq_left (Nat.mod_le _ _)
    obtain ⟨values', hf, he', hn⟩ := encodeValues_fits
      (checkSizes_take hc (Nat.le_of_eq hattrs)) he (by rw [hattrs]; exact List.length_take_le _ _)
    have hlen : values'.length = desc.getMaxAttrNumber := by
      rw [← List.Forall₂.length_eq hf, hattrs]
    have hany : values'.any Option.isNone = (values.take desc.getMaxAttrNumber).any Option.isNone := by
      have := congrArg (List.any · id) hn
      simp only [List.any_map] at this
      exact this
    refine ⟨values', ⟨hcount, hf⟩, ?_, hany.symm⟩
    simp only [serialize, if_neg hcount, checkSizes_ok hf]
    rw [show values'.take desc.getMaxAttrNumber =
      values' by rw [← hlen, List.take_length], hany, nullBitmap_congr hn]
    show (do
      let data ← encodeValues (desc.attributes.take desc.getMaxAttrNumber) values'
      return (_ ++ data, _)) = _
    rw [he']
    rfl

end

end TupleSerializer

end Mimidb
