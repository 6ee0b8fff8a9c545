import Mathlib.Algebra.BigOperators.Group.Finset.Basic
import Mathlib.Algebra.Order.BigOperators.Group.Finset
import Mathlib.Data.Fintype.EquivFin
import Mimidb.Expressions

/-!
# Stored values

What becomes of the literals of an INSERT or an UPDATE: the planner puts a
literal of 64 bits in a datum, the serializer writes as many of its bytes as the
column has, and a later SELECT shows the number in these bytes. The planner does
not read the column list of an INSERT.
-/

namespace Mimidb

/-! ## Statements -/

structure InsertStatement where
  columns : Option (List String)
  values : List Expr

structure UpdateStatement where
  updates : List (String × Expr)
  whereClause : Option Expr

namespace Planner

/-- The value for an attribute; no type fails the check. -/
def insertValue (typeId : TypeId) (value : Expr) : Except Fault (Option Datum) := do
  if !(typeId ≠ .Int16 || typeId ≠ .Int32 || typeId ≠ .Int64) then
    throw (.runtimeError "only int types are supported by planner for now")
  match value with
  | .literalInt ival => return some (.scalar ival)
  | .literalNull => return none
  | _ => throw (.runtimeError "Expression in INSERT is not supported type")

def insertValues : List ColumnInfo → List Expr → Except Fault Values
  | [], _ => .ok []
  | _ :: _, [] => .error .outOfBounds
  | col :: cols, value :: values => do
    let datum ← insertValue col.typeId value
    let datums ← insertValues cols values
    return datum :: datums

/-- The tuple of an INSERT. With 65535 attributes the loop does not end. -/
def planInsert (info : TableInfo) (stmt : InsertStatement) : Except Fault Values := do
  if stmt.values.length ≠ info.descriptor.getMaxAttrNumber then
    throw (.runtimeError "INSERT attributes and table descriptor are not the same size")
  if info.descriptor.getMaxAttrNumber = 2 ^ 16 - 1 then throw .diverges
  insertValues info.columns stmt.values

end Planner

def TableInfo.findColumn (info : TableInfo) (colname : String) : Option ColumnInfo :=
  info.columns.find? fun col => col.name = colname

structure UpdateNode where
  qual : ExpressionNode
  updates : List (Nat × ExpressionNode)

namespace Planner

def planAssignment (dbg : Bool) (info : TableInfo) : String × Expr → Except Fault (Nat × ExpressionNode)
  | (colname, value) =>
    match info.findColumn colname with
    | none => .error (.runtimeError ("could not find column: " ++ colname))
    | some colinfo => do
      let expr ← parseExpr dbg info value
      return (colinfo.attno, expr)

/-- The constructor of the node requires a predicate. -/
def planUpdate (dbg : Bool) (info : TableInfo) (stmt : UpdateStatement) : Except Fault UpdateNode := do
  let updates ← stmt.updates.mapM (planAssignment dbg info)
  match stmt.whereClause with
  | none => throw (.runtimeError "qual is null")
  | some e => do
    let qual ← parseExpr dbg info e
    return ⟨qual, updates⟩

end Planner

/-! ## Execution -/

section
variable (dbg : Bool) (desc : TupleDescriptor)

/-- `VirtualTuple::Copy` of a tuple that a scan has read. -/
def copyTuple (old : Values) : Except Fault Values := do
  if desc.getMaxAttrNumber = 2 ^ 16 - 1 then throw .diverges
  (List.range' AttrNumber.Min desc.getMaxAttrNumber).mapM (HeapTuple.getAttribute dbg desc old)

/-- One assignment; its expression reads the old tuple. -/
def setAttribute (old tuple : Values) : Nat × ExpressionNode → Except Fault Values
  | (attno, expr) => do
    let newVal ← expr.exec dbg desc old
    assign tuple (← AttrNumber.toIndex dbg attno) newVal

/-- The new tuple that `Execute` makes of a tuple with the predicate. -/
def UpdateNode.newTuple (node : UpdateNode) (old : Values) : Except Fault Values := do
  let tuple ← copyTuple dbg desc old
  node.updates.foldlM (setAttribute dbg desc old) tuple

end

/-- `Int64Output`, `Int32Output` or `Int16Output`; the string is given by its number. -/
def outputFunction (typeId : TypeId) (value : Datum) : Except Fault Int := value.getScalar (8 * typeId.size)

/-- An attribute as `SendTuple` sends it. -/
def sendAttribute (dbg : Bool) (info : TableInfo) (values : Values) (attno : Nat) : Except Fault (Option Int) := do
  match ← HeapTuple.getAttribute dbg info.descriptor values attno with
  | none => return none
  | some datum => do
    let output ← fetch (info.columns.map fun (col : ColumnInfo) => outputFunction col.typeId)
      (← AttrNumber.toIndex dbg attno)
    return some (← output datum)

def sendTuple (dbg : Bool) (info : TableInfo) (values : Values) : Except Fault (List (Option Int)) := do
  if info.descriptor.getMaxAttrNumber = 2 ^ 16 - 1 then throw .diverges
  (List.range' AttrNumber.Min info.descriptor.getMaxAttrNumber).mapM (sendAttribute dbg info values)

/-- What a SELECT sends for the row in a slot with these bytes. -/
def selectRow (dbg : Bool) (info : TableInfo) (c : HeapView Values) (bytes : List UInt8) (size : Nat)
    (tid : TupleId) :
    Except Fault (List (Option Int)) := do
  let tuple ← c.buildHeapTuple bytes size tid
  sendTuple dbg info tuple.values

/-! ## Faithful values -/

/-- Whatever header the values are stored with, and whatever follows the bytes in
the slot, a SELECT of the row sends `row`. -/
def Stores (dbg : Bool) (info : TableInfo) (values : Values) (row : List (Option Int)) : Prop :=
  ∀ tableId myXid header, HeapPageTupleHeader.Bounded header → ∃ bytes,
    (heapTable dbg tableId myXid info.descriptor).serialize header values = .ok bytes ∧
      ∀ c : HeapView Values, c.deserialize = TupleSerializer.deserialize dbg info.descriptor → ∀ slack size tid,
        selectRow dbg info c (bytes ++ slack) size tid = .ok row

def Expr.literal : Expr → Option Int
  | literalInt ival => some ival
  | _ => none

def Expr.IsLiteral (e : Expr) : Prop := e = literalNull ∨ ∃ ival, e = literalInt ival

/-- The value that the statement gives to each column of the table, NULL to one that its list does not name. -/
def InsertStatement.given (stmt : InsertStatement) (info : TableInfo) : List (Option Int) :=
  match stmt.columns with
  | none => stmt.values.map Expr.literal
  | some names => info.columns.map fun col => (names.idxOf? col.name).bind fun k =>
    ((stmt.values.map Expr.literal)[k]?).join

/-- Every column to which the statement assigns gets what it is assigned, and the others keep their values. -/
structure Assigned (info : TableInfo) (stmt : UpdateStatement) (old row : List (Option Int)) : Prop where
  set : ∀ name e, (name, e) ∈ stmt.updates → row[info.columns.findIdx fun (col : ColumnInfo) => col.name = name]? =
    some e.literal
  kept : ∀ (i : Nat) (col : ColumnInfo), info.columns[i]? = some col → col.name ∉ stmt.updates.map Prod.fst →
    row[i]? = old[i]?

/-! ## Narrowing -/

namespace TypeId

variable {typeId : TypeId} {n : Int}

/-- The number in the bytes that a column stores of `n`. -/
def narrow (typeId : TypeId) (n : Int) : Int := signed (8 * typeId.size) (n % 2 ^ (8 * typeId.size)).toNat

/-- A number of the type. -/
def Holds (typeId : TypeId) (n : Int) : Prop := -2 ^ (8 * typeId.size - 1) ≤ n ∧ n < 2 ^ (8 * typeId.size - 1)

theorem holds_narrow (typeId : TypeId) (n : Int) : typeId.Holds (typeId.narrow n) := by
  unfold Holds narrow signed
  cases typeId <;> simp only [size, Nat.reduceMul, Nat.reduceSub, Nat.reducePow, Int.reducePow, Int.reduceNeg] <;>
    split_ifs <;> omega

theorem narrow_of_holds (h : typeId.Holds n) : typeId.narrow n = n := by
  unfold Holds at h
  unfold narrow signed
  cases typeId <;> simp only [size, Nat.reduceMul, Nat.reduceSub, Nat.reducePow, Int.reducePow,
    Int.reduceNeg] at h ⊢ <;>
    split_ifs <;> omega

/-- The distance to `-1/2`, which narrowing makes less unless it keeps the number. -/
def distance (n : Int) : Nat := (2 * n + 1).natAbs

theorem distance_narrow_lt (h : ¬ typeId.Holds n) : distance (typeId.narrow n) < distance n := by
  have hn := holds_narrow typeId n
  unfold Holds at h hn
  unfold distance
  cases typeId <;> simp only [size, Nat.reduceMul, Nat.reduceSub, Int.reducePow, Int.reduceNeg] at h hn <;> omega

theorem distance_narrow_le (typeId : TypeId) (n : Int) : distance (typeId.narrow n) ≤ distance n := by
  by_cases h : typeId.Holds n
  · rw [narrow_of_holds h]
  · exact Nat.le_of_lt (distance_narrow_lt h)

end TypeId

def narrowRow (columns : List ColumnInfo) (row : List (Option Int)) : List (Option Int) :=
  List.zipWith (fun col value => value.map col.typeId.narrow) columns row

/-- Every number of the row is one of its column's type. -/
def RowHolds (columns : List ColumnInfo) (row : List (Option Int)) : Prop :=
  ∀ (i : Nat) (col : ColumnInfo) n, columns[i]? = some col → row[i]? = some (some n) → col.typeId.Holds n

/-! ## What a SELECT sends -/

theorem mapM_eq_ok {α β ε : Type} {f : α → Except ε β} {xs : List α} {ys : List β} :
    xs.mapM f = .ok ys ↔ List.Forall₂ (fun x y => f x = .ok y) xs ys := by
  induction xs generalizing ys with
  | nil =>
    rw [List.mapM_nil, List.forall₂_nil_left_iff]
    exact ⟨fun h => (Except.ok.inj h).symm, fun h => h ▸ rfl⟩
  | cons x xs ih =>
    rw [List.mapM_cons, List.forall₂_cons_left_iff]
    constructor
    · intro h
      obtain ⟨y, hy, h⟩ := bind_eq_ok.1 h
      obtain ⟨ys', hys, h⟩ := bind_eq_ok.1 h
      cases h
      exact ⟨y, ys', hy, ih.1 hys, rfl⟩
    · rintro ⟨y, ys', hy, hys, rfl⟩
      rw [hy, ih.2 hys]
      rfl

section
variable {columns : List ColumnInfo} {row : List (Option Int)}

theorem narrowRow_length (hlen : row.length = columns.length) :
    (narrowRow columns row).length = columns.length := by
  rw [narrowRow, List.length_zipWith, hlen, Nat.min_self]

theorem narrowRow_getElem? {i : Nat} {col : ColumnInfo} {value : Option Int} (hcol : columns[i]? = some col)
    (hvalue : row[i]? = some value) : (narrowRow columns row)[i]? = some (value.map col.typeId.narrow) := by
  rw [narrowRow, List.getElem?_zipWith, hcol, hvalue]

theorem narrowRow_eq_self (hlen : row.length = columns.length) (h : RowHolds columns row) :
    narrowRow columns row = row := by
  refine List.ext_getElem? fun i => ?_
  by_cases hi : i < row.length
  · have hcol : columns[i]? = some columns[i] := List.getElem?_eq_getElem (by omega)
    have hvalue : row[i]? = some row[i] := List.getElem?_eq_getElem hi
    rw [narrowRow_getElem? hcol hvalue, hvalue]
    cases hn : row[i] with
    | none => rfl
    | some n =>
      rw [hn] at hvalue
      rw [Option.map_some, TypeId.narrow_of_holds (h i _ n hcol hvalue)]
  · rw [List.getElem?_eq_none (by rw [narrowRow_length hlen]; omega), List.getElem?_eq_none (by omega)]

theorem narrowRow_holds : RowHolds columns (narrowRow columns row) := by
  intro i col n hcol hn
  rw [narrowRow, List.getElem?_zipWith, hcol] at hn
  cases hvalue : row[i]? with
  | none =>
    rw [hvalue] at hn
    cases hn
  | some value =>
    rw [hvalue] at hn
    cases value with
    | none => cases hn
    | some m =>
      cases hn
      exact TypeId.holds_narrow _ _

theorem RowHolds.cons {col : ColumnInfo} {value : Option Int} (hvalue : ∀ n, value = some n → col.typeId.Holds n)
    (h : RowHolds columns row) : RowHolds (col :: columns) (value :: row) := by
  intro i col' n hcol hn
  cases i with
  | zero =>
    cases hcol
    exact hvalue n (Option.some.inj hn)
  | succ i => exact h i col' n hcol hn

theorem narrowRow_isNone (hlen : row.length = columns.length) :
    (datums (narrowRow columns row)).map Option.isNone = (datums row).map Option.isNone := by
  induction columns generalizing row with
  | nil =>
    obtain rfl := List.length_eq_zero_iff.1 hlen
    rfl
  | cons col columns ih =>
    cases row with
    | nil => cases hlen
    | cons value row =>
      have htail := ih (Nat.succ.inj hlen)
      rw [narrowRow, List.zipWith_cons_cons, datums, List.map_cons, List.map_cons]
      unfold datums narrowRow at htail
      rw [htail]
      cases value <;> rfl

end

namespace TupleSerializer

variable {dbg : Bool} {columns : List ColumnInfo} {row : List (Option Int)}

theorem scalarWidth_descriptor (typeId : TypeId) : scalarWidth typeId.descriptor.length = some typeId.size := by
  cases typeId <;> rfl

theorem encodeValue_narrow (typeId : TypeId) (n : Int) :
    encodeValue typeId.descriptor (.scalar (typeId.narrow n)) = encodeValue typeId.descriptor (.scalar n) := by
  have hbytes : typeId.narrow n % 256 ^ typeId.size = n % 256 ^ typeId.size := by
    unfold TypeId.narrow signed
    cases typeId <;> simp only [TypeId.size, Nat.reduceMul, Nat.reduceSub, Nat.reducePow, Int.reducePow] <;>
      split_ifs <;> omega
  have hval : typeId.descriptor.byVal = true := rfl
  unfold encodeValue
  rw [if_pos hval, if_pos hval, scalarWidth_descriptor]
  simp only [hbytes]

theorem encodeValues_narrow (hlen : row.length = columns.length) :
    encodeValues (columns.map fun col => col.typeId.descriptor) (datums (narrowRow columns row)) =
      encodeValues (columns.map fun col => col.typeId.descriptor) (datums row) := by
  induction columns generalizing row with
  | nil => rfl
  | cons col columns ih =>
    cases row with
    | nil => cases hlen
    | cons value row =>
      have htail := ih (Nat.succ.inj hlen)
      unfold datums narrowRow at htail ⊢
      rw [List.zipWith_cons_cons, List.map_cons, List.map_cons, List.map_cons]
      cases value with
      | none => exact htail
      | some n =>
        simp only [Option.map_some, encodeValues]
        rw [encodeValue_narrow, htail]

theorem checkSizes_datums (dbg : Bool) (hlen : row.length = columns.length) :
    checkSizes dbg (columns.map fun col => col.typeId.descriptor) (datums row) = .ok () := by
  induction columns generalizing row with
  | nil => rfl
  | cons col columns ih =>
    cases row with
    | nil => cases hlen
    | cons value row =>
      have hfirst : checkSize dbg col.typeId.descriptor (value.map .scalar) = .ok () := by
        cases value with
        | none => rfl
        | some n =>
          have hpos : (0 : Int) < col.typeId.descriptor.length := by cases col.typeId <;> decide
          have hval : col.typeId.descriptor.byVal = true := rfl
          simp only [Option.map_some, checkSize, hval, if_true, hpos, decide_true]
          cases dbg <;> rfl
      rw [datums, List.map_cons, List.map_cons, checkSizes, hfirst]
      exact ih (Nat.succ.inj hlen)

theorem fits_of_holds (h : RowHolds columns row) (hlen : row.length = columns.length) :
    FitsAll dbg (columns.map fun col => col.typeId.descriptor) (datums row) := by
  induction columns generalizing row with
  | nil =>
    obtain rfl := List.length_eq_zero_iff.1 hlen
    exact .nil
  | cons col columns ih =>
    cases row with
    | nil => cases hlen
    | cons value row =>
      refine .cons ?_ (ih (fun i col' n hcol hn => h (i + 1) col' n hcol hn) (Nat.succ.inj hlen))
      intro d hd
      cases value with
      | none => cases hd
      | some n =>
        cases hd
        have hn := h 0 col n rfl rfl
        unfold TypeId.Holds at hn
        refine ⟨rfl, col.typeId.size, scalarWidth_descriptor _, ?_⟩
        cases hcol : col.typeId <;> rw [hcol] at hn <;>
          simp only [TypeId.size, Nat.reduceMul, Nat.reduceSub, Int.reducePow, Int.reduceNeg] at hn ⊢ <;> omega

end TupleSerializer

section
variable {dbg : Bool} {info : TableInfo} {row : List (Option Int)}

theorem datums_take (hlen : row.length = info.columns.length) :
    (datums row).take info.descriptor.getMaxAttrNumber = datums row :=
  List.take_of_length_le (by rw [info.counted, datums, List.length_map, hlen])

theorem serialize_narrow (dbg : Bool) (hlen : row.length = info.columns.length) :
    TupleSerializer.serialize dbg info.descriptor (datums (narrowRow info.columns row)) =
      TupleSerializer.serialize dbg info.descriptor (datums row) := by
  have hnarrow := narrowRow_length hlen
  have hnulls := narrowRow_isNone hlen
  have hany : (datums (narrowRow info.columns row)).any Option.isNone = (datums row).any Option.isNone := by
    have := congrArg (List.any · id) hnulls
    simp only [List.any_map] at this
    exact this
  unfold TupleSerializer.serialize
  simp only [info.take_attributes, datums_take hlen, datums_take hnarrow,
    TupleSerializer.checkSizes_datums dbg hlen,
    TupleSerializer.checkSizes_datums dbg hnarrow, TupleSerializer.encodeValues_narrow hlen, hany,
    TupleSerializer.nullBitmap_congr hnulls]

theorem mapM_attributes {α ε : Type} {f : Nat → Except ε α} {ys : List α} {count : Nat} (hlen : ys.length = count)
    (h : ∀ i (hi : i < ys.length), f (i + 1) = .ok ys[i]) : (List.range' AttrNumber.Min count).mapM f = .ok ys := by
  refine mapM_eq_ok.2 (List.forall₂_iff_get.2 ⟨by rw [List.length_range', hlen], fun i h1 h2 => ?_⟩)
  have hattno : (List.range' AttrNumber.Min count).get ⟨i, h1⟩ = i + 1 := by
    rw [List.get_eq_getElem, List.getElem_range']
    show 1 + 1 * i = i + 1
    omega
  rw [hattno]
  exact h i h2

theorem sendAttribute_eq (dbg : Bool) (hlen : row.length = info.columns.length) (h : RowHolds info.columns row)
    {i : Nat} (hi : i < row.length) : sendAttribute dbg info (datums row) (i + 1) = .ok row[i] := by
  unfold sendAttribute
  rw [getAttribute_eq hlen hi, List.getElem?_eq_getElem hi]
  cases hn : row[i] with
  | none => rfl
  | some n =>
    have hcol : info.columns[i]? = some info.columns[i] := List.getElem?_eq_getElem (by omega)
    have hholds := h i _ n hcol (by rw [List.getElem?_eq_getElem hi, hn])
    have hget : (info.columns.map fun (col : ColumnInfo) => outputFunction col.typeId)[i]? =
        some (outputFunction info.columns[i].typeId) := by
      rw [List.getElem?_map, hcol]
      rfl
    have hout : outputFunction info.columns[i].typeId (.scalar n) = .ok n :=
      congrArg Except.ok (TypeId.narrow_of_holds hholds)
    show (do
      let output ← fetch (info.columns.map fun (col : ColumnInfo) => outputFunction col.typeId)
        (← AttrNumber.toIndex dbg (i + 1))
      return some (← output (.scalar n))) = _
    rw [AttrNumber.toIndex_succ]
    show (do
      let output ← fetch (info.columns.map fun (col : ColumnInfo) => outputFunction col.typeId) i
      return some (← output (.scalar n))) = _
    unfold fetch
    rw [hget]
    show (do return some (← outputFunction info.columns[i].typeId (.scalar n))) = _
    rw [hout]
    rfl

theorem sendTuple_eq (dbg : Bool) (hlen : row.length = info.columns.length)
    (hcount : info.columns.length ≠ 2 ^ 16 - 1)
    (h : RowHolds info.columns row) : sendTuple dbg info (datums row) = .ok row := by
  unfold sendTuple
  rw [if_neg (by rwa [info.counted]), info.counted]
  exact mapM_attributes hlen fun i hi => sendAttribute_eq dbg hlen h hi

/-- Each number comes back as its bytes in the column say. -/
theorem stores_narrow (dbg : Bool) (hlen : row.length = info.columns.length)
    (hcount : info.columns.length ≠ 2 ^ 16 - 1) :
    Stores dbg info (datums row) (narrowRow info.columns row) := by
  have hnarrow := narrowRow_length hlen
  have htyped : TupleSerializer.Typed dbg info.descriptor (datums (narrowRow info.columns row)) :=
    ⟨by rwa [info.counted], info.take_attributes ▸ TupleSerializer.fits_of_holds narrowRow_holds hnarrow⟩
  obtain ⟨data, hser, -⟩ := TupleSerializer.deserialize_serialize htyped
  have hhas : ((datums row).take info.descriptor.getMaxAttrNumber).any Option.isNone =
      (datums (narrowRow info.columns row)).any Option.isNone :=
    (TupleSerializer.serialize_hasNulls (serialize_narrow dbg hlen ▸ hser)).symm
  intro tableId myXid header hb
  have hv : IsVersion dbg info.descriptor ⟨header.xid, header.undo,
    ⟨false, (datums (narrowRow info.columns row)).any Option.isNone⟩⟩
      (datums (narrowRow info.columns row)) _ := ⟨⟨hb.xid, hb.undo⟩, rfl, htyped, data, hser, rfl⟩
  have hvalues : (heapTable dbg tableId myXid info.descriptor).serializeValues (datums row) = .ok data := by
    show Prod.fst <$> TupleSerializer.serialize dbg info.descriptor (datums row) = _
    rw [← serialize_narrow dbg hlen, hser]
    rfl
  have hbytes := HeapTable.serialize_eq header hvalues
  refine ⟨_, hbytes, fun c hc slack size tid => ?_⟩
  have hnulls : (heapTable dbg tableId myXid info.descriptor).hasNulls (datums row) =
      (datums (narrowRow info.columns row)).any Option.isNone := hhas
  unfold selectRow
  rw [hnulls, hv.build_eq hc]
  exact sendTuple_eq dbg hnarrow hcount narrowRow_holds

end

theorem Stores.unique {dbg : Bool} {info : TableInfo} {values : Values} {row row' : List (Option Int)}
    (h : Stores dbg info values row) (h' : Stores dbg info values row') : row = row' := by
  have hb : HeapPageTupleHeader.Bounded ⟨0, 0, ⟨false, false⟩⟩ := ⟨by decide, by decide⟩
  obtain ⟨bytes, hser, hsel⟩ := h 0 0 _ hb
  obtain ⟨bytes', hser', hsel'⟩ := h' 0 0 _ hb
  obtain rfl := Except.ok.inj (hser.symm.trans hser')
  let c : HeapView Values :=
    ⟨dbg, 0, fun _ _ => 0, fun _ => 0, 0, 0, fun _ => .ok .other, TupleSerializer.deserialize dbg info.descriptor⟩
  exact Except.ok.inj ((hsel c rfl [] 0 ⟨0, 0⟩).symm.trans (hsel' c rfl [] 0 ⟨0, 0⟩))

/-! ## INSERT -/

section
variable {info : TableInfo}

theorem insertValue_eq {typeId : TypeId} {e : Expr} {datum : Option Datum}
    (h : Planner.insertValue typeId e = .ok datum) :
    datum = e.literal.map .scalar := by
  cases typeId <;> cases e <;> cases h <;> rfl

theorem insertValues_eq {columns : List ColumnInfo} {exprs : List Expr} {values : Values}
    (h : Planner.insertValues columns exprs = .ok values) (hlen : exprs.length = columns.length) :
    values = datums (exprs.map Expr.literal) := by
  induction columns generalizing exprs values with
  | nil =>
    obtain rfl := List.length_eq_zero_iff.1 hlen
    cases h
    rfl
  | cons col columns ih =>
    cases exprs with
    | nil => cases hlen
    | cons e exprs =>
      obtain ⟨datum, hdatum, h⟩ := bind_eq_ok.1 h
      obtain ⟨rest, hrest, h⟩ := bind_eq_ok.1 h
      cases h
      rw [insertValue_eq hdatum, ih hrest (Nat.succ.inj hlen)]
      rfl

theorem planInsert_eq {stmt : InsertStatement} {values : Values} (h : Planner.planInsert info stmt = .ok values) :
    values = datums (stmt.values.map Expr.literal) ∧ stmt.values.length = info.columns.length ∧
      info.columns.length ≠ 2 ^ 16 - 1 := by
  unfold Planner.planInsert at h
  rw [info.counted] at h
  by_cases hlen : stmt.values.length = info.columns.length
  · by_cases hcount : info.columns.length = 2 ^ 16 - 1
    · rw [if_neg (not_not.2 hlen), if_pos hcount] at h
      cases h
    · rw [if_neg (not_not.2 hlen), if_neg hcount] at h
      exact ⟨insertValues_eq h hlen, hlen, hcount⟩
  · rw [if_pos hlen] at h
    cases h

theorem eq_of_permuted_le {S : Type} [Fintype S] {k : S → S} (hk : Function.Injective k) {f : S → Nat}
    (hle : ∀ i, f (k i) ≤ f i) (i : S) : f (k i) = f i := by
  have hsum : ∑ i, f (k i) = ∑ i, f i := (Finite.injective_iff_bijective.1 hk).sum_comp f
  exact (Finset.sum_eq_sum_iff_of_le fun i _ => hle i).1 hsum i (Finset.mem_univ i)

/-- A list of names that gives each column the narrowed value at the column's place narrows none of them. -/
theorem holds_of_permuted {names : List String} {row : List (Option Int)} (hlen : row.length = info.columns.length)
    (h : narrowRow info.columns row =
      info.columns.map fun col => (names.idxOf? col.name).bind fun k => (row[k]?).join) : RowHolds info.columns
        row := by
  let S := {i : Fin row.length // row[i.1].isSome}
  let col (i : S) : ColumnInfo := info.columns.get ⟨i.1.1, hlen ▸ i.1.2⟩
  let value (i : S) : Int := row[i.1.1].get i.2
  have hcol : ∀ i : S, info.columns[i.1.1]? = some (col i) := fun i => List.getElem?_eq_getElem (hlen ▸ i.1.2)
  have hvalue : ∀ i : S, row[i.1.1]? = some (some (value i)) := fun i => by
    rw [List.getElem?_eq_getElem i.1.2, Option.some_get]
  -- the place of the value that the list gives to a column with a number
  have hnext :
      ∀ i : S, ∃ j : S, names.idxOf? (col i).name = some j.1.1 ∧ value j = (col i).typeId.narrow (value i) := by
    intro i
    have hat : (narrowRow info.columns row)[i.1.1]? =
        some ((names.idxOf? (col i).name).bind fun k => (row[k]?).join) := by
      rw [h, List.getElem?_map, hcol i, Option.map_some]
    rw [narrowRow_getElem? (hcol i) (hvalue i), Option.map_some] at hat
    obtain ⟨k, hk, hrow⟩ := Option.bind_eq_some_iff.1 (Option.some.inj hat).symm
    rw [Option.join_eq_some_iff] at hrow
    obtain ⟨hlt, hget⟩ := List.getElem?_eq_some_iff.1 hrow
    exact ⟨⟨⟨k, hlt⟩, by rw [hget]; rfl⟩, hk, by simp only [value, hget, Option.get_some]⟩
  choose k hk hnarrow using hnext
  have hinj : Function.Injective k := by
    intro i i' he
    have hi' := hk i'
    rw [← he] at hi'
    obtain ⟨_, hname, -⟩ := List.idxOf?_eq_some_iff.1 (hk i)
    obtain ⟨_, hname', -⟩ := List.idxOf?_eq_some_iff.1 hi'
    have hlt : i.1.1 < (info.columns.map ColumnInfo.name).length := by rw [List.length_map, ← hlen]; exact i.1.2
    have hlt' : i'.1.1 < (info.columns.map ColumnInfo.name).length := by rw [List.length_map, ← hlen]; exact i'.1.2
    have hsame : (info.columns.map ColumnInfo.name)[i.1.1] = (info.columns.map ColumnInfo.name)[i'.1.1] := by
      rw [List.getElem_map, List.getElem_map]
      exact hname.symm.trans hname'
    exact Subtype.ext (Fin.ext ((info.named.getElem_inj_iff).1 hsame))
  intro i col' n hcol' hn
  by_contra hnot
  obtain ⟨hlt, hget⟩ := List.getElem?_eq_some_iff.1 hn
  let j : S := ⟨⟨i, hlt⟩, by rw [hget]; rfl⟩
  have hcolj : col j = col' := Option.some.inj ((hcol j).symm.trans hcol')
  have hvaluej : value j = n := by simp only [value, j, hget, Option.get_some]
  have heq := eq_of_permuted_le hinj (f := fun i => TypeId.distance (value i))
    (fun i => by rw [hnarrow]; exact TypeId.distance_narrow_le _ _) j
  have hless := TypeId.distance_narrow_lt hnot
  simp only [hnarrow, hcolj, hvaluej] at heq
  omega

/-- What an accepted INSERT stores is what it gives if and only if each number fits
where it is and the column list moves none. -/
theorem insert_stores_iff {dbg : Bool} {stmt : InsertStatement} {values : Values}
    (h : Planner.planInsert info stmt = .ok values) :
    Stores dbg info values (stmt.given info) ↔
      RowHolds info.columns (stmt.values.map Expr.literal) ∧ stmt.given info = stmt.values.map Expr.literal := by
  obtain ⟨rfl, hlen, hcount⟩ := planInsert_eq h
  have hrow : (stmt.values.map Expr.literal).length = info.columns.length := by rw [List.length_map, hlen]
  have hstores := stores_narrow dbg hrow hcount
  constructor
  · intro hgiven
    have heq := hstores.unique hgiven
    have hholds : RowHolds info.columns (stmt.values.map Expr.literal) := by
      cases hnames : stmt.columns with
      | none =>
        have hg : stmt.given info = stmt.values.map Expr.literal := by rw [InsertStatement.given, hnames]
        rw [hg] at heq
        exact heq ▸ narrowRow_holds
      | some names =>
        have hg : stmt.given info = info.columns.map fun col =>
            (names.idxOf? col.name).bind fun k => ((stmt.values.map Expr.literal)[k]?).join := by
          rw [InsertStatement.given, hnames]
        exact holds_of_permuted hrow (heq.trans hg)
    rw [narrowRow_eq_self hrow hholds] at heq
    exact ⟨hholds, heq.symm⟩
  · rintro ⟨hholds, hgiven⟩
    rw [hgiven]
    rwa [narrowRow_eq_self hrow hholds] at hstores

end

/-! ## UPDATE -/

section
variable {info : TableInfo}

/-- The row after the assignments, before it is stored. -/
def assignRow (info : TableInfo) (updates : List (String × Expr)) (row : List (Option Int)) : List (Option Int) :=
  updates.foldl (fun row u => row.set (info.columns.findIdx fun col => col.name = u.1) u.2.literal) row

theorem assignRow_length (updates : List (String × Expr)) (row : List (Option Int)) :
    (assignRow info updates row).length = row.length := by
  induction updates generalizing row with
  | nil => rfl
  | cons u updates ih => rw [assignRow, List.foldl_cons, ← assignRow, ih, List.length_set]

theorem assignRow_other {updates : List (String × Expr)} {row : List (Option Int)} {i : Nat}
    (h : ∀ u ∈ updates, (info.columns.findIdx fun col => col.name = u.1) ≠ i) :
    (assignRow info updates row)[i]? = row[i]? := by
  induction updates generalizing row with
  | nil => rfl
  | cons u updates ih =>
    rw [assignRow, List.foldl_cons, ← assignRow, ih fun v hv => h v (List.mem_cons_of_mem _ hv)]
    exact List.getElem?_set_ne (h u List.mem_cons_self)

theorem assignRow_mem {updates : List (String × Expr)} {row : List (Option Int)} {i : Nat} (hi : i < row.length)
    (h : ∃ u ∈ updates, (info.columns.findIdx fun col => col.name = u.1) = i) :
    ∃ u ∈ updates, (info.columns.findIdx fun col => col.name = u.1) = i ∧
    (assignRow info updates row)[i]? = some u.2.literal := by
  induction updates generalizing row with
  | nil =>
    obtain ⟨u, hu, -⟩ := h
    cases hu
  | cons u updates ih =>
    by_cases hlater : ∃ v ∈ updates, (info.columns.findIdx fun col => col.name = v.1) = i
    · have hi' : i < (row.set (info.columns.findIdx fun col => col.name = u.1) u.2.literal).length := by
        rwa [List.length_set]
      obtain ⟨v, hv, hidx, hget⟩ := ih hi' hlater
      exact ⟨v, List.mem_cons_of_mem _ hv, hidx, hget⟩
    · have hidx : (info.columns.findIdx fun col => col.name = u.1) = i := by
        obtain ⟨v, hv, hidx⟩ := h
        rcases List.mem_cons.1 hv with rfl | hv
        · exact hidx
        · exact absurd ⟨v, hv, hidx⟩ hlater
      refine ⟨u, List.mem_cons_self, hidx, ?_⟩
      rw [assignRow, List.foldl_cons, ← assignRow, assignRow_other fun v hv hv' => hlater ⟨v, hv, hv'⟩, hidx]
      exact List.getElem?_set_self hi

theorem findColumn_eq {colname : String} {col : ColumnInfo} (h : info.findColumn colname = some col) :
    info.columns[info.columns.findIdx fun col => col.name = colname]? = some col ∧ col.name = colname ∧
      col.attno = (info.columns.findIdx fun col => col.name = colname) + 1 := by
  have hget : info.columns[info.columns.findIdx fun col => col.name = colname]? = some col := by
    rw [← List.find?_eq_getElem?_findIdx]
    exact h
  have hattno : (info.columns.map ColumnInfo.attno)[info.columns.findIdx fun col => col.name = colname]? =
      some col.attno := by
    rw [List.getElem?_map, hget, Option.map_some]
  have hname := List.findIdx_of_getElem?_eq_some (p := fun col : ColumnInfo => decide (col.name = colname)) hget
  have hlt := (List.getElem?_eq_some_iff.1 hget).1
  rw [info.numbered, List.getElem?_range' hlt] at hattno
  refine ⟨hget, of_decide_eq_true hname, ?_⟩
  rw [← Option.some.inj hattno, AttrNumber.Min]
  omega

theorem planAssignment_eq {dbg : Bool} {colname : String} {e : Expr} {update : Nat × ExpressionNode}
    (h : Planner.planAssignment dbg info (colname, e) = .ok update) (he : e.IsLiteral) :
    (info.columns.findIdx fun col => col.name = colname) < info.columns.length ∧
      update = ((info.columns.findIdx fun col => col.name = colname) + 1, .constant (e.literal.map .scalar)) := by
  cases hcol : info.findColumn colname with
  | none =>
    simp only [Planner.planAssignment, hcol] at h
    cases h
  | some col =>
    simp only [Planner.planAssignment, hcol] at h
    obtain ⟨expr, hexpr, h⟩ := bind_eq_ok.1 h
    obtain ⟨hget, -, hattno⟩ := findColumn_eq hcol
    refine ⟨(List.getElem?_eq_some_iff.1 hget).1, ?_⟩
    rw [← Except.ok.inj h, hattno]
    rcases he with rfl | ⟨ival, rfl⟩ <;> cases hexpr <;> rfl

theorem copyTuple_eq (dbg : Bool) {row : List (Option Int)} (hlen : row.length = info.columns.length)
    (hcount : info.columns.length ≠ 2 ^ 16 - 1) :
    copyTuple dbg info.descriptor (datums row) = .ok (datums row) := by
  unfold copyTuple
  rw [info.counted, if_neg hcount]
  have hdatums : (datums row).length = row.length := by rw [datums, List.length_map]
  refine mapM_attributes (hdatums.trans hlen) fun i hi => ?_
  rw [getAttribute_eq hlen (by omega), List.getElem?_eq_getElem (by omega)]
  simp only [datums, List.getElem_map, Option.join_some]

theorem setAttributes_eq {dbg : Bool} {updates : List (String × Expr)} {nodes : List (Nat × ExpressionNode)}
    {old : Values}
    {row : List (Option Int)} (hplan : List.Forall₂ (fun u node => Planner.planAssignment dbg info u = .ok node)
      updates nodes)
    (hlit : ∀ u ∈ updates, u.2.IsLiteral) (hlen : row.length = info.columns.length) :
    nodes.foldlM (setAttribute dbg info.descriptor old) (datums row) =
    .ok (datums (assignRow info updates row)) := by
  induction hplan generalizing row with
  | nil => rfl
  | @cons u node updates nodes hu _ ih =>
    obtain ⟨hlt, rfl⟩ := planAssignment_eq hu (hlit u List.mem_cons_self)
    have hset : setAttribute dbg info.descriptor old (datums row)
        ((info.columns.findIdx fun col => col.name = u.1) + 1, .constant (u.2.literal.map .scalar)) =
          .ok (datums (row.set (info.columns.findIdx fun col => col.name = u.1) u.2.literal)) := by
      simp only [setAttribute, AttrNumber.toIndex_succ]
      show assign (datums row) (info.columns.findIdx fun col => col.name = u.1) (u.2.literal.map .scalar) = _
      rw [assign, if_pos (by rw [datums, List.length_map]; omega), datums, datums, List.map_set]
    rw [List.foldlM_cons, hset]
    exact ih (fun v hv => hlit v (List.mem_cons_of_mem _ hv)) (by rw [List.length_set, hlen])

theorem newTuple_eq {dbg : Bool} {stmt : UpdateStatement} {node : UpdateNode}
    (hplan : Planner.planUpdate dbg info stmt = .ok node) (hlit : ∀ u ∈ stmt.updates, u.2.IsLiteral)
    {row : List (Option Int)} (hlen : row.length = info.columns.length)
    (hcount : info.columns.length ≠ 2 ^ 16 - 1) :
    node.newTuple dbg info.descriptor (datums row) = .ok (datums (assignRow info stmt.updates row)) := by
  obtain ⟨updates, hupdates, h⟩ := bind_eq_ok.1 hplan
  cases hwhere : stmt.whereClause with
  | none =>
    rw [hwhere] at h
    cases h
  | some e =>
    rw [hwhere] at h
    obtain ⟨qual, -, h⟩ := bind_eq_ok.1 h
    cases h
    unfold UpdateNode.newTuple
    rw [copyTuple_eq dbg hlen hcount]
    exact setAttributes_eq (mapM_eq_ok.1 hupdates) hlit hlen

theorem mapM_ok_mem {α β ε : Type} {f : α → Except ε β} {xs : List α} {ys : List β} (h : xs.mapM f = .ok ys) {x : α}
    (hx : x ∈ xs) : ∃ y, f x = .ok y := by
  have hall := mapM_eq_ok.1 h
  induction hall with
  | nil => cases hx
  | @cons a b xs ys hab hrest ih =>
    rcases List.mem_cons.1 hx with rfl | hx
    · exact ⟨b, hab⟩
    · exact ih (mapM_eq_ok.2 hrest) hx

theorem planUpdate_columns {dbg : Bool} {stmt : UpdateStatement} {node : UpdateNode}
    (h : Planner.planUpdate dbg info stmt = .ok node) {name : String} {e : Expr} (hu : (name, e) ∈ stmt.updates) :
    ∃ col, info.findColumn name = some col := by
  obtain ⟨updates, hupdates, -⟩ := bind_eq_ok.1 h
  obtain ⟨update, hupdate⟩ := mapM_ok_mem hupdates hu
  cases hcol : info.findColumn name with
  | none =>
    simp only [Planner.planAssignment, hcol] at hupdate
    cases hupdate
  | some col => exact ⟨col, rfl⟩

end

namespace TupleSerializer

variable {dbg : Bool}

theorem extractAttrDatum_holds {cursor : List UInt8} {typeId : TypeId} {n : Int} {length : Nat}
    (h : extractAttrDatum dbg cursor typeId.descriptor = .ok (.scalar n, length)) : typeId.Holds n := by
  have hval : typeId.descriptor.byVal = true := rfl
  unfold extractAttrDatum at h
  rw [if_pos hval, scalarWidth_descriptor] at h
  obtain ⟨_, -, h⟩ := bind_eq_ok.1 h
  simp only at h
  split_ifs at h with hshort
  · cases h
  · cases h
    have hlt := decodeLE_lt (cursor.take typeId.size)
    have hlen : (cursor.take typeId.size).length = typeId.size := List.length_take_of_le (Nat.not_lt.1 hshort)
    rw [hlen] at hlt
    unfold TypeId.Holds signed
    cases typeId <;> simp only [TypeId.size, Nat.reduceMul, Nat.reduceSub, Nat.reducePow, Int.reducePow,
      Int.reduceNeg] at hlt ⊢ <;>
      split_ifs <;> omega

theorem extractValues_holds {columns : List ColumnInfo} {nulls : List Bool} {cursor : List UInt8}
    {row : List (Option Int)}
    (h : extractValues dbg (columns.map fun col => col.typeId.descriptor) nulls cursor = .ok (datums row)) :
    RowHolds columns row := by
  induction columns generalizing nulls cursor row with
  | nil => exact fun i col n hcol => by cases hcol
  | cons col columns ih =>
    rw [List.map_cons] at h
    cases row with
    | nil => exact fun i col' n _ hn => by cases hn
    | cons value row =>
      cases nulls with
      | nil => cases h
      | cons null nulls =>
        cases null with
        | true =>
          obtain ⟨rest, hrest, h⟩ := bind_eq_ok.1 h
          obtain ⟨hvalue, rfl⟩ := List.cons.inj (Except.ok.inj h)
          refine (ih hrest).cons fun n hn => ?_
          rw [hn] at hvalue
          cases hvalue
        | false =>
          obtain ⟨⟨datum, length⟩, hdatum, h⟩ := bind_eq_ok.1 h
          obtain ⟨rest, hrest, h⟩ := bind_eq_ok.1 h
          obtain ⟨hvalue, rfl⟩ := List.cons.inj (Except.ok.inj h)
          refine (ih hrest).cons fun n hn => ?_
          rw [hn] at hvalue
          cases hvalue
          exact extractAttrDatum_holds hdatum

end TupleSerializer

section
variable {dbg : Bool} {info : TableInfo} {stmt : UpdateStatement} {node : UpdateNode}

/-- The row that an UPDATE makes of `old` has what is assigned, and the rest of `old`, after it was stored. -/
def UpdateStores (dbg : Bool) (info : TableInfo) (stmt : UpdateStatement) (node : UpdateNode)
    (old : List (Option Int)) : Prop :=
  ∃ values row, node.newTuple dbg info.descriptor (datums old) = .ok values ∧ Stores dbg info values row ∧
  Assigned info stmt old row

/-- Each number fits in its column, and no column is assigned two values. -/
structure UpdateStatement.Fits (stmt : UpdateStatement) (info : TableInfo) : Prop where
  holds : ∀ name e n col, (name, e) ∈ stmt.updates → e.literal = some n → info.findColumn name = some col →
    col.typeId.Holds n
  once : ∀ name e e', (name, e) ∈ stmt.updates → (name, e') ∈ stmt.updates → e.literal = e'.literal

theorem assigned_value (hplan : Planner.planUpdate dbg info stmt = .ok node) {old : List (Option Int)}
    (hlen : old.length = info.columns.length) {name : String} {e : Expr} (hu : (name, e) ∈ stmt.updates) :
    ∃ col e', (name, e') ∈ stmt.updates ∧ info.findColumn name = some col ∧
      (narrowRow info.columns (assignRow info stmt.updates old))[info.columns.findIdx fun col => col.name = name]? =
        some (e'.literal.map col.typeId.narrow) := by
  obtain ⟨col, hcol⟩ := planUpdate_columns hplan hu
  obtain ⟨hget, hname, -⟩ := findColumn_eq hcol
  have hlt := (List.getElem?_eq_some_iff.1 hget).1
  have hltold : (info.columns.findIdx fun col => col.name = name) < old.length := hlen ▸ hlt
  obtain ⟨⟨name', e'⟩, hu', hidx, hvalue⟩ := assignRow_mem hltold ⟨(name, e), hu, rfl⟩
  obtain ⟨col', hcol'⟩ := planUpdate_columns hplan hu'
  obtain ⟨hget', hname', -⟩ := findColumn_eq hcol'
  simp only [hidx] at hget'
  obtain rfl : col' = col := Option.some.inj (hget'.symm.trans hget)
  obtain rfl : name' = name := hname'.symm.trans hname
  exact ⟨col', e', hu', hcol, narrowRow_getElem? hget hvalue⟩

theorem unassigned_value (hplan : Planner.planUpdate dbg info stmt = .ok node) {old : List (Option Int)}
    (hlen : old.length = info.columns.length) (hold : RowHolds info.columns old) {i : Nat} {col : ColumnInfo}
    (hcol : info.columns[i]? = some col) (hname : col.name ∉ stmt.updates.map Prod.fst) :
    (narrowRow info.columns (assignRow info stmt.updates old))[i]? = old[i]? := by
  have hother : (assignRow info stmt.updates old)[i]? = old[i]? := by
    refine assignRow_other fun ⟨name, e⟩ hu hidx => hname ?_
    obtain ⟨col', hcol'⟩ := planUpdate_columns hplan hu
    obtain ⟨hget, hname', -⟩ := findColumn_eq hcol'
    rw [hidx, hcol] at hget
    rw [Option.some.inj hget, hname']
    exact List.mem_map_of_mem hu
  have hlt := (List.getElem?_eq_some_iff.1 hcol).1
  have hvalue : old[i]? = some old[i] := List.getElem?_eq_getElem (hlen ▸ hlt)
  rw [hvalue] at hother
  rw [narrowRow_getElem? hcol hother, hvalue]
  cases hn : old[i] with
  | none => rfl
  | some n => rw [Option.map_some, TypeId.narrow_of_holds (hold i col n hcol (hn ▸ hvalue))]

theorem update_stores_iff (hplan : Planner.planUpdate dbg info stmt = .ok node)
    (hlit : ∀ u ∈ stmt.updates, u.2.IsLiteral) {array : List UInt8} {hasnulls : Bool} {size : Nat}
    {old : List (Option Int)}
    (hold : TupleSerializer.deserialize dbg info.descriptor array hasnulls size = .ok (datums old)) :
    UpdateStores dbg info stmt node old ↔ stmt.Fits info := by
  obtain ⟨row, hlen, heq⟩ := info.deserialize_integers hold
  obtain rfl := datums_injective heq
  obtain ⟨hcount, nulls, cursor, hextract⟩ := info.deserialize_extract hold
  have hnew := newTuple_eq hplan hlit hlen hcount
  have hnewlen : (assignRow info stmt.updates old).length = info.columns.length := by rw [assignRow_length, hlen]
  have hstores := stores_narrow dbg hnewlen hcount
  constructor
  · rintro ⟨values, row, hvalues, hrow, hassigned⟩
    obtain rfl := Except.ok.inj (hnew.symm.trans hvalues)
    obtain rfl := hstores.unique hrow
    refine ⟨fun name e n col hu hn hcol => ?_, fun name e e' hu hu' => ?_⟩
    · obtain ⟨col', e', hu', hcol', hget⟩ := assigned_value hplan hlen hu
      obtain rfl := Option.some.inj (hcol'.symm.trans hcol)
      have he := Option.some.inj ((hassigned.set name e hu).symm.trans hget)
      rw [hn] at he
      obtain ⟨m, hm, hnm⟩ := Option.map_eq_some_iff.1 he.symm
      rw [← hnm]
      exact TypeId.holds_narrow _ _
    · exact Option.some.inj ((hassigned.set name e hu).symm.trans (hassigned.set name e' hu'))
  · intro hfits
    refine ⟨_, _, hnew, hstores, fun name e hu => ?_, fun i col hcol hname => ?_⟩
    · obtain ⟨col, e', hu', hcol, hget⟩ := assigned_value hplan hlen hu
      rw [hget, ← hfits.once name e e' hu hu']
      cases hn : e.literal with
      | none => rfl
      | some n => rw [Option.map_some, TypeId.narrow_of_holds (hfits.holds name e n col hu hn hcol)]
    · exact unassigned_value hplan hlen (TupleSerializer.extractValues_holds hextract) hcol hname

end

/-- For accepted statements of literals, on every row: an INSERT stores what it gives if and only if each number
fits in its place and the column list moves none, and an UPDATE what it assigns if and only if each number fits in
its column and no column is assigned two values. -/
theorem stored_values_iff (dbg : Bool) (info : TableInfo) :
    (∀ stmt values, Planner.planInsert info stmt = .ok values → (Stores dbg info values (stmt.given info) ↔
      RowHolds info.columns (stmt.values.map Expr.literal) ∧ stmt.given info = stmt.values.map Expr.literal)) ∧
    ∀ stmt node, Planner.planUpdate dbg info stmt = .ok node → (∀ u ∈ stmt.updates, u.2.IsLiteral) →
      ∀ array hasnulls size old, TupleSerializer.deserialize dbg info.descriptor array hasnulls size =
      .ok (datums old) →
        (UpdateStores dbg info stmt node old ↔ stmt.Fits info) :=
  ⟨fun _ _ h => insert_stores_iff h, fun _ _ hplan hlit _ _ _ _ hold => update_stores_iff hplan hlit hold⟩

/-- `INSERT INTO tbl VALUES (1, NULL)` and then `UPDATE tbl SET b = 5 WHERE a = 1`. -/
theorem stored_values_small :
    (∃ values, Planner.planInsert setupDatabase ⟨none, [.literalInt 1, .literalNull]⟩ = .ok values ∧
      Stores true setupDatabase values [some 1, none]) ∧
    ∃ node, Planner.planUpdate true setupDatabase
      ⟨[("b", .literalInt 5)], some (.operator .Equals (.columnRef "a") (.literalInt 1))⟩ =
      .ok node ∧ UpdateStores true setupDatabase
        ⟨[("b", .literalInt 5)], some (.operator .Equals (.columnRef "a") (.literalInt 1))⟩ node
          [some 1, none] := by
  obtain ⟨hinsert, hupdate⟩ := stored_values_iff true setupDatabase
  refine ⟨⟨_, rfl, (hinsert ⟨none, [.literalInt 1, .literalNull]⟩ _ rfl).2 ⟨?_, rfl⟩⟩, _, rfl, ?_⟩
  · intro i col n hcol hn
    match i with
    | 0 =>
      cases hcol
      cases hn
      exact ⟨by decide, by decide⟩
    | 1 => cases hn
    | _ + 2 => cases hn
  · have hold : TupleSerializer.deserialize true setupDatabase.descriptor [1, 1, 0, 0, 0] true 5 =
        .ok (datums [some 1, none]) := by
      decide +kernel
    refine (hupdate _ _ rfl (fun u hu => ?_) _ _ _ _ hold).2
      ⟨fun name e n col hu hn hcol => ?_, fun name e e' hu hu' => ?_⟩
    · rw [List.mem_singleton.1 hu]
      exact .inr ⟨5, rfl⟩
    · cases List.mem_singleton.1 hu
      cases hn
      obtain rfl : col = ⟨.Int16, "b", 2⟩ := (Option.some.inj hcol).symm
      exact ⟨by decide, by decide⟩
    · cases List.mem_singleton.1 hu
      cases List.mem_singleton.1 hu'
      rfl

/-- `INSERT INTO tbl VALUES (1, 70000)` stores 4464. -/
theorem insert_narrowed :
    ∃ values, Planner.planInsert setupDatabase ⟨none, [.literalInt 1, .literalInt 70000]⟩ = .ok values ∧
    Stores true setupDatabase values [some 1, some 4464] ∧
    ¬ Stores true setupDatabase values (InsertStatement.given ⟨none, [.literalInt 1, .literalInt 70000]⟩
      setupDatabase) := by
  have hstores : Stores true setupDatabase (datums [some 1, some 70000]) [some 1, some 4464] :=
    stores_narrow true rfl (by decide)
  refine ⟨_, rfl, hstores, fun hgiven => ?_⟩
  have heq := hstores.unique hgiven
  exact absurd heq (by decide)

end Mimidb
