import Mimidb.AttrLoops
import Mimidb.SlotTuples

/-!
# Expressions

`parse_expr` makes a tree of nodes from an expression of SQL, and `Exec`
evaluates it on a tuple. Whatever its sides are, an equality is planned as the
one of two `Int32`: it compares 32 bits of each side. The tree has the meaning
that SQL gives to the expression if and only if no equality in it compares two
numbers that differ by a multiple of `2 ^ 32`.
-/

namespace Mimidb

/-! ## The catalog -/

/-- The builtin types of integers. -/
inductive TypeId where
  | Int64
  | Int32
  | Int16
  deriving DecidableEq, Repr

namespace TypeId

/-- Bytes of a value. -/
def size : TypeId → Nat
  | Int64 => 8
  | Int32 => 4
  | Int16 => 2

def descriptor (typeId : TypeId) : AttributeDescriptor := ⟨typeId.size, true⟩

end TypeId

structure ColumnInfo where
  typeId : TypeId
  name : String
  attno : Nat
  deriving DecidableEq, Repr

/-- A table with columns of integers. -/
structure TableInfo where
  descriptor : TupleDescriptor
  columns : List ColumnInfo
  attributes : descriptor.attributes = columns.map fun col => col.typeId.descriptor
  /-- The constructor asserts it. -/
  counted : descriptor.getMaxAttrNumber = columns.length
  numbered : columns.map ColumnInfo.attno = List.range' AttrNumber.Min columns.length
  named : (columns.map ColumnInfo.name).Nodup

/-- `CREATE TABLE tbl(a int4, b int2)`. -/
def setupDatabase : TableInfo where
  descriptor := ⟨[⟨4, true⟩, ⟨2, true⟩]⟩
  columns := [⟨.Int32, "a", 1⟩, ⟨.Int16, "b", 2⟩]
  attributes := rfl
  counted := rfl
  numbered := rfl
  named := by decide

inductive OperatorStrategy where
  | Equal
  | NotEqual
  | Less
  | LessEq
  | Greater
  | GreaterEq
  deriving DecidableEq, Repr

/-! ## Functions -/

namespace Datum

/-- `getScalar` for a type of `w` bits. The number of a pointer is not known. -/
def getScalar (w : Nat) : Datum → Except Fault Int
  | scalar value => .ok (signed w (value % 2 ^ w).toNat)
  | pointer _ => .error .outOfBounds

/-- `getScalar<bool>`. -/
def getBool : Datum → Bool
  | scalar value => value ≠ 0
  | pointer _ => true

end Datum

abbrev MIFunction := Bool → List (Option Datum) → Except Fault (Option Datum)

/-- `operator*` of an optional. -/
def deref {α : Type} : Option α → Except Fault α
  | some a => .ok a
  | none => .error .nullPointer

/-- `inteqgeneric` for a type of `w` bits. -/
def inteqgeneric (w : Nat) : MIFunction := fun dbg args => do
  assert dbg (args.length = 2)
  let first ← deref (← fetch args 0)
  let second ← deref (← fetch args 1)
  return some (.scalar (if (← first.getScalar w) = (← second.getScalar w) then 1 else 0))

def int64Eq : MIFunction := inteqgeneric 64

def int32Eq : MIFunction := inteqgeneric 32

def int16Eq : MIFunction := inteqgeneric 16

structure OperatorInfo where
  leftType : TypeId
  rightType : TypeId
  strategy : OperatorStrategy
  function : MIFunction

namespace Schema

/-- The operators on integers that `setupDatabase` creates. -/
def operators : List OperatorInfo :=
  [⟨.Int16, .Int16, .Equal, int16Eq⟩, ⟨.Int32, .Int32, .Equal, int32Eq⟩, ⟨.Int64, .Int64, .Equal, int64Eq⟩]

def findOperatorInfo (leftType rightType : TypeId) (strategy : OperatorStrategy) : Option OperatorInfo :=
  operators.find? fun op => op.leftType = leftType ∧ op.rightType = rightType ∧ op.strategy = strategy

end Schema

structure FunctionContext where
  function : MIFunction
  strict : Bool
  nargs : Nat

/-! ## Expressions -/

inductive OperatorType where
  | None
  | Between
  | Case
  | CaseListElement
  | Plus
  | Minus
  | Asterisk
  | Slash
  | Percentage
  | Caret
  | Equals
  | NotEquals
  | Less
  | LessEq
  | Greater
  | GreaterEq
  | Like
  | NotLike
  | ILike
  | And
  | Or
  | In
  | Concat
  | Not
  | UnaryMinus
  | IsNull
  | Exists
  deriving DecidableEq, Repr

/-- The expressions of the parser. Nothing reads the second side of an operator that has only one. -/
inductive Expr where
  | operator (opType : OperatorType) (expr expr2 : Expr)
  /-- The number has 64 bits. -/
  | literalInt (ival : Int)
  | literalNull
  | columnRef (name : String)
  | other (type : Nat)
  deriving DecidableEq, Repr

/-- The nodes of a plan. A function has the two arguments that the planner gives it. -/
inductive ExpressionNode where
  | constant (value : Option Datum)
  | attr (attno : Nat)
  | function (funcCtx : FunctionContext) (left right : ExpressionNode)

def mapOpStrategy : OperatorType → Except Fault OperatorStrategy
  | .Equals => .ok .Equal
  | .NotEquals => .ok .NotEqual
  | .Less => .ok .Less
  | .LessEq => .ok .LessEq
  | .Greater => .ok .Greater
  | .GreaterEq => .ok .GreaterEq
  | _ => .error (.runtimeError "Operator is not supported")

/-- The number of the first column with the name, counted from `attno`. -/
def findAttno (name : String) : List ColumnInfo → Nat → Option Nat
  | [], _ => none
  | col :: cols, attno => if col.name = name then some attno else findAttno name cols (AttrNumber.next attno)

def parseExpr (dbg : Bool) (info : TableInfo) : Expr → Except Fault ExpressionNode
  | .operator opType expr expr2 => do
    let strategy ← mapOpStrategy opType
    let left ← parseExpr dbg info expr
    let right ← parseExpr dbg info expr2
    match Schema.findOperatorInfo .Int32 .Int32 strategy with
    | none => throw (.runtimeError "Could not find operator")
    | some info => return .function ⟨info.function, true, 2⟩ left right
  | .literalInt ival => .ok (.constant (some (.scalar ival)))
  | .literalNull => .ok (.constant none)
  | .columnRef name =>
    match findAttno name info.columns AttrNumber.Min with
    | none => .error (.runtimeError ("could not find column: " ++ name))
    | some attno => do
      assert dbg (attno ≤ info.descriptor.getMaxAttrNumber)
      return .attr attno
  | .other type => .error (.runtimeError s!"expression is not supported: {type}")

/-- `GetAttribute` of a tuple that a scan has read. -/
def HeapTuple.getAttribute (dbg : Bool) (desc : TupleDescriptor) (values : Values) (attno : Nat) :
    Except Fault (Option Datum) := do
  if desc.getMaxAttrNumber < attno then throw (.runtimeError "provided attribute number greater than available")
  fetch values (← AttrNumber.toIndex dbg attno)

namespace ExpressionNode

variable (dbg : Bool) (desc : TupleDescriptor) (values : Values)

def exec : ExpressionNode → Except Fault (Option Datum)
  | constant value => .ok value
  | attr attno => HeapTuple.getAttribute dbg desc values attno
  | function funcCtx left right => do
    let first ← exec left
    let second ← exec right
    if funcCtx.strict && (first.isNone || second.isNone) then return none
    funcCtx.function dbg [first, second]

def execQual (node : ExpressionNode) : Except Fault Bool := do
  return (← exec dbg desc values node).any Datum.getBool

end ExpressionNode

/-- `Execute` of a scan, where `GetNextTuple` returns the tuples in order. It returns the tuple and those left. -/
def SeqScan.execute (dbg : Bool) (desc : TupleDescriptor) (qual : Option ExpressionNode) :
    List (HeapTuple Values) → Except Fault (Option (HeapTuple Values) × List (HeapTuple Values))
  | [] => .ok (none, [])
  | tuple :: tuples =>
    match qual with
    | none => .ok (some tuple, tuples)
    | some node => do
      let result ← node.exec dbg desc tuple.values
      if result.any Datum.getBool then return (some tuple, tuples)
      execute dbg desc qual tuples

/-! ## The meaning in SQL -/

namespace Expr

/-- The value over a row, where truth is 1 and NULL is `none`. -/
def meaning (info : TableInfo) (row : List (Option Int)) : Expr → Option Int
  | operator _ expr expr2 => do
    let x ← meaning info row expr
    let y ← meaning info row expr2
    return if x = y then 1 else 0
  | literalInt ival => some ival
  | literalNull => none
  | columnRef name => (row[info.columns.findIdx fun col => col.name = name]?).join
  | other _ => none

def subexprs : Expr → List Expr
  | operator opType expr expr2 => operator opType expr expr2 :: (expr.subexprs ++ expr2.subexprs)
  | literalInt ival => [literalInt ival]
  | literalNull => [literalNull]
  | columnRef name => [columnRef name]
  | other type => [other type]

end Expr

/-- Neither false nor NULL. -/
def passes (value : Option Int) : Bool := value.any (· ≠ 0)

/-- The row as `Deserialize` gives it. -/
def datums (row : List (Option Int)) : Values := row.map (Option.map .scalar)

/-- An equality compares two different numbers with the same 32 bits at the end. -/
def Collides (info : TableInfo) (row : List (Option Int)) (e : Expr) : Prop :=
  ∃ opType expr expr2 x y, .operator opType expr expr2 ∈ e.subexprs ∧ expr.meaning info row = some x ∧
    expr2.meaning info row = some y ∧ x ≠ y ∧ x % 2 ^ 32 = y % 2 ^ 32

/-- On the row, every node of the tree has the value of its expression, and the row is taken
if and only if the whole expression is true. -/
structure MeansSQL (dbg : Bool) (info : TableInfo) (e : Expr) (node : ExpressionNode) (row : List (Option Int)) :
    Prop where
  nodes : ∀ e' ∈ e.subexprs, ∀ node', parseExpr dbg info e' = .ok node' →
    node'.exec dbg info.descriptor (datums row) = .ok ((e'.meaning info row).map .scalar)
  qual : node.execQual dbg info.descriptor (datums row) = .ok (passes (e.meaning info row))
  scan : ∀ header tid tuples, SeqScan.execute dbg info.descriptor (some node)
    (⟨header, datums row, tid⟩ :: tuples) =
    if passes (e.meaning info row) then .ok (some ⟨header, datums row, tid⟩, tuples)
    else SeqScan.execute dbg info.descriptor (some node) tuples

/-! ## Rows of integers -/

namespace TupleSerializer

variable {dbg : Bool}

theorem extractAttrDatum_scalar {cursor : List UInt8} {typeId : TypeId} {value : Datum} {length : Nat}
    (h : extractAttrDatum dbg cursor typeId.descriptor = .ok (value, length)) : ∃ n, value = .scalar n := by
  have hval : typeId.descriptor.byVal = true := rfl
  unfold extractAttrDatum at h
  rw [if_pos hval] at h
  obtain ⟨_, -, h⟩ := bind_eq_ok.1 h
  split at h
  · obtain ⟨_, -, h⟩ := bind_eq_ok.1 h
    cases h
  · split_ifs at h
    · cases h
    · cases h
      exact ⟨_, rfl⟩

theorem extractValues_integers {columns : List ColumnInfo} {nulls : List Bool} {cursor : List UInt8}
    {values : Values}
    (h : extractValues dbg (columns.map fun col => col.typeId.descriptor) nulls cursor = .ok values) :
    ∃ row, row.length = columns.length ∧ values = datums row := by
  induction columns generalizing nulls cursor values with
  | nil =>
    cases h
    exact ⟨[], rfl, rfl⟩
  | cons col columns ih =>
    rw [List.map_cons] at h
    cases nulls with
    | nil => cases h
    | cons null nulls =>
      cases null with
      | true =>
        obtain ⟨rest, hrest, h⟩ := bind_eq_ok.1 h
        obtain ⟨row, hlen, rfl⟩ := ih hrest
        cases h
        exact ⟨none :: row, congrArg (· + 1) hlen, rfl⟩
      | false =>
        obtain ⟨⟨value, length⟩, hvalue, h⟩ := bind_eq_ok.1 h
        obtain ⟨rest, hrest, h⟩ := bind_eq_ok.1 h
        obtain ⟨n, rfl⟩ := extractAttrDatum_scalar hvalue
        obtain ⟨row, hlen, rfl⟩ := ih hrest
        cases h
        exact ⟨some n :: row, congrArg (· + 1) hlen, rfl⟩

end TupleSerializer

namespace TableInfo

variable {info : TableInfo}

theorem take_attributes (info : TableInfo) :
    info.descriptor.attributes.take info.descriptor.getMaxAttrNumber = info.columns.map fun col =>
    col.typeId.descriptor := by
  rw [info.counted, info.attributes]
  exact List.take_of_length_le (by rw [List.length_map])

theorem length_lt (info : TableInfo) : info.columns.length < 2 ^ 16 := by
  rw [← info.counted]
  exact Nat.mod_lt _ (by decide)

theorem deserialize_extract {dbg hasnulls : Bool} {array : List UInt8} {size : Nat} {values : Values}
    (h : TupleSerializer.deserialize dbg info.descriptor array hasnulls size = .ok values) :
    info.columns.length ≠ 2 ^ 16 - 1 ∧ ∃ nulls cursor,
      TupleSerializer.extractValues dbg (info.columns.map fun col => col.typeId.descriptor) nulls cursor =
      .ok values := by
  unfold TupleSerializer.deserialize at h
  simp only [info.take_attributes] at h
  by_cases hcount : info.descriptor.getMaxAttrNumber = 2 ^ 16 - 1
  · rw [if_pos hcount] at h
    cases h
  · rw [if_neg hcount] at h
    rw [info.counted] at hcount
    cases hasnulls with
    | true =>
      rw [if_pos rfl] at h
      by_cases hshort : array.length < BitUtils.bitmapSize info.descriptor.getMaxAttrNumber
      · rw [if_pos hshort] at h
        cases h
      · rw [if_neg hshort] at h
        exact ⟨hcount, _, _, h⟩
    | false => exact ⟨hcount, _, _, h⟩

theorem deserialize_integers {dbg hasnulls : Bool} {array : List UInt8} {size : Nat} {values : Values}
    (h : TupleSerializer.deserialize dbg info.descriptor array hasnulls size = .ok values) :
    ∃ row, row.length = info.columns.length ∧ values = datums row := by
  obtain ⟨-, nulls, cursor, h⟩ := deserialize_extract h
  exact TupleSerializer.extractValues_integers h

end TableInfo

/-! ## Planned expressions -/

section
variable {dbg : Bool} {info : TableInfo}

theorem findOperatorInfo_equal {strategy : OperatorStrategy} {op : OperatorInfo}
    (h : Schema.findOperatorInfo .Int32 .Int32 strategy = some op) : op.function = int32Eq := by
  cases strategy <;> cases h
  rfl

theorem parseExpr_operator {opType : OperatorType} {expr expr2 : Expr} {node : ExpressionNode}
    (h : parseExpr dbg info (.operator opType expr expr2) = .ok node) :
    ∃ left right, parseExpr dbg info expr = .ok left ∧
      parseExpr dbg info expr2 = .ok right ∧ node = .function ⟨int32Eq, true, 2⟩ left right := by
  obtain ⟨strategy, -, h⟩ := bind_eq_ok.1 h
  obtain ⟨left, hleft, h⟩ := bind_eq_ok.1 h
  obtain ⟨right, hright, h⟩ := bind_eq_ok.1 h
  cases hop : Schema.findOperatorInfo .Int32 .Int32 strategy with
  | none =>
    rw [hop] at h
    cases h
  | some op =>
    rw [hop] at h
    cases h
    rw [findOperatorInfo_equal hop]
    exact ⟨left, right, hleft, hright, rfl⟩

theorem parseExpr_sub {e e' : Expr} {node : ExpressionNode} (h : parseExpr dbg info e = .ok node)
    (hsub : e' ∈ e.subexprs) :
    ∃ node', parseExpr dbg info e' = .ok node' := by
  induction e generalizing node with
  | operator opType expr expr2 ih ih2 =>
    obtain ⟨left, right, hleft, hright, -⟩ := parseExpr_operator h
    rcases List.mem_cons.1 hsub with rfl | hsub
    · exact ⟨node, h⟩
    · rcases List.mem_append.1 hsub with hsub | hsub
      · exact ih hleft hsub
      · exact ih2 hright hsub
  | literalInt ival => exact ⟨node, List.mem_singleton.1 hsub ▸ h⟩
  | literalNull => exact ⟨node, List.mem_singleton.1 hsub ▸ h⟩
  | columnRef name => exact ⟨node, List.mem_singleton.1 hsub ▸ h⟩
  | other type => cases h

theorem Expr.subexprs_trans {e e' e'' : Expr} (h : e' ∈ e.subexprs) (h' : e'' ∈ e'.subexprs) :
    e'' ∈ e.subexprs := by
  induction e with
  | operator opType expr expr2 ih ih2 =>
    rcases List.mem_cons.1 h with rfl | h
    · exact h'
    · rcases List.mem_append.1 h with h | h
      · exact List.mem_cons_of_mem _ (List.mem_append_left _ (ih h))
      · exact List.mem_cons_of_mem _ (List.mem_append_right _ (ih2 h))
  | literalInt ival => exact List.mem_singleton.1 h ▸ h'
  | literalNull => exact List.mem_singleton.1 h ▸ h'
  | columnRef name => exact List.mem_singleton.1 h ▸ h'
  | other type => exact List.mem_singleton.1 h ▸ h'

theorem findAttno_eq {name : String} {columns : List ColumnInfo} {attno found : Nat}
    (hfit : attno + columns.length ≤ 2 ^ 16) (h : findAttno name columns attno = some found) :
    found = attno + (columns.findIdx fun col => col.name = name) ∧ found < attno + columns.length := by
  induction columns generalizing attno with
  | nil => cases h
  | cons col columns ih =>
    rw [List.length_cons] at hfit ⊢
    rw [findAttno] at h
    rw [List.findIdx_cons]
    by_cases hname : col.name = name
    · rw [if_pos hname] at h
      cases h
      rw [decide_eq_true hname]
      exact ⟨rfl, by omega⟩
    · rw [if_neg hname] at h
      rw [decide_eq_false hname]
      cases columns with
      | nil => cases h
      | cons col' columns =>
        rw [List.length_cons] at hfit ih ⊢
        have hnext : AttrNumber.next attno = attno + 1 := Nat.mod_eq_of_lt (by omega)
        rw [hnext] at h
        obtain ⟨hfound, hlt⟩ := ih (by omega) h
        rw [hfound] at hlt ⊢
        exact ⟨by simp only [cond_false]; omega, by omega⟩

theorem int32Eq_eq (dbg : Bool) (x y : Int) : int32Eq dbg [some (.scalar x), some (.scalar y)] =
    .ok (some (.scalar (if x % 2 ^ 32 = y % 2 ^ 32 then 1 else 0))) := by
  have hiff : signed 32 (x % 2 ^ 32).toNat = signed 32 (y % 2 ^ 32).toNat ↔ x % 2 ^ 32 = y % 2 ^ 32 := by
    unfold signed
    constructor
    · intro h
      split_ifs at h <;> omega
    · intro h
      rw [h]
  have hassert : assert dbg (decide ([some (Datum.scalar x), some (.scalar y)].length = 2)) = .ok () := by
    cases dbg <;> rfl
  unfold int32Eq inteqgeneric
  simp only [hassert]
  show Except.ok (some (Datum.scalar (if signed 32 (x % 2 ^ 32).toNat = signed 32 (y % 2 ^ 32).toNat then 1
    else 0))) = _
  simp only [hiff]

/-! ## Evaluation -/

variable {row : List (Option Int)}

theorem AttrNumber.toIndex_succ (dbg : Bool) (idx : Nat) : AttrNumber.toIndex dbg (idx + 1) = .ok idx := by
  unfold AttrNumber.toIndex
  rw [if_neg (Nat.succ_ne_zero _), decide_eq_true (Nat.succ_ne_zero idx)]
  cases dbg <;> rfl

theorem getAttribute_eq (hrow : row.length = info.columns.length) {idx : Nat} (h : idx < row.length) :
    HeapTuple.getAttribute dbg info.descriptor (datums row) (idx + 1) = .ok ((row[idx]?).join.map .scalar) := by
  have hget : (datums row)[idx]? = some (row[idx].map .scalar) := by
    rw [datums, List.getElem?_map, List.getElem?_eq_getElem h]
    rfl
  unfold HeapTuple.getAttribute
  rw [if_neg (by rw [info.counted]; omega), AttrNumber.toIndex_succ, List.getElem?_eq_getElem h]
  show fetch (datums row) idx = _
  unfold fetch
  rw [hget]
  rfl

theorem exec_columnRef (hrow : row.length = info.columns.length) {name : String} {node : ExpressionNode}
    (h : parseExpr dbg info (.columnRef name) = .ok node) :
    node.exec dbg info.descriptor (datums row) = .ok (((Expr.columnRef name).meaning info row).map .scalar) := by
  unfold parseExpr at h
  cases hfind : findAttno name info.columns AttrNumber.Min with
  | none =>
    rw [hfind] at h
    cases h
  | some attno =>
    rw [hfind] at h
    obtain ⟨_, -, h⟩ := bind_eq_ok.1 h
    cases h
    have hfit := info.length_lt
    obtain ⟨rfl, hlt⟩ := findAttno_eq (by rw [AttrNumber.Min]; omega) hfind
    rw [AttrNumber.Min, Nat.add_comm] at hlt ⊢
    exact getAttribute_eq hrow (by omega)

theorem exec_function {left right : ExpressionNode} {a b : Option Int}
    (hleft : left.exec dbg info.descriptor (datums row) = .ok (a.map .scalar))
    (hright : right.exec dbg info.descriptor (datums row) = .ok (b.map .scalar)) :
    (ExpressionNode.function ⟨int32Eq, true, 2⟩ left right).exec dbg info.descriptor (datums row) = .ok ((do
      let x ← a
      let y ← b
      return if x % 2 ^ 32 = y % 2 ^ 32 then 1 else 0 : Option Int).map .scalar) := by
  unfold ExpressionNode.exec
  rw [hleft, hright]
  cases a with
  | none => rfl
  | some x =>
    cases b with
    | none => rfl
    | some y => exact int32Eq_eq dbg x y

theorem exec_eq (hrow : row.length = info.columns.length) {e : Expr} {node : ExpressionNode}
    (h : parseExpr dbg info e = .ok node) (hc : ¬ Collides info row e) :
    node.exec dbg info.descriptor (datums row) = .ok ((e.meaning info row).map .scalar) := by
  induction e generalizing node with
  | operator opType expr expr2 ih ih2 =>
    have hself : Expr.operator opType expr expr2 ∈ (Expr.operator opType expr expr2).subexprs := List.mem_cons_self
    obtain ⟨left, right, hleft, hright, rfl⟩ := parseExpr_operator h
    have h1 := ih hleft fun ⟨op, l, r, x, y, hsub, hxy⟩ =>
      hc ⟨op, l, r, x, y, List.mem_cons_of_mem _ (List.mem_append_left _ hsub), hxy⟩
    have h2 := ih2 hright fun ⟨op, l, r, x, y, hsub, hxy⟩ =>
      hc ⟨op, l, r, x, y, List.mem_cons_of_mem _ (List.mem_append_right _ hsub), hxy⟩
    rw [exec_function h1 h2, Expr.meaning]
    cases hx : expr.meaning info row with
    | none => rfl
    | some x =>
      cases hy : expr2.meaning info row with
      | none => rfl
      | some y =>
        have hiff : x % 2 ^ 32 = y % 2 ^ 32 ↔ x = y := by
          refine ⟨fun hmod => ?_, fun he => by rw [he]⟩
          by_contra hne
          exact hc ⟨opType, expr, expr2, x, y, hself, hx, hy, hne, hmod⟩
        show Except.ok (some (Datum.scalar (if x % 2 ^ 32 = y % 2 ^ 32 then 1 else 0))) =
          .ok (some (.scalar (if x = y then 1 else 0)))
        simp only [hiff]
  | literalInt ival =>
    cases h
    rfl
  | literalNull =>
    cases h
    rfl
  | columnRef name => exact exec_columnRef hrow h
  | other type => cases h

theorem getBool_eq (value : Option Int) : (value.map Datum.scalar).any Datum.getBool = passes value := by
  cases value <;> rfl

/-- If no equality collides, the tree means the expression. -/
theorem meansSQL (hrow : row.length = info.columns.length) {e : Expr} {node : ExpressionNode}
    (h : parseExpr dbg info e = .ok node) (hc : ¬ Collides info row e) : MeansSQL dbg info e node row := by
  refine ⟨fun e' hsub node' h' => ?_, ?_, fun header tid tuples => ?_⟩
  · exact exec_eq hrow h' fun ⟨op, l, r, x, y, hsub', hxy⟩ =>
      hc ⟨op, l, r, x, y, Expr.subexprs_trans hsub hsub', hxy⟩
  · rw [ExpressionNode.execQual, exec_eq hrow h hc, ← getBool_eq]
    rfl
  · rw [SeqScan.execute]
    simp only
    rw [exec_eq hrow h hc, ← getBool_eq]
    rfl

/-- For an accepted expression and a stored row: the tree means the expression
if and only if no equality collides. -/
theorem predicate_means_iff {e : Expr} {node : ExpressionNode} (hplan : parseExpr dbg info e = .ok node)
    {array : List UInt8} {hasnulls : Bool} {size : Nat} {values : Values}
    (hrow : TupleSerializer.deserialize dbg info.descriptor array hasnulls size = .ok values) :
    ∃ row, values = datums row ∧ (MeansSQL dbg info e node row ↔ ¬ Collides info row e) := by
  obtain ⟨row, hlen, rfl⟩ := info.deserialize_integers hrow
  refine ⟨row, rfl, fun hmeans => ?_, meansSQL hlen hplan⟩
  rintro ⟨opType, expr, expr2, x, y, hsub, hx, hy, hne, hmod⟩
  obtain ⟨node', hnode⟩ := parseExpr_sub hplan hsub
  obtain ⟨left, right, hleft, hright, rfl⟩ := parseExpr_operator hnode
  have hsides :
      expr ∈ (Expr.operator opType expr expr2).subexprs ∧ expr2 ∈ (Expr.operator opType expr expr2).subexprs := by
    refine ⟨List.mem_cons_of_mem _ (List.mem_append_left _ ?_), List.mem_cons_of_mem _ (List.mem_append_right _ ?_)⟩
    · cases expr <;> exact List.mem_cons_self
    · cases expr2 <;> exact List.mem_cons_self
  have h1 := hmeans.nodes _ (Expr.subexprs_trans hsub hsides.1) _ hleft
  have h2 := hmeans.nodes _ (Expr.subexprs_trans hsub hsides.2) _ hright
  have h3 := hmeans.nodes _ hsub _ hnode
  rw [exec_function h1 h2, Expr.meaning, hx, hy] at h3
  simp only [Option.bind_eq_bind, Option.bind_some, hmod, if_true, if_neg hne] at h3
  cases h3

end

theorem datums_injective : Function.Injective datums :=
  List.map_injective_iff.2 (Option.map_injective fun _ _ h => Datum.scalar.inj h)

/-- `WHERE a = 5` on the row with 5 and NULL. -/
theorem predicate_means_five :
    ∃ node, parseExpr true setupDatabase (.operator .Equals (.columnRef "a") (.literalInt 5)) = .ok node ∧
    MeansSQL true setupDatabase (.operator .Equals (.columnRef "a") (.literalInt 5)) node [some 5, none] := by
  have hrow : TupleSerializer.deserialize true setupDatabase.descriptor [1, 5, 0, 0, 0] true 5 =
      .ok (datums [some 5, none]) := by
    decide +kernel
  obtain ⟨node, hplan⟩ :
    ∃ node, parseExpr true setupDatabase (.operator .Equals (.columnRef "a") (.literalInt 5)) = .ok node :=
    ⟨_, rfl⟩
  obtain ⟨row, heq, hiff⟩ := predicate_means_iff hplan hrow
  obtain rfl := datums_injective heq
  refine ⟨node, hplan, hiff.2 ?_⟩
  rintro ⟨opType, expr, expr2, x, y, hsub, hx, hy, hne, -⟩
  simp only [Expr.subexprs, List.mem_cons, List.cons_append, List.nil_append, List.not_mem_nil, or_false,
    reduceCtorEq, Expr.operator.injEq] at hsub
  obtain ⟨-, rfl, rfl⟩ := hsub
  cases hx
  cases hy
  exact hne rfl

/-- `WHERE a = 4294967297` takes the row with 1. -/
theorem predicate_narrowed : ∃ node,
    parseExpr true setupDatabase (.operator .Equals (.columnRef "a") (.literalInt 4294967297)) = .ok node ∧
    TupleSerializer.deserialize true setupDatabase.descriptor [1, 0, 0, 0, 2, 0] false 6 =
    .ok (datums [some 1, some 2]) ∧
    node.execQual true setupDatabase.descriptor (datums [some 1, some 2]) = .ok true ∧
    passes ((Expr.operator .Equals (.columnRef "a") (.literalInt 4294967297)).meaning setupDatabase
      [some 1, some 2]) = false ∧
    ¬ MeansSQL true setupDatabase (.operator .Equals (.columnRef "a") (.literalInt 4294967297)) node
      [some 1, some 2] := by
  refine ⟨_, rfl, by decide +kernel, rfl, by decide, fun h => ?_⟩
  have hqual := h.qual
  cases hqual

end Mimidb
