import Mimidb.Handler
import Mimidb.StoredValues

/-!
# The planner

`Planner::Plan` on the trees that the parser hands over. A part that the
statement does not have is a null pointer there; the planner tests some of them
and follows others.
-/

namespace Mimidb

/-! ## Statements of the parser -/

namespace Hsql

/-- A pointer to an expression. -/
inductive Expr where
  | null
  | operator (opType : OperatorType) (expr expr2 : Expr)
  /-- The number has 64 bits. -/
  | literalInt (ival : Int)
  | literalNull
  | columnRef (table name : Option String)
  | star (table : Option String)
  /-- The other types, by their numbers. -/
  | other (type : Nat)
  deriving DecidableEq, Repr

inductive TableRefType where
  | TableName
  | TableSelect
  | TableJoin
  | TableCrossProduct
  deriving DecidableEq, Repr

structure Alias where
  name : String
  columns : Option (List String)
  deriving DecidableEq, Repr

structure TableRef where
  type : TableRefType
  schema : Option String
  name : Option String
  tableAlias : Option Alias
  deriving DecidableEq, Repr

/-- An expression of a select list with its alias. -/
structure SelectItem where
  expr : Expr
  exprAlias : Option String
  deriving DecidableEq, Repr

/-- Of `groupBy`, `setOperations`, `order`, `limit` and `lockings` only whether the pointer is set. -/
structure SelectStatement where
  fromTable : Option TableRef
  selectDistinct : Bool
  selectList : List SelectItem
  whereClause : Expr
  groupBy : Bool
  setOperations : Bool
  order : Bool
  limit : Bool
  lockings : Bool
  /-- The names that a WITH gives. -/
  withDescriptions : List String
  deriving DecidableEq, Repr

structure InsertStatement where
  schema : Option String
  tableName : Option String
  columns : Option (List String)
  values : Option (List Expr)
  deriving DecidableEq, Repr

structure UpdateClause where
  column : Option String
  value : Expr
  deriving DecidableEq, Repr

structure UpdateStatement where
  table : TableRef
  updates : Option (List UpdateClause)
  whereClause : Expr
  deriving DecidableEq, Repr

structure DeleteStatement where
  schema : Option String
  tableName : Option String
  expr : Expr
  deriving DecidableEq, Repr

inductive SQLStatement where
  | select (stmt : SelectStatement)
  | insert (stmt : InsertStatement)
  | update (stmt : UpdateStatement)
  | delete (stmt : DeleteStatement)
  | transaction
  /-- The other types, by their numbers. -/
  | other (type : Nat)
  deriving DecidableEq, Repr

end Hsql

/-! ## Plans -/

/-- The nodes for the one table. -/
inductive PlanNode where
  | seqScan (qual : Option ExpressionNode)
  | insert (tuples : List Values)
  | update (node : UpdateNode)
  | delete (qual : ExpressionNode)

structure PlannedStmt where
  plan : PlanNode
  tag : CommandTag

namespace Hsql

variable (dbg : Bool) (info : TableInfo)

/-- `parse_expr`. -/
def parseExpr : Expr → Except Fault ExpressionNode
  | .null => .error .nullPointer
  | .operator opType expr expr2 => do
    let strategy ← mapOpStrategy opType
    let left ← parseExpr expr
    let right ← parseExpr expr2
    match Schema.findOperatorInfo .Int32 .Int32 strategy with
    | none => throw (.runtimeError "Could not find operator")
    | some op => return .function ⟨op.function, true, 2⟩ left right
  | .literalInt ival => .ok (.constant (some (.scalar ival)))
  | .literalNull => .ok (.constant none)
  | .columnRef _ none => .error .nullPointer
  | .columnRef _ (some name) => Mimidb.parseExpr dbg info (.columnRef name)
  | .star _ => .error (.runtimeError "expression is not supported: 6")
  | .other type => .error (.runtimeError s!"expression is not supported: {type}")

/-- The predicate of a statement, if it has one. -/
def parseQual (expr : Expr) : Except Fault (Option ExpressionNode) :=
  if expr = .null then .ok none else some <$> parseExpr dbg info expr

/-- The clauses that are rejected before the table is looked at. -/
def SelectStatement.check (stmt : SelectStatement) : Except Fault Unit := do
  if stmt.groupBy then throw (.runtimeError "GROUP BY is not supported")
  if stmt.limit then throw (.runtimeError "LIMIT is not supported")
  if stmt.order then throw (.runtimeError "ORDER BY is not supported")
  if stmt.lockings then throw (.runtimeError "LOCKING is not supported")
  if stmt.setOperations then throw (.runtimeError "SET OPERATION is not supported")
  if stmt.selectDistinct then throw (.runtimeError "DISTINCT is not supported")

def TableRef.check (table : TableRef) : Except Fault Unit :=
  match table.type with
  | .TableName => .ok ()
  | .TableSelect => .error (.runtimeError "subquery is not supported")
  | .TableJoin | .TableCrossProduct => .error (.runtimeError "JOIN is not supported")

def SelectStatement.plan (stmt : SelectStatement) : Except Fault PlannedStmt := do
  stmt.check
  TableRef.check (← deref stmt.fromTable)
  return ⟨.seqScan (← parseQual dbg info stmt.whereClause), .Select⟩

/-- The value for an attribute; no type fails the check. -/
def insertValue (typeId : TypeId) : Expr → Except Fault (Option Datum)
  | .null => .error .nullPointer
  | .literalInt ival => Planner.insertValue typeId (.literalInt ival)
  | .literalNull => Planner.insertValue typeId .literalNull
  | _ => Planner.insertValue typeId (.other 0)

/-- One round of the loop over the attributes. -/
def insertRound (values : List Expr) (attno : Nat) (arrays : Values) : Except Fault Values := do
  let idx ← AttrNumber.toIndex dbg attno
  let attDesc ← fetch info.columns idx
  match values[idx]? with
  | none => throw (.runtimeError "vector::at")
  | some value => return arrays ++ [← insertValue attDesc.typeId value]

/-- After `2 ^ 16` rounds the counter has been behind the last attribute. -/
def InsertStatement.plan (stmt : InsertStatement) : Except Fault PlannedStmt := do
  let values ← deref stmt.values
  if values.length ≠ info.descriptor.getMaxAttrNumber then
    throw (.runtimeError "INSERT attributes and table descriptor are not the same size")
  let tuple ← AttrLoop.counted info.descriptor.getMaxAttrNumber (2 ^ 16) (insertRound dbg info values) []
  return ⟨.insert [tuple], .Insert⟩

def planAssignment (update : UpdateClause) : Except Fault (Nat × ExpressionNode) := do
  let colname ← deref update.column
  match info.findColumn colname with
  | none => throw (.runtimeError ("could not find column: " ++ colname))
  | some colinfo => return (colinfo.attno, ← parseExpr dbg info update.value)

/-- The constructor of the node requires a predicate. -/
def UpdateStatement.plan (stmt : UpdateStatement) : Except Fault PlannedStmt := do
  let updates ← (← deref stmt.updates).mapM (planAssignment dbg info)
  match ← parseQual dbg info stmt.whereClause with
  | none => throw (.runtimeError "qual is null")
  | some qual => return ⟨.update ⟨qual, updates⟩, .Update⟩

/-- The constructor of the node requires a predicate. -/
def DeleteStatement.plan (stmt : DeleteStatement) : Except Fault PlannedStmt := do
  match ← parseQual dbg info stmt.expr with
  | none => throw (.runtimeError "predicate is not provided")
  | some qual => return ⟨.delete qual, .Delete⟩

/-- The cases of `Plan`. -/
def SQLStatement.plan : SQLStatement → Except Fault PlannedStmt
  | .select stmt => stmt.plan dbg info
  | .insert stmt => stmt.plan dbg info
  | .update stmt => stmt.plan dbg info
  | .delete stmt => stmt.plan dbg info
  | .transaction => .error (.runtimeError "TCL must not reach here")
  | .other type => .error (.runtimeError s!"statement is not supported: {type}")

end Hsql

namespace Planner

def isPlannableStatement : Hsql.SQLStatement → Bool
  | .select _ | .update _ | .delete _ | .insert _ => true
  | .transaction | .other _ => false

def plan (dbg : Bool) (info : TableInfo) (statement : Hsql.SQLStatement) : Except Fault PlannedStmt := do
  assert dbg (isPlannableStatement statement)
  statement.plan dbg info

end Planner

/-! ## What the parser leaves null -/

namespace Hsql

/-- The operands that the parser gives to an operator. -/
inductive Operands where
  | none
  | first
  | both
  | optional

end Hsql

namespace OperatorType

def operands : OperatorType → Hsql.Operands
  | None | Exists => .none
  | Between | In | Not | UnaryMinus | IsNull => .first
  | Case => .optional
  | CaseListElement | Plus | Minus | Asterisk | Slash | Percentage | Caret | Equals | NotEquals | Less | LessEq
  | Greater | GreaterEq | Like | NotLike | ILike | And | Or | Concat => .both

end OperatorType

namespace Hsql

/-- An expression, with null where the parser leaves it. -/
def Expr.Parsed : Expr → Prop
  | null => False
  | operator opType expr expr2 =>
    match opType.operands with
    | .none => expr = null ∧ expr2 = null
    | .first => expr.Parsed ∧ expr2 = null
    | .both => expr.Parsed ∧ expr2.Parsed
    | .optional => (expr = null ∨ expr.Parsed) ∧ (expr2 = null ∨ expr2.Parsed)
  | columnRef _ name => name.isSome
  | literalInt _ | literalNull | star _ | other _ => True

/-- A clause that a statement need not have. -/
def Expr.ParsedClause (e : Expr) : Prop := e = null ∨ e.Parsed

/-- A statement that the parser can hand over. -/
def SQLStatement.Parsed : SQLStatement → Prop
  | select stmt => (∀ item ∈ stmt.selectList, item.expr.Parsed) ∧ stmt.whereClause.ParsedClause
  | insert stmt => ∀ values, stmt.values = some values → ∀ value ∈ values, value.Parsed
  | update stmt => ∃ updates, stmt.updates = some updates ∧
      (∀ update ∈ updates, update.column.isSome ∧ update.value.Parsed) ∧ stmt.whereClause.ParsedClause
  | delete stmt => stmt.expr.ParsedClause
  | transaction | other _ => True

def Expr.IsLiteral (e : Expr) : Prop := e = literalNull ∨ ∃ ival, e = literalInt ival

/-- A clause of a SELECT that is rejected before its table is looked at. -/
def SelectStatement.Unsupported (stmt : SelectStatement) : Prop :=
  stmt.groupBy ∨ stmt.limit ∨ stmt.order ∨ stmt.lockings ∨ stmt.setOperations ∨ stmt.selectDistinct

/-- A SELECT has a FROM, or a clause that is rejected before. An INSERT has
VALUES, and the loop over them does not wrap. -/
def SQLStatement.Complete (info : TableInfo) : SQLStatement → Prop
  | select stmt => stmt.fromTable.isSome ∨ stmt.Unsupported
  | insert stmt => ∃ values, stmt.values = some values ∧
      ¬ (info.columns.length = 2 ^ 16 - 1 ∧ values.length = info.columns.length ∧ ∀ value ∈ values, value.IsLiteral)
  | update _ | delete _ | transaction | other _ => True

end Hsql

/-! ## Planned or rejected -/

/-- A value or an exception. -/
def Returns {α : Type} (r : Except Fault α) : Prop := (∃ a, r = .ok a) ∨ ∃ what, r = .error (.runtimeError what)

namespace Returns

variable {α β : Type} {r : Except Fault α} {f : α → Except Fault β}

theorem ok (a : α) : Returns (.ok a) := .inl ⟨a, rfl⟩

theorem throw (what : String) : Returns (.error (.runtimeError what) : Except Fault α) := .inr ⟨what, rfl⟩

theorem bind (h : Returns r) (hf : ∀ a, r = .ok a → Returns (f a)) : Returns (r >>= f) := by
  rcases h with ⟨a, rfl⟩ | ⟨what, rfl⟩
  · exact hf a rfl
  · exact throw what

theorem mapM {as : List α} (h : ∀ a ∈ as, Returns (f a)) : Returns (as.mapM f) := by
  induction as with
  | nil => exact ok []
  | cons a as ih =>
    rw [List.mapM_cons]
    refine bind (h a List.mem_cons_self) fun b _ => ?_
    exact bind (ih fun a' ha' => h a' (List.mem_cons_of_mem a ha')) fun bs _ => ok (b :: bs)

end Returns

theorem mapOpStrategy_cases (opType : OperatorType) :
    (opType.operands = .both ∧ ∃ strategy, mapOpStrategy opType = .ok strategy) ∨
      mapOpStrategy opType = .error (.runtimeError "Operator is not supported") := by
  cases opType
  case Equals | NotEquals | Less | LessEq | Greater | GreaterEq => exact .inl ⟨rfl, _, rfl⟩
  all_goals exact .inr rfl

namespace Hsql

variable {dbg : Bool} {info : TableInfo}

theorem SelectStatement.check_cases (stmt : SelectStatement) :
    (stmt.check = .ok () ∧ ¬ stmt.Unsupported) ∨ (∃ what, stmt.check = .error (.runtimeError what)) ∧
    stmt.Unsupported := by
  unfold check Unsupported
  cases stmt.groupBy
  case true => exact .inr ⟨⟨_, rfl⟩, .inl rfl⟩
  cases stmt.limit
  case true => exact .inr ⟨⟨_, rfl⟩, .inr (.inl rfl)⟩
  cases stmt.order
  case true => exact .inr ⟨⟨_, rfl⟩, .inr (.inr (.inl rfl))⟩
  cases stmt.lockings
  case true => exact .inr ⟨⟨_, rfl⟩, .inr (.inr (.inr (.inl rfl)))⟩
  cases stmt.setOperations
  case true => exact .inr ⟨⟨_, rfl⟩, .inr (.inr (.inr (.inr (.inl rfl))))⟩
  cases stmt.selectDistinct
  case true => exact .inr ⟨⟨_, rfl⟩, .inr (.inr (.inr (.inr (.inr rfl))))⟩
  exact .inl ⟨rfl, by decide⟩

theorem TableRef.check_returns (table : TableRef) : Returns table.check := by
  unfold check
  cases table.type
  case TableName => exact Returns.ok ()
  all_goals exact Returns.throw _

theorem columnRef_returns (dbg : Bool) (info : TableInfo) (name : String) :
    Returns (Mimidb.parseExpr dbg info (.columnRef name)) := by
  unfold Mimidb.parseExpr
  cases hfind : findAttno name info.columns AttrNumber.Min with
  | none => exact Returns.throw _
  | some attno =>
    have hfit := info.length_lt
    have hle := (findAttno_eq (by rw [AttrNumber.Min]; omega) hfind).2
    rw [AttrNumber.Min] at hle
    have hassert : assert dbg (attno ≤ info.descriptor.getMaxAttrNumber) = .ok () := by
      rw [info.counted, decide_eq_true (by omega)]
      cases dbg <;> rfl
    simp only [hassert]
    exact Returns.ok _

/-- No operand that is missing is visited, since the operators that have one take two operands. -/
theorem parseExpr_returns {e : Expr} (h : e.Parsed) : Returns (parseExpr dbg info e) := by
  induction e with
  | null => exact h.elim
  | operator opType expr expr2 ih ih2 =>
    unfold Expr.Parsed at h
    unfold parseExpr
    rcases mapOpStrategy_cases opType with ⟨hboth, strategy, hstrategy⟩ | hthrow
    · rw [hboth] at h
      rw [hstrategy]
      refine Returns.bind (Returns.ok strategy) fun strategy _ => ?_
      refine Returns.bind (ih h.1) fun left _ => Returns.bind (ih2 h.2) fun right _ => ?_
      cases Schema.findOperatorInfo .Int32 .Int32 strategy with
      | none => exact Returns.throw _
      | some op => exact Returns.ok _
    · rw [hthrow]
      exact Returns.throw _
  | literalInt ival => exact Returns.ok _
  | literalNull => exact Returns.ok _
  | columnRef table name =>
    obtain ⟨name, rfl⟩ := Option.isSome_iff_exists.1 h
    exact columnRef_returns dbg info name
  | star table => exact Returns.throw _
  | other type => exact Returns.throw _

theorem parseQual_returns {e : Expr} (h : e.ParsedClause) : Returns (parseQual dbg info e) := by
  unfold parseQual
  by_cases he : e = .null
  · rw [if_pos he]
    exact Returns.ok none
  · rw [if_neg he, map_eq_pure_bind]
    exact Returns.bind (parseExpr_returns (h.resolve_left he)) fun node _ => Returns.ok (some node)

theorem SelectStatement.returns_iff {stmt : SelectStatement} (hwhere : stmt.whereClause.ParsedClause) :
    Returns (stmt.plan dbg info) ↔ stmt.fromTable.isSome ∨ stmt.Unsupported := by
  unfold plan
  rcases stmt.check_cases with ⟨hcheck, hno⟩ | ⟨⟨what, hcheck⟩, hun⟩
  · rw [hcheck, or_iff_left hno]
    cases stmt.fromTable with
    | none => exact iff_of_false nofun nofun
    | some table =>
      refine iff_of_true ?_ rfl
      refine Returns.bind (Returns.ok ()) fun _ _ => Returns.bind (Returns.ok table) fun table _ => ?_
      refine Returns.bind table.check_returns fun _ _ => Returns.bind (parseQual_returns hwhere) fun qual _ =>
        Returns.ok _
  · rw [hcheck]
    exact iff_of_true (Returns.throw what) (.inr hun)

theorem insertValue_cases (typeId : TypeId) {value : Expr} (hparsed : value.Parsed) :
    (value.IsLiteral ∧ ∃ datum, insertValue typeId value = .ok datum) ∨
      ¬ value.IsLiteral ∧ ∃ what, insertValue typeId value = .error (.runtimeError what) := by
  unfold Expr.IsLiteral
  cases value with
  | null => exact hparsed.elim
  | literalInt ival => exact .inl ⟨.inr ⟨ival, rfl⟩, by cases typeId <;> exact ⟨_, rfl⟩⟩
  | literalNull => exact .inl ⟨.inl rfl, by cases typeId <;> exact ⟨_, rfl⟩⟩
  | operator opType expr expr2 => exact .inr ⟨by simp, by cases typeId <;> exact ⟨_, rfl⟩⟩
  | columnRef table name => exact .inr ⟨by simp, by cases typeId <;> exact ⟨_, rfl⟩⟩
  | star table => exact .inr ⟨by simp, by cases typeId <;> exact ⟨_, rfl⟩⟩
  | other type => exact .inr ⟨by simp, by cases typeId <;> exact ⟨_, rfl⟩⟩

/-- The rounds for these columns. -/
def insertValues : List ColumnInfo → List Expr → Except Fault Values
  | [], _ => .ok []
  | _ :: _, [] => .error .outOfBounds
  | col :: cols, value :: values => do
    let datum ← insertValue col.typeId value
    let datums ← insertValues cols values
    return datum :: datums

theorem insertRounds_eq {values : List Expr} {cols : List ColumnInfo} {rest : List Expr} {idx : Nat}
    (hcols : info.columns.drop idx = cols) (hrest : values.drop idx = rest) (hlen : rest.length = cols.length)
    (arrays : Values) :
    (List.range' (idx + 1) cols.length).foldlM (fun arrays attno => insertRound dbg info values attno arrays)
      arrays =
      (arrays ++ ·) <$> insertValues cols rest := by
  induction cols generalizing idx rest arrays with
  | nil => exact congrArg Except.ok (List.append_nil arrays).symm
  | cons col cols ih =>
    cases rest with
    | nil => cases hlen
    | cons value rest =>
      have hcol : info.columns[idx]? = some col := by
        rw [← List.head?_drop, hcols]
        rfl
      have hvalue : values[idx]? = some value := by
        rw [← List.head?_drop, hrest]
        rfl
      have hround : insertRound dbg info values (idx + 1) arrays =
          insertValue col.typeId value >>= fun datum => .ok (arrays ++ [datum]) := by
        have hfetch : fetch info.columns idx = .ok col := by rw [fetch, hcol]
        unfold insertRound
        rw [AttrNumber.toIndex_succ]
        show (fetch info.columns idx >>= fun attDesc => _) = _
        rw [hfetch]
        simp only [hvalue]
        rfl
      rw [List.length_cons, List.range'_succ, List.foldlM_cons, hround, insertValues]
      cases insertValue col.typeId value with
      | error e => rfl
      | ok datum =>
        show (List.range' (idx + 1 + 1) cols.length).foldlM _ (arrays ++ [datum]) = _
        rw [ih (by rw [← List.tail_drop, hcols]; rfl) (by rw [← List.tail_drop, hrest]; rfl) (Nat.succ.inj hlen)]
        cases insertValues cols rest with
        | error e => rfl
        | ok datums =>
          show Except.ok (arrays ++ [datum] ++ datums) = .ok (arrays ++ (datum :: datums))
          rw [List.append_assoc]
          rfl

theorem insertValues_cases {columns : List ColumnInfo} {values : List Expr} (hlen : values.length = columns.length)
    (hparsed : ∀ value ∈ values, value.Parsed) :
    ((∀ value ∈ values, value.IsLiteral) ∧ ∃ tuple, insertValues columns values = .ok tuple) ∨
      (¬ ∀ value ∈ values, value.IsLiteral) ∧
      ∃ what, insertValues columns values = .error (.runtimeError what) := by
  induction columns generalizing values with
  | nil =>
    obtain rfl := List.length_eq_zero_iff.1 hlen
    exact .inl ⟨nofun, [], rfl⟩
  | cons col columns ih =>
    cases values with
    | nil => cases hlen
    | cons value values =>
      rw [List.forall_mem_cons] at hparsed ⊢
      rcases insertValue_cases col.typeId hparsed.1 with ⟨hlit, datum, hdatum⟩ | ⟨hlit, what, hdatum⟩
      · rcases ih (Nat.succ.inj hlen) hparsed.2 with ⟨hlits, tuple, htuple⟩ | ⟨hlits, what, htuple⟩
        · exact .inl ⟨⟨hlit, hlits⟩, datum :: tuple, by rw [insertValues, hdatum, htuple]; rfl⟩
        · exact .inr ⟨fun h => hlits h.2, what, by rw [insertValues, hdatum, htuple]; rfl⟩
      · exact .inr ⟨fun h => hlit h.1, what, by rw [insertValues, hdatum]; rfl⟩

theorem insertRound_zero (values : List Expr) (arrays : Values) :
    insertRound dbg info values 0 arrays = if dbg then .error .assertion else .error .outOfBounds := by
  cases dbg with
  | true => rfl
  | false =>
    have hfit := info.length_lt
    have hfetch : fetch info.columns (2 ^ 64 - 1) = .error .outOfBounds := by
      rw [fetch, List.getElem?_eq_none (by omega)]
    show (fetch info.columns (2 ^ 64 - 1) >>= fun attDesc => _) = _
    rw [hfetch]
    rfl

/-- With 65535 columns the counter wraps. -/
theorem insertLoop_eq {values : List Expr} (hlen : values.length = info.columns.length) :
    AttrLoop.counted info.columns.length (2 ^ 16) (insertRound dbg info values) [] =
    insertValues info.columns values >>= fun tuple =>
      if info.columns.length = 2 ^ 16 - 1 then (if dbg then .error .assertion else .error .outOfBounds)
        else .ok tuple := by
  have hfit := info.length_lt
  obtain ⟨rest, hrest⟩ : ∃ rest, 2 ^ 16 = rest + 1 + info.columns.length :=
    ⟨2 ^ 16 - 1 - info.columns.length, by omega⟩
  have hrounds :
    (List.range' 1 info.columns.length).foldlM (fun arrays attno => insertRound dbg info values attno arrays) [] =
      insertValues info.columns values := by
    rw [insertRounds_eq List.drop_zero List.drop_zero hlen []]
    exact id_map _
  unfold AttrLoop.counted
  rw [hrest, AttrLoop.run_add hfit (by rw [AttrNumber.Min]; omega), AttrNumber.Min, hrounds]
  refine bind_congr fun tuple => ?_
  by_cases hcount : info.columns.length = 2 ^ 16 - 1
  · rw [← hrest, if_pos hcount, if_neg (by omega), hcount]
    show AttrLoop.run (2 ^ 16 - 1) (insertRound dbg info values) (rest + 1) 0 tuple = _
    rw [AttrLoop.run, if_pos (Nat.zero_le _), insertRound_zero]
    cases dbg <;> rfl
  · rw [← hrest, if_neg hcount]
    exact AttrLoop.run_done (by split_ifs <;> omega)

theorem InsertStatement.plan_length {stmt : InsertStatement} {values : List Expr}
    (hvalues : stmt.values = some values) (hlen : values.length ≠ info.columns.length) :
    stmt.plan dbg info = .error (.runtimeError "INSERT attributes and table descriptor are not the same size") := by
  rw [← info.counted] at hlen
  unfold plan
  simp only [hvalues, deref, bind, Except.bind, if_pos hlen]
  rfl

theorem InsertStatement.plan_eq {stmt : InsertStatement} {values : List Expr} (hvalues : stmt.values = some values)
    (hlen : values.length = info.columns.length) :
    stmt.plan dbg info = insertValues info.columns values >>= fun tuple =>
      if info.columns.length = 2 ^ 16 - 1 then (if dbg then .error .assertion else .error .outOfBounds)
      else .ok ⟨.insert [tuple], .Insert⟩ := by
  have hplan : stmt.plan dbg info = AttrLoop.counted info.columns.length (2 ^ 16) (insertRound dbg info values)
    [] >>= fun tuple =>
      .ok ⟨.insert [tuple], .Insert⟩ := by
    unfold plan
    rw [info.counted, hvalues]
    show (if values.length ≠ info.columns.length then _ else _) = _
    rw [if_neg (not_not.2 hlen)]
    rfl
  rw [hplan, insertLoop_eq hlen, bind_assoc]
  refine bind_congr fun tuple => ?_
  split_ifs <;> rfl

theorem InsertStatement.returns_iff {stmt : InsertStatement}
    (hparsed : ∀ values, stmt.values = some values → ∀ value ∈ values, value.Parsed) :
    Returns (stmt.plan dbg info) ↔ ∃ values, stmt.values = some values ∧
      ¬ (info.columns.length = 2 ^ 16 - 1 ∧ values.length = info.columns.length ∧ ∀ value ∈ values,
      value.IsLiteral) := by
  cases hvalues : stmt.values with
  | none =>
    unfold plan
    rw [hvalues]
    exact iff_of_false nofun nofun
  | some values =>
    simp only [Option.some.injEq, exists_eq_left']
    by_cases hlen : values.length = info.columns.length
    · rw [plan_eq hvalues hlen]
      rcases insertValues_cases hlen (hparsed values hvalues) with ⟨hlits, tuple, htuple⟩ | ⟨hlits, what, htuple⟩
      · rw [htuple]
        by_cases hcount : info.columns.length = 2 ^ 16 - 1
        · refine iff_of_false ?_ (not_not.2 ⟨hcount, hlen, hlits⟩)
          simp only [if_pos hcount]
          cases dbg <;> exact nofun
        · refine iff_of_true ?_ fun h => hcount h.1
          simp only [if_neg hcount]
          exact Returns.ok _
      · rw [htuple]
        exact iff_of_true (Returns.throw what) fun h => hlits h.2.2
    · rw [plan_length hvalues hlen]
      exact iff_of_true (Returns.throw _) fun h => hlen h.2.1

theorem planAssignment_returns {update : UpdateClause} (hcolumn : update.column.isSome)
    (hvalue : update.value.Parsed) :
    Returns (planAssignment dbg info update) := by
  obtain ⟨colname, hname⟩ := Option.isSome_iff_exists.1 hcolumn
  unfold planAssignment
  rw [hname]
  refine Returns.bind (Returns.ok colname) fun colname _ => ?_
  cases info.findColumn colname with
  | none => exact Returns.throw _
  | some colinfo => exact Returns.bind (parseExpr_returns hvalue) fun expr _ => Returns.ok _

theorem UpdateStatement.returns {stmt : UpdateStatement} (hparsed : (SQLStatement.update stmt).Parsed) :
    Returns (stmt.plan dbg info) := by
  obtain ⟨updates, hupdates, hclauses, hwhere⟩ := hparsed
  unfold plan
  rw [hupdates]
  refine Returns.bind (Returns.ok updates) fun updates he => ?_
  cases he
  refine Returns.bind (Returns.mapM fun update h => ?_) fun nodes _ => Returns.bind (parseQual_returns hwhere)
    fun qual _ => ?_
  · exact planAssignment_returns (hclauses update h).1 (hclauses update h).2
  · cases qual with
    | none => exact Returns.throw _
    | some qual => exact Returns.ok _

theorem DeleteStatement.returns {stmt : DeleteStatement} (hexpr : stmt.expr.ParsedClause) :
    Returns (stmt.plan dbg info) := by
  unfold plan
  refine Returns.bind (parseQual_returns hexpr) fun qual _ => ?_
  cases qual with
  | none => exact Returns.throw _
  | some qual => exact Returns.ok _

end Hsql

namespace Planner

variable {dbg : Bool} {info : TableInfo} {statement : Hsql.SQLStatement}

theorem plan_eq (hplannable : isPlannableStatement statement = true) :
    plan dbg info statement = statement.plan dbg info := by
  have hassert : assert dbg true = .ok () := by cases dbg <;> rfl
  unfold plan
  rw [hplannable, hassert]
  rfl

/-- A tree of the parser is planned or rejected with an exception, except for a SELECT without FROM and an INSERT
without VALUES, which follow a null pointer, and the INSERT whose loop goes on to the attribute number 0. -/
theorem plan_returns_iff (dbg : Bool) (info : TableInfo) (statement : Hsql.SQLStatement)
    (hplannable : isPlannableStatement statement = true) (hparsed : statement.Parsed) :
    Returns (plan dbg info statement) ↔ statement.Complete info := by
  rw [plan_eq hplannable]
  cases statement with
  | select stmt => exact Hsql.SelectStatement.returns_iff hparsed.2
  | insert stmt => exact Hsql.InsertStatement.returns_iff hparsed
  | update stmt => exact iff_of_true (Hsql.UpdateStatement.returns hparsed) trivial
  | delete stmt => exact iff_of_true (Hsql.DeleteStatement.returns hparsed) trivial
  | transaction => cases hplannable
  | other type => cases hplannable

/-- `SELECT * FROM tbl WHERE a = 1`. -/
theorem plan_returns_where :
    Returns (plan true setupDatabase (.select ⟨some ⟨.TableName, none, some "tbl", none⟩, false,
    [⟨.star none, none⟩], .operator .Equals (.columnRef none (some "a")) (.literalInt 1), false, false, false,
    false, false, []⟩)) := by
  refine (plan_returns_iff true setupDatabase _ rfl ?_).2 (.inl rfl)
  exact ⟨by simp [Hsql.Expr.Parsed], .inr ⟨rfl, trivial⟩⟩

/-- `SELECT 1` and `INSERT INTO tbl SELECT * FROM tbl`. -/
theorem null_part_followed : ∃ select insert : Hsql.SQLStatement,
    (select.Parsed ∧ isPlannableStatement select = true ∧ plan true setupDatabase select = .error .nullPointer) ∧
      insert.Parsed ∧ isPlannableStatement insert = true ∧ plan true setupDatabase insert = .error .nullPointer :=
  ⟨.select ⟨none, false, [⟨.literalInt 1, none⟩], .null, false, false, false, false, false, []⟩,
    .insert ⟨none, some "tbl", none, none⟩, ⟨⟨by simp [Hsql.Expr.Parsed], .inl rfl⟩, rfl, rfl⟩, nofun, rfl, rfl⟩

end Planner

/-! ## Accepted statements -/

namespace Hsql

/-- The expression without the names of tables. -/
def Expr.plain : Expr → Mimidb.Expr
  | null => .other 0
  | operator opType expr expr2 => .operator opType expr.plain expr2.plain
  | literalInt ival => .literalInt ival
  | literalNull => .literalNull
  | columnRef _ name => .columnRef (name.getD "")
  | star _ => .other 6
  | other type => .other type

def InsertStatement.plain (stmt : InsertStatement) (values : List Expr) : Mimidb.InsertStatement :=
  ⟨stmt.columns, values.map Expr.plain⟩

def UpdateStatement.plain (stmt : UpdateStatement) (updates : List UpdateClause) : Mimidb.UpdateStatement :=
  ⟨updates.map fun update => (update.column.getD "", update.value.plain),
    if stmt.whereClause = .null then none else some stmt.whereClause.plain⟩

section
variable {dbg : Bool} {info : TableInfo}

theorem parseExpr_plain {e : Expr} {node : ExpressionNode} (h : parseExpr dbg info e = .ok node) :
    Mimidb.parseExpr dbg info e.plain = .ok node := by
  induction e generalizing node with
  | null => cases h
  | operator opType expr expr2 ih ih2 =>
    obtain ⟨strategy, hstrategy, h⟩ := bind_eq_ok.1 h
    obtain ⟨left, hleft, h⟩ := bind_eq_ok.1 h
    obtain ⟨right, hright, h⟩ := bind_eq_ok.1 h
    rw [Expr.plain, Mimidb.parseExpr, hstrategy, ih hleft, ih2 hright]
    exact h
  | literalInt ival => exact h
  | literalNull => exact h
  | columnRef table name =>
    cases name with
    | none => cases h
    | some name => exact h
  | star table => cases h
  | other type => cases h

theorem insertValue_plain {typeId : TypeId} {value : Expr} {datum : Option Datum}
    (h : insertValue typeId value = .ok datum) :
    Planner.insertValue typeId value.plain = .ok datum := by
  cases value with
  | null => cases h
  | literalInt ival => exact h
  | literalNull => exact h
  | operator opType expr expr2 => cases typeId <;> cases h
  | columnRef table name => cases typeId <;> cases h
  | star table => cases typeId <;> cases h
  | other type => cases typeId <;> cases h

theorem insertValues_plain {columns : List ColumnInfo} {values : List Expr} {tuple : Values}
    (h : insertValues columns values = .ok tuple) :
    Planner.insertValues columns (values.map Expr.plain) = .ok tuple := by
  induction columns generalizing values tuple with
  | nil => exact h
  | cons col columns ih =>
    cases values with
    | nil => cases h
    | cons value values =>
      obtain ⟨datum, hdatum, h⟩ := bind_eq_ok.1 h
      obtain ⟨datums, hdatums, h⟩ := bind_eq_ok.1 h
      rw [List.map_cons, Planner.insertValues, insertValue_plain hdatum, ih hdatums]
      exact h

theorem InsertStatement.plan_ok {stmt : InsertStatement} {p : PlannedStmt} (h : stmt.plan dbg info = .ok p) :
    ∃ values tuple, stmt.values = some values ∧ p = ⟨.insert [tuple], .Insert⟩ ∧
      Planner.planInsert info (stmt.plain values) = .ok tuple := by
  cases hvalues : stmt.values with
  | none =>
    unfold plan at h
    rw [hvalues] at h
    cases h
  | some values =>
    by_cases hlen : values.length = info.columns.length
    · rw [plan_eq hvalues hlen] at h
      obtain ⟨tuple, htuple, h⟩ := bind_eq_ok.1 h
      split_ifs at h with hcount
      cases h
      refine ⟨values, tuple, rfl, rfl, ?_⟩
      unfold Planner.planInsert
      rw [info.counted, plain, List.length_map, if_neg (not_not.2 hlen), if_neg hcount]
      exact insertValues_plain htuple
    · rw [plan_length hvalues hlen] at h
      cases h

theorem planAssignment_ok {update : UpdateClause} {node : Nat × ExpressionNode}
    (h : planAssignment dbg info update = .ok node) :
    ∃ colname col expr, update.column = some colname ∧ info.findColumn colname = some col ∧
      parseExpr dbg info update.value = .ok expr ∧ node = (col.attno, expr) := by
  unfold planAssignment at h
  cases hname : update.column with
  | none =>
    rw [hname] at h
    cases h
  | some colname =>
    rw [hname] at h
    obtain ⟨_, he, h⟩ := bind_eq_ok.1 h
    cases he
    cases hcol : info.findColumn colname with
    | none =>
      rw [hcol] at h
      cases h
    | some col =>
      rw [hcol] at h
      obtain ⟨expr, hexpr, h⟩ := bind_eq_ok.1 h
      cases h
      exact ⟨colname, col, expr, rfl, hcol, hexpr, rfl⟩

theorem parseQual_some {e : Expr} {qual : ExpressionNode} (h : parseQual dbg info e = .ok (some qual)) :
    e ≠ .null ∧ parseExpr dbg info e = .ok qual := by
  unfold parseQual at h
  by_cases he : e = .null
  · rw [if_pos he] at h
    cases h
  · rw [if_neg he] at h
    obtain ⟨node, hnode, h⟩ := map_eq_ok.1 h
    cases h
    exact ⟨he, hnode⟩

theorem UpdateStatement.plan_ok {stmt : UpdateStatement} {p : PlannedStmt} (h : stmt.plan dbg info = .ok p) :
    ∃ updates node, stmt.updates = some updates ∧ p = ⟨.update node, .Update⟩ ∧
      List.Forall₂ (fun update u => planAssignment dbg info update = .ok u) updates node.updates ∧
      parseQual dbg info stmt.whereClause = .ok (some node.qual) := by
  unfold plan at h
  cases hupdates : stmt.updates with
  | none =>
    rw [hupdates] at h
    cases h
  | some updates =>
    rw [hupdates] at h
    obtain ⟨_, he, h⟩ := bind_eq_ok.1 h
    cases he
    obtain ⟨nodes, hnodes, h⟩ := bind_eq_ok.1 h
    obtain ⟨qual, hqual, h⟩ := bind_eq_ok.1 h
    cases qual with
    | none => cases h
    | some qual =>
      cases h
      exact ⟨updates, ⟨qual, nodes⟩, rfl, rfl, mapM_eq_ok.1 hnodes, hqual⟩

theorem UpdateStatement.plan_plain {stmt : UpdateStatement} {p : PlannedStmt} (h : stmt.plan dbg info = .ok p) :
    ∃ updates node, stmt.updates = some updates ∧ p = ⟨.update node, .Update⟩ ∧
      Planner.planUpdate dbg info (stmt.plain updates) = .ok node := by
  obtain ⟨updates, node, hupdates, rfl, hnodes, hqual⟩ := plan_ok h
  refine ⟨updates, node, hupdates, rfl, ?_⟩
  obtain ⟨hne, hparse⟩ := parseQual_some hqual
  have hassign : (stmt.plain updates).updates.mapM (Planner.planAssignment dbg info) = .ok node.updates := by
    rw [mapM_eq_ok, plain, List.forall₂_map_left_iff]
    refine hnodes.imp fun update u hu => ?_
    obtain ⟨colname, col, expr, hname, hcol, hexpr, rfl⟩ := planAssignment_ok hu
    rw [hname, Option.getD_some, Planner.planAssignment, hcol, parseExpr_plain hexpr]
    rfl
  unfold Planner.planUpdate
  rw [hassign, plain, if_neg hne]
  show (Mimidb.parseExpr dbg info stmt.whereClause.plain >>= fun qual => .ok (UpdateNode.mk qual node.updates)) = _
  rw [parseExpr_plain hparse]
  rfl

theorem DeleteStatement.plan_ok {stmt : DeleteStatement} {p : PlannedStmt} (h : stmt.plan dbg info = .ok p) :
    ∃ qual, p = ⟨.delete qual, .Delete⟩ ∧ parseQual dbg info stmt.expr = .ok (some qual) := by
  obtain ⟨qual, hqual, h⟩ := bind_eq_ok.1 h
  cases qual with
  | none => cases h
  | some qual =>
    cases h
    exact ⟨qual, rfl, hqual⟩

theorem SelectStatement.plan_ok {stmt : SelectStatement} {p : PlannedStmt} (h : stmt.plan dbg info = .ok p) :
    ∃ qual, p = ⟨.seqScan qual, .Select⟩ ∧ parseQual dbg info stmt.whereClause = .ok qual := by
  obtain ⟨_, -, h⟩ := bind_eq_ok.1 h
  obtain ⟨table, -, h⟩ := bind_eq_ok.1 h
  obtain ⟨_, -, h⟩ := bind_eq_ok.1 h
  obtain ⟨qual, hqual, h⟩ := bind_eq_ok.1 h
  cases h
  exact ⟨qual, rfl, hqual⟩

end

end Hsql

end Mimidb
