import Mimidb.Planner

/-!
# Names in statements

A statement names tables, their aliases and columns. The planner looks a column
up by its last name in the catalog, and reads neither the names of tables nor
the list of columns of an INSERT nor the select list. So what it accepts is
what the statement says if and only if the names that it does not read are
those of its only table, in the order of the catalog.
-/

namespace Mimidb

/-! ## What a SELECT sends -/

def sendTupleDescriptor (_desc : TupleDescriptor) : List String := ["a", "b"]

/-- The loop over `Execute`, for at most `fuel` calls. -/
def sendTuples (dbg : Bool) (info : TableInfo) (qual : Option ExpressionNode) :
    Nat → List (HeapTuple Values) → Except Fault (List (List (Option Int)))
  | 0, _ => .error .diverges
  | fuel + 1, tuples => do
    match ← SeqScan.execute dbg info.descriptor qual tuples with
    | (none, _) => return []
    | (some tuple, tuples) =>
      let row ← sendTuple dbg info tuple.values
      let rows ← sendTuples dbg info qual fuel tuples
      return row :: rows

/-! ## The meaning of names -/

namespace TableInfo

def names (info : TableInfo) : List String := info.columns.map ColumnInfo.name

/-- A row that can be read from the table. -/
structure Row (info : TableInfo) (row : List (Option Int)) : Prop where
  length : row.length = info.columns.length
  holds : RowHolds info.columns row

end TableInfo

/-- The columns of a table under the names that a statement gives them. -/
structure Scope where
  table : String
  columns : List String
  deriving DecidableEq, Repr

namespace Scope

variable (scope : Scope)

/-- The index of the column with the name, if it is the only one. -/
def lookup (table : Option String) (name : String) : Option Nat :=
  if table.all (· = scope.table) ∧ scope.columns.count name = 1 then scope.columns.idxOf? name else none

/-- The column that has the name is the one with this name in the catalog. -/
def Agrees (info : TableInfo) (ref : Option String × String) : Prop :=
  (scope.lookup ref.1 ref.2).bind (info.names[·]?) = some ref.2

instance (info : TableInfo) (ref : Option String × String) : Decidable (scope.Agrees info ref) :=
  inferInstanceAs (Decidable ((scope.lookup ref.1 ref.2).bind (info.names[·]?) = some ref.2))

/-- The node reads each column that the expression names. -/
def Reads : Hsql.Expr → ExpressionNode → Prop
  | .operator _ expr expr2, .function _ left right => Reads expr left ∧ Reads expr2 right
  | .columnRef table (some name), .attr attno => ∃ i, scope.lookup table name = some i ∧ attno = i + 1
  | .literalInt ival, .constant value => value = some (.scalar ival)
  | .literalNull, .constant value => value = none
  | _, _ => False

/-- The assignment is to the column that the clause names. -/
def Assigns (update : Hsql.UpdateClause) (assignment : Nat × ExpressionNode) : Prop :=
  ∃ name i, update.column = some name ∧ scope.lookup none name = some i ∧ assignment.1 = i + 1 ∧
    scope.Reads update.value assignment.2

end Scope

namespace Hsql

/-- The columns of the table `tbl`, if the reference is to it. -/
def TableRef.scope (info : TableInfo) (tbl : String) (table : TableRef) : Option Scope :=
  if table.type = .TableName ∧ table.schema = none ∧ table.name = some tbl then
    match table.tableAlias with
    | none => some ⟨tbl, info.names⟩
    | some ⟨name, none⟩ => some ⟨name, info.names⟩
    | some ⟨name, some columns⟩ =>
      if columns.length ≤ info.names.length then some ⟨name, columns ++ info.names.drop columns.length⟩ else none
  else none

/-- The columns that the expression names, each with the table it gives. -/
def Expr.columnRefs : Expr → List (Option String × String)
  | operator _ expr expr2 => expr.columnRefs ++ expr2.columnRefs
  | columnRef table (some name) => [(table, name)]
  | _ => []

/-- The columns of an item, each with its name in the result. What is not a column has none. -/
def SelectItem.columns (scope : Scope) (item : SelectItem) : Option (List (String × Nat)) :=
  match item.expr, item.exprAlias with
  | .star table, none => if table.all (· = scope.table) then some scope.columns.zipIdx else none
  | .columnRef table (some name), exprAlias => (scope.lookup table name).map fun i => [(exprAlias.getD name, i)]
  | _, _ => none

def SelectStatement.columns (stmt : SelectStatement) (scope : Scope) : Option (List (String × Nat)) :=
  (stmt.selectList.mapM (SelectItem.columns scope)).map List.flatten

end Hsql

/-- The values of the selected columns. -/
def project (cols : List (String × Nat)) (row : List (Option Int)) : List (Option Int) :=
  cols.map fun col => (row[col.2]?).join

/-- The scan takes the row. -/
def taken (dbg : Bool) (info : TableInfo) (qual : Option ExpressionNode) (row : List (Option Int)) : Bool :=
  qual.all fun node =>
    match node.execQual dbg info.descriptor (datums row) with
    | .ok b => b
    | .error _ => false

/-- A tuple of the table with the row. -/
def Carries (info : TableInfo) (tuple : HeapTuple Values) (row : List (Option Int)) : Prop :=
  info.Row row ∧ tuple.values = datums row

/-! ## Honoured statements -/

namespace Hsql

section
variable (dbg : Bool) (info : TableInfo) (tbl : String)

/-- Whatever the table holds, each row that the scan takes is sent with exactly the selected columns. -/
structure SelectHonoured (stmt : SelectStatement) (qual : Option ExpressionNode) (scope : Scope)
    (cols : List (String × Nat)) :
    Prop where
  withDescriptions : stmt.withDescriptions = []
  columns : stmt.columns scope = some cols
  whereClause : ∀ node, qual = some node → scope.Reads stmt.whereClause node
  descriptor : sendTupleDescriptor info.descriptor = cols.map Prod.fst
  tuple : ∀ row, info.Row row → sendTuple dbg info (datums row) = .ok (project cols row)
  tuples : ∀ tuples rows, List.Forall₂ (Carries info) tuples rows → ∀ fuel, tuples.length < fuel →
    sendTuples dbg info qual fuel tuples = .ok ((rows.filter (taken dbg info qual)).map (project cols))

/-- The list names columns of the table, each once, and one for every value. -/
structure Listed (names : List String) (values : List Expr) : Prop where
  nodup : names.Nodup
  mem : ∀ name ∈ names, name ∈ info.names
  length : names.length = values.length

/-- The plan is for the table and the columns that the statement names. -/
def SQLStatement.Honoured : SQLStatement → PlannedStmt → Prop
  | .select stmt, ⟨.seqScan qual, .Select⟩ => ∃ table scope cols, stmt.fromTable = some table ∧
      table.scope info tbl = some scope ∧ SelectHonoured dbg info stmt qual scope cols
  | .insert stmt, ⟨.insert tuples, .Insert⟩ => stmt.schema = none ∧ stmt.tableName = some tbl ∧
      ∃ values tuple, stmt.values = some values ∧ tuples = [tuple] ∧ ∀ names, stmt.columns = some names →
        Listed info names values ∧ Stores dbg info tuple ((stmt.plain values).given info)
  | .update stmt, ⟨.update node, .Update⟩ => ∃ scope updates, stmt.table.scope info tbl = some scope ∧
      stmt.updates = some updates ∧ List.Forall₂ scope.Assigns updates node.updates ∧
      scope.Reads stmt.whereClause node.qual
  | .delete stmt, ⟨.delete qual, .Delete⟩ => stmt.schema = none ∧ stmt.tableName = some tbl ∧
      (Scope.mk tbl info.names).Reads stmt.expr qual
  | _, _ => False

/-- The names that the planner does not read are those of its table, in the order of the catalog. -/
def SQLStatement.Catalogued : SQLStatement → Prop
  | .select stmt => stmt.withDescriptions = [] ∧ ∃ table scope cols, stmt.fromTable = some table ∧
      table.scope info tbl = some scope ∧ (∀ ref ∈ stmt.whereClause.columnRefs, scope.Agrees info ref) ∧
      stmt.columns scope = some cols ∧ cols.map Prod.fst = ["a", "b"] ∧
      cols.map Prod.snd = List.range info.columns.length
  | .insert stmt => stmt.schema = none ∧ stmt.tableName = some tbl ∧ info.columns.length ≠ 2 ^ 16 - 1 ∧
      ∃ values, stmt.values = some values ∧ ∀ names, stmt.columns = some names → Listed info names values ∧
        RowHolds info.columns ((stmt.plain values).values.map Mimidb.Expr.literal) ∧
        (stmt.plain values).given info = (stmt.plain values).values.map Mimidb.Expr.literal
  | .update stmt => ∃ scope updates, stmt.table.scope info tbl = some scope ∧ stmt.updates = some updates ∧
      (∀ update ∈ updates, (∃ name, update.column = some name ∧ scope.Agrees info (none, name)) ∧
        ∀ ref ∈ update.value.columnRefs, scope.Agrees info ref) ∧
      ∀ ref ∈ stmt.whereClause.columnRefs, scope.Agrees info ref
  | .delete stmt => stmt.schema = none ∧ stmt.tableName = some tbl ∧
      ∀ ref ∈ stmt.expr.columnRefs, (Scope.mk tbl info.names).Agrees info ref
  | .transaction | .other _ => False

end

end Hsql

/-! ## Names in the catalog -/

section
variable {dbg : Bool} {info : TableInfo} {scope : Scope}

namespace TableInfo

theorem names_nodup {i j : Nat} {name : String} (hi : info.names[i]? = some name)
    (hj : info.names[j]? = some name) : i = j := by
  obtain ⟨hlt, hget⟩ := List.getElem?_eq_some_iff.1 hi
  obtain ⟨hlt', hget'⟩ := List.getElem?_eq_some_iff.1 hj
  exact info.named.getElem_inj_iff.1 (hget.trans hget'.symm)

theorem deserialize_row {hasnulls : Bool} {array : List UInt8} {size : Nat} {values : Values}
    (h : TupleSerializer.deserialize dbg info.descriptor array hasnulls size = .ok values) :
    ∃ row, info.Row row ∧ values = datums row := by
  obtain ⟨-, nulls, cursor, h⟩ := deserialize_extract h
  obtain ⟨row, hlen, rfl⟩ := TupleSerializer.extractValues_integers h
  exact ⟨row, ⟨hlen, TupleSerializer.extractValues_holds h⟩, rfl⟩

end TableInfo

namespace Scope

theorem agrees_iff {table : Option String} {name : String} {i : Nat} (hname : info.names[i]? = some name) :
    scope.Agrees info (table, name) ↔ scope.lookup table name = some i := by
  unfold Agrees
  rw [Option.bind_eq_some_iff]
  constructor
  · rintro ⟨j, hj, hget⟩
    rw [hj, TableInfo.names_nodup hget hname]
  · exact fun h => ⟨i, h, hname⟩

end Scope

theorem parseExpr_columnRef {table name : Option String} {node : ExpressionNode}
    (h : Hsql.parseExpr dbg info (.columnRef table name) = .ok node) :
    ∃ colname i, name = some colname ∧ info.names[i]? = some colname ∧ node = .attr (i + 1) := by
  cases name with
  | none => cases h
  | some name =>
    unfold Hsql.parseExpr Mimidb.parseExpr at h
    cases hfind : findAttno name info.columns AttrNumber.Min with
    | none =>
      rw [hfind] at h
      cases h
    | some attno =>
      rw [hfind] at h
      obtain ⟨_, -, h⟩ := bind_eq_ok.1 h
      cases h
      have hfit := info.length_lt
      obtain ⟨rfl, hlt⟩ := findAttno_eq (by rw [AttrNumber.Min]; omega) hfind
      rw [AttrNumber.Min, Nat.add_lt_add_iff_left] at hlt
      refine ⟨name, _, rfl, ?_, congrArg ExpressionNode.attr (Nat.add_comm _ _)⟩
      have hname := List.findIdx_getElem (w := hlt)
      rw [TableInfo.names, List.getElem?_map, List.getElem?_eq_getElem hlt, Option.map_some,
        of_decide_eq_true hname]

namespace Scope

/-- An accepted expression is read as it is named if and only if its names agree with the catalog. -/
theorem reads_iff {e : Hsql.Expr} {node : ExpressionNode} (h : Hsql.parseExpr dbg info e = .ok node) :
    scope.Reads e node ↔ ∀ ref ∈ e.columnRefs, scope.Agrees info ref := by
  induction e generalizing node with
  | null => cases h
  | operator opType expr expr2 ih ih2 =>
    obtain ⟨strategy, -, h⟩ := bind_eq_ok.1 h
    obtain ⟨left, hleft, h⟩ := bind_eq_ok.1 h
    obtain ⟨right, hright, h⟩ := bind_eq_ok.1 h
    cases hop : Schema.findOperatorInfo .Int32 .Int32 strategy with
    | none =>
      rw [hop] at h
      cases h
    | some op =>
      rw [hop] at h
      cases h
      rw [Reads, ih hleft, ih2 hright, Hsql.Expr.columnRefs]
      exact List.forall_mem_append.symm
  | literalInt ival =>
    cases h
    exact iff_of_true rfl nofun
  | literalNull =>
    cases h
    exact iff_of_true rfl nofun
  | columnRef table name =>
    obtain ⟨colname, i, rfl, hname, rfl⟩ := parseExpr_columnRef h
    rw [Hsql.Expr.columnRefs, List.forall_mem_singleton, agrees_iff hname, Reads]
    constructor
    · rintro ⟨j, hj, he⟩
      rw [Nat.succ.inj he]
      exact hj
    · exact fun hi => ⟨i, hi, rfl⟩
  | star table => cases h
  | other type => cases h

theorem assigns_iff {update : Hsql.UpdateClause} {assignment : Nat × ExpressionNode}
    (h : Hsql.planAssignment dbg info update = .ok assignment) :
    scope.Assigns update assignment ↔ (∃ name, update.column = some name ∧ scope.Agrees info (none, name)) ∧
      ∀ ref ∈ update.value.columnRefs, scope.Agrees info ref := by
  obtain ⟨colname, col, expr, hcolumn, hcol, hexpr, rfl⟩ := Hsql.planAssignment_ok h
  obtain ⟨hget, hname, hattno⟩ := findColumn_eq hcol
  have hindex : info.names[info.columns.findIdx fun col => col.name = colname]? = some colname := by
    rw [TableInfo.names, List.getElem?_map, hget, Option.map_some, hname]
  rw [← reads_iff hexpr]
  constructor
  · rintro ⟨name, i, hname', hi, he, hreads⟩
    obtain rfl := Option.some.inj (hcolumn.symm.trans hname')
    refine ⟨⟨_, hcolumn, (agrees_iff hindex).2 ?_⟩, hreads⟩
    rw [hi, ← Nat.succ.inj (hattno.symm.trans he)]
  · rintro ⟨⟨name, hname', hagrees⟩, hreads⟩
    obtain rfl := Option.some.inj (hcolumn.symm.trans hname')
    exact ⟨_, _, hcolumn, (agrees_iff hindex).1 hagrees, hattno, hreads⟩

theorem forall_assigns_iff {updates : List Hsql.UpdateClause} {assignments : List (Nat × ExpressionNode)}
    (h : List.Forall₂ (fun update u => Hsql.planAssignment dbg info update = .ok u) updates assignments) :
    List.Forall₂ scope.Assigns updates assignments ↔ ∀ update ∈ updates,
      (∃ name, update.column = some name ∧ scope.Agrees info (none, name)) ∧
        ∀ ref ∈ update.value.columnRefs, scope.Agrees info ref := by
  induction h with
  | nil => exact iff_of_true .nil nofun
  | cons hassign _ ih => rw [List.forall₂_cons, List.forall_mem_cons, assigns_iff hassign, ih]

end Scope

end

/-! ## Scans of the table -/

section
variable {dbg : Bool} {info : TableInfo} {row : List (Option Int)}

theorem exec_row (hrow : row.length = info.columns.length) {e : Expr} {node : ExpressionNode}
    (h : parseExpr dbg info e = .ok node) :
    ∃ value : Option Int, node.exec dbg info.descriptor (datums row) = .ok (value.map .scalar) := by
  induction e generalizing node with
  | operator opType expr expr2 ih ih2 =>
    obtain ⟨left, right, hleft, hright, rfl⟩ := parseExpr_operator h
    obtain ⟨a, ha⟩ := ih hleft
    obtain ⟨b, hb⟩ := ih2 hright
    exact ⟨_, exec_function ha hb⟩
  | literalInt ival =>
    cases h
    exact ⟨some ival, rfl⟩
  | literalNull =>
    cases h
    exact ⟨none, rfl⟩
  | columnRef name => exact ⟨_, exec_columnRef hrow h⟩
  | other type => cases h

/-- The scan evaluates its predicate on every row, and takes the row if it is true. -/
def Evaluates (dbg : Bool) (info : TableInfo) (qual : Option ExpressionNode) : Prop :=
  ∀ node, qual = some node → ∀ row, info.Row row →
    ∃ value, node.exec dbg info.descriptor (datums row) = .ok value ∧
    value.any Datum.getBool = taken dbg info qual row

theorem parseQual_evaluates {e : Hsql.Expr} {qual : Option ExpressionNode}
    (h : Hsql.parseQual dbg info e = .ok qual) :
    Evaluates dbg info qual := by
  rintro node rfl row hrow
  obtain ⟨value, hvalue⟩ := exec_row hrow.length (Hsql.parseExpr_plain (Hsql.parseQual_some h).2)
  refine ⟨_, hvalue, ?_⟩
  rw [taken, Option.all_some, ExpressionNode.execQual, hvalue]
  rfl

theorem execute_carries {qual : Option ExpressionNode} (heval : Evaluates dbg info qual)
    {tuples : List (HeapTuple Values)} {rows : List (List (Option Int))}
    (h : List.Forall₂ (Carries info) tuples rows) :
    (SeqScan.execute dbg info.descriptor qual tuples = .ok (none, []) ∧ rows.filter (taken dbg info qual) = []) ∨
      ∃ tuple tuples' row rows', SeqScan.execute dbg info.descriptor qual tuples = .ok (some tuple, tuples') ∧
        Carries info tuple row ∧ List.Forall₂ (Carries info) tuples' rows' ∧ tuples'.length < tuples.length ∧
        rows.filter (taken dbg info qual) = row :: rows'.filter (taken dbg info qual) := by
  induction h with
  | nil => exact .inl ⟨rfl, rfl⟩
  | @cons tuple row tuples rows hrow hrest ih =>
    cases qual with
    | none =>
      exact .inr ⟨tuple, tuples, row, rows, rfl, hrow, hrest, Nat.lt_succ_self _, List.filter_cons_of_pos rfl⟩
    | some node =>
      obtain ⟨value, hvalue, htaken⟩ := heval node rfl row hrow.1
      rw [SeqScan.execute, hrow.2, hvalue]
      by_cases ht : taken dbg info (some node) row = true
      · refine .inr ⟨tuple, tuples, row, rows, ?_, hrow, hrest, Nat.lt_succ_self _, List.filter_cons_of_pos ht⟩
        show (if value.any Datum.getBool = true then _ else _) = _
        rw [if_pos (htaken.trans ht)]
        rfl
      · have hexec : (do
            let result ← (Except.ok value : Except Fault (Option Datum))
            if result.any Datum.getBool then return (some tuple, tuples)
            SeqScan.execute dbg info.descriptor (some node) tuples) = SeqScan.execute dbg info.descriptor
              (some node) tuples := by
          show (if value.any Datum.getBool = true then _ else _) = _
          rw [if_neg fun hv => ht (htaken.symm.trans hv)]
        rw [hexec, List.filter_cons_of_neg ht]
        rcases ih with hnone | ⟨tuple', tuples', row', rows', hexec, hcarries, hrest', hlt, hfilter⟩
        · exact .inl hnone
        · exact .inr ⟨tuple', tuples', row', rows', hexec, hcarries, hrest', Nat.lt_succ_of_lt hlt, hfilter⟩

theorem sendTuples_eq {qual : Option ExpressionNode} (heval : Evaluates dbg info qual) {cols : List (String × Nat)}
    (htuple : ∀ row, info.Row row → sendTuple dbg info (datums row) = .ok (project cols row)) {fuel : Nat}
    {tuples : List (HeapTuple Values)} {rows : List (List (Option Int))}
    (h : List.Forall₂ (Carries info) tuples rows)
    (hfuel : tuples.length < fuel) :
    sendTuples dbg info qual fuel tuples = .ok ((rows.filter (taken dbg info qual)).map (project cols)) := by
  induction fuel generalizing tuples rows with
  | zero => cases hfuel
  | succ fuel ih =>
    unfold sendTuples
    rcases execute_carries heval h with ⟨hexec, hfilter⟩ | ⟨tuple, tuples', row, rows', hexec, hrow, hrest, hlt,
      hfilter⟩
    · rw [hexec, hfilter]
      rfl
    · rw [hexec, hfilter]
      show (do
        let row ← sendTuple dbg info tuple.values
        let rows ← sendTuples dbg info qual fuel tuples'
        return row :: rows) = _
      rw [hrow.2, htuple row hrow.1, ih hrest (by omega)]
      rfl

end

/-! ## Select lists -/

section
variable {info : TableInfo} {cols : List (String × Nat)}

theorem row_set (info : TableInfo) (k : Nat) :
    info.Row ((List.replicate info.columns.length none).set k (some 0)) := by
  refine ⟨by rw [List.length_set, List.length_replicate], fun i col n _ hn => ?_⟩
  have hmem := List.mem_of_getElem? hn
  rcases List.mem_or_eq_of_mem_set hmem with h | h
  · cases List.eq_of_mem_replicate h
  · cases h
    cases col.typeId <;> exact ⟨by decide, by decide⟩

theorem project_range {row : List (Option Int)} (h : cols.map Prod.snd = List.range row.length) :
    project cols row = row := by
  have hproject : project cols row = (cols.map Prod.snd).map fun i => (row[i]?).join := by
    rw [List.map_map]
    rfl
  rw [hproject, h]
  refine List.ext_getElem (by rw [List.length_map, List.length_range]) fun i _ hi => ?_
  rw [List.getElem_map, List.getElem_range, List.getElem?_eq_getElem hi]
  rfl

/-- Whole rows are sent, so that they are what is selected if and only if all columns are, in their order. -/
theorem sendTuple_project_iff (dbg : Bool) (hcount : info.columns.length ≠ 2 ^ 16 - 1) :
    (∀ row, info.Row row → sendTuple dbg info (datums row) = .ok (project cols row)) ↔
      cols.map Prod.snd = List.range info.columns.length := by
  constructor
  · intro h
    have hproject : ∀ row, info.Row row → project cols row = row := fun row hrow =>
      Except.ok.inj ((h row hrow).symm.trans (sendTuple_eq dbg hrow.length hcount hrow.holds))
    have hlen : cols.length = info.columns.length := by
      have := congrArg List.length (hproject _ (row_set info 0))
      rwa [project, List.length_map, List.length_set, List.length_replicate] at this
    refine List.ext_getElem (by rw [List.length_map, List.length_range, hlen]) fun k hk hk' => ?_
    rw [List.length_map] at hk
    rw [List.length_range] at hk'
    -- the row with its number at `k` has it at the column selected there
    have hat := congrArg (·[k]?) (hproject _ (row_set info k))
    simp only [project, List.getElem?_map, List.getElem?_eq_getElem hk, Option.map_some] at hat
    rw [List.getElem?_set_self (by rw [List.length_replicate]; exact hk'), Option.some.injEq,
      Option.join_eq_some_iff] at hat
    rw [List.getElem_map, List.getElem_range]
    by_contra hne
    rw [List.getElem?_set_ne (Ne.symm hne)] at hat
    cases List.eq_of_mem_replicate (List.mem_of_getElem? hat)
  · intro h row hrow
    rw [sendTuple_eq dbg hrow.length hcount hrow.holds, project_range (hrow.length ▸ h)]

end

/-! ## Statements -/

namespace Hsql

section
variable {dbg : Bool} {info : TableInfo} {tbl : String} {p : PlannedStmt}

theorem parseQual_none {e : Expr} (h : parseQual dbg info e = .ok none) : e = .null := by
  by_contra he
  rw [parseQual, if_neg he] at h
  obtain ⟨node, -, h⟩ := map_eq_ok.1 h
  cases h

theorem SelectStatement.honoured_iff {stmt : SelectStatement} (h : stmt.plan dbg info = .ok p) :
    (SQLStatement.select stmt).Honoured dbg info tbl p ↔ (SQLStatement.select stmt).Catalogued info tbl := by
  obtain ⟨qual, rfl, hqual⟩ := plan_ok h
  have hreads : ∀ scope : Scope, (∀ node, qual = some node → scope.Reads stmt.whereClause node) ↔
      ∀ ref ∈ stmt.whereClause.columnRefs, scope.Agrees info ref := by
    intro scope
    cases qual with
    | none =>
      rw [parseQual_none hqual]
      exact iff_of_true nofun nofun
    | some node =>
      rw [← Scope.reads_iff (parseQual_some hqual).2]
      exact ⟨fun h => h node rfl, fun h node' he => Option.some.inj he ▸ h⟩
  constructor
  · rintro ⟨table, scope, cols, htable, hscope, hon⟩
    have hcount : info.columns.length ≠ 2 ^ 16 - 1 := fun hcount => by
      have hsent := hon.tuple _ (row_set info 0)
      rw [sendTuple, info.counted, if_pos hcount] at hsent
      cases hsent
    exact ⟨hon.withDescriptions, table, scope, cols, htable, hscope, (hreads scope).1 hon.whereClause, hon.columns,
      hon.descriptor.symm, (sendTuple_project_iff dbg hcount).1 hon.tuple⟩
  · rintro ⟨hwith, table, scope, cols, htable, hscope, hrefs, hcols, hnames, hrange⟩
    have hcount : info.columns.length ≠ 2 ^ 16 - 1 := by
      have htwo : cols.length = 2 := List.length_map Prod.fst ▸ congrArg List.length hnames
      have hlen := congrArg List.length hrange
      rw [List.length_map, List.length_range] at hlen
      omega
    have htuple := (sendTuple_project_iff dbg hcount).2 hrange
    exact ⟨table, scope, cols, htable, hscope, hwith, hcols, (hreads scope).2 hrefs, hnames.symm, htuple,
      fun tuples rows hcarries fuel hfuel => sendTuples_eq (parseQual_evaluates hqual) htuple hcarries hfuel⟩

theorem InsertStatement.honoured_iff {stmt : InsertStatement} (h : stmt.plan dbg info = .ok p) :
    (SQLStatement.insert stmt).Honoured dbg info tbl p ↔ (SQLStatement.insert stmt).Catalogued info tbl := by
  obtain ⟨values, tuple, hvalues, rfl, hplan⟩ := plan_ok h
  have hstores : Stores dbg info tuple ((stmt.plain values).given info) ↔ _ := insert_stores_iff hplan
  constructor
  · rintro ⟨hschema, hname, values', tuple', hvalues', htuple, hlist⟩
    obtain rfl := Option.some.inj (hvalues.symm.trans hvalues')
    obtain rfl := List.singleton_inj.1 htuple
    refine ⟨hschema, hname, (planInsert_eq hplan).2.2, values, hvalues, fun names hnames => ?_⟩
    obtain ⟨hlisted, hst⟩ := hlist names hnames
    exact ⟨hlisted, hstores.1 hst⟩
  · rintro ⟨hschema, hname, -, values', hvalues', hlist⟩
    obtain rfl := Option.some.inj (hvalues.symm.trans hvalues')
    refine ⟨hschema, hname, values, tuple, hvalues, rfl, fun names hnames => ?_⟩
    obtain ⟨hlisted, hfit⟩ := hlist names hnames
    exact ⟨hlisted, hstores.2 hfit⟩

theorem UpdateStatement.honoured_iff {stmt : UpdateStatement} (h : stmt.plan dbg info = .ok p) :
    (SQLStatement.update stmt).Honoured dbg info tbl p ↔ (SQLStatement.update stmt).Catalogued info tbl := by
  obtain ⟨updates, node, hupdates, rfl, hassign, hqual⟩ := plan_ok h
  have hwhere := (parseQual_some hqual).2
  constructor
  · rintro ⟨scope, updates', hscope, hupdates', hall, hreads⟩
    obtain rfl := Option.some.inj (hupdates.symm.trans hupdates')
    exact ⟨scope, updates, hscope, hupdates, (Scope.forall_assigns_iff hassign).1 hall,
      (Scope.reads_iff hwhere).1 hreads⟩
  · rintro ⟨scope, updates', hscope, hupdates', hall, hrefs⟩
    obtain rfl := Option.some.inj (hupdates.symm.trans hupdates')
    exact ⟨scope, updates, hscope, hupdates, (Scope.forall_assigns_iff hassign).2 hall,
      (Scope.reads_iff hwhere).2 hrefs⟩

theorem DeleteStatement.honoured_iff {stmt : DeleteStatement} (h : stmt.plan dbg info = .ok p) :
    (SQLStatement.delete stmt).Honoured dbg info tbl p ↔ (SQLStatement.delete stmt).Catalogued info tbl := by
  obtain ⟨qual, rfl, hqual⟩ := plan_ok h
  exact and_congr_right fun _ => and_congr_right fun _ => Scope.reads_iff (parseQual_some hqual).2

end

end Hsql

namespace Planner

theorem accepted_iff {r : Except Fault PlannedStmt} {honoured : PlannedStmt → Prop} {complete catalogued : Prop}
    (hreturns : Returns r ↔ complete) (hnot : ∀ what, r ≠ .error (.runtimeError what))
    (hcomplete : catalogued → complete)
    (hiff : ∀ p, r = .ok p → (honoured p ↔ catalogued)) : (∃ p, r = .ok p ∧ honoured p) ↔ catalogued := by
  constructor
  · rintro ⟨p, hp, h⟩
    exact (hiff p hp).1 h
  · intro h
    rcases hreturns.2 (hcomplete h) with ⟨p, hp⟩ | ⟨what, hwhat⟩
    · exact ⟨p, hp, (hiff p hp).2 h⟩
    · exact absurd hwhat (hnot what)

/-- A statement that is not rejected is planned for what it names if and only if the names that the planner does not
read are those of its table, in the order of the catalog. -/
theorem plan_honoured_iff (dbg : Bool) (info : TableInfo) (tbl : String) (statement : Hsql.SQLStatement)
    (hplannable : isPlannableStatement statement = true) (hparsed : statement.Parsed)
    (hnot : ∀ what, plan dbg info statement ≠ .error (.runtimeError what)) :
    (∃ p, plan dbg info statement = .ok p ∧ statement.Honoured dbg info tbl p) ↔ statement.Catalogued info tbl := by
  rw [plan_eq hplannable] at hnot ⊢
  cases statement with
  | select stmt =>
    refine accepted_iff (Hsql.SelectStatement.returns_iff hparsed.2) hnot (fun h => ?_) fun _ =>
      Hsql.SelectStatement.honoured_iff
    obtain ⟨-, table, -, -, htable, -⟩ := h
    exact .inl (Option.isSome_of_eq_some htable)
  | insert stmt =>
    refine accepted_iff (Hsql.InsertStatement.returns_iff hparsed) hnot (fun h => ?_) fun _ =>
      Hsql.InsertStatement.honoured_iff
    obtain ⟨-, -, hcount, values, hvalues, -⟩ := h
    exact ⟨values, hvalues, fun hall => hcount hall.1⟩
  | update stmt =>
    have hreturns : Returns (stmt.plan dbg info) ↔ True := iff_true_intro (Hsql.UpdateStatement.returns hparsed)
    exact accepted_iff hreturns hnot (fun _ => trivial) fun _ => Hsql.UpdateStatement.honoured_iff
  | delete stmt =>
    have hreturns : Returns (stmt.plan dbg info) ↔ True := iff_true_intro (Hsql.DeleteStatement.returns hparsed)
    exact accepted_iff hreturns hnot (fun _ => trivial) fun _ => Hsql.DeleteStatement.honoured_iff
  | transaction => cases hplannable
  | other type => cases hplannable

/-- `SELECT a, b FROM tbl WHERE a = 1`. -/
theorem plan_honoured_where :
    ∃ p, plan true setupDatabase (.select ⟨some ⟨.TableName, none, some "tbl", none⟩, false,
      [⟨.columnRef none (some "a"), none⟩, ⟨.columnRef none (some "b"), none⟩],
      .operator .Equals (.columnRef none (some "a")) (.literalInt 1), false, false, false, false, false, []⟩) =
      .ok p ∧
    (Hsql.SQLStatement.select ⟨some ⟨.TableName, none, some "tbl", none⟩, false,
      [⟨.columnRef none (some "a"), none⟩, ⟨.columnRef none (some "b"), none⟩],
      .operator .Equals (.columnRef none (some "a")) (.literalInt 1), false, false, false, false, false,
      []⟩).Honoured
        true setupDatabase "tbl" p := by
  refine (plan_honoured_iff true setupDatabase "tbl" _ rfl ?_ ?_).2 ?_
  · exact ⟨by simp [Hsql.Expr.Parsed], .inr ⟨rfl, trivial⟩⟩
  · intro what h
    cases h
  · refine ⟨rfl, _, ⟨"tbl", ["a", "b"]⟩, [("a", 0), ("b", 1)], rfl, rfl, fun ref href => ?_, by decide, rfl, rfl⟩
    cases List.mem_singleton.1 href
    decide

/-- `SELECT b FROM tbl` and `INSERT INTO tbl (b, a) VALUES (1, 2)`. -/
theorem names_ignored : (∃ p, plan true setupDatabase (.select ⟨some ⟨.TableName, none, some "tbl", none⟩, false,
        [⟨.columnRef none (some "b"), none⟩], .null, false, false, false, false, false, []⟩) = .ok p ∧
      ¬ (Hsql.SQLStatement.select ⟨some ⟨.TableName, none, some "tbl", none⟩, false,
        [⟨.columnRef none (some "b"), none⟩], .null, false, false, false, false, false, []⟩).Honoured true
          setupDatabase "tbl" p) ∧
    ∃ p, plan true setupDatabase
      (.insert ⟨none, some "tbl", some ["b", "a"], some [.literalInt 1, .literalInt 2]⟩) = .ok p ∧
      ¬ (Hsql.SQLStatement.insert ⟨none, some "tbl", some ["b", "a"], some [.literalInt 1, .literalInt 2]⟩).Honoured
        true setupDatabase "tbl" p := by
  refine ⟨⟨_, rfl, fun h => ?_⟩, _, rfl, fun h => ?_⟩
  · obtain ⟨-, table, scope, cols, htable, hscope, -, hcols, hnames, -⟩ :=
      (Hsql.SelectStatement.honoured_iff rfl).1 h
    cases htable
    cases hscope
    cases hcols
    exact absurd hnames (by decide)
  · obtain ⟨-, -, -, values, hvalues, hlist⟩ := (Hsql.InsertStatement.honoured_iff rfl).1 h
    cases hvalues
    exact absurd (hlist _ rfl).2.2 (by decide)

end Planner
end Mimidb
