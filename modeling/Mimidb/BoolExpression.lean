import Mimidb.Expressions

/-!
# Boolean expressions

`AND`, `OR` and `NOT` over children of any kind. The loop ends at the first
child that decides the value or is NULL, so a NULL child hides a deciding one
behind it. SQL takes the deciding child wherever it stands.
-/

namespace Mimidb

inductive BoolOp where
  | And
  | Or
  | Not
  deriving DecidableEq, Repr

/-- `Exec` of a node, on tuples of any kind. -/
abbrev IExpressionNode (τ : Type) : Type := τ → Except Fault (Option Datum)

/-- A node that the constructor does not reject. -/
structure BoolExpressionNode (τ : Type) where
  expressions : List (IExpressionNode τ)
  op : BoolOp
  single : op = .Not → expressions.length = 1
  nonempty : expressions ≠ []

variable {τ : Type}

namespace BoolExpressionNode

/-- The constructor. -/
def make (expressions : List (IExpressionNode τ)) (op : BoolOp) : Except Fault (BoolExpressionNode τ) :=
  if hnot : op = .Not ∧ expressions.length ≠ 1 then .error (.runtimeError "For NOT only 1 expression is allowed")
  else if hempty : expressions = [] then .error (.runtimeError "Expression array does not contain any element")
  else .ok ⟨expressions, op, fun h => not_not.1 fun hlen => hnot ⟨h, hlen⟩, hempty⟩

end BoolExpressionNode

/-- `Datum` of a `bool`. -/
def Datum.ofBool (value : Bool) : Datum := .scalar (if value then 1 else 0)

@[simp] theorem Datum.getBool_ofBool (value : Bool) : (Datum.ofBool value).getBool = value := by
  cases value <;> rfl

namespace BoolOp

def defaultValue : BoolOp → Bool
  | And => true
  | Or => false
  | Not => false

/-- The loop over the expressions. -/
def execAll (op : BoolOp) (tuple : τ) : List (IExpressionNode τ) → Except Fault (Option Datum)
  | [] => .ok (some (.ofBool op.defaultValue))
  | expr :: exprs => do
    match ← expr tuple with
    | none => return none
    | some result =>
      match op with
      | And => if !result.getBool then return some (.ofBool false) else execAll op tuple exprs
      | Or => if result.getBool then return some (.ofBool true) else execAll op tuple exprs
      | Not => return some result

/-- The value of one child that is the value of the whole, in SQL. -/
def absorbing : BoolOp → Option Bool
  | And => some false
  | Or => some true
  | Not => none

end BoolOp

/-- The truth value of what `Exec` returns. -/
def truth (result : Except Fault (Option Datum)) : Except Fault (Option Bool) := Option.map Datum.getBool <$> result

namespace BoolExpressionNode

def exec (dbg : Bool) (node : BoolExpressionNode τ) : IExpressionNode τ := fun tuple => do
  assert dbg (node.expressions.length > 0)
  node.op.execAll tuple node.expressions

/-- What each child would return, whether the loop comes to it or not. -/
def outcomes (node : BoolExpressionNode τ) (tuple : τ) : List (Except Fault (Option Bool)) :=
  node.expressions.map fun expr => truth (expr tuple)

end BoolExpressionNode

/-! ## Three-valued logic -/

section
variable {d : Bool} {vs vs' : List (Option Bool)} {o : Except Fault (Option Bool)}
  {os : List (Except Fault (Option Bool))}

/-- The conjunction (`d` false) or disjunction (`d` true) of truth values in SQL. -/
def sqlValue (d : Bool) (vs : List (Option Bool)) : Option Bool :=
  if some d ∈ vs then some d else if none ∈ vs then none else some !d

/-- The first outcome other than `!d`, which is the value if there is no other. -/
def leftmost (d : Bool) (outcomes : List (Except Fault (Option Bool))) : Except Fault (Option Bool) :=
  (outcomes.find? (· ≠ .ok (some !d))).getD (.ok (some !d))

/-- A NULL stands before every `d`. -/
def NullFirst (d : Bool) (vs : List (Option Bool)) : Prop := ∃ pre post, vs = pre ++ none :: post ∧ some d ∉ pre

theorem sqlValue_perm (h : vs.Perm vs') : sqlValue d vs = sqlValue d vs' := by
  unfold sqlValue
  simp only [h.mem_iff]

theorem sqlValue_cons_other : sqlValue d (some (!d) :: vs) = sqlValue d vs := by
  unfold sqlValue
  have hd : some d ∈ some (!d) :: vs ↔ some d ∈ vs := by
    rw [List.mem_cons]
    exact or_iff_right (by cases d <;> decide)
  have hn : none ∈ some (!d) :: vs ↔ none ∈ vs := by
    rw [List.mem_cons]
    exact or_iff_right (Option.some_ne_none _).symm
  simp only [hd, hn]

theorem leftmost_cons_other : leftmost d (.ok (some !d) :: os) = leftmost d os := by
  rw [leftmost, List.find?_cons_of_neg (by simp), leftmost]

theorem leftmost_cons_ne (h : o ≠ .ok (some !d)) : leftmost d (o :: os) = o := by
  rw [leftmost, List.find?_cons_of_pos (by simpa using h), Option.getD_some]

theorem nullFirst_null : NullFirst d (none :: vs) := ⟨[], vs, rfl, List.not_mem_nil⟩

theorem nullFirst_cons {v : Bool} : NullFirst d (some v :: vs) ↔ v ≠ d ∧ NullFirst d vs := by
  constructor
  · rintro ⟨pre, post, he, hd⟩
    cases pre with
    | nil => cases he
    | cons p pre =>
      obtain ⟨rfl, rfl⟩ := List.cons.inj he
      rw [List.mem_cons, not_or] at hd
      exact ⟨fun h => hd.1 (h ▸ rfl), pre, post, rfl, hd.2⟩
  · rintro ⟨hne, pre, post, rfl, hd⟩
    refine ⟨some v :: pre, post, rfl, ?_⟩
    rw [List.mem_cons, not_or]
    exact ⟨fun h => hne (Option.some.inj h).symm, hd⟩

theorem NullFirst.mem (h : NullFirst d vs) : none ∈ vs := by
  obtain ⟨pre, post, rfl, -⟩ := h
  exact List.mem_append_right _ List.mem_cons_self

theorem leftmost_of_nullFirst (h : NullFirst d vs) : leftmost d (vs.map .ok) = .ok none := by
  induction vs with
  | nil => cases h.mem
  | cons v vs ih =>
    rw [List.map_cons]
    cases v with
    | none => exact leftmost_cons_ne fun he => nomatch Except.ok.inj he
    | some v =>
      obtain ⟨hv, hrest⟩ := nullFirst_cons.1 h
      obtain rfl := Bool.eq_not_of_ne hv
      rw [leftmost_cons_other]
      exact ih hrest

theorem leftmost_eq_sqlValue (h : ¬ NullFirst d vs) : leftmost d (vs.map .ok) = .ok (sqlValue d vs) := by
  induction vs with
  | nil => rfl
  | cons v vs ih =>
    rw [List.map_cons]
    cases v with
    | none => exact absurd nullFirst_null h
    | some v =>
      by_cases hv : v = d
      · subst hv
        have hne : (Except.ok (some v) : Except Fault (Option Bool)) ≠ .ok (some !v) := by cases v <;> decide
        rw [leftmost_cons_ne hne, sqlValue, if_pos List.mem_cons_self]
      · obtain rfl := Bool.eq_not_of_ne hv
        rw [leftmost_cons_other, sqlValue_cons_other]
        exact ih fun hnull => h (nullFirst_cons.2 ⟨hv, hnull⟩)

end

/-! ## The loop -/

section
variable {op : BoolOp} {d : Bool} {tuple : τ}

/-- The loop takes the first child that is not true for AND, not false for OR. -/
theorem execAll_eq (hop : op.absorbing = some d) (exprs : List (IExpressionNode τ)) :
    truth (op.execAll tuple exprs) = leftmost d (exprs.map fun expr => truth (expr tuple)) := by
  induction exprs with
  | nil => cases op <;> cases hop <;> rfl
  | cons expr exprs ih =>
    rw [List.map_cons]
    cases hr : expr tuple with
    | error f =>
      have hexec : op.execAll tuple (expr :: exprs) = .error f := by rw [BoolOp.execAll, hr]; rfl
      rw [hexec]
      exact (leftmost_cons_ne fun he => by cases he).symm
    | ok result =>
      cases result with
      | none =>
        have hexec : op.execAll tuple (expr :: exprs) = .ok none := by rw [BoolOp.execAll, hr]; rfl
        rw [hexec]
        exact (leftmost_cons_ne fun he => by cases he).symm
      | some value =>
        have htruth : truth (.ok (some value)) = .ok (some value.getBool) := rfl
        by_cases hv : value.getBool = d
        · have hexec : op.execAll tuple (expr :: exprs) = .ok (some (.ofBool d)) := by
            rw [BoolOp.execAll, hr]
            cases op <;> cases hop <;> simp only [bind, Except.bind, hv] <;> rfl
          rw [hexec, htruth, hv, leftmost_cons_ne (by cases d <;> decide)]
          cases d <;> rfl
        · have hexec : op.execAll tuple (expr :: exprs) = op.execAll tuple exprs := by
            rw [BoolOp.execAll, hr]
            cases op <;> cases hop <;> simp only [bind, Except.bind, Bool.eq_not_of_ne hv] <;> rfl
          rw [hexec, htruth, Bool.eq_not_of_ne hv, leftmost_cons_other, ih]

namespace BoolExpressionNode

theorem exec_eq (dbg : Bool) (node : BoolExpressionNode τ) (tuple : τ) :
    node.exec dbg tuple = node.op.execAll tuple node.expressions := by
  have hlen : assert dbg (decide (node.expressions.length > 0)) = .ok () := by
    rw [decide_eq_true (List.length_pos_iff.2 node.nonempty)]
    cases dbg <;> rfl
  rw [exec, hlen]
  rfl

variable {dbg : Bool} {node : BoolExpressionNode τ}

theorem truth_exec (hop : node.op.absorbing = some d) :
    truth (node.exec dbg tuple) = leftmost d (node.outcomes tuple) := by
  rw [exec_eq, execAll_eq hop, outcomes]

/-- NOT is what its child is, if that is NULL or throws. -/
theorem exec_not (hop : node.op = .Not) {o : Except Fault (Option Bool)} (ho : node.outcomes tuple = [o])
    (hvalue : ∀ v, o ≠ .ok (some v)) : truth (node.exec dbg tuple) = o := by
  obtain ⟨expr, hexpr⟩ := List.length_eq_one_iff.1 (node.single hop)
  rw [outcomes, hexpr] at ho
  obtain rfl := List.singleton_inj.1 ho
  rw [exec_eq, hexpr, hop, BoolOp.execAll]
  show _ = truth (expr tuple)
  cases hr : expr tuple with
  | error f => rfl
  | ok result =>
    cases result with
    | none => rfl
    | some value => exact absurd (congrArg truth hr) (hvalue value.getBool)

/-- AND and OR are the first child in order that is NULL, decides or throws: this is SQL's value unless a NULL
stands before every deciding child, and only then the order matters. NOT of NULL is NULL. -/
theorem bool_exec_leftmost (dbg : Bool) (node : BoolExpressionNode τ) (tuple : τ) :
    (∀ d, node.op.absorbing = some d → truth (node.exec dbg tuple) = leftmost d (node.outcomes tuple) ∧
      (∀ vs : List (Option Bool), node.outcomes tuple = vs.map .ok →
        (truth (node.exec dbg tuple) = .ok (sqlValue d vs) ↔ ¬ (NullFirst d vs ∧ some d ∈ vs)) ∧
        (NullFirst d vs → truth (node.exec dbg tuple) = .ok none) ∧
        ∀ (node' : BoolExpressionNode τ) (vs' : List (Option Bool)), node'.op = node.op →
        node'.outcomes tuple = vs'.map .ok →
          vs.Perm vs' → ¬ (none ∈ vs ∧ some d ∈ vs) → truth (node'.exec dbg tuple) = truth (node.exec dbg tuple))) ∧
    (node.op = .Not → node.outcomes tuple = [.ok none] → truth (node.exec dbg tuple) = .ok none) := by
  refine ⟨fun d hop => ⟨truth_exec hop, fun vs hvs => ?_⟩, fun hop ho => exec_not hop ho fun v he =>
    nomatch Except.ok.inj he⟩
  -- SQL's value whenever NULL and the deciding value do not meet
  have hsql : ∀ (node' : BoolExpressionNode τ) (vs' : List (Option Bool)), node'.op.absorbing = some d →
      node'.outcomes tuple = vs'.map .ok → ¬ (NullFirst d vs' ∧ some d ∈ vs') →
        truth (node'.exec dbg tuple) = .ok (sqlValue d vs') := by
    intro node' vs' hop' hvs' hno
    rw [truth_exec hop', hvs']
    by_cases hnull : NullFirst d vs'
    · rw [leftmost_of_nullFirst hnull, sqlValue, if_neg fun hd => hno ⟨hnull, hd⟩, if_pos hnull.mem]
    · exact leftmost_eq_sqlValue hnull
  refine ⟨⟨fun heq hboth => ?_, hsql node vs hop hvs⟩, fun hnull => ?_, fun node' vs' hop' hvs' hperm hno => ?_⟩
  · rw [truth_exec hop, hvs, leftmost_of_nullFirst hboth.1, sqlValue, if_pos hboth.2] at heq
    cases heq
  · rw [truth_exec hop, hvs, leftmost_of_nullFirst hnull]
  · rw [hsql node vs hop hvs fun h => hno ⟨h.1.mem, h.2⟩, sqlValue_perm hperm]
    refine hsql node' vs' (hop' ▸ hop) hvs' fun h => hno ⟨?_, ?_⟩
    · exact hperm.mem_iff.2 h.1.mem
    · exact hperm.mem_iff.2 h.2

end BoolExpressionNode

end

namespace BoolExpressionNode

/-- The constants of a predicate as children. -/
def constants (values : List (Option Bool)) : List (IExpressionNode Values) := values.map fun value tuple =>
  (ExpressionNode.constant (value.map .ofBool)).exec true setupDatabase.descriptor tuple

/-- FALSE AND NULL, in one order and the other. -/
theorem bool_exec_leftmost_false :
    ∃ node : BoolExpressionNode Values, make (constants [some false, none]) .And = .ok node ∧
    truth (node.exec true []) = .ok (some false) := by
  refine ⟨⟨constants [some false, none], .And, by decide, by simp [constants]⟩, rfl, ?_⟩
  obtain ⟨-, h⟩ :=
    (bool_exec_leftmost true ⟨constants [some false, none], .And, by decide, by simp [constants]⟩ []).1 false rfl
  exact (h [some false, none] rfl).1.2 fun ⟨hnull, _⟩ => (nullFirst_cons.1 hnull).1 rfl

/-- NULL AND FALSE is NULL, which SQL and the other order have as false. NOT TRUE is true. -/
theorem and_hides_false : ∃ node swapped negated : BoolExpressionNode Values,
    make (constants [none, some false]) .And = .ok node ∧ make (constants [some false, none]) .And = .ok swapped ∧
    make (constants [some true]) .Not = .ok negated ∧ node.outcomes [] = [none, some false].map .ok ∧
    sqlValue false [none, some false] = some false ∧ truth (node.exec true []) = .ok none ∧
    truth (swapped.exec true []) = .ok (some false) ∧ truth (negated.exec true []) = .ok (some true) :=
  ⟨_, _, _, rfl, rfl, rfl, rfl, rfl, rfl, rfl, rfl⟩

end BoolExpressionNode

end Mimidb
