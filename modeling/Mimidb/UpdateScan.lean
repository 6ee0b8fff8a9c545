import Mimidb.StoredValues
import Mimidb.UndoPointers

/-!
# Updates under a scan

`Execute` of an UPDATE changes the page that its scan is on: a new version
stays in the slot of the old one or goes behind the items that the scan still
comes to. Other transactions run between the calls, and `UpdateTuple` waits
for them without its latch.
-/

namespace Mimidb

open HeapStore

structure UpdateRun where
  store : HeapStore
  history : Nat → Nat
  scan : HeapTableScan
  /-- The tuple in hand and its new values, until `UpdateTuple` has them. -/
  pending : Option (HeapTuple Values × Values)
  /-- The tuples that `UpdateTuple` was called with, the last one first. -/
  updated : List (HeapTuple Values)
  /-- The calls of `GetNextTuple`. -/
  rounds : Nat
  /-- How the execution has ended. -/
  outcome : Option (Except Fault Unit)

inductive UpdateOp where
  | next
  /-- `UpdateTuple` from the end of its wait on. -/
  | update (fuel : Nat)
  /-- The transaction that `UpdateTuple` waited for has committed. -/
  | conflict
  | others (store : HeapStore) (history : Nat → Nat)

/-- The new values of a tuple with the predicate. -/
def UpdateNode.change (dbg : Bool) (desc : TupleDescriptor) (node : UpdateNode) (old : Values) :
    Except Fault (Option Values) := do
  if ← node.qual.execQual dbg desc old then
    let values ← node.newTuple dbg desc old
    return some values
  else return none

namespace UpdateRun

variable (dbg : Bool) (tableId myXid : Nat) (desc : TupleDescriptor) (node : UpdateNode)

/-- `Start` with the snapshot of the statement. -/
def start (store : HeapStore) (history : Nat → Nat) (snapshot : Snapshot) : Except Fault UpdateRun := do
  let scan ← HeapTableScan.beginScan (store.view dbg desc history myXid) snapshot
  return ⟨store, history, scan, none, [], 0, none⟩

def view (s : UpdateRun) : HeapView Values := s.store.view dbg desc s.history myXid

/-- A round of the loop up to the new tuple. -/
def next (s : UpdateRun) : UpdateRun :=
  let s := { s with rounds := s.rounds + 1 }
  match HeapTableScan.getNextTuple (s.view dbg myXid desc) s.scan with
  | .error e => { s with outcome := some (.error e) }
  | .ok (none, scan) => { s with scan := scan, outcome := some (.ok ()) }
  | .ok (some old, scan) =>
    match node.change dbg desc old.values with
    | .error e => { s with scan := scan, outcome := some (.error e) }
    | .ok none => { s with scan := scan }
    | .ok (some values) => { s with scan := scan, pending := some (old, values) }

/-- The rest of the round. -/
def update (s : UpdateRun) (old : HeapTuple Values) (values : Values) (fuel : Nat) : UpdateRun :=
  let s := { s with pending := none, updated := old :: s.updated }
  match (heapTable dbg tableId myXid desc).updateTuple (fun _ => pure ()) old values fuel s.store with
  | (.ok (), store) => { s with store := store }
  | (.error e, store) => { s with store := store, outcome := some (.error e) }

def step (s : UpdateRun) : UpdateOp → Option UpdateRun
  | .next =>
    match s.outcome, s.pending with
    | none, none => some (s.next dbg myXid desc node)
    | _, _ => none
  | .update fuel =>
    match s.outcome, s.pending with
    | none, some (old, values) => some (s.update dbg tableId myXid desc old values fuel)
    | _, _ => none
  | .conflict =>
    match s.outcome, s.pending with
    | none, some (old, _) =>
      if (HeapPageTupleHeader.ofBytes (s.store.content old.tid)).xid = old.header.xid then none
      else some { s with
        pending := none, outcome := some (.error (.runtimeError "tuple was concurrently modified")) }
    | _, _ => none
  | .others store history => some { s with store := store, history := history }

end UpdateRun

/-! ## Calls that come to an end -/

/-- Whoever runs into it does not go on. -/
def Fault.hangs : Fault → Bool
  | .deadlock | .diverges => true
  | _ => false

def Completes {α : Type} (x : Except Fault α) : Prop := ∀ e, x = .error e → e.hangs = false

section
variable {α β : Type} {dbg : Bool} {desc : TupleDescriptor}

theorem Completes.ok (a : α) : Completes (.ok a : Except Fault α) := nofun

theorem Completes.error {e : Fault} (h : e.hangs = false) : Completes (.error e : Except Fault α) := by
  intro e' he
  cases he
  exact h

theorem Completes.bind {x : Except Fault α} {f : α → Except Fault β} (hx : Completes x)
    (hf : ∀ a, x = .ok a → Completes (f a)) :
    Completes (x >>= f) := by
  cases x with
  | ok a => exact hf a rfl
  | error e =>
    intro e' he
    cases he
    exact hx e rfl

theorem Completes.map {x : Except Fault α} (hx : Completes x) (f : α → β) : Completes (f <$> x) := by
  cases x with
  | ok a => exact .ok _
  | error e => exact .error (hx e rfl)

theorem Completes.ite {c : Prop} [Decidable c] {x y : Except Fault α} (hx : Completes x) (hy : Completes y) :
    Completes (if c then x else y) := by
  split
  · exact hx
  · exact hy

theorem completes_assert {c : Bool} : Completes (assert dbg c) := by
  unfold assert
  exact .ite (.error rfl) (.ok _)

theorem completes_fetch (xs : List α) (idx : Nat) : Completes (fetch xs idx) := by
  unfold fetch
  cases xs[idx]? with
  | none => exact .error rfl
  | some x => exact .ok x

theorem completes_assign (xs : List α) (idx : Nat) (x : α) : Completes (assign xs idx x) :=
  .ite (.ok _) (.error rfl)

theorem completes_toIndex (attno : Nat) : Completes (AttrNumber.toIndex dbg attno) :=
  completes_assert.bind fun _ _ => .ok _

theorem completes_foldlM {f : β → α → Except Fault β} {xs : List α} (hf : ∀ x ∈ xs, ∀ b, Completes (f b x))
    (b : β) :
    Completes (xs.foldlM f b) := by
  induction xs generalizing b with
  | nil => exact .ok b
  | cons x xs ih =>
    rw [List.foldlM_cons]
    refine (hf x List.mem_cons_self b).bind fun b' _ => ?_
    exact ih (fun y hy => hf y (List.mem_cons_of_mem x hy)) b'

theorem completes_mapM {f : α → Except Fault β} (hf : ∀ a, Completes (f a)) (xs : List α) :
    Completes (xs.mapM f) := by
  induction xs with
  | nil => exact .ok []
  | cons x xs ih =>
    rw [List.mapM_cons]
    exact (hf x).bind fun _ _ => ih.bind fun _ _ => .ok _

/-! ### The new tuple -/

theorem completes_getScalar (w : Nat) (value : Datum) : Completes (value.getScalar w) := by
  cases value with
  | scalar value => exact .ok _
  | pointer bytes => exact .error rfl

theorem completes_deref (x : Option α) : Completes (deref x) := by
  cases x with
  | none => exact .error rfl
  | some a => exact .ok a

theorem completes_inteqgeneric (w : Nat) (args : List (Option Datum)) : Completes (inteqgeneric w dbg args) := by
  unfold inteqgeneric
  refine completes_assert.bind fun _ _ => (completes_fetch _ _).bind fun first _ => (completes_deref first).bind
    fun x _ => ?_
  refine (completes_fetch _ _).bind fun second _ => (completes_deref second).bind fun y _ => ?_
  exact (completes_getScalar w x).bind fun _ _ => (completes_getScalar w y).bind fun _ _ => .ok _

theorem completes_getAttribute (values : Values) (attno : Nat) :
    Completes (HeapTuple.getAttribute dbg desc values attno) := by
  unfold HeapTuple.getAttribute
  split
  · exact .error rfl
  · exact (completes_toIndex attno).bind fun idx _ => completes_fetch values idx

theorem completes_operator {info : OperatorInfo} (h : info ∈ Schema.operators) (args : List (Option Datum)) :
    Completes (info.function dbg args) := by
  unfold Schema.operators at h
  simp only [List.mem_cons, List.not_mem_nil, or_false] at h
  rcases h with rfl | rfl | rfl
  · exact completes_inteqgeneric 16 args
  · exact completes_inteqgeneric 32 args
  · exact completes_inteqgeneric 64 args

variable {info : TableInfo} {stmt : UpdateStatement} {node : UpdateNode}

theorem completes_exec {e : Expr} {expr : ExpressionNode} (h : parseExpr dbg info e = .ok expr) (values : Values) :
    Completes (expr.exec dbg desc values) := by
  induction e generalizing expr with
  | literalInt ival =>
    cases h
    exact .ok _
  | literalNull =>
    cases h
    exact .ok _
  | columnRef name =>
    unfold parseExpr at h
    cases hattno : findAttno name info.columns AttrNumber.Min with
    | none =>
      rw [hattno] at h
      cases h
    | some attno =>
      rw [hattno] at h
      obtain ⟨_, _, h⟩ := bind_eq_ok.1 h
      cases h
      exact completes_getAttribute values attno
  | other type => cases h
  | operator opType e1 e2 ih1 ih2 =>
    unfold parseExpr at h
    obtain ⟨strategy, _, h⟩ := bind_eq_ok.1 h
    obtain ⟨left, hleft, h⟩ := bind_eq_ok.1 h
    obtain ⟨right, hright, h⟩ := bind_eq_ok.1 h
    cases hop : Schema.findOperatorInfo .Int32 .Int32 strategy with
    | none =>
      rw [hop] at h
      cases h
    | some op =>
      rw [hop] at h
      cases h
      unfold ExpressionNode.exec
      refine (ih1 hleft).bind fun first _ => (ih2 hright).bind fun second _ => ?_
      exact .ite (.ok _) (completes_operator (List.mem_of_find?_eq_some hop) _)

theorem completes_setAttribute {u : Nat × ExpressionNode} {a : String × Expr}
    (h : Planner.planAssignment dbg info a = .ok u)
    (old tuple : Values) : Completes (setAttribute dbg desc old tuple u) := by
  obtain ⟨colname, value⟩ := a
  unfold Planner.planAssignment at h
  cases hcol : info.findColumn colname with
  | none =>
    simp only [hcol] at h
    cases h
  | some col =>
    simp only [hcol] at h
    obtain ⟨expr, hexpr, h⟩ := bind_eq_ok.1 h
    cases h
    unfold setAttribute
    refine (completes_exec hexpr old).bind fun newVal _ => (completes_toIndex col.attno).bind fun idx _ => ?_
    exact completes_assign tuple idx newVal

/-- The table has another number of attributes than the one with which the loops over them do not end. -/
theorem completes_change (hplan : Planner.planUpdate dbg info stmt = .ok node)
    (hd : desc.getMaxAttrNumber ≠ 2 ^ 16 - 1) (old : Values) : Completes (node.change dbg desc old) := by
  obtain ⟨updates, hupdates, hqual⟩ := bind_eq_ok.1 hplan
  cases hwhere : stmt.whereClause with
  | none =>
    rw [hwhere] at hqual
    cases hqual
  | some e =>
    rw [hwhere] at hqual
    obtain ⟨qual, hexpr, hnode⟩ := bind_eq_ok.1 hqual
    cases hnode
    have hset : ∀ u ∈ updates, ∀ tuple, Completes (setAttribute dbg desc old tuple u) := by
      have hplanned : List.Forall₂ (fun u a => (∀ tuple, Completes (setAttribute dbg desc old tuple u)) ∧
          Planner.planAssignment dbg info a = .ok u) updates stmt.updates :=
        (mapM_eq_ok.1 hupdates).flip.imp fun u a h => ⟨completes_setAttribute h old, h⟩
      exact ((List.forall₂_and_left _ _).1 hplanned).1
    have hcopy : Completes (copyTuple dbg desc old) := by
      unfold copyTuple
      rw [if_neg hd]
      exact completes_mapM (completes_getAttribute old) _
    unfold UpdateNode.change ExpressionNode.execQual UpdateNode.newTuple
    refine ((completes_exec hexpr old).bind fun _ _ => .ok _).bind fun passes _ => .ite ?_ (.ok _)
    exact (hcopy.bind fun tuple _ => completes_foldlM hset tuple).bind fun _ _ => .ok _

/-! ### The new version -/

theorem completes_checkSize (attr : AttributeDescriptor) (value : Option Datum) :
    Completes (TupleSerializer.checkSize dbg attr value) := by
  cases value with
  | none => exact .ok _
  | some value =>
    unfold TupleSerializer.checkSize
    refine .ite completes_assert (.ite (.ok _) ?_)
    cases value with
    | scalar n => exact .error rfl
    | pointer bytes => exact .ite (.error rfl) completes_assert

theorem completes_checkSizes : ∀ (attrs : List AttributeDescriptor) (values : Values),
    Completes (TupleSerializer.checkSizes dbg attrs values)
  | [], _ => .ok _
  | _ :: _, [] => .error rfl
  | attr :: attrs, value :: values => by
    unfold TupleSerializer.checkSizes
    exact (completes_checkSize attr value).bind fun _ _ => completes_checkSizes attrs values

theorem completes_encodeValue (attr : AttributeDescriptor) (value : Datum) :
    Completes (TupleSerializer.encodeValue attr value) := by
  unfold TupleSerializer.encodeValue
  refine .ite ?_ ?_
  · cases TupleSerializer.scalarWidth attr.length with
    | none => exact .error rfl
    | some w =>
      cases value with
      | scalar n => exact .ok _
      | pointer bytes => exact .error rfl
  · cases value with
    | scalar n => exact .error rfl
    | pointer bytes => exact .ite (.ite (.error rfl) (.ok _)) (.ite (.error rfl) (.ok _))

theorem completes_encodeValues : ∀ (attrs : List AttributeDescriptor) (values : Values),
    Completes (TupleSerializer.encodeValues attrs values)
  | [], _ => .ok _
  | _ :: _, [] => .error rfl
  | _ :: attrs, none :: values => by
    unfold TupleSerializer.encodeValues
    exact completes_encodeValues attrs values
  | attr :: attrs, some value :: values => by
    unfold TupleSerializer.encodeValues
    exact (completes_encodeValue attr value).bind fun _ _ => (completes_encodeValues attrs values).bind fun _ _ =>
      .ok _

theorem completes_serialize {tableId myXid : Nat} (hd : desc.getMaxAttrNumber ≠ 2 ^ 16 - 1)
    (header : HeapPageTupleHeader)
    (values : Values) : Completes ((heapTable dbg tableId myXid desc).serialize header values) := by
  have hvalues : Completes (TupleSerializer.serialize dbg desc values) := by
    unfold TupleSerializer.serialize
    rw [if_neg hd]
    exact (completes_checkSizes _ values).bind fun _ _ => (completes_encodeValues _ _).bind fun _ _ => .ok _
  exact (hvalues.map Prod.fst).bind fun _ _ => .ok _

/-! ### Its place -/

theorem completes_access (addr n : Nat) : Completes (HeapPage.access addr n) := .ite (.ok _) (.error rfl)

variable {page : Memory} {index : Nat} {bytes : List UInt8}

theorem completes_getItemId : Completes (HeapPage.getItemId dbg page index) :=
  completes_assert.bind fun _ _ => (completes_access _ _).bind fun _ _ => .ok _

theorem completes_getTuple (itemId : ItemId) : Completes (HeapPage.getTuple dbg itemId) :=
  completes_assert.bind fun _ _ => completes_assert.bind fun _ _ => completes_assert.bind fun _ _ => .ok _

theorem completes_memcpy (addr : Nat) : Completes (HeapPage.memcpy page addr bytes) :=
  (completes_access _ _).bind fun _ _ => .ok _

theorem completes_overwrite : Completes (HeapPage.overwrite dbg page index bytes) :=
  completes_getItemId.bind fun itemId _ => (completes_getTuple itemId).bind fun addr _ => completes_memcpy addr

theorem completes_setNormal (itemId : ItemId) (length offset : Nat) :
    Completes (itemId.setNormal dbg length offset) := by
  have hlength : Completes (itemId.setLength dbg length) := completes_assert.bind fun _ _ => .ok _
  have hoffset : ∀ i : ItemId, Completes (i.setOffset dbg offset) := fun i => completes_assert.bind fun _ _ => .ok _
  exact hlength.bind fun i _ => (hoffset i).bind fun _ _ => .ok _

theorem completes_relocate : Completes (HeapPage.relocate dbg page index bytes) :=
  completes_getItemId.bind fun itemId _ => (completes_setNormal itemId _ _).bind fun i _ =>
    (completes_getTuple i).bind fun addr _ => completes_memcpy addr

theorem completes_markUpdated (xid : Nat) (usn : Int) : Completes (HeapPage.markUpdated dbg page index xid usn) :=
  completes_getItemId.bind fun itemId _ => (completes_getTuple itemId).bind fun _ _ => (completes_access _ _).bind
    fun _ _ => .ok _

end

namespace HeapTable

/-- The call comes to an end in every state. -/
def Returns {α : Type} (m : HeapM α) : Prop :=
  Fallible.Spec (fun _ => True) m (fun _ _ => True) fun e _ => e.hangs = false

variable {α β : Type} {t : HeapTable Values} {old : HeapTuple Values} {values : Values} {newTID : TupleId}

theorem Returns.of_ok {m : HeapM α} (h : ∀ s, ∃ a u, m s = (.ok a, u)) : Returns m := by
  intro s _
  obtain ⟨a, u, hm⟩ := h s
  rw [hm]
  trivial

theorem returns_ofExcept {x : Except Fault α} (h : Completes x) : Returns (Fallible.ofExcept x : HeapM α) := by
  intro s _
  cases x with
  | ok a => trivial
  | error e => exact h e rfl

theorem Returns.bind {m : HeapM α} {f : α → HeapM β} (hm : Returns m) (hf : ∀ a, Returns (f a)) :
    Returns (m >>= f) :=
  Fallible.Spec.bind hm hf

theorem returns_changePage {p : Nat} {f : Memory → Except Fault Memory} (h : ∀ page, Completes (f page)) :
    Returns (changePage p f) := by
  refine .bind (.of_ok fun s => ⟨_, _, rfl⟩) fun page => .bind (returns_ofExcept (h page)) fun page' => ?_
  exact .of_ok fun s => ⟨_, _, rfl⟩

theorem returns_writeUpdate (oldTID : TupleId) (usn : Int) (bytes : List UInt8) :
    Returns (t.writeUpdate oldTID newTID usn bytes) := by
  unfold writeUpdate
  refine .ite (fun _ => returns_changePage fun page => completes_overwrite) fun _ => ?_
  refine .bind (returns_changePage fun page => completes_relocate) fun _ => ?_
  exact returns_changePage fun page => completes_markUpdated _ _

theorem returns_finishUpdate (oldTID : TupleId) (lsn : Nat) : Returns (finishUpdate oldTID newTID lsn) := by
  have hlsn : ∀ p, Returns (changePage p fun page => .ok (HeapPage.setLsn page lsn)) :=
    fun p => returns_changePage fun page => .ok _
  have hdirty : ∀ p, Returns (markDirty p) := fun p => .of_ok fun s => ⟨_, _, rfl⟩
  unfold finishUpdate
  refine .bind (hlsn _) fun _ => ?_
  split
  · exact .bind (hlsn _) fun _ => .bind (hdirty _) fun _ => hdirty _
  · exact .bind (hdirty _) fun _ => .of_ok fun s => ⟨_, _, rfl⟩

theorem returns_performUpdate {dbg : Bool} {tableId myXid : Nat} {desc : TupleDescriptor}
    (hd : desc.getMaxAttrNumber ≠ 2 ^ 16 - 1) :
    Returns ((heapTable dbg tableId myXid desc).performUpdate old values newTID) := by
  have hlog : Returns ((heapTable dbg tableId myXid desc).logUpdate old values newTID) := by
    unfold logUpdate
    refine .bind (returns_ofExcept (completes_serialize hd _ _)) fun image => .bind (.of_ok fun s => ⟨_, _, rfl⟩)
      fun usn => ?_
    refine .bind (returns_ofExcept (completes_serialize hd _ _)) fun bytes =>
      .bind (returns_ofExcept completes_assert) fun _ => ?_
    exact .bind (.of_ok fun s => ⟨_, _, rfl⟩) fun lsn => .of_ok fun s => ⟨_, _, rfl⟩
  unfold performUpdate
  refine .bind hlog fun (usn, bytes, lsn) => .bind (returns_writeUpdate _ _ _) fun _ => ?_
  exact returns_finishUpdate _ _

end HeapTable

/-! ## What a scan reads of a slot -/

/-- The values of the tuple are the same whatever is behind it. -/
def Contained (dbg : Bool) (desc : TupleDescriptor) (bytes : List UInt8) : Prop :=
  ∀ rest rest' size, TupleSerializer.deserialize dbg desc (bytes.drop HeapPageTupleHeader.size ++ rest)
      (HeapPageTupleHeader.ofBytes bytes).flags.HasNulls size =
    TupleSerializer.deserialize dbg desc (bytes.drop HeapPageTupleHeader.size ++ rest')
      (HeapPageTupleHeader.ofBytes bytes).flags.HasNulls size

section
variable {dbg : Bool} {desc : TupleDescriptor} {s u : HeapStore} {history : Nat → Nat} {reader : Nat}
  {snapshot : Snapshot}
  {tid : TupleId} {usn : Int} {tuple : Option (HeapTuple Values)}

theorem Contained.build_eq {bytes : List UInt8} (h : Contained dbg desc bytes)
    (hsize : HeapPageTupleHeader.size ≤ bytes.length) {c c' : HeapView Values}
    (hc : c.deserialize = TupleSerializer.deserialize dbg desc)
    (hc' : c'.deserialize = TupleSerializer.deserialize dbg desc) (rest rest' : List UInt8) (size : Nat) :
    c.buildHeapTuple (bytes ++ rest) size tid = c'.buildHeapTuple (bytes ++ rest') size tid := by
  have hge : ∀ rest : List UInt8, ¬ (bytes ++ rest).length < HeapPageTupleHeader.size := by
    intro rest
    rw [List.length_append]
    omega
  unfold HeapView.buildHeapTuple
  rw [if_neg (hge rest), if_neg (hge rest'), hc, hc', HeapPageTupleHeader.ofBytes_append hsize,
    HeapPageTupleHeader.ofBytes_append hsize,
    List.drop_append_of_le_length hsize, List.drop_append_of_le_length hsize]
  simp only [h rest rest']

theorem getRecord_eq {record : HeapUndoRecord} (h : s.undo usn = some record) :
    (s.view dbg desc history reader).getRecord usn = .ok (.heap record) := by
  simp only [view, h]

theorem findVisible_inv {fuel : Nat} (hvalid : UndoSeqNumber.isValid usn = true)
    (h : (s.view dbg desc history reader).findVisibleTuplePage snapshot (fuel + 1) usn = .ok tuple) :
    ∃ record, s.undo usn = some record := by
  cases hrec : s.undo usn with
  | some record => exact ⟨record, rfl⟩
  | none =>
    have hget : (s.view dbg desc history reader).getRecord usn =
        .error (.runtimeError "could not read UndoLogRecordHeader") := by
      simp only [view, hrec]
    rw [HeapView.findVisibleTuplePage, if_pos hvalid, hget] at h
    cases h

/-- The walk along the records reads the same in a longer log. -/
theorem findVisible_mono (hlog : ∀ usn record, s.undo usn = some record → u.undo usn = some record)
    {fuel fuel' : Nat} (hf : fuel ≤ fuel')
    (h : (s.view dbg desc history reader).findVisibleTuplePage snapshot fuel usn = .ok tuple) :
    (u.view dbg desc history reader).findVisibleTuplePage snapshot fuel' usn = .ok tuple := by
  induction fuel generalizing fuel' usn with
  | zero =>
    cases hvalid : UndoSeqNumber.isValid usn with
    | true =>
      rw [HeapView.findVisibleTuplePage, if_pos hvalid] at h
      cases h
    | false =>
      rw [findVisible_not_valid hvalid] at h ⊢
      exact h
  | succ fuel ih =>
    cases hvalid : UndoSeqNumber.isValid usn with
    | false =>
      rw [findVisible_not_valid hvalid] at h ⊢
      exact h
    | true =>
      obtain ⟨fuel', rfl⟩ : ∃ n, fuel' = n + 1 := ⟨fuel' - 1, by omega⟩
      obtain ⟨record, hrec⟩ := findVisible_inv hvalid h
      rw [HeapView.findVisibleTuplePage, if_pos hvalid, getRecord_eq hrec] at h
      rw [HeapView.findVisibleTuplePage, if_pos hvalid, getRecord_eq (hlog usn record hrec)]
      have himage : ∀ image tid, (u.view dbg desc history reader).imageTuple snapshot image tid =
          (s.view dbg desc history reader).imageTuple snapshot image tid := fun _ _ => rfl
      cases record with
      | Delete table tupId => exact h
      | Update table oldLocation newLocation tupleData =>
        by_cases he : newLocation ≠ oldLocation
        · simp only [bind, Except.bind, if_pos he] at h ⊢
          exact h
        · simp only [bind, Except.bind, if_neg he, himage] at h ⊢
          rcases hi :
            (s.view dbg desc history reader).imageTuple snapshot tupleData newLocation with e | ⟨undo, _ | found⟩
          all_goals simp only [hi] at h ⊢
          · cases h
          · exact ih (by omega) h
          · exact h
      | Insert table location tupleData =>
        simp only [bind, Except.bind, himage] at h ⊢
        rcases hi :
          (s.view dbg desc history reader).imageTuple snapshot tupleData location with e | ⟨undo, _ | found⟩
        all_goals simp only [hi] at h ⊢
        · cases h
        · exact ih (by omega) h
        · exact h

theorem itemTuple_mono (hs : s.Placed tid) (hu : u.Placed tid) (hc : u.content tid = s.content tid)
    (hin : Contained dbg desc (s.content tid))
    (hlog : ∀ usn record, s.undo usn = some record → u.undo usn = some record)
    (hsize : s.undoSize ≤ u.undoSize)
    (h : (s.view dbg desc history reader).itemTuple snapshot tid.pageno tid.itemid = .ok tuple) :
    (u.view dbg desc history reader).itemTuple snapshot tid.pageno tid.itemid = .ok tuple := by
  have hslot : (u.view dbg desc history reader).slotTuple tid = (s.view dbg desc history reader).slotTuple tid := by
    obtain ⟨rest, hrest⟩ := hs.slotTuple_eq dbg desc history reader
    obtain ⟨rest', hrest'⟩ := hu.slotTuple_eq dbg desc history reader
    have hlen : (u.item tid).length = (s.item tid).length := by
      rw [← content_length, ← content_length, hc]
    have hge : HeapPageTupleHeader.size ≤ (s.content tid).length := by
      rw [content_length]
      exact hs.size
    rw [hrest, hrest', hc, hlen]
    exact hin.build_eq hge rfl rfl _ _ _
  have hvisible : ∀ header, (u.view dbg desc history reader).tupleIsVisible snapshot header =
      (s.view dbg desc history reader).tupleIsVisible snapshot header := fun _ => rfl
  rw [itemTuple_eq hs] at h
  rw [itemTuple_eq hu, hc, hvisible, hslot]
  obtain ⟨visible, hv, h⟩ := bind_eq_ok.1 h
  rw [hv]
  cases visible with
  | true => exact h
  | false => exact findVisible_mono hlog hsize h

theorem itemTuple_unused {p i : Nat} (hlt : i < HeapPage.itemsCount (s.page p))
    (hlow : HeapPage.SizeOfHeapPageHeader ≤ HeapPage.lower (s.page p)) (hbound : HeapPage.lower
      (s.page p) ≤ Config.PageSize) (hn : (HeapPage.itemAt (s.page p) i).isNormal = false) :
    (s.view dbg desc history reader).itemTuple snapshot p i = .ok none := by
  have haddr := HeapPage.itemAddr_lt hlow hlt
  have hacc : HeapPage.access (HeapPage.itemAddr i) ItemId.size = .ok () :=
    if_pos (by simp only [ItemId.size]; omega)
  have hget : HeapPage.getItemId dbg (s.page p) i = .ok (HeapPage.itemAt (s.page p) i) := by
    simp only [HeapPage.getItemId, assert, hlt, hacc]
    cases dbg <;> rfl
  unfold HeapView.itemTuple
  show (HeapPage.getItemId dbg (s.page p) i >>= _) = _
  rw [hget]
  simp only [bind, Except.bind, hn, Bool.not_false, if_true]
  rfl

/-- The statement has moved a tuple to the slot. -/
structure MovedTo (s : HeapStore) (myXid : Nat) (snapshot : Snapshot) (tid : TupleId) : Prop where
  own : (HeapPageTupleHeader.ofBytes (s.content tid)).xid = myXid
  later : snapshot.cid ≤ (HeapPageTupleHeader.ofBytes (s.content tid)).undo
  range : 0 < (HeapPageTupleHeader.ofBytes (s.content tid)).undo ∧
    (HeapPageTupleHeader.ofBytes (s.content tid)).undo ≤ s.undoSize
  record : ∃ table old new image, s.undo (HeapPageTupleHeader.ofBytes (s.content tid)).undo =
    some (.Update table old new image) ∧
    new ≠ old

/-- The version that the statement has written is not visible to it, and the one before it was in another slot. -/
theorem MovedTo.itemTuple_eq (h : MovedTo s reader snapshot tid) (hp : s.Placed tid) :
    (s.view dbg desc history reader).itemTuple snapshot tid.pageno tid.itemid = .ok none := by
  have hinvisible :
      (s.view dbg desc history reader).tupleIsVisible snapshot (.ofBytes (s.content tid)) = .ok false := by
    have hown : ownIsVisible snapshot (.ofBytes (s.content tid)) = false := by
      unfold ownIsVisible
      rw [decide_eq_true h.later]
      rfl
    refine (if_pos h.own).trans ?_
    rw [hown]
  rw [Mimidb.itemTuple_eq hp, hinvisible]
  show (s.view dbg desc history reader).findVisibleTuplePage snapshot s.undoSize _ = _
  obtain ⟨hpos, hle⟩ := h.range
  obtain ⟨n, hn⟩ : ∃ n, s.undoSize = n + 1 := ⟨s.undoSize - 1, by omega⟩
  obtain ⟨table, old, new, image, hrec, hne⟩ := h.record
  rw [hn]
  cases hvalid : UndoSeqNumber.isValid (HeapPageTupleHeader.ofBytes (s.content tid)).undo with
  | false => exact findVisible_not_valid hvalid _
  | true =>
    rw [HeapView.findVisibleTuplePage, if_pos hvalid, getRecord_eq hrec]
    simp only [bind, Except.bind, if_pos hne]
    rfl

/-! ### A table whose tuples have no values -/

theorem deserialize_counted (hd : desc.getMaxAttrNumber = 2 ^ 16 - 1) (array : List UInt8) (hasnulls : Bool)
    (size : Nat) (values : Values) : TupleSerializer.deserialize dbg desc array hasnulls size ≠ .ok values := by
  unfold TupleSerializer.deserialize
  rw [if_pos hd]
  nofun

theorem build_counted (hd : desc.getMaxAttrNumber = 2 ^ 16 - 1) (bytes : List UInt8) (size : Nat)
    (found : HeapTuple Values) :
    (s.view dbg desc history reader).buildHeapTuple bytes size tid ≠ .ok found := by
  intro h
  unfold HeapView.buildHeapTuple at h
  split at h
  · cases h
  · obtain ⟨values, hvalues, -⟩ := bind_eq_ok.1 h
    exact deserialize_counted hd _ _ ((size + (2 ^ 64 - HeapPageTupleHeader.size)) % 2 ^ 64) values hvalues

theorem findVisible_counted (hd : desc.getMaxAttrNumber = 2 ^ 16 - 1) {fuel : Nat} {found : HeapTuple Values} :
    (s.view dbg desc history reader).findVisibleTuplePage snapshot fuel usn ≠ .ok (some found) := by
  induction fuel generalizing usn with
  | zero =>
    intro h
    unfold HeapView.findVisibleTuplePage at h
    split at h <;> cases h
  | succ fuel ih =>
    cases hvalid : UndoSeqNumber.isValid usn with
    | false =>
      rw [findVisible_not_valid hvalid]
      intro h
      cases h
    | true =>
      have hround := @findVisible_round dbg desc s history reader snapshot usn fuel hvalid
      rcases hround with ⟨e, -, he⟩ | he | ⟨record, image, tid, -, -, he⟩
      · rw [he]
        intro h
        cases h
      · rw [he]
        intro h
        cases h
      · rw [he]
        intro h
        obtain ⟨⟨undo, r⟩, hr, h⟩ := bind_eq_ok.1 h
        cases r with
        | none => exact ih h
        | some tuple =>
          unfold HeapView.imageTuple at hr
          split at hr
          · cases hr
          · obtain ⟨visible, -, hr⟩ := bind_eq_ok.1 hr
            split at hr
            · obtain ⟨tuple', hb, -⟩ := bind_eq_ok.1 hr
              exact build_counted hd _ _ _ hb
            · cases hr

theorem count_of_read {found : HeapTuple Values} (hp : s.Placed tid)
    (h : (s.view dbg desc history reader).itemTuple snapshot tid.pageno tid.itemid = .ok (some found)) :
    desc.getMaxAttrNumber ≠ 2 ^ 16 - 1 := by
  intro hd
  rw [itemTuple_eq hp] at h
  obtain ⟨visible, -, h⟩ := bind_eq_ok.1 h
  cases visible with
  | false => exact findVisible_counted hd h
  | true =>
    simp only [if_true] at h
    split at h
    · cases h
    · obtain ⟨tuple, ht, -⟩ := map_eq_ok.1 h
      obtain ⟨rest, hrest⟩ := hp.slotTuple_eq dbg desc history reader
      rw [hrest] at ht
      exact build_counted hd _ _ _ ht

end

end Mimidb
