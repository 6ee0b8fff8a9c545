import Mimidb.HeapLayout
import Mimidb.Run
import Mimidb.TransactionManager

/-!
# Own versions and later statements

One transaction with its statements and changes, among the undo records of
others. Each version is recorded with the statement that wrote it and the
header that `HeapTable` stores. An inserted tuple is serialized before its
undo record exists, so its undo pointer stays invalid (`own_visible`).
-/

namespace Mimidb

structure OwnRun where
  tr : Transaction
  /-- The end of the undo log. -/
  undoSize : Nat
  /-- The statements begun so far. -/
  statement : Nat
  snapshots : List (Nat × Snapshot)
  versions : List (Nat × HeapPageTupleHeader)

inductive OwnOp (V : Type) where
  | beginStatement (csn : Nat)
  /-- Undo records of other transactions. -/
  | others (bytes : Nat)
  | insert (record : HeapUndoRecord) (values : V)
  | update (record : HeapUndoRecord) (values : V)
  /-- An update to a new slot also changes the header in the old one. -/
  | relocate (record : HeapUndoRecord) (values : V) (old : HeapPageTupleHeader)
  | delete (record : HeapUndoRecord)

namespace OwnRun

variable {V : Type} (t : HeapTable V)

def start (undoSize : Nat) : OwnRun := ⟨.new t.myXid, undoSize, 0, [], []⟩

def usn (s : OwnRun) : Int := s.undoSize + 1

def beginStatement (s : OwnRun) (csn : Nat) : OwnRun :=
  let tr := s.tr.beginNewStatement csn
  { s with
    tr := tr
    statement := s.statement + 1
    snapshots := tr.snapshot.toList.map (s.statement + 1, ·) ++ s.snapshots }

/-- A change: its undo record goes to the log, then the headers to the page. -/
def write (s : OwnRun) (record : HeapUndoRecord) (headers : List HeapPageTupleHeader) : OwnRun :=
  { s with
    tr := s.tr.log s.usn
    undoSize := s.undoSize + 24 + BitUtils.maxAlign record.calculateSize
    versions := headers.map (s.statement, ·) ++ s.versions }

/-- The header of the old slot after an update to a new one. -/
def updatedHeader (old : HeapPageTupleHeader) (usn : Int) : HeapPageTupleHeader :=
  ⟨t.myXid, usn, { old.flags with Deleted := true }⟩

/-- Changes are made by statements. -/
def step (s : OwnRun) : OwnOp V → Option OwnRun
  | .beginStatement csn => some (s.beginStatement csn)
  | .others bytes => some { s with undoSize := s.undoSize + bytes }
  | .insert record values => if s.statement = 0 then none else some (s.write record [t.newHeader values])
  | .update record values =>
    if s.statement = 0 then none else some (s.write record [{ t.newHeader values with undo := s.usn }])
  | .relocate record values old =>
    if s.statement = 0 then none
    else some (s.write record [{ t.newHeader values with undo := s.usn }, updatedHeader t old s.usn])
  | .delete record =>
    if s.statement = 0 then none else some (s.write record [⟨t.myXid, s.usn, ⟨true, false⟩⟩])

/-- Statement `j` sees a version of statement `k` if and only if `k < j`. -/
def OwnVisibility (s : OwnRun) : Prop :=
  ∀ snapshot ∈ s.snapshots, ∀ version ∈ s.versions,
    (ownIsVisible snapshot.2 version.2 = true ↔ version.1 < snapshot.1)

/-- The transaction changed nothing before its current statement. -/
def FirstWriting (s : OwnRun) : Prop := s.tr.snapshot.map Snapshot.cid = some UndoSeqNumber.Invalid

/-- Nothing was written before a statement that inserts, and the undo log has not outgrown its numbers. -/
def Numbered (s : OwnRun) : OwnOp V → Prop
  | .beginStatement _ | .others _ => True
  | .insert _ _ => FirstWriting s ∧ s.usn ≤ UndoSeqNumber.Max
  | .update _ _ | .relocate _ _ _ | .delete _ => s.usn ≤ UndoSeqNumber.Max

/-! ## The invariant -/

theorem ownIsVisible_iff {snapshot : Snapshot} {header : HeapPageTupleHeader} :
    ownIsVisible snapshot header = true ↔ header.undo < snapshot.cid := by
  simp [ownIsVisible]

/-- Undo pointers are at most the last own one, and command ids at most one above it. -/
structure Ordered (s : OwnRun) : Prop where
  visible : OwnVisibility s
  statements : ∀ snapshot ∈ s.snapshots, snapshot.1 ≤ s.statement
  unbegun : s.tr.snapshot = none → s.statement = 0 ∧ s.snapshots = [] ∧ s.versions = []
  current : ∀ snapshot, s.tr.snapshot = some snapshot → (s.statement, snapshot) ∈ s.snapshots ∧ 0 ≤ snapshot.cid ∧
    (∀ other ∈ s.snapshots, other.2.cid ≤ snapshot.cid) ∧ snapshot.cid ≤ s.tr.lastUsn + 1
  logged : s.versions = [] ∨ (0 < s.tr.lastUsn ∧ s.tr.lastUsn ≤ UndoSeqNumber.Max)
  versions : ∀ version ∈ s.versions, version.1 ≤ s.statement ∧ version.2.undo ≤ s.tr.lastUsn
  log : 0 ≤ s.tr.lastUsn ∧ s.tr.lastUsn ≤ s.undoSize

section
variable {t} {s u : OwnRun}

theorem start_ordered (undoSize : Nat) : Ordered (start t undoSize) where
  visible := nofun
  statements := nofun
  unbegun := fun _ => ⟨rfl, rfl, rfl⟩
  current := nofun
  logged := .inl rfl
  versions := nofun
  log := ⟨Int.le_refl _, Int.natCast_nonneg _⟩

theorem Ordered.cid_le (h : Ordered s) {snapshot : Nat × Snapshot} (hs : snapshot ∈ s.snapshots) :
    snapshot.2.cid ≤ s.usn := by
  have hlog := h.log.2
  unfold usn
  cases hc : s.tr.snapshot with
  | none =>
    rw [(h.unbegun hc).2.1] at hs
    cases hs
  | some current =>
    obtain ⟨-, -, hle, hlast⟩ := h.current current hc
    have := hle _ hs
    omega

theorem isValid_iff {usn : Int} : UndoSeqNumber.isValid usn = true ↔ usn ≠ 0 ∧ usn ≤ UndoSeqNumber.Max := by
  simp [UndoSeqNumber.isValid, UndoSeqNumber.Invalid]

/-- The new snapshot sees every version so far, as all are of earlier statements. -/
theorem Ordered.beginStatement (h : Ordered s) (csn : Nat) : Ordered (s.beginStatement csn) := by
  have hlast : (s.tr.beginNewStatement csn).lastUsn = s.tr.lastUsn := by
    unfold Transaction.beginNewStatement
    split
    · rfl
    · split <;> rfl
  have hnew : ∃ snapshot, (s.tr.beginNewStatement csn).snapshot = some snapshot ∧
      (∀ version ∈ s.versions, version.2.undo < snapshot.cid) ∧
      0 ≤ snapshot.cid ∧ (∀ other ∈ s.snapshots, other.2.cid ≤ snapshot.cid) ∧ snapshot.cid ≤ s.tr.lastUsn + 1 := by
    have hlog := h.log
    unfold Transaction.beginNewStatement
    cases hc : s.tr.snapshot with
    | none =>
      obtain ⟨-, hs, hv⟩ := h.unbegun hc
      refine ⟨_, rfl, by simp [hv], Int.le_refl _, by simp [hs], ?_⟩
      show (0 : Int) ≤ _
      omega
    | some snapshot =>
      obtain ⟨-, hpos, hle, hcid⟩ := h.current snapshot hc
      simp only
      split_ifs with hvalid
      · refine ⟨_, rfl, fun version hv => ?_, by show 0 ≤ _ + (1 : Int); omega, fun other ho => ?_, Int.le_refl _⟩
        · have := (h.versions version hv).2
          show _ < _ + 1
          omega
        · have := hle other ho
          show _ ≤ _ + 1
          omega
      · refine ⟨snapshot, hc, fun version hv => ?_, hpos, hle, hcid⟩
        rcases h.logged with hl | hl
        · rw [hl] at hv
          cases hv
        · rw [isValid_iff] at hvalid
          exact absurd ⟨by omega, hl.2⟩ hvalid
  obtain ⟨snapshot, hsnap, hvis, hpos, hmono, hcid⟩ := hnew
  have hsnaps : (s.beginStatement csn).snapshots = (s.statement + 1, snapshot) :: s.snapshots := by
    simp [OwnRun.beginStatement, hsnap]
  have hstat : (s.beginStatement csn).statement = s.statement + 1 := rfl
  have htr : (s.beginStatement csn).tr = s.tr.beginNewStatement csn := rfl
  have hvers : (s.beginStatement csn).versions = s.versions := rfl
  refine ⟨fun other ho version hv => ?_, fun other ho => ?_, fun hn => ?_, fun snap hs => ?_, ?_,
    fun version hv => ?_, ?_⟩
  · rw [hsnaps] at ho
    rw [hvers] at hv
    rcases List.mem_cons.1 ho with rfl | ho
    · have := (h.versions version hv).1
      rw [ownIsVisible_iff]
      exact iff_of_true (hvis version hv) (by show version.1 < s.statement + 1; omega)
    · exact h.visible other ho version hv
  · rw [hsnaps] at ho
    rw [hstat]
    rcases List.mem_cons.1 ho with rfl | ho
    · exact Nat.le_refl _
    · exact Nat.le_succ_of_le (h.statements other ho)
  · rw [htr, hsnap] at hn
    cases hn
  · rw [htr, hsnap] at hs
    cases hs
    rw [htr, hlast, hsnaps, hstat]
    refine ⟨List.mem_cons_self, hpos, fun other ho => ?_, hcid⟩
    rcases List.mem_cons.1 ho with rfl | ho
    · exact Int.le_refl _
    · exact hmono other ho
  · rw [htr, hvers, hlast]
    exact h.logged
  · rw [hvers] at hv
    rw [htr, hlast, hstat]
    exact ⟨Nat.le_succ_of_le (h.versions version hv).1, (h.versions version hv).2⟩
  · rw [htr, hlast]
    exact h.log

theorem Ordered.write {record : HeapUndoRecord} {headers : List HeapPageTupleHeader} (h : Ordered s)
    (hstat : s.statement ≠ 0) (hmax : s.usn ≤ UndoSeqNumber.Max) (hle : ∀ header ∈ headers, header.undo ≤ s.usn)
    (hcid : ∀ header ∈ headers, ∀ snapshot ∈ s.snapshots, snapshot.2.cid ≤ header.undo) :
    Ordered (s.write record headers) := by
  have hlog := h.log
  have husn : s.usn = s.undoSize + 1 := rfl
  have hlast : (s.write record headers).tr.lastUsn = s.usn := rfl
  have hmem : ∀ version ∈ (s.write record headers).versions,
      (version.1 = s.statement ∧ version.2 ∈ headers) ∨ version ∈ s.versions := by
    intro version hv
    rcases List.mem_append.1 hv with hv | hv
    · obtain ⟨header, hh, rfl⟩ := List.mem_map.1 hv
      exact .inl ⟨rfl, hh⟩
    · exact .inr hv
  refine ⟨fun snapshot hs version hv => ?_, h.statements, fun hn => absurd (h.unbegun hn).1 hstat,
    fun snapshot hs => ?_, .inr ⟨by omega, hlast ▸ hmax⟩, fun version hv => ?_, by omega, ?_⟩
  · rcases hmem version hv with ⟨hk, hh⟩ | hv
    · have h1 := hcid _ hh snapshot hs
      have h2 := h.statements snapshot hs
      rw [ownIsVisible_iff]
      exact iff_of_false (by omega) (by omega)
    · exact h.visible snapshot hs version hv
  · obtain ⟨h1, h2, h3, h4⟩ := h.current snapshot hs
    exact ⟨h1, h2, h3, by omega⟩
  · rcases hmem version hv with ⟨hk, hh⟩ | hv
    · exact ⟨Nat.le_of_eq hk, hlast ▸ hle _ hh⟩
    · have := h.versions version hv
      exact ⟨this.1, by omega⟩
  · rw [hlast, husn]
    show (s.undoSize : Int) + 1 ≤ ((s.undoSize + 24 + BitUtils.maxAlign record.calculateSize : Nat) : Int)
    omega

theorem Ordered.others (h : Ordered s) (bytes : Nat) : Ordered { s with undoSize := s.undoSize + bytes } := by
  refine ⟨h.visible, h.statements, h.unbegun, h.current, h.logged, h.versions, h.log.1, ?_⟩
  have := h.log.2
  show s.tr.lastUsn ≤ ((s.undoSize + bytes : Nat) : Int)
  omega

theorem Ordered.writeNumbered {record : HeapUndoRecord} {headers : List HeapPageTupleHeader} (h : Ordered s)
    (hstat : s.statement ≠ 0) (hmax : s.usn ≤ UndoSeqNumber.Max) (hundo : ∀ header ∈ headers, header.undo = s.usn) :
    Ordered (s.write record headers) := by
  refine h.write hstat hmax (fun header hh => Int.le_of_eq (hundo header hh)) fun header hh snapshot hs => ?_
  rw [hundo header hh]
  exact h.cid_le hs

theorem Ordered.insert {record : HeapUndoRecord} {values : V} (h : Ordered s) (hstat : s.statement ≠ 0)
    (hmax : s.usn ≤ UndoSeqNumber.Max) (hfirst : FirstWriting s) :
    Ordered (s.write record [t.newHeader values]) := by
  have hundo : ∀ header ∈ [t.newHeader values], header.undo = 0 := by
    intro header hh
    rw [List.mem_singleton.1 hh]
    rfl
  refine h.write hstat hmax (fun header hh => ?_) fun header hh snapshot hs => ?_
  · rw [hundo header hh, usn]
    omega
  · rw [hundo header hh]
    obtain ⟨current, hc, hz⟩ := Option.map_eq_some_iff.1 hfirst
    have := (h.current current hc).2.2.1 snapshot hs
    rw [hz] at this
    exact this

theorem Ordered.step {op : OwnOp V} (h : Ordered s) (hn : Numbered s op) (hs : step t s op = some u) :
    Ordered u := by
  cases op with
  | beginStatement csn =>
    cases hs
    exact h.beginStatement csn
  | others bytes =>
    cases hs
    exact h.others bytes
  | insert record values =>
    simp only [OwnRun.step, Option.ite_none_left_eq_some, Option.some.injEq] at hs
    obtain ⟨hstat, rfl⟩ := hs
    exact h.insert hstat hn.2 hn.1
  | update record values =>
    simp only [OwnRun.step, Option.ite_none_left_eq_some, Option.some.injEq] at hs
    obtain ⟨hstat, rfl⟩ := hs
    exact h.writeNumbered hstat hn (by simp)
  | relocate record values old =>
    simp only [OwnRun.step, Option.ite_none_left_eq_some, Option.some.injEq] at hs
    obtain ⟨hstat, rfl⟩ := hs
    exact h.writeNumbered hstat hn (by simp [updatedHeader])
  | delete record =>
    simp only [OwnRun.step, Option.ite_none_left_eq_some, Option.some.injEq] at hs
    obtain ⟨hstat, rfl⟩ := hs
    exact h.writeNumbered hstat hn (by simp)

/-- An insert after a writing statement is visible to its own statement. -/
theorem Ordered.insert_visible {record : HeapUndoRecord} {values : V} (h : Ordered s) (hstat : s.statement ≠ 0)
    (hw : ¬ FirstWriting s) : ¬ OwnVisibility (s.write record [t.newHeader values]) := by
  intro hv
  cases hc : s.tr.snapshot with
  | none => exact hstat (h.unbegun hc).1
  | some snapshot =>
    obtain ⟨hm, hpos, -, -⟩ := h.current snapshot hc
    have hne : snapshot.cid ≠ 0 := fun he => hw (by rw [FirstWriting, hc, Option.map_some, he]; rfl)
    have := (hv _ hm (s.statement, t.newHeader values) (by simp [OwnRun.write])).1
      (ownIsVisible_iff.2 (by show (0 : Int) < snapshot.cid; omega))
    exact Nat.lt_irrefl _ this

end

/-- In a transaction whose inserts come before any other writing statement, own versions are
visible to later statements and to no others; any other insert breaks this. -/
theorem own_visible {undoSize : Nat} {s : OwnRun} (h : Reach (step t) Numbered (start t undoSize) s) :
    OwnVisibility s ∧ ∀ record values u, s.usn ≤ UndoSeqNumber.Max → step t s (.insert record values) = some u →
      (OwnVisibility u ↔ FirstWriting s) := by
  have hs : Ordered s := h.inv (fun _ _ _ hs hn ht => hs.step hn ht) (start_ordered undoSize)
  refine ⟨hs.visible, fun record values u hmax hu => ⟨fun hv => ?_, fun hf => ?_⟩⟩
  · simp only [step, Option.ite_none_left_eq_some, Option.some.injEq] at hu
    obtain ⟨hstat, rfl⟩ := hu
    by_contra hw
    exact hs.insert_visible hstat hw hv
  · have hn : Numbered s (.insert record values) := ⟨hf, hmax⟩
    exact (hs.step hn hu).visible

instance {V : Type} (s : OwnRun) : ∀ op : OwnOp V, Decidable (Numbered s op)
  | .beginStatement _ | .others _ => inferInstanceAs (Decidable True)
  | .insert _ _ => inferInstanceAs (Decidable (_ = _ ∧ _))
  | .update _ _ | .relocate _ _ _ | .delete _ => inferInstanceAs (Decidable (_ ≤ _))

/-- An insert, a reading statement and an update. -/
theorem own_visible_update : ∃ s, Reach (step (byteTable true)) Numbered (start (byteTable true) 0) s ∧
    s.versions.length = 2 ∧ s.snapshots.length = 3 ∧ OwnVisibility s := by
  have h : (exec (guarded Numbered (step (byteTable true))) (start (byteTable true) 0)
      [.beginStatement 5, .insert (.Delete 1 ⟨0, 0⟩) [7], .beginStatement 6, .beginStatement 6,
        .update (.Update 1 ⟨0, 0⟩ ⟨0, 0⟩ []) [8]]).map
          (fun s => s.versions.length == 2 && s.snapshots.length == 3) =
      some true := by decide
  obtain ⟨s, hr, hs⟩ := reach_of_test h
  simp only [Bool.and_eq_true, beq_iff_eq] at hs
  exact ⟨s, hr.of_guarded, hs.1, hs.2, (own_visible (byteTable true) hr.of_guarded).1⟩

/-- Statement 1 updates a row, statement 2 inserts one: the snapshot of statement 2 sees it. -/
theorem insert_seen_by_own_statement : ∃ s, Reach (step (byteTable true)) anyStep (start (byteTable true) 0) s ∧
    s.statement = 2 ∧ (2, (byteTable true).newHeader [7]) ∈ s.versions ∧
    (∃ snapshot, (2, snapshot) ∈ s.snapshots ∧ ownIsVisible snapshot ((byteTable true).newHeader [7]) = true) ∧
    ¬ OwnVisibility s := by
  have h : (exec (step (byteTable true)) (start (byteTable true) 0)
      [.beginStatement 5, .update (.Update 1 ⟨0, 0⟩ ⟨0, 0⟩ []) [8], .beginStatement 6,
        .insert (.Delete 1 ⟨0, 1⟩) [7]]).map
        (fun s => s.statement == 2 && decide ((2, (byteTable true).newHeader [7]) ∈ s.versions) &&
          s.snapshots == [(2, ⟨5, 2⟩), (1, ⟨5, 0⟩)]) = some true := by decide
  obtain ⟨s, hr, hs⟩ := reach_of_test h
  simp only [Bool.and_eq_true, beq_iff_eq, decide_eq_true_eq] at hs
  obtain ⟨⟨h1, h2⟩, h3⟩ := hs
  have hm : (2, (⟨5, 2⟩ : Snapshot)) ∈ s.snapshots := by rw [h3]; exact List.mem_cons_self
  exact ⟨s, hr, h1, h2, ⟨_, hm, by decide⟩, fun hv => absurd ((hv _ hm _ h2).1 (by decide)) (by decide)⟩

end OwnRun

end Mimidb
