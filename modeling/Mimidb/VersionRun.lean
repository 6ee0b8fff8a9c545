import Mimidb.Run
import Mimidb.VersionChain

/-!
# Runs that write versions

Any number of transactions change rows in place, one after the other on each
row, and commit or undo what they did, among others that leave these rows
alone. `versions` records what was written to a slot and not undone.
-/

namespace Mimidb

open HeapStore

structure VersionRun where
  store : HeapStore
  /-- The pages of the relation file. -/
  disk : Nat → Memory
  /-- The CSN of each transaction, in the table of the transaction manager. -/
  history : Nat → Nat
  /-- The records about the rows in the undo log of each transaction, the last one first. -/
  undoLog : Nat → List Int
  /-- The transactions in `UndoAllRecords`. -/
  aborting : Nat → Bool
  /-- The newest version first. -/
  versions : TupleId → List SlotVersion

inductive VersionOp where
  | begin (xid : Nat)
  | update (xid : Nat) (tid : TupleId) (values : Values) (fuel : Nat)
  | delete (xid : Nat) (tid : TupleId)
  -- `CommitTransaction`
  | commitMark (xid : Nat)
  | commitPublish (xid csn : Nat)
  -- `AbortTransaction`
  | undo (xid : Nat)
  | abortMark (xid : Nat)
  | others (store : HeapStore) (disk : Nat → Memory)
  | evict (pageno : Nat)

/-- The slot that a record is about. -/
def HeapUndoRecord.location : HeapUndoRecord → TupleId
  | .Delete _ tupId => tupId
  | .Update _ oldLocation _ _ => oldLocation
  | .Insert _ location _ => location

namespace VersionRun

variable (dbg : Bool) (tableId : Nat) (desc : TupleDescriptor) (wait : Nat → HeapM Unit)

/-- Rows as they were inserted; nothing was changed since. -/
def start (store : HeapStore) (disk : Nat → Memory) (history : Nat → Nat) (versions : TupleId → List SlotVersion) :
    VersionRun := ⟨store, disk, history, fun _ => [], fun _ => false, versions⟩

def setHistory (s : VersionRun) (xid csn : Nat) : VersionRun :=
  { s with history := Function.update s.history xid csn }

def ended (s : VersionRun) (xid : Nat) : Bool :=
  s.history xid != CommitSeqNumber.InProgress && s.history xid != CommitSeqNumber.Committing

/-- After a change of a slot and its record. -/
def pushed (s : VersionRun) (u : HeapStore) (xid : Nat) (tid : TupleId) (v : SlotVersion) : VersionRun :=
  { s with
    store := u
    undoLog := Function.update s.undoLog xid ((s.store.undoSize + 1 : Int) :: s.undoLog xid)
    versions := Function.update s.versions tid (v :: s.versions tid) }

/-- After the undo of a change; the records in `log` are left. -/
def popped (s : VersionRun) (u : HeapStore) (xid : Nat) (tid : TupleId) (log : List Int) : VersionRun :=
  { s with
    store := u
    undoLog := Function.update s.undoLog xid log
    aborting := Function.update s.aborting xid true
    versions := Function.update s.versions tid (s.versions tid).tail }

/-- A call on the version of a slot, whose writer has ended. -/
def call (s : VersionRun) (xid : Nat) (tid : TupleId) (change : HeapTuple Values → HeapM Unit)
    (version : HeapStore → Option SlotVersion) : Option VersionRun :=
  if s.history xid = CommitSeqNumber.InProgress ∧ s.aborting xid = false then
    match s.store.decoded dbg desc tid with
    | .error _ => none
    | .ok old =>
      if old.header.flags.Deleted = false ∧ (old.header.xid = xid ∨ s.ended old.header.xid = true) then
        match change old s.store with
        | (.error _, _) => none
        | (.ok (), u) => (version u).map (s.pushed u xid tid)
      else none
  else none

/-- The version that an update leaves in the slot. -/
def updated (u : HeapStore) (tid : TupleId) : Option SlotVersion :=
  match u.decoded dbg desc tid with
  | .ok tuple => some ⟨tuple.header, some tuple.values⟩
  | .error _ => none

def deleted (u : HeapStore) (tid : TupleId) : Option SlotVersion := some ⟨.ofBytes (u.content tid), none⟩

/-- The undo of the last record takes the newest version of its slot away. -/
def undoNext (s : VersionRun) (xid : Nat) : Option VersionRun :=
  match s.undoLog xid with
  | [] => none
  | usn :: log =>
    match s.store.undo usn, performUndo dbg usn s.store with
    | some record, (.ok (), u) => some (s.popped u xid record.location log)
    | _, _ => none

def step (s : VersionRun) : VersionOp → Option VersionRun
  | .begin xid =>
    if s.history xid = CommitSeqNumber.Invalid then some (s.setHistory xid CommitSeqNumber.InProgress) else none
  | .update xid tid values fuel =>
    let t := heapTable dbg tableId xid desc
    if t.fits s.store tid values then
      s.call dbg desc xid tid (fun old => t.updateTuple wait old values fuel) (updated dbg desc · tid)
    else none
  | .delete xid tid =>
    s.call dbg desc xid tid (fun old => (heapTable dbg tableId xid desc).deleteTuple wait old) (deleted · tid)
  | .commitMark xid =>
    if s.history xid = CommitSeqNumber.InProgress ∧ s.aborting xid = false then
      some (s.setHistory xid CommitSeqNumber.Committing)
    else none
  | .commitPublish xid csn =>
    if s.history xid = CommitSeqNumber.Committing ∧
      CommitSeqNumber.isNormal csn = true then some (s.setHistory xid csn)
    else none
  | .undo xid => if s.history xid = CommitSeqNumber.InProgress then s.undoNext dbg xid else none
  | .abortMark xid =>
    if s.history xid = CommitSeqNumber.InProgress ∧ s.undoLog xid = [] then
      some (s.setHistory xid CommitSeqNumber.Aborted)
    else none
  | .others store disk => some { s with store := store, disk := disk }
  | .evict pageno =>
    some { s with store := (s.store.evicted s.disk pageno).1, disk := (s.store.evicted s.disk pageno).2 }

/-- The calls are on the rows, and the undo log has not outgrown its numbers. -/
def Setting (rows : Set TupleId) (s : VersionRun) : VersionOp → Prop
  | .update xid tid _ _ | .delete xid tid =>
    tid ∈ rows ∧ xid < 2 ^ 64 ∧ (s.store.undoSize : Int) + 1 ≤ UndoSeqNumber.Max
  | .others store _ => Leaves rows s.store store
  | _ => True

/-- No page is evicted while it has changes that are neither marked nor in the file. -/
def Unlost (s : VersionRun) : VersionOp → Prop
  | .evict pageno => s.store.Unlost s.disk pageno
  | _ => True

/-- The rows have one version each, as `InsertTuple` left it. -/
structure Inserted (rows : Set TupleId) (store : HeapStore) (history : Nat → Nat)
    (versions : TupleId → List SlotVersion) :
    Prop where
  slots : Slots rows store
  version : ∀ r ∈ rows, ∃ header values bytes rest, IsVersion dbg desc header values bytes ∧
    store.content r = bytes ++ rest ∧ header.undo = UndoSeqNumber.Invalid ∧ versions r = [⟨header, some values⟩] ∧
    history header.xid ≠ CommitSeqNumber.Invalid

/-- The slot step answers with the newest version that the snapshot sees. -/
def Answers (s : VersionRun) (reader : Nat) (snapshot : Snapshot) (tid : TupleId) : Prop :=
  (s.store.view dbg desc s.history reader).itemTuple snapshot tid.pageno tid.itemid =
    .ok (newestVisible s.history snapshot tid (s.versions tid))

/-! ## The invariant -/

/-- The undo pointers of the newest versions that `xid` wrote over others. -/
def ownUndo (xid : Nat) : List SlotVersion → List Int
  | [] => []
  | v :: versions =>
    if v.header.xid = xid ∧ v.header.undo ≠ UndoSeqNumber.Invalid then v.header.undo :: ownUndo xid versions else []

/-- The record is about the slot. -/
def isAt (undo : Int → Option HeapUndoRecord) (tid : TupleId) (usn : Int) : Bool :=
  (undo usn).map HeapUndoRecord.location == some tid

/-- A transaction is written over when it has ended. -/
def Ordered (s : VersionRun) (versions : List SlotVersion) : Prop :=
  versions.Pairwise fun newer older => older.header.xid ≠ newer.header.xid → s.ended older.header.xid = true

/-- The invariant of a row. -/
structure SlotVersioned (s : VersionRun) (r : TupleId) : Prop where
  chain : ∃ bytes rest, s.store.content r = bytes ++ rest ∧ SlotChain dbg desc s.store r bytes (s.versions r)
  begun : ∀ v ∈ s.versions r, s.history v.header.xid ≠ CommitSeqNumber.Invalid
  ordered : s.Ordered (s.versions r)
  own : ∀ xid, s.history xid = CommitSeqNumber.InProgress →
    (s.undoLog xid).filter (isAt s.store.undo r) = ownUndo xid (s.versions r)

structure Versioned (rows : Set TupleId) (s : VersionRun) : Prop where
  slots : Slots rows s.store
  row : ∀ r ∈ rows, SlotVersioned dbg desc s r
  logged : ∀ xid, ∀ usn ∈ s.undoLog xid, usn ≤ s.store.undoSize ∧ ∃ r ∈ rows, isAt s.store.undo r usn = true
  fresh : ∀ xid, s.history xid = CommitSeqNumber.Invalid → s.undoLog xid = []

section
variable {dbg tableId desc wait} {rows : Set TupleId} {s t : VersionRun} {u : HeapStore} {xid csn : Nat}
  {r tid : TupleId}
  {versions : List SlotVersion} {v : SlotVersion} {log : List Int}

@[simp] theorem pushed_versions_self : (s.pushed u xid tid v).versions tid = v :: s.versions tid :=
  Function.update_self _ _ _

theorem pushed_versions_ne (h : r ≠ tid) : (s.pushed u xid tid v).versions r = s.versions r :=
  Function.update_of_ne h _ _

@[simp] theorem pushed_undoLog_self :
    (s.pushed u xid tid v).undoLog xid = (s.store.undoSize + 1 : Int) :: s.undoLog xid :=
  Function.update_self _ _ _

theorem pushed_undoLog_ne {x : Nat} (h : x ≠ xid) : (s.pushed u xid tid v).undoLog x = s.undoLog x :=
  Function.update_of_ne h _ _

@[simp] theorem popped_versions_self : (s.popped u xid tid log).versions tid = (s.versions tid).tail :=
  Function.update_self _ _ _

theorem popped_versions_ne (h : r ≠ tid) : (s.popped u xid tid log).versions r = s.versions r :=
  Function.update_of_ne h _ _

@[simp] theorem popped_undoLog_self : (s.popped u xid tid log).undoLog xid = log := Function.update_self _ _ _

theorem popped_undoLog_ne {x : Nat} (h : x ≠ xid) : (s.popped u xid tid log).undoLog x = s.undoLog x :=
  Function.update_of_ne h _ _

theorem Inserted.versioned {store : HeapStore} {history : Nat → Nat} {versions : TupleId → List SlotVersion}
    (h : Inserted dbg desc rows store history versions) (disk : Nat → Memory) :
    Versioned dbg desc rows (start store disk history versions) := by
  refine ⟨h.slots, fun r hr => ?_, fun _ => nofun, fun _ _ => rfl⟩
  obtain ⟨header, values, bytes, rest, hv, hc, hundo, hvs, hne⟩ := h.version r hr
  have hvs : (start store disk history versions).versions r = [⟨header, some values⟩] := hvs
  refine ⟨⟨bytes, rest, hc, ?_⟩, fun v hm => ?_, ?_, fun xid _ => ?_⟩
  · rw [hvs]
    exact .live (.insert hv hundo)
  · rw [hvs, List.mem_singleton] at hm
    rw [hm]
    exact hne
  · rw [hvs]
    exact List.pairwise_singleton _ _
  · rw [hvs, ownUndo, if_neg fun h => h.2 hundo]
    rfl

/-! ## Begin, commit and abort -/

theorem ownUndo_of_ne (h : ∀ v ∈ versions, v.header.xid ≠ xid) : ownUndo xid versions = [] := by
  cases versions with
  | nil => rfl
  | cons v versions => rw [ownUndo, if_neg fun hv => h v List.mem_cons_self hv.1]

theorem Versioned.setHistory (h : Versioned dbg desc rows s) (hcsn : csn ≠ CommitSeqNumber.Invalid)
    (hx : s.history xid = CommitSeqNumber.Invalid ∨ (csn ≠ CommitSeqNumber.InProgress ∧ s.ended xid = false)) :
    Versioned dbg desc rows (s.setHistory xid csn) := by
  have hne : ∀ x, x ≠ xid → (s.setHistory xid csn).history x = s.history x :=
    fun x hx => Function.update_of_ne hx _ _
  have hsame : (s.setHistory xid csn).history xid = csn := Function.update_self _ _ _
  refine ⟨h.slots, fun r hr => ⟨(h.row r hr).chain, fun v hv => ?_, ?_, fun x hp => ?_⟩, h.logged, fun x hf => ?_⟩
  · by_cases hvx : v.header.xid = xid
    · rw [hvx, hsame]
      exact hcsn
    · rw [hne _ hvx]
      exact (h.row r hr).begun v hv
  · refine (h.row r hr).ordered.imp_of_mem fun {newer older} _ hold himp hdiff => ?_
    have hend := himp hdiff
    have hvx : older.header.xid ≠ xid := by
      intro he
      rcases hx with hx | ⟨-, hx⟩
      · exact (h.row r hr).begun older hold (he ▸ hx)
      · rw [he, hx] at hend
        cases hend
    unfold ended at hend ⊢
    rw [hne _ hvx]
    exact hend
  · by_cases hvx : x = xid
    · subst hvx
      rcases hx with hx | ⟨hx, -⟩
      · have hlog : (s.setHistory x csn).undoLog x = [] := h.fresh x hx
        have hown : ownUndo x (s.versions r) = [] := by
          refine ownUndo_of_ne fun v hv he => (h.row r hr).begun v hv ?_
          rw [he]
          exact hx
        rw [hlog]
        exact hown.symm
      · exact absurd (hsame.symm.trans hp) hx
    · rw [hne _ hvx] at hp
      exact (h.row r hr).own x hp
  · by_cases hvx : x = xid
    · rw [hvx, hsame] at hf
      exact absurd hf hcsn
    · rw [hne _ hvx] at hf
      exact h.fresh x hf

/-! ## Changes elsewhere -/

theorem isAt_iff {undo : Int → Option HeapUndoRecord} {usn : Int} :
    isAt undo tid usn = true ↔ ∃ record, undo usn = some record ∧ record.location = tid := by
  rw [isAt, beq_iff_eq, Option.map_eq_some_iff]

theorem isAt_congr {undo undo' : Int → Option HeapUndoRecord} {log : List Int}
    (h : ∀ usn ∈ log, undo' usn = undo usn) :
    log.filter (isAt undo' r) = log.filter (isAt undo r) := by
  apply List.filter_congr
  intro usn hu
  rw [isAt, isAt, h usn hu]

theorem Versioned.logged_mono (h : Versioned dbg desc rows s) (hsize : s.store.undoSize ≤ u.undoSize)
    (hundo : ∀ usn : Int, usn ≤ s.store.undoSize → u.undo usn = s.store.undo usn) :
    ∀ x, ∀ usn ∈ s.undoLog x, usn ≤ u.undoSize ∧ ∃ r ∈ rows, isAt u.undo r usn = true := by
  intro x usn hu
  obtain ⟨hle, r, hr, hat⟩ := h.logged x usn hu
  refine ⟨by omega, r, hr, ?_⟩
  rw [isAt, hundo usn hle]
  exact hat

theorem Versioned.own_mono (h : Versioned dbg desc rows s)
    (hundo : ∀ usn : Int, usn ≤ s.store.undoSize → u.undo usn = s.store.undo usn) (hr : r ∈ rows) {x : Nat}
    (hp : s.history x = CommitSeqNumber.InProgress) :
    (s.undoLog x).filter (isAt u.undo r) = ownUndo x (s.versions r) := by
  rw [isAt_congr fun usn hu => hundo usn (h.logged x usn hu).1]
  exact (h.row r hr).own x hp

theorem Versioned.leaves (h : Versioned dbg desc rows s) (hl : Leaves rows s.store u) (disk : Nat → Memory) :
    Versioned dbg desc rows { s with store := u, disk := disk } := by
  refine ⟨h.slots.leaves hl, fun r hr => ?_, h.logged_mono hl.undoSize hl.undo, h.fresh⟩
  obtain ⟨⟨bytes, rest, hc, hchain⟩, hbegun, hord, -⟩ := h.row r hr
  exact ⟨⟨bytes, rest, (hl.content r hr).trans hc, hchain.mono ⟨hl.item r hr, hl.undoSize, hl.undo⟩⟩, hbegun, hord,
    fun x hp => h.own_mono hl.undo hr hp⟩

/-! ## Changes -/

theorem location_of_restores {record : HeapUndoRecord} {image : List UInt8} (h : record.RestoresAt tid image) :
    record.location = tid := by
  rcases h with ⟨table, rfl⟩ | ⟨table, rfl⟩ <;> rfl

/-- The writers below the newest one have ended, or are the one that writes now. -/
theorem Ordered.push (h : s.Ordered versions)
    (htop : ∀ w ∈ versions.head?, w.header.xid = xid ∨ s.ended w.header.xid = true)
    (hx : v.header.xid = xid) : s.Ordered (v :: versions) := by
  refine List.pairwise_cons.2 ⟨fun w hw hne => ?_, h⟩
  rw [hx] at hne
  cases versions with
  | nil => cases hw
  | cons top versions =>
    have hbelow := (List.pairwise_cons.1 h).1
    rcases htop top rfl with hxt | hend
    · rcases List.mem_cons.1 hw with rfl | hw
      · exact absurd hxt hne
      · exact hbelow w hw (by rw [hxt]; exact hne)
    · rcases List.mem_cons.1 hw with rfl | hw
      · exact hend
      · by_cases hwt : w.header.xid = top.header.xid
        · rw [hwt]
          exact hend
        · exact hbelow w hw hwt

theorem not_ended (h : s.history xid = CommitSeqNumber.InProgress) : ¬ s.ended xid = true := by
  rw [ended, h]
  decide

theorem extends_of_change {record : HeapUndoRecord} {bytes : List UInt8} (hlog : HeapTable.Logged s.store u record)
    (hc : SlotChange s.store u tid bytes) (hp : s.store.Placed r) : Extends s.store u r := by
  refine ⟨hc.item r hp, by rw [hlog.undoSize]; omega, fun usn hu => ?_⟩
  rw [hlog.undo]
  exact Function.update_of_ne (by omega) _ _

/-- A change pushes the version that it writes. -/
theorem Versioned.changed {record : HeapUndoRecord} {bytes rest : List UInt8} (h : Versioned dbg desc rows s)
    (htid : tid ∈ rows) (hrun : s.history xid = CommitSeqNumber.InProgress)
    (htop : ∀ w ∈ (s.versions tid).head?, w.header.xid = xid ∨ s.ended w.header.xid = true)
    (hlog : HeapTable.Logged s.store u record) (hloc : record.location = tid)
    (hc : SlotChange s.store u tid (bytes ++ rest))
    (hchain : SlotChain dbg desc u tid bytes (v :: s.versions tid)) (hx : v.header.xid = xid)
    (hundo : v.header.undo = s.store.undoSize + 1) : Versioned dbg desc rows (s.pushed u xid tid v) := by
  have hsize : s.store.undoSize + 1 ≤ u.undoSize := by rw [hlog.undoSize]; omega
  have hnew : u.undo (s.store.undoSize + 1) = some record := by
    rw [hlog.undo]
    exact Function.update_self _ _ _
  have hold := (extends_of_change hlog hc (h.slots.placed tid htid)).undo
  have hlogged := h.logged_mono (by omega) hold
  have hat : ∀ r, isAt u.undo r (s.store.undoSize + 1) = decide (r = tid) := by
    intro r
    rw [isAt, hnew, ← hloc]
    exact decide_eq_decide.2 ⟨fun he => he.symm, fun he => he.symm⟩
  refine ⟨h.slots.change hc, fun r hr => ?_, fun x usn hu => ?_, fun x hf => ?_⟩
  · obtain ⟨⟨bytes', rest', hcr, hchainr⟩, hbegun, hord, -⟩ := h.row r hr
    by_cases hrt : r = tid
    · subst hrt
      refine ⟨⟨bytes, rest, hc.content, by rw [pushed_versions_self]; exact hchain⟩, ?_, ?_, fun x hp => ?_⟩
      · rw [pushed_versions_self, List.forall_mem_cons, hx]
        exact ⟨fun he => absurd (hrun.symm.trans he) (by decide), hbegun⟩
      · rw [pushed_versions_self]
        exact hord.push htop hx
      · have hown := h.own_mono hold hr hp
        rw [pushed_versions_self, ownUndo]
        by_cases hxx : x = xid
        · subst hxx
          rw [pushed_undoLog_self, if_pos ⟨hx, by rw [hundo]; show (s.store.undoSize : Int) + 1 ≠ 0; omega⟩, ← hown,
            hundo]
          exact List.filter_cons_of_pos ((hat r).trans (decide_eq_true rfl))
        · rw [pushed_undoLog_ne hxx, if_neg fun he => hxx (he.1.symm.trans hx)]
          refine hown.trans ?_
          cases hvs : s.versions r with
          | nil => rfl
          | cons w versions =>
            rw [ownUndo, if_neg fun he => ?_]
            rcases htop w (by rw [hvs]; rfl) with hwx | hend
            · exact hxx (he.1.symm.trans hwx)
            · rw [he.1] at hend
              exact not_ended hp hend
    · refine ⟨⟨bytes', rest', (h.slots.content_ne hc htid hr hrt).trans hcr, ?_⟩, ?_, ?_, fun x hp => ?_⟩
      · rw [pushed_versions_ne hrt]
        exact hchainr.mono (extends_of_change hlog hc (h.slots.placed r hr))
      · rw [pushed_versions_ne hrt]
        exact hbegun
      · rw [pushed_versions_ne hrt]
        exact hord
      · rw [pushed_versions_ne hrt, ← h.own_mono hold hr hp]
        by_cases hxx : x = xid
        · subst hxx
          rw [pushed_undoLog_self]
          exact List.filter_cons_of_neg fun he => hrt (of_decide_eq_true ((hat r).symm.trans he))
        · rw [pushed_undoLog_ne hxx]
          rfl
  · by_cases hxx : x = xid
    · subst hxx
      rw [pushed_undoLog_self] at hu
      rcases List.mem_cons.1 hu with rfl | hu
      · exact ⟨by show (s.store.undoSize : Int) + 1 ≤ u.undoSize; omega, tid, htid, isAt_iff.2 ⟨record, hnew, hloc⟩⟩
      · exact hlogged x usn hu
    · rw [pushed_undoLog_ne hxx] at hu
      exact hlogged x usn hu
  · have hxx : x ≠ xid := by
      intro he
      have hf : s.history x = CommitSeqNumber.Invalid := hf
      rw [he, hrun] at hf
      cases hf
    rw [pushed_undoLog_ne hxx]
    exact h.fresh x hf

/-! ## Calls -/

theorem Versioned.of_call {change : HeapTuple Values → HeapM Unit} {version : HeapStore → Option SlotVersion}
    (h : Versioned dbg desc rows s) (htid : tid ∈ rows) (hs : s.call dbg desc xid tid change version = some t) :
    ∃ header values bytes rest u v, s.history xid = CommitSeqNumber.InProgress ∧
      IsVersion dbg desc header values bytes ∧ s.store.content tid = bytes ++ rest ∧
      Chain dbg desc s.store tid bytes (s.versions tid) ∧
      (∀ w ∈ (s.versions tid).head?, w.header.xid = xid ∨ s.ended w.header.xid = true) ∧
      change ⟨header, values, tid⟩ s.store = (.ok (), u) ∧ version u = some v ∧ t = s.pushed u xid tid v := by
  have hp := h.slots.placed tid htid
  obtain ⟨⟨bytes, rest, hc, hchain⟩, -, -, -⟩ := h.row tid htid
  unfold call at hs
  split_ifs at hs with hrun
  cases hdec : s.store.decoded dbg desc tid with
  | error err =>
    rw [hdec] at hs
    cases hs
  | ok old =>
    simp only [hdec] at hs
    split_ifs at hs with hold
    have hlive : ∀ {header : HeapPageTupleHeader} {values : Values}, IsVersion dbg desc header values bytes →
        old = ⟨header, values, tid⟩ := by
      intro header values hv
      have hd : s.store.decoded dbg desc tid = .ok ⟨header, values, tid⟩ := slotTuple_of_version hp hv hc
      exact Except.ok.inj (hdec.symm.trans hd)
    have hdone : ∀ {header : HeapPageTupleHeader} {values : Values}, old = ⟨header, values, tid⟩ →
        ∃ u v, change ⟨header, values, tid⟩ s.store = (.ok (), u) ∧ version u = some v ∧
        t = s.pushed u xid tid v := by
      rintro header values rfl
      split at hs
      · cases hs
      · rename_i u hu
        obtain ⟨v, hv, ht⟩ := Option.map_eq_some_iff.1 hs
        exact ⟨u, v, hu, hv, ht.symm⟩
    generalize hvs : s.versions tid = versions at hchain ⊢
    cases hchain with
    | live hchain =>
      cases hchain with
      | @insert header values bytes hv hundo =>
        have he := hlive hv
        obtain ⟨u, v, hu, hver, ht⟩ := hdone he
        refine ⟨header, values, bytes, rest, u, v, hrun.1, hv, hc, .insert hv hundo, fun w hw => ?_, hu, hver, ht⟩
        cases hw
        rw [he] at hold
        exact hold.2
      | @update header values bytes before versions hv hsave hchain =>
        have he := hlive hv
        obtain ⟨u, v, hu, hver, ht⟩ := hdone he
        refine ⟨header, values, bytes, rest, u, v, hrun.1, hv, hc, .update hv hsave hchain, fun w hw => ?_, hu,
          hver, ht⟩
        cases hw
        rw [he] at hold
        exact hold.2
    | @deleted header before versions hb hflags hsave hchain =>
      have hhead : old.header = header := by
        have hbytes := HeapPageTupleHeader.ofBytes_toBytes hb []
        rw [List.append_nil] at hbytes
        rw [hp.decoded_header hc (Nat.le_of_eq header.toBytes_length.symm) hdec, hbytes]
      rw [hhead, hflags] at hold
      exact absurd hold.1 (by decide)

theorem saves_of_logged {record : HeapUndoRecord} {bytes rest rest' bytes' : List UInt8} (hp : s.store.Placed tid)
    (hc : s.store.content tid = bytes ++ rest) (hchain : Chain dbg desc s.store tid bytes versions)
    (hres : record.RestoresAt tid (bytes ++ rest')) (hrest : rest' = [] ∨ rest' = rest)
    (hmax : (s.store.undoSize : Int) + 1 ≤ UndoSeqNumber.Max) (hlog : HeapTable.Logged s.store u record)
    (hchange : SlotChange s.store u tid bytes') : Saves u tid (s.store.undoSize + 1) bytes := by
  have hlen : (bytes ++ rest').length ≤ (s.store.item tid).length := by
    rw [← content_length, hc]
    rcases hrest with rfl | rfl
    · rw [List.append_nil, List.length_append]
      exact Nat.le_add_right _ _
    · exact Nat.le_refl _
  have holder := hchain.undo_le
  refine ⟨⟨record, rest', ?_, hres, ?_⟩, by omega, hmax, ?_, by omega⟩
  · rw [hlog.undo]
    exact Function.update_self _ _ _
  · rw [hchange.item tid hp]
    exact hlen
  · rw [hlog.undoSize]
    omega

theorem Versioned.update {values : Values} {fuel : Nat} (h : Versioned dbg desc rows s) (htid : tid ∈ rows)
    (hx : xid < 2 ^ 64) (hmax : (s.store.undoSize : Int) + 1 ≤ UndoSeqNumber.Max)
    (hfits : (heapTable dbg tableId xid desc).fits s.store tid values = true)
    (hs : s.call dbg desc xid tid (fun old => (heapTable dbg tableId xid desc).updateTuple wait old values fuel)
      (updated dbg desc · tid) = some t) : Versioned dbg desc rows t := by
  have hp := h.slots.placed tid htid
  obtain ⟨header, values0, bytes, rest, u, v, hrun, hv, hc, hchain, htop, hu, hver, rfl⟩ := h.of_call htid hs
  obtain ⟨data, hdata, hfit⟩ := HeapTable.fits_iff.1 hfits
  have hxid : (HeapPageTupleHeader.ofBytes (s.store.content tid)).xid = header.xid := by rw [hc, hv.ofBytes_eq]
  obtain ⟨u', hu', hlog, hchange⟩ :=
    HeapTable.updateTuple_inPlace (heapTable dbg tableId xid desc) ⟨header, values0, tid⟩ wait fuel
    hp hxid hv.serialize hdata hfit
  rw [hu] at hu'
  cases hu'
  have hb : HeapPageTupleHeader.Bounded ⟨xid, s.store.undoSize + 1, ⟨false, false⟩⟩ := by
    refine ⟨hx, ?_⟩
    simp only [UndoSeqNumber.Max] at hmax
    simp only
    omega
  obtain ⟨header', values', hx', hundo', hv'⟩ := isVersion_of_serialize hb hdata
  have hdec : u.decoded dbg desc tid = .ok ⟨header', values', tid⟩ :=
    slotTuple_of_version (hchange.placed tid hp) hv' hchange.content
  have hvv : v = ⟨header', some values'⟩ := by
    unfold updated at hver
    rw [hdec] at hver
    exact (Option.some.inj hver).symm
  have hres : (HeapUndoRecord.Update tableId tid tid bytes).RestoresAt tid (bytes ++ []) := by
    rw [List.append_nil]
    exact .inl ⟨tableId, rfl⟩
  have hsave := saves_of_logged hp hc hchain hres (.inl rfl) hmax hlog hchange
  subst hvv
  rw [← hundo'] at hsave
  exact h.changed htid hrun htop hlog (location_of_restores hres) hchange
    (.live (.update hv' hsave (hchain.mono (extends_of_change hlog hchange hp)))) hx' hundo'

theorem Versioned.delete (h : Versioned dbg desc rows s) (htid : tid ∈ rows) (hx : xid < 2 ^ 64)
    (hmax : (s.store.undoSize : Int) + 1 ≤ UndoSeqNumber.Max)
    (hs : s.call dbg desc xid tid (fun old => (heapTable dbg tableId xid desc).deleteTuple wait old)
      (deleted · tid) = some t) :
    Versioned dbg desc rows t := by
  have hp := h.slots.placed tid htid
  obtain ⟨header, values0, bytes, rest, u, v, hrun, hv, hc, hchain, htop, hu, hver, rfl⟩ := h.of_call htid hs
  have hxid : (HeapPageTupleHeader.ofBytes (s.store.content tid)).xid = header.xid := by rw [hc, hv.ofBytes_eq]
  obtain ⟨u', hu', hlog, hchange⟩ :=
    HeapTable.deleteTuple_inPlace (heapTable dbg tableId xid desc) ⟨header, values0, tid⟩ wait
    hp hxid
  rw [hu] at hu'
  cases hu'
  have hb :
      HeapPageTupleHeader.Bounded ((heapTable dbg tableId xid desc).deletedHeader (s.store.undoSize + 1)) := by
    refine ⟨hx, ?_⟩
    simp only [UndoSeqNumber.Max] at hmax
    simp only [HeapTable.deletedHeader]
    omega
  have hvv : v = ⟨(heapTable dbg tableId xid desc).deletedHeader (s.store.undoSize + 1), none⟩ := by
    rw [← Option.some.inj hver]
    exact congrArg (SlotVersion.mk · none) (by rw [hchange.content]; exact HeapPageTupleHeader.ofBytes_toBytes hb _)
  have hres : (HeapUndoRecord.Insert tableId tid (s.store.content tid)).RestoresAt tid (bytes ++ rest) := by
    rw [hc]
    exact .inr ⟨tableId, rfl⟩
  have hsave := saves_of_logged hp hc hchain hres (.inr rfl) hmax hlog hchange
  subst hvv
  refine h.changed htid hrun htop hlog (location_of_restores hres) hchange (.deleted hb rfl hsave ?_) rfl rfl
  exact hchain.mono (extends_of_change hlog hchange hp)

/-! ## Undo -/

theorem ownUndo_cons {usn : Int} (h : usn :: log = ownUndo xid versions) : ∃ v older, versions = v :: older ∧
    v.header.xid = xid ∧ v.header.undo = usn ∧ usn ≠ UndoSeqNumber.Invalid ∧ log = ownUndo xid older := by
  cases versions with
  | nil => cases h
  | cons v older =>
    rw [ownUndo] at h
    split_ifs at h with hv
    · obtain ⟨rfl, rfl⟩ := List.cons.inj h
      exact ⟨v, older, rfl, hv.1, rfl, hv.2, rfl⟩

/-- The undo of the newest version of a slot, the last change of its writer. -/
theorem Versioned.popped {usn : Int} {older : List SlotVersion} {before rest : List UInt8}
    (h : Versioned dbg desc rows s) (htid : tid ∈ rows) (hrun : s.history xid = CommitSeqNumber.InProgress)
    (hlog : s.undoLog xid = usn :: log) (hat : isAt s.store.undo tid usn = true) (hvs : s.versions tid = v :: older)
    (hvx : v.header.xid = xid) (hbefore : Chain dbg desc s.store tid before older)
    (hc : SlotChange s.store u tid (before ++ rest)) (hu : u.undo = s.store.undo)
    (hsize : u.undoSize = s.store.undoSize) (hlast : log.filter (isAt s.store.undo tid) = ownUndo xid older) :
    Versioned dbg desc rows (s.popped u xid tid log) := by
  have hext : ∀ r ∈ rows, Extends s.store u r := fun r hr =>
    ⟨hc.item r (h.slots.placed r hr), Nat.le_of_eq hsize.symm, fun usn _ => by rw [hu]⟩
  have hlogged := h.logged_mono (Nat.le_of_eq hsize.symm) (hext tid htid).undo
  obtain ⟨-, hbegun, hord, hown⟩ := h.row tid htid
  rw [hvs] at hbegun hord hown
  have holder := List.pairwise_cons.1 hord
  refine ⟨h.slots.change hc, fun r hr => ?_, fun x n hn => ?_, fun x hf => ?_⟩
  · by_cases hrt : r = tid
    · subst hrt
      have htail : (s.popped u xid r log).versions r = older := by rw [popped_versions_self, hvs]; rfl
      refine ⟨⟨before, rest, hc.content, ?_⟩, ?_, ?_, fun x hp => ?_⟩
      · rw [htail]
        exact .live (hbefore.mono (hext r hr))
      · rw [htail]
        exact fun w hw => hbegun w (List.mem_cons_of_mem _ hw)
      · rw [htail]
        exact holder.2
      · rw [htail, show (s.popped u xid r log).store.undo = s.store.undo from hu]
        by_cases hxx : x = xid
        · subst hxx
          rw [popped_undoLog_self]
          exact hlast
        · rw [popped_undoLog_ne hxx, hown x hp, ownUndo, if_neg fun he => hxx (he.1.symm.trans hvx)]
          refine (ownUndo_of_ne fun w hw he => ?_).symm
          have hend := holder.1 w hw (by rw [he, hvx]; exact hxx)
          rw [he] at hend
          exact not_ended hp hend
    · obtain ⟨⟨bytes, rest', hcr, hchain⟩, hbegun, hord, hown⟩ := h.row r hr
      refine ⟨⟨bytes, rest', (h.slots.content_ne hc htid hr hrt).trans hcr, ?_⟩, ?_, ?_, fun x hp => ?_⟩
      · rw [popped_versions_ne hrt]
        exact hchain.mono (hext r hr)
      · rw [popped_versions_ne hrt]
        exact hbegun
      · rw [popped_versions_ne hrt]
        exact hord
      · rw [popped_versions_ne hrt, show (s.popped u xid tid log).store.undo = s.store.undo from hu]
        by_cases hxx : x = xid
        · subst hxx
          rw [popped_undoLog_self, ← hown x hp, hlog]
          refine (List.filter_cons_of_neg fun he => hrt ?_).symm
          obtain ⟨record, hrec, hloc⟩ := isAt_iff.1 he
          obtain ⟨record', hrec', hloc'⟩ := isAt_iff.1 hat
          rw [← hloc, ← hloc', Option.some.inj (hrec.symm.trans hrec')]
        · rw [popped_undoLog_ne hxx]
          exact hown x hp
  · by_cases hxx : x = xid
    · subst hxx
      rw [popped_undoLog_self] at hn
      exact hlogged x n (hlog ▸ List.mem_cons_of_mem _ hn)
    · rw [popped_undoLog_ne hxx] at hn
      exact hlogged x n hn
  · have hxx : x ≠ xid := by
      intro he
      have hf : s.history x = CommitSeqNumber.Invalid := hf
      rw [he, hrun] at hf
      cases hf
    rw [popped_undoLog_ne hxx]
    exact h.fresh x hf

theorem Versioned.undoNext (h : Versioned dbg desc rows s) (hrun : s.history xid = CommitSeqNumber.InProgress)
    (hs : s.undoNext dbg xid = some t) : Versioned dbg desc rows t := by
  unfold VersionRun.undoNext at hs
  cases hlog : s.undoLog xid with
  | nil =>
    rw [hlog] at hs
    cases hs
  | cons usn log =>
    simp only [hlog] at hs
    obtain ⟨-, r, hr, hat⟩ := h.logged xid usn (hlog ▸ List.mem_cons_self)
    obtain ⟨record, hrec, hloc⟩ := isAt_iff.1 hat
    have hp := h.slots.placed r hr
    obtain ⟨⟨bytes, rest, hc, hchain⟩, hbegun, hord, hown⟩ := h.row r hr
    have hfirst := hown xid hrun
    rw [hlog, List.filter_cons_of_pos hat] at hfirst
    obtain ⟨v, older, hvs, hvx, hvu, hne, hlast⟩ := ownUndo_cons hfirst
    rw [hvs] at hchain
    obtain ⟨hhead, hsize, before, hsave, hbefore⟩ := hchain.saves (hvu ▸ hne)
    rw [hvu] at hsave
    obtain ⟨record', rest', hrec', hres, hlen⟩ := hsave.record
    obtain rfl : record' = record := Option.some.inj (hrec'.symm.trans hrec)
    have hundo : (HeapPageTupleHeader.ofBytes (s.store.content r)).undo = usn := by
      rw [hc, HeapPageTupleHeader.ofBytes_append hsize, hhead, hvu]
    have hchange := UndoApplierVisitor.restored_slotChange hp hlen
    rw [List.append_assoc] at hchange
    rw [hrec, performUndo_inPlace hrec hres hp hundo hlen] at hs
    have hs : some (s.popped (UndoApplierVisitor.restored s.store r (before ++ rest')) xid record'.location log) =
      some t := hs
    rw [hloc] at hs
    rw [← Option.some.inj hs]
    exact h.popped hr hrun hlog hat hvs hvx hbefore hchange rfl rfl hlast

theorem Versioned.step {op : VersionOp} (h : Versioned dbg desc rows s) (hset : Setting rows s op)
    (hun : Unlost s op) (ht : step dbg tableId desc wait s op = some t) : Versioned dbg desc rows t := by
  cases op with
  | begin xid =>
    unfold VersionRun.step at ht
    simp only at ht
    split_ifs at ht with hx
    cases ht
    exact h.setHistory (by decide) (.inl hx)
  | update xid tid values fuel =>
    unfold VersionRun.step at ht
    simp only at ht
    split_ifs at ht with hfits
    exact h.update hset.1 hset.2.1 hset.2.2 hfits ht
  | delete xid tid => exact h.delete hset.1 hset.2.1 hset.2.2 ht
  | commitMark xid =>
    unfold VersionRun.step at ht
    simp only at ht
    split_ifs at ht with hx
    cases ht
    exact h.setHistory (by decide) (.inr ⟨by decide, Bool.eq_false_iff.2 (not_ended hx.1)⟩)
  | commitPublish xid csn =>
    unfold VersionRun.step at ht
    simp only at ht
    split_ifs at ht with hx
    cases ht
    have hcsn : CommitSeqNumber.Min ≤ csn := of_decide_eq_true hx.2
    simp only [CommitSeqNumber.Min] at hcsn
    have hend : s.ended xid = false := by
      rw [ended, hx.1]
      decide
    exact h.setHistory (by simp only [CommitSeqNumber.Invalid]; omega)
      (.inr ⟨by simp only [CommitSeqNumber.InProgress]; omega, hend⟩)
  | undo xid =>
    unfold VersionRun.step at ht
    simp only at ht
    split_ifs at ht with hx
    exact h.undoNext hx ht
  | abortMark xid =>
    unfold VersionRun.step at ht
    simp only at ht
    split_ifs at ht with hx
    cases ht
    exact h.setHistory (by decide) (.inr ⟨by decide, Bool.eq_false_iff.2 (not_ended hx.1)⟩)
  | others store disk =>
    cases ht
    exact h.leaves hset disk
  | evict pageno =>
    cases ht
    exact h.leaves (evicted_leaves hun) _

end

/-- The answer is the newest visible version if and only if no version asked about is being committed. -/
theorem answers_iff {dbg : Bool} {tableId : Nat} {desc : TupleDescriptor} {wait : Nat → HeapM Unit}
    {rows : Set TupleId} {store : HeapStore} {disk : Nat → Memory} {history : Nat → Nat}
    {versions : TupleId → List SlotVersion}
    {s : VersionRun}
    {r : TupleId} {reader : Nat} (h0 : Inserted dbg desc rows store history versions)
    (h : Reach (step dbg tableId desc wait) (fun s op => Setting rows s op ∧ Unlost s op)
      (start store disk history versions) s) (hr : r ∈ rows) (hreader : ∀ v ∈ s.versions r, v.header.xid ≠ reader)
    (snapshot : Snapshot) : Answers dbg desc s reader snapshot r ↔ Decided s.history snapshot (s.versions r) := by
  have hinv : Versioned dbg desc rows s :=
    h.inv (fun _ _ _ hs hC ht => hs.step hC.1 hC.2 ht) (h0.versioned disk)
  obtain ⟨⟨bytes, rest, hc, hchain⟩, hbegun, -, -⟩ := hinv.row r hr
  unfold Answers
  rw [hchain.itemTuple (hinv.slots.placed r hr) hc fun v hv => ⟨hreader v hv, hbegun v hv⟩]
  exact walk_eq_iff

/-! ## One update of a row -/

def frozenHistory : Nat → Nat :=
  fun xid => if xid = TransactionId.Min then CommitSeqNumber.Frozen else CommitSeqNumber.Invalid

def firstVersion : SlotVersion :=
  ⟨⟨TransactionId.Min, UndoSeqNumber.Invalid, ⟨false, false⟩⟩, some [some (.scalar 0)]⟩

theorem oneRow_inserted (dbg : Bool) :
    Inserted dbg byteDesc firstSlot oneRow frozenHistory fun _ => [firstVersion] where
  slots := oneRow_slots
  version r hr := by
    cases hr
    obtain ⟨bytes, hv, hc⟩ := oneRow_version dbg
    exact ⟨_, _, bytes, [], hv, hc, rfl, rfl, by decide⟩

/-- While the transaction runs, the others get the version before. -/
theorem answers_iff_update : ∃ s, Reach (step true 1 byteDesc fun _ => pure ())
      (fun s op => Setting firstSlot s op ∧ Unlost s op)
        (start oneRow oneRow.page frozenHistory fun _ => [firstVersion]) s ∧
    (s.versions ⟨0, 0⟩).map (fun v => v.header.xid) = [3, 1] ∧
    Answers true byteDesc s 4 ⟨CommitSeqNumber.Min, 0⟩ ⟨0, 0⟩ := by
  let s0 := start oneRow oneRow.page frozenHistory fun _ => [firstVersion]
  have h : ((step true 1 byteDesc (fun _ => pure ()) (s0.setHistory 3 CommitSeqNumber.InProgress)
      (.update 3 ⟨0, 0⟩ [some (.scalar 5)] 0)).map fun s =>
        decide ((s.versions ⟨0, 0⟩).map (fun v => v.header.xid) = [3, 1] ∧ s.history 3 =
          CommitSeqNumber.InProgress ∧
          s.history 1 = CommitSeqNumber.Frozen)) = some true := by decide +kernel
  obtain ⟨s, hs, ht⟩ := Option.map_eq_some_iff.1 h
  obtain ⟨hvs, h3, h1⟩ := of_decide_eq_true ht
  have hr : Reach (step true 1 byteDesc fun _ => pure ()) (fun s op => Setting firstSlot s op ∧ Unlost s op) s0 s :=
    (Reach.refl.tail (.begin 3) ⟨trivial, trivial⟩ rfl).tail (.update 3 ⟨0, 0⟩ [some (.scalar 5)] 0)
      ⟨⟨rfl, by decide, by decide⟩, trivial⟩ hs
  have hxid : ∀ v ∈ s.versions ⟨0, 0⟩, v.header.xid = 3 ∨ v.header.xid = 1 := by
    intro v hv
    have hm := List.mem_map_of_mem (f := fun v : SlotVersion => v.header.xid) hv
    rw [hvs] at hm
    simpa using hm
  refine ⟨s, hr, hvs, (answers_iff (oneRow_inserted true) hr rfl (fun v hv he => ?_) _).2
    (decided_of_forall fun v hv => ?_)⟩
  · rcases hxid v hv with hx | hx <;> exact absurd (hx.symm.trans he) (by decide)
  · rcases hxid v hv with hx | hx
    · rw [hx, h3]
      decide
    · rw [hx, h1]
      decide

/-- The steps of transactions on this row. -/
def alone (s : VersionRun) : VersionOp → Bool
  | .update xid tid _ _ | .delete xid tid =>
    decide (tid = ⟨0, 0⟩) && decide (xid < 2 ^ 64) && decide ((s.store.undoSize : Int) + 1 ≤ UndoSeqNumber.Max)
  | .others _ _ | .evict _ => false
  | _ => true

theorem setting_of_alone {s : VersionRun} {op : VersionOp} (h : alone s op = true) :
    Setting firstSlot s op ∧ Unlost s op := by
  cases op with
  | update xid tid values fuel =>
    simp only [alone, Bool.and_eq_true, decide_eq_true_eq] at h
    exact ⟨⟨h.1.1, h.1.2, h.2⟩, trivial⟩
  | delete xid tid =>
    simp only [alone, Bool.and_eq_true, decide_eq_true_eq] at h
    exact ⟨⟨h.1.1, h.1.2, h.2⟩, trivial⟩
  | others store disk => cases h
  | evict pageno => cases h
  | _ => exact ⟨trivial, trivial⟩

/-- A read while the writer of the newest version takes its number does not end. -/
theorem committing_unanswered :
    Inserted true byteDesc firstSlot oneRow frozenHistory (fun _ => [firstVersion]) ∧ ∃ s,
    Reach (step true 1 byteDesc fun _ => pure ()) (fun s op => Setting firstSlot s op ∧ Unlost s op)
      (start oneRow oneRow.page frozenHistory fun _ => [firstVersion]) s ∧
    (s.versions ⟨0, 0⟩).map (fun v => v.header.xid) = [3, 1] ∧
    (s.store.view true byteDesc s.history 4).itemTuple ⟨CommitSeqNumber.Min, 0⟩ 0 0 = .error .diverges ∧
    ¬ Answers true byteDesc s 4 ⟨CommitSeqNumber.Min, 0⟩ ⟨0, 0⟩ := by
  have h : (exec (guarded (fun s op => alone s op = true) (step true 1 byteDesc fun _ => pure ()))
      (start oneRow oneRow.page frozenHistory fun _ => [firstVersion])
      [.begin 3, .update 3 ⟨0, 0⟩ [some (.scalar 5)] 0, .commitMark 3]).map (fun s =>
        decide ((s.versions ⟨0, 0⟩).map (fun v => v.header.xid) = [3, 1] ∧
          (s.store.view true byteDesc s.history 4).itemTuple ⟨CommitSeqNumber.Min, 0⟩ 0 0 = .error .diverges)) =
          some true := by
    decide +kernel
  obtain ⟨s, hr, hs⟩ := reach_of_test h
  obtain ⟨hvs, hread⟩ := of_decide_eq_true hs
  refine ⟨oneRow_inserted true, s, hr.of_guarded.mono fun _ _ => setting_of_alone, hvs, hread, fun ha => ?_⟩
  have := hread.symm.trans ha
  cases this

end VersionRun

end Mimidb
