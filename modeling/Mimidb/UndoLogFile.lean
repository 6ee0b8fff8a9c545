import Mathlib.Tactic.NormNum
import Mimidb.Run
import Mimidb.UndoBytes

/-!
# The undo log file

Workers append records under the log's latch while others read; the log can be
closed and opened again at any time. A record that was appended stays where it
is, so its sequence number, the offset plus one, keeps finding it. The numbers
are valid as long as the log is not longer than they can count.
-/

namespace Mimidb

theorem holder_alone {latch : Option Nat} {w : Nat} (h : latch = some w) (w' : Nat) (hne : w' ≠ w) :
    latch ≠ some w' :=
  fun hl => hne (Option.some.inj (hl.symm.trans h))

/-- Where a worker is in `InsertUndoRecord`. -/
inductive UndoInsertPc where
  | idle
  | formatted (xid : Nat) (record : HeapUndoRecord)
  | locked (xid : Nat) (record : HeapUndoRecord)
  | written (xid : Nat) (record : HeapUndoRecord)
  deriving DecidableEq

/-- A record with the sequence number that `InsertUndoRecord` returned for it. -/
structure InsertedUndo where
  usn : Int
  xid : Nat
  record : HeapUndoRecord
  deriving DecidableEq

structure UndoLog where
  file : List UInt8
  /-- `_size`. -/
  size : Nat
  latch : Option Nat
  pc : Nat → UndoInsertPc
  /-- The last record first. -/
  inserted : List InsertedUndo

inductive UndoLogOp where
  | format (w xid : Nat) (record : HeapUndoRecord)
  | lock (w : Nat)
  | write (w : Nat)
  | finish (w : Nat)
  -- the process ends and `Open` runs in a new one
  | reopen

namespace File

/-- Bytes that were never written are zero. -/
def pwrite (file : List UInt8) (offset : Nat) (bytes : List UInt8) : List UInt8 :=
  (file ++ List.replicate (offset - file.length) 0).take offset ++ (bytes ++ file.drop (offset + bytes.length))

def pread (file : List UInt8) (size : Nat) (offset : Int) : Except Fault (List UInt8) :=
  if offset < 0 then .error (.runtimeError "could not read file") else .ok ((file.drop offset.toNat).take size)

end File

namespace UndoLog

/-- `Open`. -/
def openLog (file : List UInt8) : UndoLog := ⟨file, file.length, none, fun _ => .idle, []⟩

def getCurrentUSN (s : UndoLog) : Int := s.size + 1

def step (s : UndoLog) : UndoLogOp → Option UndoLog
  | .format w xid record =>
    if s.pc w = .idle ∧ xid < 2 ^ 64 ∧ record.Fits then some
      { s with pc := Function.update s.pc w (.formatted xid record) }
    else none
  | .lock w =>
    match s.pc w, s.latch with
    | .formatted xid record, none => some { s with
        latch := some w
        pc := Function.update s.pc w (.locked xid record) }
    | _, _ => none
  | .write w =>
    match s.pc w with
    | .locked xid record =>
      -- a file has no larger offset
      if s.size + (formatUndoRecord xid record).length < 2 ^ 63 then some { s with
        file := File.pwrite s.file s.size (formatUndoRecord xid record)
        pc := Function.update s.pc w (.written xid record) }
      else none
    | _ => none
  | .finish w =>
    match s.pc w with
    | .written xid record => some { s with
        size := s.size + (formatUndoRecord xid record).length
        latch := none
        pc := Function.update s.pc w .idle
        inserted := ⟨s.getCurrentUSN, xid, record⟩ :: s.inserted }
    | _ => none
  | .reopen => some { openLog s.file with inserted := s.inserted }

/-! ## Reading -/

def readHeader (file : List UInt8) (offset : Int) : Except Fault UndoLogRecordHeader := do
  let bytes ← File.pread file UndoLogRecordHeader.size offset
  if bytes.length ≠ UndoLogRecordHeader.size then throw (.runtimeError "could not read UndoLogRecordHeader")
  return UndoLogRecordHeader.ofBytes bytes

/-- `GetManager` of the registry that has the heap's only. -/
def getManager (rmgrId : Nat) : Except Fault Unit :=
  if rmgrId = ResourceManagerId.Heap then .ok ()
  else if rmgrId < 128 then .error (.runtimeError "No resource manager registered")
  else .error .outOfBounds

/-- The header and the record are read at two times, from the file as it is then. -/
def readRecord (first second : List UInt8) (usn : Int) : Except Fault HeapUndoRecord := do
  let offset := usn - 1
  let header ← readHeader first offset
  getManager header.ResourceManager
  let bytes ← File.pread second header.DataLength (offset + UndoLogRecordHeader.size)
  if bytes.length ≠ header.DataLength then throw (.runtimeError "could not read UndoLogRecordHeader")
  HeapResourceManager.parseUndo header.RecordType bytes

def getRecord (dbg : Bool) (first second : List UInt8) (usn : Int) : Except Fault HeapUndoRecord := do
  assert dbg (UndoSeqNumber.isValid usn)
  readRecord first second usn

/-- What `PerformUndo` gives to `ApplyUndo`. -/
def performUndo (first second : List UInt8) (usn : Int) : Except Fault (HeapUndoRecord × Int) := do
  let record ← readRecord first second usn
  return (record, usn)

/-! ## What is in the file -/

/-- The file has `bytes` at `offset`. -/
def HasAt (file : List UInt8) (offset : Nat) (bytes : List UInt8) : Prop :=
  (file.drop offset).take bytes.length = bytes

section
variable {file bytes written : List UInt8} {offset pos : Nat}

theorem HasAt.length (h : HasAt file offset bytes) (hne : bytes ≠ []) : offset + bytes.length ≤ file.length := by
  have hlen := congrArg List.length h
  rw [List.length_take, List.length_drop] at hlen
  have hpos := List.length_pos_of_ne_nil hne
  omega

theorem HasAt.left {rest : List UInt8} (h : HasAt file offset (bytes ++ rest)) : HasAt file offset bytes := by
  have ht := congrArg (List.take bytes.length) h
  rw [List.take_take, List.take_left, Nat.min_eq_left (by rw [List.length_append]; omega)] at ht
  exact ht

theorem HasAt.right {rest : List UInt8} (h : HasAt file offset (bytes ++ rest)) :
    HasAt file (offset + bytes.length) rest := by
  have hd := congrArg (List.drop bytes.length) h
  rw [List.drop_take, List.drop_drop, List.drop_left, List.length_append, Nat.add_sub_cancel_left] at hd
  exact hd

theorem hasAt_pwrite (h : offset ≤ file.length) : HasAt (File.pwrite file offset written) offset written := by
  have hpad : offset - file.length = 0 := by omega
  have htake : (file.take offset).length = offset := by rw [List.length_take]; omega
  rw [HasAt, File.pwrite, hpad, List.replicate_zero, List.append_nil, List.drop_left' htake, List.take_left]

theorem HasAt.pwrite (h : HasAt file pos bytes) (hp : pos + bytes.length ≤ offset) (ho : offset ≤ file.length) :
    HasAt (File.pwrite file offset written) pos bytes := by
  have hpad : offset - file.length = 0 := by omega
  rw [HasAt, File.pwrite, hpad, List.replicate_zero, List.append_nil]
  rw [List.drop_append_of_le_length (by rw [List.length_take]; omega),
    List.take_append_of_le_length (by rw [List.length_drop, List.length_take]; omega), List.drop_take,
    List.take_take, Nat.min_eq_left (by omega)]
  exact h

theorem pwrite_length (h : offset ≤ file.length) :
    offset + written.length ≤ (File.pwrite file offset written).length := by
  rw [File.pwrite, List.length_append, List.length_append, List.length_take, List.length_append]
  omega

variable {xid : Nat} {record : HeapUndoRecord}

theorem formatUndoRecord_ne_nil (xid : Nat) (record : HeapUndoRecord) : formatUndoRecord xid record ≠ [] := by
  intro h
  have hlen := congrArg List.length h
  rw [formatUndoRecord_length] at hlen
  simp at hlen

/-- A record is read back from where it is, also if the file grows between the two reads. -/
theorem readRecord_hasAt {first second : List UInt8} (h1 : HasAt first offset (formatUndoRecord xid record))
    (h2 : HasAt second offset (formatUndoRecord xid record)) (hx : xid < 2 ^ 64) (hf : record.Fits)
    (hl : record.calculateSize < 2 ^ 64) : readRecord first second (offset + 1) = .ok record := by
  have hlen := (recordHeader xid record).toBytes_length
  have hfirst : (first.drop offset).take UndoLogRecordHeader.size = (recordHeader xid record).toBytes := by
    rw [← hlen]
    exact h1.left
  have hsecond :
      (second.drop (offset + UndoLogRecordHeader.size)).take record.calculateSize = record.serialize := by
    rw [← hlen, ← record.serialize_length]
    exact h2.right.left
  have htype : record.getType < 2 ^ 8 := by cases record <;> norm_num [HeapUndoRecord.getType]
  have hback :=
    UndoLogRecordHeader.ofBytes_toBytes (recordHeader xid record) hx (show 1 < 2 ^ 32 by decide) htype hl []
  rw [List.append_nil] at hback
  have hpos1 : ((offset : Int) + 1 - 1).toNat = offset := by omega
  have hpos2 : ((offset : Int) + 1 - 1 + UndoLogRecordHeader.size).toNat = offset + UndoLogRecordHeader.size := by
    omega
  have hread : readHeader first ((offset : Int) + 1 - 1) = .ok (recordHeader xid record) := by
    rw [readHeader, File.pread, if_neg (by omega), hpos1, hfirst]
    show (do
      if (recordHeader xid record).toBytes.length ≠ UndoLogRecordHeader.size then
        throw (Fault.runtimeError "could not read UndoLogRecordHeader")
      return UndoLogRecordHeader.ofBytes (recordHeader xid record).toBytes : Except Fault UndoLogRecordHeader) = _
    rw [if_neg (by rw [hlen]; exact fun h => h rfl), hback]
    rfl
  have hpay :
    File.pread second (recordHeader xid record).DataLength ((offset : Int) + 1 - 1 + UndoLogRecordHeader.size) =
      .ok record.serialize := by
    rw [File.pread, if_neg (by omega), hpos2]
    exact congrArg Except.ok hsecond
  simp only [readRecord, hread]
  show (do
    let bytes ← File.pread second (recordHeader xid record).DataLength
      ((offset : Int) + 1 - 1 + UndoLogRecordHeader.size)
    if bytes.length ≠ (recordHeader xid record).DataLength then
      throw (Fault.runtimeError "could not read UndoLogRecordHeader")
    HeapResourceManager.parseUndo record.getType bytes) = _
  rw [hpay]
  show (do
    if record.serialize.length ≠ record.calculateSize then
      throw (Fault.runtimeError "could not read UndoLogRecordHeader")
    HeapResourceManager.parseUndo record.getType record.serialize) = _
  rw [if_neg (by rw [record.serialize_length]; exact fun h => h rfl)]
  exact HeapUndoRecord.parse_serialize hf

end

/-! ## Runs -/

/-- The record is where its sequence number says, before the end of the log. -/
def Placed (s : UndoLog) (e : InsertedUndo) : Prop :=
  ∃ offset : Nat, e.usn = offset + 1 ∧ HasAt s.file offset (formatUndoRecord e.xid e.record) ∧
    offset + (formatUndoRecord e.xid e.record).length ≤ s.size ∧ (formatUndoRecord e.xid e.record).length < 2 ^ 63 ∧
    e.xid < 2 ^ 64 ∧ e.record.Fits

def PcInv (s : UndoLog) (w : Nat) : UndoInsertPc → Prop
  | .idle => True
  | .formatted xid record => xid < 2 ^ 64 ∧ record.Fits
  | .locked xid record => s.latch = some w ∧ xid < 2 ^ 64 ∧ record.Fits
  | .written xid record => s.latch = some w ∧ (xid < 2 ^ 64 ∧ record.Fits) ∧
    HasAt s.file s.size (formatUndoRecord xid record) ∧ (formatUndoRecord xid record).length < 2 ^ 63

structure Inv (s : UndoLog) : Prop where
  placed : ∀ e ∈ s.inserted, s.Placed e
  ordered : s.inserted.Pairwise fun later e => e.usn < later.usn
  size_le : s.size ≤ s.file.length
  pc : ∀ w, s.PcInv w (s.pc w)

section
variable {s t : UndoLog} {e : InsertedUndo} {w : Nat}

theorem PcInv.of_ne {w' : Nat} {p : UndoInsertPc} (h : s.PcInv w' p) (hl : s.latch ≠ some w') : t.PcInv w' p := by
  cases p with
  | idle => trivial
  | formatted xid record => exact h
  | locked xid record => exact absurd h.1 hl
  | written xid record => exact absurd h.1 hl

theorem Placed.mono (h : s.Placed e) (hf : t.file = s.file) (hs : s.size ≤ t.size) : t.Placed e := by
  obtain ⟨offset, hu, hat, hle, hrest⟩ := h
  exact ⟨offset, hu, hf ▸ hat, le_trans hle hs, hrest⟩

theorem pc_update {p : UndoInsertPc} (h : ∀ w, s.PcInv w (s.pc w)) (hw : t.PcInv w p)
    (hl : ∀ w', w' ≠ w → s.latch ≠ some w') : ∀ w', t.PcInv w' (Function.update s.pc w p w') :=
  (Function.forall_update_iff s.pc t.PcInv).2 ⟨hw, fun w' he => (h w').of_ne (hl w' he)⟩

theorem Inv.step {op : UndoLogOp} (h : Inv s) (ht : s.step op = some t) : Inv t := by
  cases op with
  | format w xid record =>
    simp only [UndoLog.step] at ht
    split_ifs at ht with hc
    cases ht
    exact ⟨h.placed, h.ordered, h.size_le, (Function.forall_update_iff s.pc s.PcInv).2 ⟨hc.2, fun w' _ => h.pc w'⟩⟩
  | lock w =>
    simp only [UndoLog.step] at ht
    split at ht
    next xid record hpc hlatch =>
      cases ht
      have hw := h.pc w
      rw [hpc] at hw
      refine ⟨h.placed, h.ordered, h.size_le, pc_update h.pc ⟨rfl, hw⟩ fun w' _ => ?_⟩
      rw [hlatch]
      nofun
    next => cases ht
  | write w =>
    simp only [UndoLog.step] at ht
    split at ht
    next xid record hpc =>
      split_ifs at ht with hroom
      cases ht
      have hw := h.pc w
      rw [hpc] at hw
      refine ⟨fun e he => ?_, h.ordered, ?_,
        pc_update h.pc ⟨hw.1, hw.2, hasAt_pwrite h.size_le, by omega⟩ (holder_alone hw.1)⟩
      · obtain ⟨offset, hu, hat, hle, hrest⟩ := h.placed e he
        exact ⟨offset, hu, hat.pwrite hle h.size_le, hle, hrest⟩
      · exact le_trans (Nat.le_add_right _ _) (pwrite_length h.size_le)
    next => cases ht
  | finish w =>
    simp only [UndoLog.step] at ht
    split at ht
    next xid record hpc =>
      cases ht
      have hw := h.pc w
      rw [hpc] at hw
      obtain ⟨hlatch, hfits, hat, hlen⟩ := hw
      have hne := formatUndoRecord_ne_nil xid record
      refine ⟨fun e he => ?_, List.pairwise_cons.2 ⟨fun e he => ?_, h.ordered⟩, hat.length hne,
        pc_update h.pc trivial (holder_alone hlatch)⟩
      · rcases List.mem_cons.1 he with rfl | he
        · exact ⟨s.size, rfl, hat, le_rfl, hlen, hfits⟩
        · exact (h.placed e he).mono rfl (Nat.le_add_right _ _)
      · obtain ⟨offset, hu, -, hle, -⟩ := h.placed e he
        have hpos := List.length_pos_of_ne_nil (formatUndoRecord_ne_nil e.xid e.record)
        simp only [getCurrentUSN]
        omega
    next => cases ht
  | reopen =>
    cases ht
    exact ⟨fun e he => (h.placed e he).mono rfl h.size_le, h.ordered, le_rfl, fun _ => trivial⟩

theorem inv_openLog (file : List UInt8) : Inv (openLog file) := ⟨nofun, .nil, le_rfl, fun _ => trivial⟩

theorem Inv.reach (h : Inv s) (hr : Reach UndoLog.step anyStep s t) : Inv t :=
  hr.inv (I := Inv) (fun _ _ _ hi _ ht => Inv.step hi ht) h

theorem inserted_kept (h : Reach UndoLog.step anyStep s t) (he : e ∈ s.inserted) : e ∈ t.inserted := by
  refine h.inv (I := fun t => e ∈ t.inserted) (fun u op v hi _ hv => ?_) he
  cases op with
  | finish w =>
    simp only [UndoLog.step] at hv
    split at hv <;> cases hv
    exact List.mem_cons_of_mem _ hi
  | _ =>
    simp only [UndoLog.step] at hv
    repeat' split at hv
    all_goals cases hv
    all_goals exact hi

theorem Placed.readRecord_eq (hs : s.Placed e) (ht : t.Placed e) :
    readRecord s.file t.file e.usn = .ok e.record := by
  obtain ⟨offset, hu, hat, -, hlen, hx, hf⟩ := hs
  obtain ⟨offset', hu', hat', -⟩ := ht
  have hsame : offset' = offset := by omega
  rw [hsame] at hat'
  have hle : e.record.calculateSize ≤ BitUtils.maxAlign e.record.calculateSize := by
    unfold BitUtils.maxAlign
    omega
  rw [formatUndoRecord_length] at hlen
  rw [hu]
  exact readRecord_hasAt hat hat' hx hf (by omega)

/-- The numbers are increasing, and each finds its record at any later time. -/
structure RoundTrip (s : UndoLog) : Prop where
  increasing : s.inserted.Pairwise fun later e => e.usn < later.usn
  valid : ∀ e ∈ s.inserted, UndoSeqNumber.isValid e.usn = true ↔ e.usn ≤ UndoSeqNumber.Max
  performUndo : ∀ e ∈ s.inserted, ∀ t u, Reach UndoLog.step anyStep s t → Reach UndoLog.step anyStep t u →
    performUndo t.file u.file e.usn = .ok (e.record, e.usn)
  getRecord : ∀ e ∈ s.inserted, e.usn ≤ UndoSeqNumber.Max → ∀ dbg t u, Reach UndoLog.step anyStep s t →
    Reach UndoLog.step anyStep t u → getRecord dbg t.file u.file e.usn = .ok e.record

theorem undo_round_trip {file : List UInt8} (h : Reach UndoLog.step anyStep (openLog file) s) : s.RoundTrip := by
  have hs := (inv_openLog file).reach h
  have hread : ∀ e ∈ s.inserted, ∀ t u, Reach UndoLog.step anyStep s t → Reach UndoLog.step anyStep t u →
      readRecord t.file u.file e.usn = .ok e.record := fun e he t u ht hu =>
    ((hs.reach ht).placed e (inserted_kept ht he)).readRecord_eq
      (((hs.reach ht).reach hu).placed e (inserted_kept hu (inserted_kept ht he)))
  have hvalid : ∀ e ∈ s.inserted, UndoSeqNumber.isValid e.usn = true ↔ e.usn ≤ UndoSeqNumber.Max := fun e he => by
    obtain ⟨offset, hu, -⟩ := hs.placed e he
    have hne : e.usn ≠ UndoSeqNumber.Invalid := by
      rw [hu, UndoSeqNumber.Invalid]
      omega
    simp only [UndoSeqNumber.isValid, bne_iff_ne, ne_eq, hne, not_false_eq_true, Bool.and_eq_true,
      decide_eq_true_eq, true_and]
  refine ⟨hs.ordered, hvalid, fun e he t u ht hu => ?_, fun e he hle dbg t u ht hu => ?_⟩
  · rw [UndoLog.performUndo, hread e he t u ht hu]
    rfl
  · rw [UndoLog.getRecord, (hvalid e he).2 hle, hread e he t u ht hu]
    cases dbg <;> rfl

/-- A worker writes while another one waits, and the log is opened anew. -/
def twoInserts : List UndoLogOp :=
  [.format 1 7 (.Delete 5 ⟨0, 1⟩), .format 2 8 (.Insert 5 ⟨0, 0⟩ [9]), .lock 1, .write 1,
  .finish 1, .lock 2, .write 2, .finish 2, .reopen]

theorem undo_round_trip_two :
    ∃ s : UndoLog, s.inserted.map InsertedUndo.usn = [41, 1] ∧ s.size = 80 ∧ s.RoundTrip := by
  have h : (exec UndoLog.step (openLog []) twoInserts).map (fun s =>
      decide (s.inserted.map InsertedUndo.usn = [41, 1] ∧ s.size = 80)) = some true := by decide +kernel
  obtain ⟨s, hr, hs⟩ := reach_of_test h
  obtain ⟨husn, hsize⟩ := of_decide_eq_true hs
  exact ⟨s, husn, hsize, undo_round_trip hr⟩

theorem finish_insertUndoRecord {store : HeapStore} {xid : Nat} {record : HeapUndoRecord}
    (hs : store.undoSize = s.size) (hpc : s.pc w = .written xid record) (ht : s.step (.finish w) = some t) :
    (HeapStore.insertUndoRecord record store).1 = .ok s.getCurrentUSN ∧
      (HeapStore.insertUndoRecord record store).2.undoSize = t.size := by
  simp only [UndoLog.step, hpc, Option.some.injEq] at ht
  subst ht
  simp only [HeapStore.insertUndoRecord, getCurrentUSN, hs, formatUndoRecord_length, Nat.add_assoc, and_self]

/-! ## A log that is too long -/

theorem insert_delete (hpc : s.pc 0 = .idle) (hl : s.latch = none) (hroom : s.size + 40 < 2 ^ 63) :
    ∃ t, Reach UndoLog.step anyStep s t ∧ t.size = s.size + 40 ∧ t.pc 0 = .idle ∧ t.latch = none ∧
      ∃ e ∈ t.inserted, e.usn = s.size + 1 := by
  have hlen : (formatUndoRecord 1 (.Delete 5 ⟨0, 0⟩)).length = 40 := formatUndoRecord_length _ _
  have hfits : (HeapUndoRecord.Delete 5 ⟨0, 0⟩).Fits := by decide
  have hrun : exec UndoLog.step s [.format 0 1 (.Delete 5 ⟨0, 0⟩), .lock 0, .write 0, .finish 0] = some { s with
      file := File.pwrite s.file s.size (formatUndoRecord 1 (.Delete 5 ⟨0, 0⟩))
      size := s.size + 40
      latch := none
      pc := Function.update s.pc 0 .idle
      inserted := ⟨s.size + 1, 1, .Delete 5 ⟨0, 0⟩⟩ :: s.inserted } := by
    norm_num at hroom
    simp [exec, UndoLog.step, hpc, hl, hfits, hlen, hroom, getCurrentUSN]
  have hidle : Function.update s.pc 0 .idle 0 = UndoInsertPc.idle := Function.update_self 0 _ _
  exact ⟨_, reach_of_exec hrun, rfl, hidle, rfl, _, List.mem_cons_self, rfl⟩

theorem insert_deletes (n : Nat) (hn : 40 * n < 2 ^ 63) :
    ∃ t, Reach UndoLog.step anyStep (openLog []) t ∧ t.size = 40 * n ∧ t.pc 0 = .idle ∧ t.latch = none := by
  induction n with
  | zero => exact ⟨_, .refl, rfl, rfl, rfl⟩
  | succ n ih =>
    obtain ⟨s, hr, hsize, hpc, hl⟩ := ih (by omega)
    obtain ⟨t, ht, hsize', hpc', hl', -⟩ := insert_delete hpc hl (by omega)
    exact ⟨t, hr.trans ht, by omega, hpc', hl'⟩

/-- Enough deletes get a number that is not valid. -/
theorem log_outgrows_max : ∃ s, Reach UndoLog.step anyStep (openLog []) s ∧
    ∃ e ∈ s.inserted, UndoSeqNumber.isValid e.usn = false := by
  obtain ⟨s, hr, hsize, hpc, hl⟩ := insert_deletes (2 ^ 57) (by norm_num)
  obtain ⟨t, ht, -, -, -, e, he, hu⟩ := insert_delete hpc hl (by rw [hsize]; norm_num)
  refine ⟨t, hr.trans ht, e, he, ?_⟩
  rw [hu, hsize, UndoSeqNumber.isValid, UndoSeqNumber.Max]
  norm_num

end

end UndoLog

end Mimidb
