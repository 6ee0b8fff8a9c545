import Mimidb.Simulation
import Mimidb.WalFile

/-!
# Appends with short writes

Both logs append at their end with `File::Write`, which takes every result of
`pwrite64` that is not negative as a success. When the writes of the calls that
return are whole, each record stays in its place, also after calls that threw
in the middle (`appends_atomic`).
-/

namespace Mimidb

/-! ## Bytes in files -/

namespace UndoLog

variable {file a b : List UInt8} {offset pos n : Nat}

theorem HasAt.append (ha : HasAt file offset a) (hb : HasAt file (offset + a.length) b) :
    HasAt file offset (a ++ b) := by
  unfold HasAt at ha hb ⊢
  rw [List.length_append, List.take_add, ha, List.drop_drop, hb]

theorem hasAt_written (h : offset ≤ file.length) : HasAt (File.written file offset a a.length) offset a := by
  unfold File.written
  split_ifs with h0
  · rw [List.length_eq_zero_iff.1 h0]
    rfl
  · rw [List.take_length]
    exact hasAt_pwrite h

theorem HasAt.written (h : HasAt file pos a) (hp : pos + a.length ≤ offset) (ho : offset ≤ file.length) :
    HasAt (File.written file offset b n) pos a := by
  unfold File.written
  split_ifs
  · exact h
  · exact h.pwrite hp ho

theorem written_length (h : offset ≤ file.length) : file.length ≤ (File.written file offset b n).length := by
  unfold File.written
  split_ifs
  · exact le_rfl
  · simp only [File.pwrite, List.length_append, List.length_take, List.length_drop, List.length_replicate]
    omega

end UndoLog

open UndoLog (HasAt formatUndoRecord)

/-! ## The write-ahead log -/

namespace IRMgrWalRecord

/-- What `WriteLogRecord` has to put into the file. -/
def fileBytes (r : IRMgrWalRecord) (xid : Nat) : List UInt8 := r.header xid ++ r.bytes

theorem header_length (r : IRMgrWalRecord) (xid : Nat) : (r.header xid).length = WALRecordHeader.size := by
  simp [header, WriteAheadLog.header, WALRecordHeader.size]

theorem header_ne_nil (r : IRMgrWalRecord) (xid : Nat) : r.header xid ≠ [] := by
  intro h
  have hlen := r.header_length xid
  rw [h, WALRecordHeader.size] at hlen
  cases hlen

theorem fileBytes_length (r : IRMgrWalRecord) (xid : Nat) :
    (r.fileBytes xid).length = WALRecordHeader.size + r.bytes.length := by
  rw [fileBytes, List.length_append, header_length]

theorem fileBytes_ne_nil (r : IRMgrWalRecord) (xid : Nat) : r.fileBytes xid ≠ [] :=
  List.append_ne_nil_of_left_ne_nil (r.header_ne_nil xid) r.bytes

end IRMgrWalRecord

namespace HeapWALRecord

/-- The record of the heap as one of its resource manager. -/
def toIRMgr (r : HeapWALRecord) : IRMgrWalRecord := ⟨ResourceManagerId.Heap, r.serialize⟩

theorem fileBytes_toIRMgr (r : HeapWALRecord) (xid : Nat) :
    r.toIRMgr.fileBytes xid = WriteAheadLog.recordBytes xid r := by
  simp only [IRMgrWalRecord.fileBytes, IRMgrWalRecord.header, IRMgrWalRecord.calculateSize, toIRMgr,
    serialize_length, WriteAheadLog.recordBytes]

end HeapWALRecord

namespace WalFile

variable {s t : WalFile} {base w : Nat} {r : WrittenRecord}

/-- The call that goes on to return has written both parts whole. -/
def Whole (s : WalFile) : WalOp → Prop
  | .writeBuffer w (some n) =>
    match s.pc w with
    | .headerWritten _ record _ ret => ret = WALRecordHeader.size ∧ n = record.bytes.length
    | _ => True
  | _ => True

/-- The record is where its number says that it ends, before the end of the log. -/
def Stored (s : WalFile) (r : WrittenRecord) : Prop :=
  ∃ offset, r.lsn = offset + (r.record.fileBytes r.xid).length + 1 ∧
  HasAt s.file offset (r.record.fileBytes r.xid) ∧
    offset + (r.record.fileBytes r.xid).length ≤ s.walEnd

def BytesPc (s : WalFile) : WalPc → Prop
  | .headerWritten xid record offset ret => ret = WALRecordHeader.size → HasAt s.file offset (record.header xid)
  | .bufferWritten xid record offset => HasAt s.file offset (record.fileBytes xid)
  | _ => True

structure BytesInv (s : WalFile) : Prop where
  end_le : s.walEnd ≤ s.file.length
  stored : ∀ r ∈ s.returned, s.Stored r
  pc : ∀ w, s.BytesPc (s.pc w)
  thrown : ∀ e ∈ s.thrown, e.1 = e.2

theorem Stored.mono (h : s.Stored r) (hf : t.file = s.file) (hs : s.walEnd ≤ t.walEnd) : t.Stored r := by
  obtain ⟨offset, hl, hat, hle⟩ := h
  exact ⟨offset, hl, hf ▸ hat, le_trans hle hs⟩

theorem Stored.written {offset n : Nat} {bytes : List UInt8} (h : s.Stored r) (ho : s.walEnd ≤ offset)
    (hl : offset ≤ s.file.length) (hf : t.file = File.written s.file offset bytes n) (hs : s.walEnd ≤ t.walEnd) :
    t.Stored r := by
  obtain ⟨pos, hlsn, hat, hle⟩ := h
  exact ⟨pos, hlsn, hf ▸ hat.written (le_trans hle ho) hl, le_trans hle hs⟩

theorem bytesPc_update {p : WalPc} (h : ∀ w, s.BytesPc (s.pc w)) (hf : t.file = s.file) (hp : t.BytesPc p) :
    ∀ w', t.BytesPc (Function.update s.pc w p w') := by
  refine (Function.forall_update_iff s.pc fun _ => t.BytesPc).2 ⟨hp, fun w' _ => ?_⟩
  have hw := h w'
  unfold BytesPc at hw ⊢
  rw [hf]
  exact hw

/-- Only the holder of the latch is between its writes. -/
theorem bytesPc_alone (h : ∀ w, s.PcInv base w (s.pc w)) (hl : s.latch = some w) {p : WalPc} (hp : t.BytesPc p) :
    ∀ w', t.BytesPc (Function.update s.pc w p w') := by
  refine (Function.forall_update_iff s.pc fun _ => t.BytesPc).2 ⟨hp, fun w' he => ?_⟩
  have hw := h w'
  have hne := holder_alone hl w' he
  cases hpc : s.pc w' with
  | headerWritten xid record offset ret =>
    rw [hpc] at hw
    exact absurd hw.1 hne
  | bufferWritten xid record offset =>
    rw [hpc] at hw
    exact absurd hw.1 hne
  | _ => trivial

theorem BytesInv.throwing (h : BytesInv s) {offset : Nat} (ho : offset = s.walEnd) :
    BytesInv (s.throwing w offset) := by
  refine ⟨h.end_le, fun r hr => (h.stored r hr).mono rfl le_rfl, bytesPc_update h.pc rfl trivial, fun e he => ?_⟩
  rcases List.mem_cons.1 he with rfl | he
  · exact ho
  · exact h.thrown e he

theorem BytesInv.of_same {p : WalPc} (h : BytesInv s) (hf : t.file = s.file) (he : t.walEnd = s.walEnd)
    (hr : t.returned = s.returned) (ht : t.thrown = s.thrown) (hpc : t.pc = Function.update s.pc w p)
    (hp : t.BytesPc p) :
    BytesInv t := by
  refine ⟨?_, fun r hm => ?_, ?_, ?_⟩
  · rw [hf, he]
    exact h.end_le
  · rw [hr] at hm
    exact (h.stored r hm).mono hf he.ge
  · rw [hpc]
    exact bytesPc_update h.pc hf hp
  · rw [ht]
    exact h.thrown

theorem BytesInv.pcAt {p : WalPc} (h : BytesInv s) (hpc : s.pc w = p) : s.BytesPc p := hpc ▸ h.pc w

theorem BytesInv.step {dbg : Bool} {op : WalOp} (hi : Inv base s) (h : BytesInv s) (hop : Whole s op)
    (ht : s.step dbg op = some t) : BytesInv t := by
  cases effect_of_step ht with
  | headerThrows w xid record offset hpc => exact h.throwing (hi.pcAt hpc).2
  | bufferThrows w xid record offset ret hpc => exact h.throwing (hi.pcAt hpc).2
  | header w xid record offset n hpc =>
    obtain ⟨hlatch, hoff⟩ := hi.pcAt hpc
    have hle : offset ≤ s.file.length := hoff ▸ h.end_le
    refine ⟨le_trans h.end_le (UndoLog.written_length hle),
      fun r hr => (h.stored r hr).written hoff.ge hle rfl le_rfl, bytesPc_alone hi.pc hlatch ?_, h.thrown⟩
    intro hn
    rw [hn, ← record.header_length xid]
    exact UndoLog.hasAt_written hle
  | buffer w xid record offset ret n hpc =>
    obtain ⟨hlatch, hoff⟩ := hi.pcAt hpc
    simp only [Whole, hpc] at hop
    obtain ⟨hret, hn⟩ := hop
    have hheader : HasAt s.file offset (record.header xid) := h.pcAt hpc hret
    have hle := hheader.length (record.header_ne_nil xid)
    rw [record.header_length xid] at hle
    refine ⟨le_trans h.end_le (UndoLog.written_length hle),
      fun r hr => (h.stored r hr).written (by omega) hle rfl le_rfl, bytesPc_alone hi.pc hlatch ?_, h.thrown⟩
    -- the header lies before the buffer, which is whole
    have hkept := hheader.written (b := record.bytes) (n := n) (record.header_length xid ▸ le_rfl) hle
    refine hkept.append ?_
    rw [record.header_length xid, hn]
    exact UndoLog.hasAt_written hle
  | finish w xid record offset hpc =>
    obtain ⟨hlatch, hoff⟩ := hi.pcAt hpc
    have hb : HasAt s.file offset (record.fileBytes xid) := h.pcAt hpc
    have hle := hb.length (record.fileBytes_ne_nil xid)
    rw [record.fileBytes_length xid, ← Nat.add_assoc] at hle
    refine ⟨hle, fun r hr => ?_, bytesPc_update h.pc rfl trivial, h.thrown⟩
    rcases List.mem_cons.1 hr with rfl | hr
    · refine ⟨offset, ?_, hb, ?_⟩ <;> simp only [record.fileBytes_length xid] <;> omega
    · refine (h.stored r hr).mono rfl ?_
      simp only
      omega
  | _ => exact h.of_same rfl rfl rfl rfl rfl trivial

theorem bytesInv_openLog (file : List UInt8) : BytesInv (openLog file) := ⟨le_rfl, nofun, fun _ => trivial, nofun⟩

theorem returned_kept {dbg : Bool} {op : WalOp} (hr : r ∈ s.returned) (ht : s.step dbg op = some t) :
    r ∈ t.returned := by
  cases effect_of_step ht with
  | finish w xid record offset hpc => exact List.mem_cons_of_mem _ hr
  | _ => exact hr

end WalFile

/-! ## The undo log -/

/-- Where a worker is in `InsertUndoRecord`; `start` is `_size` when it got the latch. -/
inductive UndoAppendPc where
  | idle
  | formatted (xid : Nat) (record : HeapUndoRecord)
  | locked (xid : Nat) (record : HeapUndoRecord) (start : Nat)
  -- `ret` is what `pwrite64` returned
  | written (xid : Nat) (record : HeapUndoRecord) (start ret : Nat)
  | synced (xid : Nat) (record : HeapUndoRecord) (start : Nat)
  deriving DecidableEq

structure UndoFile where
  file : List UInt8
  /-- `_size`. -/
  size : Nat
  latch : Option Nat
  pc : Nat → UndoAppendPc
  /-- The last record first. -/
  inserted : List InsertedUndo
  /-- `_size` when a call that threw had got the latch, and when it threw. -/
  thrown : List (Nat × Nat)

inductive UndoFileOp where
  | format (w xid : Nat) (record : HeapUndoRecord)
  | lock (w : Nat)
  | write (w : Nat) (ret : Option Nat)
  | fsync (w : Nat) (ok : Bool)
  | finish (w : Nat)

namespace UndoFile

/-- `Open`. -/
def openLog (file : List UInt8) : UndoFile := ⟨file, file.length, none, fun _ => .idle, [], []⟩

/-- What a reader sees of the log. -/
def log (s : UndoFile) : UndoLog := ⟨s.file, s.size, none, fun _ => .idle, s.inserted⟩

def throwing (s : UndoFile) (w start : Nat) : UndoFile :=
  { s with latch := none, pc := Function.update s.pc w .idle, thrown := (start, s.size) :: s.thrown }

def step (s : UndoFile) : UndoFileOp → Option UndoFile
  | .format w xid record =>
    if s.pc w = .idle ∧ xid < 2 ^ 64 ∧ record.Fits then some
      { s with pc := Function.update s.pc w (.formatted xid record) }
    else none
  | .lock w =>
    match s.pc w, s.latch with
    | .formatted xid record, none => some { s with
        latch := some w
        pc := Function.update s.pc w (.locked xid record s.size) }
    | _, _ => none
  | .write w ret =>
    match s.pc w with
    | .locked xid record start =>
      if File.CanWrite s.size (formatUndoRecord xid record) ret then
        match ret with
        | none => some (s.throwing w start)
        | some n => some { s with
            file := File.written s.file s.size (formatUndoRecord xid record) n
            pc := Function.update s.pc w (.written xid record start n) }
      else none
    | _ => none
  | .fsync w ok =>
    match s.pc w with
    | .written xid record start _ =>
      if ok then some { s with pc := Function.update s.pc w (.synced xid record start) }
        else some (s.throwing w start)
    | _ => none
  | .finish w =>
    match s.pc w with
    | .synced xid record _ => some { s with
        size := s.size + (formatUndoRecord xid record).length
        latch := none
        pc := Function.update s.pc w .idle
        inserted := ⟨s.log.getCurrentUSN, xid, record⟩ :: s.inserted }
    | _ => none

/-- The record that goes on to be finished was written whole. -/
def Whole (s : UndoFile) : UndoFileOp → Prop
  | .fsync w true =>
    match s.pc w with
    | .written xid record _ ret => ret = (formatUndoRecord xid record).length
    | _ => True
  | _ => True

def PcInv (s : UndoFile) (w : Nat) : UndoAppendPc → Prop
  | .idle => True
  | .formatted xid record => xid < 2 ^ 64 ∧ record.Fits
  | .locked xid record start => (s.latch = some w ∧ start = s.size) ∧ xid < 2 ^ 64 ∧ record.Fits
  | .written xid record start ret => (s.latch = some w ∧ start = s.size) ∧ (xid < 2 ^ 64 ∧ record.Fits) ∧
    (ret = (formatUndoRecord xid record).length →
      HasAt s.file s.size (formatUndoRecord xid record) ∧ (formatUndoRecord xid record).length < 2 ^ 63)
  | .synced xid record start => (s.latch = some w ∧ start = s.size) ∧ (xid < 2 ^ 64 ∧ record.Fits) ∧
    HasAt s.file s.size (formatUndoRecord xid record) ∧ (formatUndoRecord xid record).length < 2 ^ 63

structure Inv (s : UndoFile) : Prop where
  size_le : s.size ≤ s.file.length
  placed : ∀ e ∈ s.inserted, s.log.Placed e
  pc : ∀ w, s.PcInv w (s.pc w)
  thrown : ∀ e ∈ s.thrown, e.1 = e.2

section
variable {s t : UndoFile} {e : InsertedUndo} {w : Nat}

theorem PcInv.of_ne {w' : Nat} {p : UndoAppendPc} (h : s.PcInv w' p) (hl : s.latch ≠ some w') : t.PcInv w' p := by
  cases p with
  | idle => trivial
  | formatted xid record => exact h
  | locked xid record start => exact absurd h.1.1 hl
  | written xid record start ret => exact absurd h.1.1 hl
  | synced xid record start => exact absurd h.1.1 hl

theorem pcs_update {p : UndoAppendPc} (h : ∀ w, s.PcInv w (s.pc w)) (hw : t.PcInv w p)
    (hl : ∀ w', w' ≠ w → s.latch ≠ some w') : ∀ w', t.PcInv w' (Function.update s.pc w p w') :=
  (Function.forall_update_iff s.pc t.PcInv).2 ⟨hw, fun w' he => (h w').of_ne (hl w' he)⟩

theorem Inv.throwing (h : Inv s) (hl : s.latch = some w) {start : Nat} (hs : start = s.size) :
    Inv (s.throwing w start) := by
  refine ⟨h.size_le, fun e he => (h.placed e he).mono rfl le_rfl, pcs_update h.pc trivial (holder_alone hl),
    fun e he => ?_⟩
  rcases List.mem_cons.1 he with rfl | he
  · exact hs
  · exact h.thrown e he

theorem Inv.step {op : UndoFileOp} (h : Inv s) (hop : Whole s op) (ht : s.step op = some t) : Inv t := by
  cases op with
  | format w xid record =>
    simp only [UndoFile.step] at ht
    split_ifs at ht with hc
    cases ht
    exact ⟨h.size_le, fun e he => (h.placed e he).mono rfl le_rfl,
      (Function.forall_update_iff s.pc s.PcInv).2 ⟨hc.2, fun w' _ => h.pc w'⟩, h.thrown⟩
  | lock w =>
    have hw := h.pc w
    simp only [UndoFile.step] at ht
    split at ht
    next xid record hpc hlatch =>
      rw [hpc] at hw
      cases ht
      refine ⟨h.size_le, fun e he => (h.placed e he).mono rfl le_rfl,
        pcs_update h.pc ⟨⟨rfl, rfl⟩, hw⟩ fun w' _ => ?_, h.thrown⟩
      rw [hlatch]
      nofun
    next => cases ht
  | write w ret =>
    have hw := h.pc w
    simp only [UndoFile.step] at ht
    split at ht
    next xid record start hpc =>
      rw [hpc] at hw
      obtain ⟨⟨hlatch, hstart⟩, hfits⟩ := hw
      split_ifs at ht with hcan
      cases ret with
      | none =>
        cases ht
        exact h.throwing hlatch hstart
      | some n =>
        cases ht
        refine ⟨le_trans h.size_le (UndoLog.written_length h.size_le), fun e he => ?_,
          pcs_update h.pc ⟨⟨hlatch, hstart⟩, hfits, fun hn => ?_⟩ (holder_alone hlatch), h.thrown⟩
        · obtain ⟨offset, hu, hat, hle, hrest⟩ := h.placed e he
          exact ⟨offset, hu, hat.written hle h.size_le, hle, hrest⟩
        · have hlen := hcan.2
          rw [hn] at hlen ⊢
          exact ⟨UndoLog.hasAt_written h.size_le, by omega⟩
    next => cases ht
  | fsync w ok =>
    have hw := h.pc w
    simp only [UndoFile.step] at ht
    split at ht
    next xid record start ret hpc =>
      rw [hpc] at hw
      obtain ⟨hheld, hfits, hwhole⟩ := hw
      split_ifs at ht with hok
      · cases ht
        rw [hok] at hop
        simp only [Whole, hpc] at hop
        exact ⟨h.size_le, fun e he => (h.placed e he).mono rfl le_rfl,
          pcs_update h.pc ⟨hheld, hfits, hwhole hop⟩ (holder_alone hheld.1), h.thrown⟩
      · cases ht
        exact h.throwing hheld.1 hheld.2
    next => cases ht
  | finish w =>
    have hw := h.pc w
    simp only [UndoFile.step] at ht
    split at ht
    next xid record start hpc =>
      rw [hpc] at hw
      obtain ⟨hheld, hfits, hat, hlen⟩ := hw
      cases ht
      refine ⟨hat.length (UndoLog.formatUndoRecord_ne_nil xid record), fun e he => ?_,
        pcs_update h.pc trivial (holder_alone hheld.1), h.thrown⟩
      rcases List.mem_cons.1 he with rfl | he
      · exact ⟨s.size, rfl, hat, le_rfl, hlen, hfits⟩
      · exact (h.placed e he).mono rfl (Nat.le_add_right _ _)
    next => cases ht

theorem inv_openLog (file : List UInt8) : Inv (openLog file) := ⟨le_rfl, nofun, fun _ => trivial, nofun⟩

theorem inserted_kept {op : UndoFileOp} (he : e ∈ s.inserted) (ht : s.step op = some t) : e ∈ t.inserted := by
  cases op with
  | finish w =>
    simp only [UndoFile.step] at ht
    split at ht <;> cases ht
    exact List.mem_cons_of_mem _ he
  | _ =>
    simp only [UndoFile.step] at ht
    repeat' split at ht
    all_goals cases ht
    all_goals exact he

/-! ## Calls that do not fail -/

/-- Where a worker is in `UndoLog.step`, which writes and syncs a record at once. -/
def plainPc : UndoAppendPc → Option UndoInsertPc
  | .idle => some .idle
  | .formatted xid record => some (.formatted xid record)
  | .locked xid record _ => some (.locked xid record)
  | .written .. => none
  | .synced xid record _ => some (.written xid record)

structure Plain (s : UndoLog) (f : UndoFile) : Prop where
  file : f.file = s.file
  size : f.size = s.size
  latch : f.latch = s.latch
  pc : ∀ w, plainPc (f.pc w) = some (s.pc w)
  inserted : f.inserted = s.inserted

/-- An operation whose writes and syncs succeed. -/
def wholeOps (s : UndoLog) : UndoLogOp → List UndoFileOp
  | .format w xid record => [.format w xid record]
  | .lock w => [.lock w]
  | .write w =>
    match s.pc w with
    | .locked xid record => [.write w (some (formatUndoRecord xid record).length), .fsync w true]
    | _ => []
  | .finish w => [.finish w]
  | .reopen => []

theorem plainPc_update {log : UndoLog} {p : UndoAppendPc} {q : UndoInsertPc}
    (h : ∀ w, plainPc (s.pc w) = some (log.pc w)) (hp : plainPc p = some q) :
    ∀ w', plainPc (Function.update s.pc w p w') = some (Function.update log.pc w q w') := by
  intro w'
  by_cases e : w' = w
  · rw [e, Function.update_self, Function.update_self, hp]
  · rw [Function.update_of_ne e, Function.update_of_ne e, h]

theorem Plain.step {log log' : UndoLog} {op : UndoLogOp} (h : Plain log s) (hop : op ≠ .reopen)
    (ht : log.step op = some log') :
    ∃ t, Steps UndoFile.step Whole s (wholeOps log op) t ∧ Plain log' t := by
  cases op with
  | format w xid record =>
    simp only [UndoLog.step] at ht
    split_ifs at ht with hc
    cases ht
    have hw := h.pc w
    rw [hc.1] at hw
    have hidle : s.pc w = .idle := by cases hpc : s.pc w <;> simp [hpc, plainPc] at hw ⊢
    have hstep :
      s.step (.format w xid record) = some { s with pc := Function.update s.pc w (.formatted xid record) } :=
      if_pos ⟨hidle, hc.2⟩
    exact ⟨_, .single trivial hstep, h.file, h.size, h.latch, plainPc_update h.pc rfl, h.inserted⟩
  | lock w =>
    simp only [UndoLog.step] at ht
    split at ht
    · next xid record hlog hl =>
      cases ht
      have hw := h.pc w
      rw [hlog] at hw
      have hpc : s.pc w = .formatted xid record := by cases hpc : s.pc w <;> simp_all [plainPc]
      have hstep : s.step (.lock w) =
          some { s with latch := some w, pc := Function.update s.pc w (.locked xid record s.size) } := by
        simp only [UndoFile.step, hpc, h.latch, hl]
      exact ⟨_, .single trivial hstep, h.file, h.size, rfl, plainPc_update h.pc rfl, h.inserted⟩
    · cases ht
  | write w =>
    simp only [UndoLog.step] at ht
    split at ht
    · next xid record hlog =>
      split_ifs at ht with hlt
      cases ht
      have hw := h.pc w
      rw [hlog] at hw
      obtain ⟨start, hpc⟩ : ∃ start, s.pc w = .locked xid record start := by
        cases hpc : s.pc w <;> simp_all [plainPc]
      have hlen : (formatUndoRecord xid record).length ≠ 0 := by rw [UndoLog.formatUndoRecord_length]; omega
      let u : UndoFile := { s with
        file := File.written s.file s.size (formatUndoRecord xid record) (formatUndoRecord xid record).length
        pc := Function.update s.pc w (.written xid record start (formatUndoRecord xid record).length) }
      have hwrite : s.step (.write w (some (formatUndoRecord xid record).length)) = some u := by
        simp only [UndoFile.step, hpc]
        exact if_pos ⟨le_rfl, h.size ▸ hlt⟩
      have hpcu : u.pc w = .written xid record start (formatUndoRecord xid record).length := Function.update_self ..
      have hwhole : u.Whole (.fsync w true) := by simp only [Whole, hpcu]
      let v : UndoFile := { u with pc := Function.update u.pc w (.synced xid record start) }
      have hsync : u.step (.fsync w true) = some v := by simp only [UndoFile.step, hpcu, if_true, v]
      have hrun : Steps UndoFile.step Whole s (wholeOps log (.write w)) v := by
        simp only [wholeOps, hlog]
        exact .cons trivial hwrite (.single hwhole hsync)
      refine ⟨_, hrun, ?_, h.size, h.latch, ?_, h.inserted⟩
      · simp only [v, u, File.written, if_neg hlen, List.take_length, h.file, h.size]
      · simp only [v, u, Function.update_idem]
        exact plainPc_update h.pc rfl
    · cases ht
  | finish w =>
    simp only [UndoLog.step] at ht
    split at ht
    · next xid record hlog =>
      cases ht
      have hw := h.pc w
      rw [hlog] at hw
      obtain ⟨start, hpc⟩ : ∃ start, s.pc w = .synced xid record start := by
        cases hpc : s.pc w <;> simp_all [plainPc]
      have hstep : s.step (.finish w) = some { s with
          size := s.size + (formatUndoRecord xid record).length
          latch := none
          pc := Function.update s.pc w .idle
          inserted := ⟨s.log.getCurrentUSN, xid, record⟩ :: s.inserted } := by
        simp only [UndoFile.step, hpc]
      refine ⟨_, .single trivial hstep, h.file, ?_, rfl, plainPc_update h.pc rfl, ?_⟩
      · simp only [h.size]
      · simp only [h.inserted, UndoFile.log, UndoLog.getCurrentUSN, h.size]
    · cases ht
  | reopen => exact absurd rfl hop

/-- Without failures the file is the one of `UndoLog.step`, until the log is opened again. -/
theorem plain_run {file : List UInt8} {ops : List UndoLogOp} {log : UndoLog}
    (h : Steps UndoLog.step (fun _ op => op ≠ .reopen) (UndoLog.openLog file) ops log) :
    ∃ t, Steps UndoFile.step Whole (openLog file) (traceOf UndoLog.step wholeOps (UndoLog.openLog file) ops) t ∧
    Plain log t :=
  Steps.simulates (fun _ _ _ _ hs hop ht => hs.step hop ht) h ⟨rfl, rfl, rfl, fun _ => rfl, rfl⟩

end

end UndoFile

/-! ## Both logs -/

structure LogFiles where
  undo : UndoFile
  wal : WalFile

inductive LogOp where
  | undo (op : UndoFileOp)
  | wal (op : WalOp)

namespace LogFiles

def openLogs (undo wal : List UInt8) : LogFiles := ⟨UndoFile.openLog undo, WalFile.openLog wal⟩

def step (dbg : Bool) (s : LogFiles) : LogOp → Option LogFiles
  | .undo op => (s.undo.step op).map fun undo => { s with undo := undo }
  | .wal op => (s.wal.step dbg op).map fun wal => { s with wal := wal }

/-- Every `pwrite64` of a call that returns writes all its bytes. -/
def Whole (s : LogFiles) : LogOp → Prop
  | .undo op => s.undo.Whole op
  | .wal op => s.wal.Whole op

/-- What was returned is stored whole where its number says, now and later; a call that threw left the end
where it was when the call got the latch. -/
structure Atomic (dbg : Bool) (s : LogFiles) : Prop where
  undoThrows : ∀ e ∈ s.undo.thrown, e.2 = e.1
  walThrows : ∀ e ∈ s.wal.thrown, e.2 = e.1
  undoStored : ∀ e ∈ s.undo.inserted, ∀ t, Reach (step dbg) Whole s t → e ∈ t.undo.inserted ∧
    ∃ offset : Nat, e.usn = offset + 1 ∧ HasAt t.undo.file offset (formatUndoRecord e.xid e.record)
  undoRead : ∀ e ∈ s.undo.inserted, ∀ t u, Reach (step dbg) Whole s t → Reach (step dbg) Whole t u →
    UndoLog.readRecord t.undo.file u.undo.file e.usn = .ok e.record
  walStored : ∀ r ∈ s.wal.returned, ∀ t, Reach (step dbg) Whole s t → r ∈ t.wal.returned ∧
    ∃ offset, r.lsn = offset + (r.record.fileBytes r.xid).length + 1 ∧
    HasAt t.wal.file offset (r.record.fileBytes r.xid)

structure Inv (base : Nat) (s : LogFiles) : Prop where
  undo : s.undo.Inv
  wal : s.wal.Inv base
  bytes : s.wal.BytesInv

section
variable {dbg : Bool} {base : Nat} {s t : LogFiles}

theorem Inv.step {op : LogOp} (h : Inv base s) (hop : Whole s op) (ht : s.step dbg op = some t) : Inv base t := by
  cases op with
  | undo op =>
    obtain ⟨undo, hu, rfl⟩ := Option.map_eq_some_iff.1 ht
    exact ⟨h.undo.step hop hu, h.wal, h.bytes⟩
  | wal op =>
    obtain ⟨wal, hw, rfl⟩ := Option.map_eq_some_iff.1 ht
    exact ⟨h.undo, h.wal.step hw, h.bytes.step h.wal hop hw⟩

theorem Inv.reach (h : Inv base s) (hr : Reach (LogFiles.step dbg) Whole s t) : Inv base t :=
  hr.inv (I := Inv base) (fun _ _ _ hi hc ht => Inv.step hi hc ht) h

theorem undo_kept {C : LogFiles → LogOp → Prop} {e : InsertedUndo} (hr : Reach (LogFiles.step dbg) C s t)
    (he : e ∈ s.undo.inserted) : e ∈ t.undo.inserted := by
  refine hr.inv (I := fun t => e ∈ t.undo.inserted) (fun u op v hi _ hv => ?_) he
  cases op with
  | undo op =>
    obtain ⟨undo, hu, rfl⟩ := Option.map_eq_some_iff.1 hv
    exact UndoFile.inserted_kept hi hu
  | wal op =>
    obtain ⟨wal, hw, rfl⟩ := Option.map_eq_some_iff.1 hv
    exact hi

theorem wal_kept {C : LogFiles → LogOp → Prop} {r : WrittenRecord} (hr : Reach (LogFiles.step dbg) C s t)
    (he : r ∈ s.wal.returned) : r ∈ t.wal.returned := by
  refine hr.inv (I := fun t => r ∈ t.wal.returned) (fun u op v hi _ hv => ?_) he
  cases op with
  | undo op =>
    obtain ⟨undo, hu, rfl⟩ := Option.map_eq_some_iff.1 hv
    exact hi
  | wal op =>
    obtain ⟨wal, hw, rfl⟩ := Option.map_eq_some_iff.1 hv
    exact WalFile.returned_kept hi hw

theorem appends_atomic {undo wal : List UInt8} (h : Reach (LogFiles.step dbg) Whole (openLogs undo wal) s) :
    s.Atomic dbg := by
  have hs : Inv wal.length s :=
    Inv.reach ⟨UndoFile.inv_openLog undo, WalFile.inv_openLog wal, WalFile.bytesInv_openLog wal⟩ h
  refine ⟨fun e he => (hs.undo.thrown e he).symm, fun e he => (hs.bytes.thrown e he).symm, fun e he t ht => ?_,
    fun e he t u ht hu => ?_, fun r hr t ht => ?_⟩
  · have hkept := undo_kept ht he
    obtain ⟨offset, husn, hat, -⟩ := (hs.reach ht).undo.placed e hkept
    exact ⟨hkept, offset, husn, hat⟩
  · have hkept := undo_kept ht he
    exact UndoLog.Placed.readRecord_eq ((hs.reach ht).undo.placed e hkept)
      (((hs.reach ht).reach hu).undo.placed e (undo_kept hu hkept))
  · have hkept := wal_kept ht hr
    obtain ⟨offset, hlsn, hat, -⟩ := (hs.reach ht).bytes.stored r hkept
    exact ⟨hkept, offset, hlsn, hat⟩

/-! ## Traces -/

instance (s : UndoFile) : (op : UndoFileOp) → Decidable (s.Whole op)
  | .fsync w true =>
    match h : s.pc w with
    | .written xid record _ ret =>
      decidable_of_iff (ret = (formatUndoRecord xid record).length) (by simp only [UndoFile.Whole, h])
    | .idle | .formatted .. | .locked .. | .synced .. => isTrue (by simp only [UndoFile.Whole, h])
  | .fsync _ false | .format .. | .lock _ | .write .. | .finish _ => inferInstanceAs (Decidable True)

instance (s : WalFile) : (op : WalOp) → Decidable (s.Whole op)
  | .writeBuffer w (some n) =>
    match h : s.pc w with
    | .headerWritten _ record _ ret =>
      decidable_of_iff (ret = WALRecordHeader.size ∧ n = record.bytes.length) (by simp only [WalFile.Whole, h])
    | .idle | .formatted .. | .locked .. | .bufferWritten .. | .flushing .. | .flushLocked .. | .syncing .. =>
      isTrue (by simp only [WalFile.Whole, h])
  | .writeBuffer _ none | .write .. | .flush .. | .lock _ | .writeHeader .. | .finish _ | .test _ | .fsync .. =>
    inferInstanceAs (Decidable True)

instance (s : LogFiles) : (op : LogOp) → Decidable (Whole s op)
  | .undo op => inferInstanceAs (Decidable (s.undo.Whole op))
  | .wal op => inferInstanceAs (Decidable (s.wal.Whole op))

/-- The second write of a record fails, and so does the sync of another one. Both are written again. -/
def retried : List LogOp :=
  [.wal (.write 1 7 ⟨1, [9]⟩), .wal (.lock 1), .wal (.writeHeader 1 (some 24)), .wal (.writeBuffer 1 none),
    .undo (.format 2 8 (.Delete 5 ⟨0, 1⟩)), .undo (.lock 2), .undo (.write 2 (some 10)), .undo (.fsync 2 false),
    .undo (.format 2 8 (.Delete 5 ⟨0, 1⟩)), .undo (.lock 2), .undo (.write 2 (some 40)), .undo (.fsync 2 true),
    .undo (.finish 2)] ++ (WalFile.writeOne 1).map .wal

theorem appends_atomic_retried : ∃ s, Reach (step true) Whole (openLogs [] []) s ∧ s.wal.thrown = [(0, 0)] ∧
    s.undo.thrown = [(0, 0)] ∧ s.wal.returned = [⟨26, 7, ⟨1, [9]⟩⟩] ∧ s.undo.inserted.map InsertedUndo.usn = [1] ∧
    s.Atomic true := by
  have h : (exec (guarded Whole (step true)) (openLogs [] []) retried).map (fun s =>
      decide (s.wal.thrown = [(0, 0)] ∧ s.undo.thrown = [(0, 0)] ∧ s.wal.returned = [⟨26, 7, ⟨1, [9]⟩⟩] ∧
        s.undo.inserted.map InsertedUndo.usn = [1])) = some true := by decide +kernel
  obtain ⟨s, hr, hs⟩ := reach_of_test h
  obtain ⟨hwal, hundo, hreturned, hinserted⟩ := of_decide_eq_true hs
  have hwhole := hr.of_guarded
  exact ⟨s, hwhole, hwal, hundo, hreturned, hinserted, appends_atomic hwhole⟩

/-- The record's only byte is not written, and the call returns. -/
theorem short_write_returns : ∃ s, Reach (step true) anyStep (openLogs [] []) s ∧ s.wal.file.length = 24 ∧
    s.wal.returned = [⟨26, 7, ⟨1, [9]⟩⟩] ∧ ¬ s.Atomic true := by
  have h : (exec (step true) (openLogs [] []) ([.write 1 7 ⟨1, [9]⟩, .lock 1, .writeHeader 1 (some 24),
      .writeBuffer 1 (some 0), .finish 1].map .wal)).map (fun s =>
      decide (s.wal.file.length = 24 ∧ s.wal.returned = [⟨26, 7, ⟨1, [9]⟩⟩])) = some true := by decide +kernel
  obtain ⟨s, hr, hs⟩ := reach_of_test h
  obtain ⟨hlen, hreturned⟩ := of_decide_eq_true hs
  refine ⟨s, hr, hlen, hreturned, fun ha => ?_⟩
  obtain ⟨-, offset, -, hat⟩ := ha.walStored ⟨26, 7, ⟨1, [9]⟩⟩ (hreturned ▸ List.mem_cons_self) s .refl
  have hle := hat.length (IRMgrWalRecord.fileBytes_ne_nil _ _)
  rw [IRMgrWalRecord.fileBytes_length, hlen, WALRecordHeader.size] at hle
  simp at hle

end

end LogFiles

end Mimidb
