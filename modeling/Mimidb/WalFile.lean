import Mimidb.CommitDurability
import Mimidb.UndoLogFile
import Mimidb.WalBytes

/-!
# The write-ahead log file

Workers write records and flush under the log's latch. A write may fail or
write fewer bytes than it was given, a sync may fail. `Flush` returns early
when `_flushed` is *not* beyond the place asked for, so it syncs only what was
synced before (`flush_covers_iff`).
-/

namespace Mimidb

/-- A record of any resource manager, with the bytes of `Serialize`. -/
structure IRMgrWalRecord where
  rMgrId : Nat
  bytes : List UInt8
  deriving DecidableEq

namespace IRMgrWalRecord

def calculateSize (r : IRMgrWalRecord) : Nat := r.bytes.length

/-- The `WALRecordHeader` of the record. -/
def header (r : IRMgrWalRecord) (xid : Nat) : List UInt8 := WriteAheadLog.header xid r.rMgrId r.calculateSize

end IRMgrWalRecord

namespace WALRecordHeader

/-- `sizeof(WALRecordHeader)`. -/
def size : Nat := 24

end WALRecordHeader

namespace File

/-- Results of `pwrite64`: a failure, or how many bytes it wrote. No file has a larger offset. -/
def CanWrite (offset : Nat) (bytes : List UInt8) : Option Nat → Prop
  | none => True
  | some n => n ≤ bytes.length ∧ offset + n < 2 ^ 63

instance (offset : Nat) (bytes : List UInt8) : (ret : Option Nat) → Decidable (CanWrite offset bytes ret)
  | none => inferInstanceAs (Decidable True)
  | some n => inferInstanceAs (Decidable (n ≤ bytes.length ∧ offset + n < 2 ^ 63))

/-- The file after the first `n` bytes were written. -/
def written (file : List UInt8) (offset : Nat) (bytes : List UInt8) (n : Nat) : List UInt8 :=
  if n = 0 then file else pwrite file offset (bytes.take n)

end File

/-- Where a worker is in `WriteLogRecord` or `Flush`. -/
inductive WalPc where
  | idle
  | formatted (xid : Nat) (record : IRMgrWalRecord)
  | locked (xid : Nat) (record : IRMgrWalRecord) (offset : Nat)
  -- `ret` is what the first `pwrite64` returned
  | headerWritten (xid : Nat) (record : IRMgrWalRecord) (offset ret : Nat)
  | bufferWritten (xid : Nat) (record : IRMgrWalRecord) (offset : Nat)
  -- `earlier`: the number was returned before the call
  | flushing (lsn : Nat) (earlier : Bool)
  | flushLocked (lsn : Nat) (earlier : Bool)
  | syncing (lsn : Nat) (earlier : Bool)
  deriving DecidableEq

/-- A record with the number that `WriteLogRecord` returned for it. -/
structure WrittenRecord where
  lsn : Nat
  xid : Nat
  record : IRMgrWalRecord
  deriving DecidableEq

/-- A call of `Flush` that returned, with `_flushed` before and after. -/
structure FlushCall where
  lsn : Nat
  earlier : Bool
  before : Nat
  after : Nat
  skipped : Bool
  deriving DecidableEq

structure WalFile where
  file : List UInt8
  /-- `_end`. -/
  walEnd : Nat
  /-- `_flushed`. -/
  flushed : Nat
  latch : Option Nat
  pc : Nat → WalPc
  /-- The last record first. -/
  returned : List WrittenRecord
  /-- `_end` when a call that threw had got the latch, and when it threw. -/
  thrown : List (Nat × Nat)
  flushes : List FlushCall

inductive WalOp where
  | write (w xid : Nat) (record : IRMgrWalRecord)
  | flush (w lsn : Nat)
  | lock (w : Nat)
  | writeHeader (w : Nat) (ret : Option Nat)
  | writeBuffer (w : Nat) (ret : Option Nat)
  | finish (w : Nat)
  | test (w : Nat)
  | fsync (w : Nat) (ok : Bool)

namespace WalFile

/-- `Open`. -/
def openLog (file : List UInt8) : WalFile := ⟨file, file.length, file.length, none, fun _ => .idle, [], [], []⟩

/-- The place that `Flush` is asked for, in 64 bits. -/
def flushPos (lsn : Nat) : Nat := (lsn + (2 ^ 64 - 1)) % 2 ^ 64

/-- A call with the latch ends. -/
def leave (s : WalFile) (w : Nat) : WalFile := { s with latch := none, pc := Function.update s.pc w .idle }

def throwing (s : WalFile) (w offset : Nat) : WalFile := { s.leave w with thrown := (offset, s.walEnd) :: s.thrown }

def step (dbg : Bool) (s : WalFile) : WalOp → Option WalFile
  | .write w xid record =>
    if s.pc w = .idle ∧ xid < 2 ^ 64 ∧ record.rMgrId < 2 ^ 32 ∧ record.bytes.length < 2 ^ 63 then
      some { s with pc := Function.update s.pc w (.formatted xid record) }
    else none
  | .flush w lsn =>
    if s.pc w = .idle ∧ lsn < 2 ^ 64 ∧ (dbg = true → LogSeqNumber.isValid lsn = true) then
      some { s with pc := Function.update s.pc w (.flushing lsn (s.returned.any fun r => r.lsn == lsn)) }
    else none
  | .lock w =>
    match s.pc w, s.latch with
    | .formatted xid record, none => some { s with
        latch := some w
        pc := Function.update s.pc w (.locked xid record s.walEnd) }
    | .flushing lsn earlier, none => some { s with
        latch := some w
        pc := Function.update s.pc w (.flushLocked lsn earlier) }
    | _, _ => none
  | .writeHeader w ret =>
    match s.pc w with
    | .locked xid record offset =>
      if File.CanWrite offset (record.header xid) ret then
        match ret with
        | none => some (s.throwing w offset)
        -- `File::Write` does not look at the number
        | some n => some { s with
            file := File.written s.file offset (record.header xid) n
            pc := Function.update s.pc w (.headerWritten xid record offset n) }
      else none
    | _ => none
  | .writeBuffer w ret =>
    match s.pc w with
    | .headerWritten xid record offset _ =>
      if File.CanWrite (offset + WALRecordHeader.size) record.bytes ret then
        match ret with
        | none => some (s.throwing w offset)
        | some n => some { s with
            file := File.written s.file (offset + WALRecordHeader.size) record.bytes n
            pc := Function.update s.pc w (.bufferWritten xid record offset) }
      else none
    | _ => none
  | .finish w =>
    match s.pc w with
    | .bufferWritten xid record offset => some { s.leave w with
        walEnd := offset + WALRecordHeader.size + record.bytes.length
        returned := ⟨offset + WALRecordHeader.size + record.bytes.length + 1, xid, record⟩ :: s.returned }
    | _ => none
  | .test w =>
    match s.pc w with
    | .flushLocked lsn earlier =>
      if s.flushed ≤ flushPos lsn then
        some { s.leave w with flushes := ⟨lsn, earlier, s.flushed, s.flushed, true⟩ :: s.flushes }
      else some { s with pc := Function.update s.pc w (.syncing lsn earlier) }
    | _ => none
  | .fsync w ok =>
    match s.pc w with
    | .syncing lsn earlier =>
      if ok then some { s.leave w with
        flushed := s.walEnd
        flushes := ⟨lsn, earlier, s.flushed, s.walEnd, false⟩ :: s.flushes }
      else some (s.leave w)
    | _ => none

end WalFile

/-- The log is synced up to the record, and if this call did not do it an earlier one had. -/
def FlushCall.Covers (e : FlushCall) : Prop := e.lsn - 1 ≤ e.after ∧ (e.skipped = true → e.lsn - 1 ≤ e.before)

instance (e : FlushCall) : Decidable e.Covers := inferInstanceAs (Decidable (_ ∧ _))

namespace WalFile

/-! ## Positions -/

section
variable {s t : WalFile} {base w : Nat}

/-- A number that was returned when the log had `base` bytes at first. -/
def Later (base lsn : Nat) (earlier : Bool) : Prop :=
  lsn < 2 ^ 64 ∧ (earlier = true → base + WALRecordHeader.size < lsn)

def PcInv (base : Nat) (s : WalFile) (w : Nat) : WalPc → Prop
  | .idle | .formatted _ _ => True
  | .locked _ _ offset | .headerWritten _ _ offset _ | .bufferWritten _ _ offset =>
    s.latch = some w ∧ offset = s.walEnd
  | .flushing lsn earlier => Later base lsn earlier
  | .flushLocked lsn earlier => s.latch = some w ∧ Later base lsn earlier
  | .syncing lsn earlier => s.latch = some w ∧ Later base lsn earlier ∧ flushPos lsn < s.flushed

/-- What the two branches of `Flush` leave. -/
def FlushInv (base : Nat) (e : FlushCall) : Prop :=
  Later base e.lsn e.earlier ∧ e.before ≤ e.after ∧
  (e.before ≤ flushPos e.lsn → e.after = e.before ∧ e.skipped = true) ∧
    (flushPos e.lsn < e.before → e.skipped = false)

structure Inv (base : Nat) (s : WalFile) : Prop where
  base_le : base ≤ s.walEnd
  flushed_le : s.flushed ≤ s.walEnd
  returned : ∀ r ∈ s.returned, base + WALRecordHeader.size < r.lsn
  pc : ∀ w, s.PcInv base w (s.pc w)
  flushes : ∀ e ∈ s.flushes, FlushInv base e

/-- What a step does. -/
inductive Effect (s : WalFile) : WalOp → WalFile → Prop where
  | write (w xid : Nat) (record : IRMgrWalRecord) :
    Effect s (.write w xid record) { s with pc := Function.update s.pc w (.formatted xid record) }
  | flush (w lsn : Nat) (hlsn : lsn < 2 ^ 64) :
    Effect s (.flush w lsn) { s with
      pc := Function.update s.pc w (.flushing lsn (s.returned.any fun r => r.lsn == lsn)) }
  | lockWrite (w xid : Nat) (record : IRMgrWalRecord) (hpc : s.pc w = .formatted xid record)
      (hlatch : s.latch = none) :
    Effect s (.lock w) { s with latch := some w, pc := Function.update s.pc w (.locked xid record s.walEnd) }
  | lockFlush (w lsn : Nat) (earlier : Bool) (hpc : s.pc w = .flushing lsn earlier) (hlatch : s.latch = none) :
    Effect s (.lock w) { s with latch := some w, pc := Function.update s.pc w (.flushLocked lsn earlier) }
  | headerThrows (w xid : Nat) (record : IRMgrWalRecord) (offset : Nat) (hpc : s.pc w = .locked xid record offset) :
    Effect s (.writeHeader w none) (s.throwing w offset)
  | header (w xid : Nat) (record : IRMgrWalRecord) (offset n : Nat) (hpc : s.pc w = .locked xid record offset) :
    Effect s (.writeHeader w (some n)) { s with
      file := File.written s.file offset (record.header xid) n
      pc := Function.update s.pc w (.headerWritten xid record offset n) }
  | bufferThrows (w xid : Nat) (record : IRMgrWalRecord) (offset ret : Nat)
      (hpc : s.pc w = .headerWritten xid record offset ret) :
    Effect s (.writeBuffer w none) (s.throwing w offset)
  | buffer (w xid : Nat) (record : IRMgrWalRecord) (offset ret n : Nat)
      (hpc : s.pc w = .headerWritten xid record offset ret) :
    Effect s (.writeBuffer w (some n)) { s with
      file := File.written s.file (offset + WALRecordHeader.size) record.bytes n
      pc := Function.update s.pc w (.bufferWritten xid record offset) }
  | finish (w xid : Nat) (record : IRMgrWalRecord) (offset : Nat)
      (hpc : s.pc w = .bufferWritten xid record offset) :
    Effect s (.finish w) { s.leave w with
      walEnd := offset + WALRecordHeader.size + record.bytes.length
      returned := ⟨offset + WALRecordHeader.size + record.bytes.length + 1, xid, record⟩ :: s.returned }
  | skip (w lsn : Nat) (earlier : Bool) (hpc : s.pc w = .flushLocked lsn earlier) (hc : s.flushed ≤ flushPos lsn) :
    Effect s (.test w) { s.leave w with flushes := ⟨lsn, earlier, s.flushed, s.flushed, true⟩ :: s.flushes }
  | sync (w lsn : Nat) (earlier : Bool) (hpc : s.pc w = .flushLocked lsn earlier) (hc : flushPos lsn < s.flushed) :
    Effect s (.test w) { s with pc := Function.update s.pc w (.syncing lsn earlier) }
  | synced (w lsn : Nat) (earlier : Bool) (hpc : s.pc w = .syncing lsn earlier) :
    Effect s (.fsync w true) { s.leave w with
      flushed := s.walEnd
      flushes := ⟨lsn, earlier, s.flushed, s.walEnd, false⟩ :: s.flushes }
  | syncThrows (w lsn : Nat) (earlier : Bool) (hpc : s.pc w = .syncing lsn earlier) :
    Effect s (.fsync w false) (s.leave w)

theorem effect_of_step {dbg : Bool} {op : WalOp} (ht : s.step dbg op = some t) : s.Effect op t := by
  cases op with
  | write w xid record =>
    simp only [WalFile.step] at ht
    split_ifs at ht
    cases ht
    exact .write w xid record
  | flush w lsn =>
    simp only [WalFile.step] at ht
    split_ifs at ht with hc
    cases ht
    exact .flush w lsn hc.2.1
  | lock w =>
    simp only [WalFile.step] at ht
    split at ht
    next xid record hpc hlatch =>
      cases ht
      exact .lockWrite w xid record hpc hlatch
    next lsn earlier hpc hlatch =>
      cases ht
      exact .lockFlush w lsn earlier hpc hlatch
    next => cases ht
  | writeHeader w ret =>
    simp only [WalFile.step] at ht
    split at ht
    next xid record offset hpc =>
      split_ifs at ht
      cases ret with
      | none =>
        cases ht
        exact .headerThrows w xid record offset hpc
      | some n =>
        cases ht
        exact .header w xid record offset n hpc
    next => cases ht
  | writeBuffer w ret =>
    simp only [WalFile.step] at ht
    split at ht
    next xid record offset n hpc =>
      split_ifs at ht
      cases ret with
      | none =>
        cases ht
        exact .bufferThrows w xid record offset n hpc
      | some m =>
        cases ht
        exact .buffer w xid record offset n m hpc
    next => cases ht
  | finish w =>
    simp only [WalFile.step] at ht
    split at ht
    next xid record offset hpc =>
      cases ht
      exact .finish w xid record offset hpc
    next => cases ht
  | test w =>
    simp only [WalFile.step] at ht
    split at ht
    next lsn earlier hpc =>
      split_ifs at ht with hc
      · cases ht
        exact .skip w lsn earlier hpc hc
      · cases ht
        exact .sync w lsn earlier hpc (Nat.not_le.1 hc)
    next => cases ht
  | fsync w ok =>
    simp only [WalFile.step] at ht
    split at ht
    next lsn earlier hpc =>
      cases ok with
      | true =>
        cases ht
        exact .synced w lsn earlier hpc
      | false =>
        cases ht
        exact .syncThrows w lsn earlier hpc
    next => cases ht

theorem flushPos_eq {lsn : Nat} (h : lsn < 2 ^ 64) (hpos : 0 < lsn) : flushPos lsn = lsn - 1 := by
  rw [flushPos]
  omega

theorem PcInv.of_ne {w' : Nat} {p : WalPc} (h : s.PcInv base w' p) (hl : s.latch ≠ some w') :
    t.PcInv base w' p := by
  cases p with
  | idle => trivial
  | formatted xid record => trivial
  | flushing lsn earlier => exact h
  | locked xid record offset => exact absurd h.1 hl
  | headerWritten xid record offset ret => exact absurd h.1 hl
  | bufferWritten xid record offset => exact absurd h.1 hl
  | flushLocked lsn earlier => exact absurd h.1 hl
  | syncing lsn earlier => exact absurd h.1 hl

theorem pcs_update {p : WalPc} (h : ∀ w, s.PcInv base w (s.pc w)) (hw : t.PcInv base w p)
    (hl : ∀ w', w' ≠ w → s.latch ≠ some w') : ∀ w', t.PcInv base w' (Function.update s.pc w p w') :=
  (Function.forall_update_iff s.pc (t.PcInv base)).2 ⟨hw, fun w' he => (h w').of_ne (hl w' he)⟩

theorem pcs_outside {p : WalPc} (h : ∀ w, s.PcInv base w (s.pc w)) (hw : s.PcInv base w p) :
    ∀ w', s.PcInv base w' (Function.update s.pc w p w') :=
  (Function.forall_update_iff s.pc (s.PcInv base)).2 ⟨hw, fun w' _ => h w'⟩

theorem Inv.leave (h : Inv base s) (hl : s.latch = some w) : Inv base (s.leave w) :=
  ⟨h.base_le, h.flushed_le, h.returned, pcs_update h.pc trivial (holder_alone hl), h.flushes⟩

theorem Inv.throwing (h : Inv base s) (hl : s.latch = some w) (offset : Nat) : Inv base (s.throwing w offset) := by
  have hs := h.leave hl
  exact ⟨hs.base_le, hs.flushed_le, hs.returned, hs.pc, hs.flushes⟩

theorem Inv.pcAt {p : WalPc} (h : Inv base s) (hpc : s.pc w = p) : s.PcInv base w p := hpc ▸ h.pc w

theorem Inv.step {dbg : Bool} {op : WalOp} (h : Inv base s) (ht : s.step dbg op = some t) : Inv base t := by
  cases effect_of_step ht with
  | write w xid record => exact ⟨h.base_le, h.flushed_le, h.returned, pcs_outside h.pc trivial, h.flushes⟩
  | flush w lsn hlsn =>
    refine ⟨h.base_le, h.flushed_le, h.returned, pcs_outside h.pc ⟨hlsn, fun he => ?_⟩, h.flushes⟩
    obtain ⟨r, hr, hl⟩ := List.any_eq_true.1 he
    rw [← beq_iff_eq.1 hl]
    exact h.returned r hr
  | lockWrite w xid record hpc hlatch =>
    refine ⟨h.base_le, h.flushed_le, h.returned, pcs_update h.pc ⟨rfl, rfl⟩ fun w' _ => ?_, h.flushes⟩
    rw [hlatch]
    nofun
  | lockFlush w lsn earlier hpc hlatch =>
    refine ⟨h.base_le, h.flushed_le, h.returned, pcs_update h.pc ⟨rfl, h.pcAt hpc⟩ fun w' _ => ?_, h.flushes⟩
    rw [hlatch]
    nofun
  | headerThrows w xid record offset hpc => exact h.throwing (h.pcAt hpc).1 offset
  | bufferThrows w xid record offset ret hpc => exact h.throwing (h.pcAt hpc).1 offset
  | header w xid record offset n hpc =>
    have hw := h.pcAt hpc
    exact ⟨h.base_le, h.flushed_le, h.returned, pcs_update h.pc hw (holder_alone hw.1), h.flushes⟩
  | buffer w xid record offset ret n hpc =>
    have hw := h.pcAt hpc
    exact ⟨h.base_le, h.flushed_le, h.returned, pcs_update h.pc hw (holder_alone hw.1), h.flushes⟩
  | finish w xid record offset hpc =>
    obtain ⟨hlatch, hoff⟩ := h.pcAt hpc
    have hbase := h.base_le
    have hflushed := h.flushed_le
    refine ⟨by simp only; omega, by simp only [WalFile.leave]; omega, fun r hr => ?_,
      pcs_update h.pc trivial (holder_alone hlatch), h.flushes⟩
    rcases List.mem_cons.1 hr with rfl | hr
    · simp only
      omega
    · exact h.returned r hr
  | skip w lsn earlier hpc hc =>
    obtain ⟨hlatch, hlater⟩ := h.pcAt hpc
    have hs := h.leave hlatch
    refine ⟨hs.base_le, hs.flushed_le, hs.returned, hs.pc, fun e he => ?_⟩
    rcases List.mem_cons.1 he with rfl | he
    · exact ⟨hlater, le_rfl, fun _ => ⟨rfl, rfl⟩, fun hlt => absurd hc (Nat.not_le.2 hlt)⟩
    · exact h.flushes e he
  | sync w lsn earlier hpc hc =>
    obtain ⟨hlatch, hlater⟩ := h.pcAt hpc
    exact ⟨h.base_le, h.flushed_le, h.returned, pcs_update h.pc ⟨hlatch, hlater, hc⟩ (holder_alone hlatch),
      h.flushes⟩
  | synced w lsn earlier hpc =>
    obtain ⟨hlatch, hlater, hpos⟩ := h.pcAt hpc
    have hs := h.leave hlatch
    refine ⟨hs.base_le, le_rfl, hs.returned, pcs_update h.pc trivial (holder_alone hlatch), fun e he => ?_⟩
    rcases List.mem_cons.1 he with rfl | he
    · exact ⟨hlater, h.flushed_le, fun hle => absurd hpos (Nat.not_lt.2 hle), fun _ => rfl⟩
    · exact h.flushes e he
  | syncThrows w lsn earlier hpc => exact h.leave (h.pcAt hpc).1

theorem inv_openLog (file : List UInt8) : Inv file.length (openLog file) :=
  ⟨le_rfl, le_rfl, nofun, fun _ => trivial, nofun⟩

theorem Inv.reach {dbg : Bool} {C : WalFile → WalOp → Prop} (h : Inv base s) (hr : Reach (WalFile.step dbg) C s t) :
    Inv base t :=
  hr.inv (I := Inv base) (fun _ _ _ hi _ ht => Inv.step hi ht) h

/-! ## Flushes -/

theorem flushed_step {dbg : Bool} {op : WalOp} (h : s.flushed ≤ s.walEnd) (ht : s.step dbg op = some t) :
    s.flushed ≤ t.flushed := by
  cases effect_of_step ht with
  | synced w lsn earlier hpc => exact h
  | _ => exact le_rfl

theorem flushed_mono {dbg : Bool} (h : Inv base s) (hr : Reach (WalFile.step dbg) anyStep s t) :
    s.flushed ≤ t.flushed := by
  induction hr with
  | refl => exact le_rfl
  | tail op hr _ ht ih => exact le_trans ih (flushed_step (h.reach hr).flushed_le ht)

/-- The early return is taken when it should not be, up to the case that there is nothing to do. -/
theorem FlushInv.covers_iff {e : FlushCall} (h : FlushInv base e) (he : e.earlier = true) :
    e.Covers ↔ e.lsn - 1 ≤ e.before := by
  obtain ⟨⟨hlt, hearlier⟩, hle, hskip, hsync⟩ := h
  have hlater := hearlier he
  rw [flushPos_eq hlt (by omega)] at hskip
  refine ⟨fun hc => ?_, fun hb => ⟨le_trans hb hle, fun _ => hb⟩⟩
  by_contra hb
  obtain ⟨-, hskipped⟩ := hskip (by omega)
  exact hb (hc.2 hskipped)

/-- Only numbers that `WriteLogRecord` returned are flushed. -/
def FlushesReturned (s : WalFile) : WalOp → Prop
  | .flush _ lsn => lsn ∈ s.returned.map WrittenRecord.lsn
  | _ => True

instance (s : WalFile) : (op : WalOp) → Decidable (FlushesReturned s op)
  | .flush _ lsn => inferInstanceAs (Decidable (lsn ∈ s.returned.map WrittenRecord.lsn))
  | .write .. | .lock _ | .writeHeader .. | .writeBuffer .. | .finish _ | .test _ | .fsync .. =>
    inferInstanceAs (Decidable True)

/-- Every flush in progress is for a number that was returned, and nothing is synced. -/
def UnsyncedPc : WalPc → Prop
  | .flushing _ earlier | .flushLocked _ earlier => earlier = true
  | .syncing _ _ => False
  | _ => True

structure Unsynced (base : Nat) (s : WalFile) : Prop where
  flushed : s.flushed = base
  pc : ∀ w, UnsyncedPc (s.pc w)
  flushes : ∀ e ∈ s.flushes, e.earlier = true ∧ e.before = base

theorem unsyncedPc_update {p : WalPc} (h : ∀ w, UnsyncedPc (s.pc w)) (hp : UnsyncedPc p) :
    ∀ w', UnsyncedPc (Function.update s.pc w p w') :=
  (Function.forall_update_iff s.pc fun _ => UnsyncedPc).2 ⟨hp, fun w' _ => h w'⟩

theorem Unsynced.leave (h : Unsynced base s) (w : Nat) : Unsynced base (s.leave w) :=
  ⟨h.flushed, unsyncedPc_update h.pc trivial, h.flushes⟩

theorem Unsynced.pcAt {p : WalPc} (h : Unsynced base s) (hpc : s.pc w = p) : UnsyncedPc p := hpc ▸ h.pc w

theorem Unsynced.step {dbg : Bool} {op : WalOp} (hi : Inv base s) (h : Unsynced base s) (hop : FlushesReturned s op)
    (ht : s.step dbg op = some t) : Unsynced base t := by
  cases effect_of_step ht with
  | write w xid record => exact ⟨h.flushed, unsyncedPc_update h.pc trivial, h.flushes⟩
  | flush w lsn hlsn =>
    obtain ⟨r, hr, hl⟩ := List.mem_map.1 hop
    have hany : (s.returned.any fun r => r.lsn == lsn) = true := List.any_eq_true.2 ⟨r, hr, beq_iff_eq.2 hl⟩
    exact ⟨h.flushed, unsyncedPc_update h.pc hany, h.flushes⟩
  | lockWrite w xid record hpc hlatch => exact ⟨h.flushed, unsyncedPc_update h.pc trivial, h.flushes⟩
  | lockFlush w lsn earlier hpc hlatch =>
    have hearlier : UnsyncedPc (.flushing lsn earlier) := h.pcAt hpc
    exact ⟨h.flushed, unsyncedPc_update h.pc hearlier, h.flushes⟩
  | headerThrows w xid record offset hpc => exact ⟨h.flushed, (h.leave w).pc, h.flushes⟩
  | bufferThrows w xid record offset ret hpc => exact ⟨h.flushed, (h.leave w).pc, h.flushes⟩
  | header w xid record offset n hpc => exact ⟨h.flushed, unsyncedPc_update h.pc trivial, h.flushes⟩
  | buffer w xid record offset ret n hpc => exact ⟨h.flushed, unsyncedPc_update h.pc trivial, h.flushes⟩
  | finish w xid record offset hpc => exact ⟨h.flushed, (h.leave w).pc, h.flushes⟩
  | skip w lsn earlier hpc hc =>
    refine ⟨h.flushed, (h.leave w).pc, fun e he => ?_⟩
    rcases List.mem_cons.1 he with rfl | he
    · exact ⟨h.pcAt hpc, h.flushed⟩
    · exact h.flushes e he
  | sync w lsn earlier hpc hc =>
    obtain ⟨-, hlt, hlater⟩ := hi.pcAt hpc
    have hlsn := hlater (h.pcAt hpc)
    -- a number that was returned lies beyond what the log had at first
    rw [flushPos_eq hlt (by omega), h.flushed] at hc
    omega
  | synced w lsn earlier hpc => exact (h.pcAt hpc).elim
  | syncThrows w lsn earlier hpc => exact (h.pcAt hpc).elim

theorem Unsynced.reach {dbg : Bool} {file : List UInt8}
    (hr : Reach (WalFile.step dbg) FlushesReturned (openLog file) s) :
    Unsynced file.length s :=
  (hr.inv (I := fun u => Inv file.length u ∧ Unsynced file.length u)
    (fun _ _ _ hi hc ht => ⟨hi.1.step ht, hi.2.step hi.1 hc ht⟩)
    ⟨inv_openLog file, rfl, fun _ => trivial, nofun⟩).2

/-- A flush of a returned number does what it is for only if the log was synced as far before; when nothing
but returned numbers is flushed, none does. `_flushed` stays within the log and never decreases. -/
theorem flush_covers_iff {dbg : Bool} {file : List UInt8} (h : Reach (WalFile.step dbg) anyStep (openLog file) s) :
    (s.flushed ≤ s.walEnd ∧ ∀ t, Reach (WalFile.step dbg) anyStep s t → s.flushed ≤ t.flushed) ∧
      (∀ e ∈ s.flushes, e.earlier = true → (e.Covers ↔ e.lsn - 1 ≤ e.before)) ∧
      (Reach (WalFile.step dbg) FlushesReturned (openLog file) s → ∀ e ∈ s.flushes, ¬ e.Covers) := by
  have hs := (inv_openLog file).reach h
  have hiff : ∀ e ∈ s.flushes, e.earlier = true → (e.Covers ↔ e.lsn - 1 ≤ e.before) := fun e he hearlier =>
    (hs.flushes e he).covers_iff hearlier
  refine ⟨⟨hs.flushed_le, fun t ht => flushed_mono hs ht⟩, hiff, fun hr e he hc => ?_⟩
  obtain ⟨hearlier, hbefore⟩ := (Unsynced.reach hr).flushes e he
  obtain ⟨⟨-, hlater⟩, -⟩ := hs.flushes e he
  have hlsn := hlater hearlier
  have hle := (hiff e he hearlier).1 hc
  have hsize : WALRecordHeader.size = 24 := rfl
  omega

/-- A worker writes a record of one byte. -/
def writeOne (w : Nat) : List WalOp :=
  [.write w 7 ⟨1, [9]⟩, .lock w, .writeHeader w (some 24), .writeBuffer w (some 1), .finish w]

/-- The flush of a number that was not returned syncs, the next one has nothing to do. -/
theorem flush_covers_second : ∃ s, Reach (WalFile.step true) anyStep (openLog [0]) s ∧ s.flushed = 26 ∧
    ∃ e ∈ s.flushes, e.lsn = 27 ∧ e.earlier = true ∧ e.Covers := by
  have h : (exec (WalFile.step true) (openLog [0])
      (writeOne 1 ++ [.flush 2 1, .lock 2, .test 2, .fsync 2 true, .flush 1 27, .lock 1, .test 1])).map (fun s =>
      decide (s.flushed = 26 ∧ s.flushes.head? = some ⟨27, true, 26, 26, true⟩)) = some true := by decide +kernel
  obtain ⟨s, hr, hs⟩ := reach_of_test h
  obtain ⟨hflushed, hhead⟩ := of_decide_eq_true hs
  have he := List.mem_of_mem_head? hhead
  exact ⟨s, hr, hflushed, _, he, rfl, rfl, ((flush_covers_iff hr).2.1 _ he rfl).2 (by decide)⟩

/-- The flush of the first record returns without a sync. -/
theorem flush_skipped : ∃ s, Reach (WalFile.step true) anyStep (openLog []) s ∧
    ∃ e ∈ s.flushes, e.lsn = 26 ∧ e.earlier = true ∧ e.skipped = true ∧ e.after = 0 ∧ ¬ e.Covers := by
  have h : (exec (WalFile.step true) (openLog []) (writeOne 1 ++ [.flush 1 26, .lock 1, .test 1])).map (fun s =>
      decide (s.flushes.head? = some ⟨26, true, 0, 0, true⟩)) = some true := by decide +kernel
  obtain ⟨s, hr, hs⟩ := reach_of_test h
  exact ⟨s, hr, _, List.mem_of_mem_head? (of_decide_eq_true hs), rfl, rfl, rfl, rfl, by decide⟩

end

end WalFile

end Mimidb
