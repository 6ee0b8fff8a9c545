import Mimidb.RowSlots

/-!
# Rollback

One transaction changes rows in place, among others that leave these rows
alone, and undoes its changes. An undo that writes an image back does not mark
the page dirty, so an eviction of the page in the middle of a rollback, or
after it, brings the changed version back from the file.
-/

namespace Mimidb

open HeapStore

structure RollbackRun where
  store : HeapStore
  /-- The pages of the relation file. -/
  disk : Nat → Memory
  /-- `VirtualUndoLog::_history`, the last record first. -/
  history : List Int
  undoing : Bool

inductive RollbackOp where
  | update (tid : TupleId) (values : Values) (fuel : Nat)
  | delete (tid : TupleId)
  /-- `UndoAllRecords` comes to its next record. -/
  | undo
  | others (store : HeapStore) (disk : Nat → Memory)
  /-- `tryVacateEntry`, and the next read of the page. -/
  | evict (pageno : Nat)

namespace RollbackRun

variable (dbg : Bool) (tableId myXid : Nat) (desc : TupleDescriptor) (wait : Nat → HeapM Unit)

def start (store : HeapStore) (disk : Nat → Memory) : RollbackRun := ⟨store, disk, [], false⟩

/-- A call on the version that the slot has. -/
def call (s : RollbackRun) (tid : TupleId) (change : HeapTuple Values → HeapM Unit) : Option RollbackRun :=
  match s.undoing, s.store.decoded dbg desc tid with
  | false, .ok old =>
    if old.header.flags.Deleted then none
    else match change old s.store with
      | (.ok (), u) => some { s with store := u, history := (s.store.undoSize + 1 : Int) :: s.history }
      | (.error _, _) => none
  | _, _ => none

def evict (s : RollbackRun) (pageno : Nat) : RollbackRun :=
  { s with store := (s.store.evicted s.disk pageno).1, disk := (s.store.evicted s.disk pageno).2 }

def step (s : RollbackRun) : RollbackOp → Option RollbackRun
  | .update tid values fuel =>
    if (heapTable dbg tableId myXid desc).fits s.store tid values then
      s.call dbg desc tid fun old => (heapTable dbg tableId myXid desc).updateTuple wait old values fuel
    else none
  | .delete tid => s.call dbg desc tid fun old => (heapTable dbg tableId myXid desc).deleteTuple wait old
  | .undo =>
    match s.history with
    | [] => none
    | usn :: history =>
      match performUndo dbg usn s.store with
      | (.ok (), u) => some ⟨u, s.disk, history, true⟩
      | (.error _, _) => none
  | .others store disk => some { s with store := store, disk := disk }
  | .evict pageno => some (s.evict pageno)

/-! ## Rows -/

/-- Rows with a version each, in slots of their own. -/
structure Rows (rows : Set TupleId) (s : HeapStore) : Prop where
  slots : Slots rows s
  version :
    ∀ r ∈ rows, ∃ header values bytes rest, IsVersion dbg desc header values bytes ∧ s.content r = bytes ++ rest

/-- The calls are on the rows, and the offsets of the undo log have 64 bits. -/
def Setting (rows : Set TupleId) (s : RollbackRun) : RollbackOp → Prop
  | .update tid _ _ | .delete tid => tid ∈ rows ∧ s.store.undoSize + 1 < 2 ^ 63
  | .undo => True
  | .others store _ => Leaves rows s.store store
  | .evict _ => True

/-- No page is evicted while it has changes that are neither marked nor in the file. -/
def Unlost (s : RollbackRun) : RollbackOp → Prop
  | .evict pageno => s.store.Unlost s.disk pageno
  | _ => True

/-- The rest of the rollback goes through and every row is as it was in `s0`. -/
def RollsBack (rows : Set TupleId) (s0 : HeapStore) (s : RollbackRun) : Prop :=
  ∃ u, VirtualUndoLog.undoAllRecords dbg s.history s.store = (.ok (), u) ∧
    ∀ r ∈ rows, ∃ tuple, s0.decoded dbg desc r = .ok tuple ∧ u.decoded dbg desc r = .ok tuple

/-! ## Records and versions -/

/-- The records undo what the slots have to `orig`; behind it a slot may hold anything. -/
inductive Undoes (rows : Set TupleId) (length : TupleId → Nat) (orig : TupleId → List UInt8)
    (undo : Int → Option HeapUndoRecord) :
    List Int → (TupleId → List UInt8) → Prop where
  | nil {cur : TupleId → List UInt8} : (∀ r ∈ rows, cur r = orig r) → Undoes rows length orig undo [] cur
  | cons {usn : Int} {history : List Int} {cur : TupleId → List UInt8} {tid : TupleId} {record : HeapUndoRecord}
    {before rest : List UInt8} : undo usn = some record → record.RestoresAt tid (before ++ rest) → tid ∈ rows →
    HeapPageTupleHeader.size ≤ (cur tid).length → (HeapPageTupleHeader.ofBytes (cur tid)).undo = usn →
    (before ++ rest).length ≤ length tid → Undoes rows length orig undo history (Function.update cur tid before) →
    Undoes rows length orig undo (usn :: history) cur

section
variable {dbg tableId myXid desc wait} {rows : Set TupleId} {length : TupleId → Nat}
  {orig cur cur' : TupleId → List UInt8}
  {undo undo' : Int → Option HeapUndoRecord} {history : List Int} {s u s0 : HeapStore} {tid : TupleId}

theorem Undoes.congr (h : Undoes rows length orig undo history cur) (hc : ∀ r ∈ rows, cur' r = cur r) :
    Undoes rows length orig undo history cur' := by
  induction h generalizing cur' with
  | nil h0 => exact .nil fun r hr => (hc r hr).trans (h0 r hr)
  | @cons usn history cur tid record before rest hrec hres htid hsize hundo hlen _ ih =>
    have he := hc tid htid
    refine .cons hrec hres htid (he ▸ hsize) (he ▸ hundo) hlen (ih fun r hr => ?_)
    by_cases hrt : r = tid
    · rw [hrt, Function.update_self, Function.update_self]
    · rw [Function.update_of_ne hrt, Function.update_of_ne hrt]
      exact hc r hr

theorem Undoes.mono (h : Undoes rows length orig undo history cur) (hu : ∀ usn ∈ history, undo' usn = undo usn) :
    Undoes rows length orig undo' history cur := by
  induction h with
  | nil h0 => exact .nil h0
  | cons hrec hres htid hsize hundo hlen _ ih =>
    exact .cons ((hu _ List.mem_cons_self).trans hrec) hres htid hsize hundo hlen
      (ih fun usn h => hu usn (List.mem_cons_of_mem _ h))

/-- A version, or a tuple marked as deleted. -/
def Current (dbg : Bool) (desc : TupleDescriptor) (bytes : List UInt8) : Prop :=
  (∃ header values, IsVersion dbg desc header values bytes) ∨
    (HeapPageTupleHeader.size ≤ bytes.length ∧ (HeapPageTupleHeader.ofBytes bytes).flags.Deleted = true)

theorem Current.size_le {bytes : List UInt8} (h : Current dbg desc bytes) :
    HeapPageTupleHeader.size ≤ bytes.length := by
  rcases h with ⟨header, values, h⟩ | ⟨h, -⟩
  · exact h.size_le
  · exact h

/-- Every slot starts with the bytes of `cur`. -/
def Holds (rows : Set TupleId) (s : HeapStore) (cur : TupleId → List UInt8) : Prop :=
  ∀ r ∈ rows, ∃ rest, s.content r = cur r ++ rest

/-- The state of a rollback, or before it. -/
structure Rolling (dbg : Bool) (desc : TupleDescriptor) (rows : Set TupleId) (s0 : HeapStore)
    (orig : TupleId → List UInt8) (s : RollbackRun) (cur : TupleId → List UInt8) : Prop where
  slots : Slots rows s.store
  item : ∀ r ∈ rows, s.store.item r = s0.item r
  recorded : ∀ usn ∈ s.history, usn ≤ s.store.undoSize
  holds : Holds rows s.store cur
  undoes : Undoes rows (fun r => (s0.item r).length) orig s.store.undo s.history cur
  current : s.undoing = false → ∀ r ∈ rows, Current dbg desc (cur r)

theorem Rolling.holds_update {s : RollbackRun} (h : Rolling dbg desc rows s0 orig s cur)
    {bytes rest : List UInt8} (htid : tid ∈ rows) (hc : SlotChange s.store u tid (bytes ++ rest)) :
    Holds rows u (Function.update cur tid bytes) := by
  intro r hr
  by_cases hrt : r = tid
  · rw [hrt, Function.update_self]
    exact ⟨rest, hc.content⟩
  · rw [Function.update_of_ne hrt, h.slots.content_ne hc htid hr hrt]
    exact h.holds r hr

/-! ## Undo -/

theorem Rolling.undoNext {s : RollbackRun} {usn : Int} {history : List Int}
    (h : Rolling dbg desc rows s0 orig s cur) (hs : s.history = usn :: history) :
    ∃ u cur', performUndo dbg usn s.store = (.ok (), u) ∧
    Rolling dbg desc rows s0 orig ⟨u, s.disk, history, true⟩ cur' := by
  have hundoes := h.undoes
  rw [hs] at hundoes
  cases hundoes with
  | @cons _ _ _ tid record before rest hrec hres htid hsize hundo hlen hrest =>
    obtain ⟨after, hafter⟩ := h.holds tid htid
    have hitem := h.item tid htid
    have hlen' : (before ++ rest).length ≤ (s.store.item tid).length := by rw [hitem]; exact hlen
    have hundo' : (HeapPageTupleHeader.ofBytes (s.store.content tid)).undo = usn := by
      rw [hafter, HeapPageTupleHeader.ofBytes_append hsize]
      exact hundo
    have hc := UndoApplierVisitor.restored_slotChange (h.slots.placed tid htid) hlen'
    rw [List.append_assoc] at hc
    refine ⟨_, Function.update cur tid before, performUndo_inPlace hrec hres (h.slots.placed tid htid) hundo' hlen',
      ?_⟩
    refine ⟨h.slots.change hc, fun r hr => ?_, fun n hn => ?_, h.holds_update htid hc, hrest, nofun⟩
    · rw [hc.item r (h.slots.placed r hr)]
      exact h.item r hr
    · exact h.recorded n (hs ▸ List.mem_cons_of_mem _ hn)

theorem Rolling.undoAll : ∀ {history : List Int} {s : RollbackRun} {cur : TupleId → List UInt8},
    s.history = history → Rolling dbg desc rows s0 orig s cur →
    ∃ u cur', VirtualUndoLog.undoAllRecords dbg history s.store = (.ok (), u) ∧
      Rolling dbg desc rows s0 orig ⟨u, s.disk, [], true⟩ cur' := by
  intro history
  induction history with
  | nil =>
    intro s cur hs h
    have hundoes := h.undoes
    rw [hs] at hundoes
    exact ⟨s.store, cur, rfl, ⟨h.slots, h.item, nofun, h.holds, hundoes, nofun⟩⟩
  | cons usn history ih =>
    intro s cur hs h
    obtain ⟨u, cur', hu, h'⟩ := h.undoNext hs
    obtain ⟨v, cur'', hv, h''⟩ := ih (show (⟨u, s.disk, history, true⟩ : RollbackRun).history = history from rfl) h'
    refine ⟨v, cur'', ?_, h''⟩
    show (performUndo dbg usn >>= fun _ => VirtualUndoLog.undoAllRecords dbg history) s.store = _
    rw [Fallible.bind_ok hu]
    exact hv

/-! ## Changes -/

theorem Rolling.changed {s : RollbackRun} {record : HeapUndoRecord} {bytes rest : List UInt8}
    (h : Rolling dbg desc rows s0 orig s cur) (htid : tid ∈ rows)
    (hlog : HeapTable.Logged s.store u record) (hres : record.RestoresAt tid (cur tid ++ rest))
    (hlen : (cur tid ++ rest).length ≤ (s.store.item tid).length) (hcur : Current dbg desc bytes)
    (hundo : (HeapPageTupleHeader.ofBytes bytes).undo = s.store.undoSize + 1) {rest' : List UInt8}
    (hc : SlotChange s.store u tid (bytes ++ rest')) (hrun : s.undoing = false) :
    Rolling dbg desc rows s0 orig { s with store := u, history := (s.store.undoSize + 1 : Int) :: s.history }
      (Function.update cur tid bytes) := by
  have hsize : s.store.undoSize + 1 ≤ u.undoSize := by rw [hlog.undoSize]; omega
  refine ⟨h.slots.change hc, fun r hr => ?_, fun n hn => ?_, h.holds_update htid hc, ?_, fun _ r hr => ?_⟩
  · rw [hc.item r (h.slots.placed r hr)]
    exact h.item r hr
  · rcases List.mem_cons.1 hn with rfl | hn
    · show ((s.store.undoSize : Int) + 1) ≤ u.undoSize
      omega
    · have := h.recorded n hn
      show n ≤ (u.undoSize : Int)
      omega
  · have hrest : Undoes rows (fun r => (s0.item r).length) orig u.undo s.history cur := by
      apply h.undoes.mono
      intro n hn
      have := h.recorded n hn
      rw [hlog.undo]
      exact Function.update_of_ne (by omega) _ _
    refine .cons (by rw [hlog.undo]; exact Function.update_self _ _ _) hres htid ?_ ?_ ?_
      (hrest.congr fun r hr => ?_)
    · rw [Function.update_self]
      exact hcur.size_le
    · rw [Function.update_self]
      exact hundo
    · rw [← h.item tid htid]
      exact hlen
    · rw [Function.update_idem, Function.update_eq_self]
  · by_cases hrt : r = tid
    · rw [hrt, Function.update_self]
      exact hcur
    · rw [Function.update_of_ne hrt]
      exact h.current hrun r hr

theorem Rolling.of_call {s t : RollbackRun} {change : HeapTuple Values → HeapM Unit}
    (h : Rolling dbg desc rows s0 orig s cur) (htid : tid ∈ rows)
    (hs : s.call dbg desc tid change = some t) : ∃ header values u,
      s.undoing = false ∧ IsVersion dbg desc header values (cur tid) ∧
      change ⟨header, values, tid⟩ s.store = (.ok (), u) ∧
      t = { s with store := u, history := (s.store.undoSize + 1 : Int) :: s.history } := by
  obtain ⟨rest, hrest⟩ := h.holds tid htid
  unfold call at hs
  cases hrun : s.undoing with
  | true =>
    rw [hrun] at hs
    cases hs
  | false =>
    rcases h.current hrun tid htid with ⟨header, values, hv⟩ | ⟨hsize, hdel⟩
    · have hdec : s.store.decoded dbg desc tid = .ok ⟨header, values, tid⟩ :=
        slotTuple_of_version (h.slots.placed tid htid) hv hrest
      have hflags : header.flags.Deleted = false := by rw [hv.flags]
      simp only [hrun, hdec, hflags, Bool.false_eq_true, if_false] at hs
      split at hs
      · rename_i u hu
        refine ⟨header, values, u, rfl, hv, hu, ?_⟩
        exact (Option.some.inj hs).symm
      · cases hs
    · cases hdec : s.store.decoded dbg desc tid with
      | error err => simp only [hrun, hdec] at hs; cases hs
      | ok old =>
        have hdeleted : old.header.flags.Deleted = true := by
          rw [(h.slots.placed tid htid).decoded_header hrest hsize hdec]
          exact hdel
        simp only [hrun, hdec, hdeleted, if_true] at hs
        cases hs

theorem Rolling.length_le {s : RollbackRun} {rest : List UInt8} (hrest : s.store.content tid = cur tid ++ rest) :
    (cur tid).length ≤ (s.store.item tid).length := by
  rw [← content_length, hrest, List.length_append]
  exact Nat.le_add_right _ _

theorem Rolling.update {s t : RollbackRun} {values : Values} {fuel : Nat} (h : Rolling dbg desc rows s0 orig s cur)
    (htid : tid ∈ rows) (hx : myXid < 2 ^ 64) (hlt : s.store.undoSize + 1 < 2 ^ 63)
    (hfits : (heapTable dbg tableId myXid desc).fits s.store tid values = true)
    (hs : s.call dbg desc tid (fun old => (heapTable dbg tableId myXid desc).updateTuple wait old values fuel) =
      some t) :
    ∃ cur', Rolling dbg desc rows s0 orig t cur' := by
  obtain ⟨header, values0, u, hrun, hv, hu, rfl⟩ := h.of_call htid hs
  obtain ⟨data, hdata, hfit⟩ := HeapTable.fits_iff.1 hfits
  obtain ⟨rest, hrest⟩ := h.holds tid htid
  have hxid : (HeapPageTupleHeader.ofBytes (s.store.content tid)).xid = header.xid := by
    rw [hrest, hv.ofBytes_eq]
  obtain ⟨u', hu', hlog, hc⟩ :=
    HeapTable.updateTuple_inPlace (heapTable dbg tableId myXid desc) ⟨header, values0, tid⟩ wait fuel
    (h.slots.placed tid htid) hxid hv.serialize hdata hfit
  rw [hu] at hu'
  cases hu'
  have hb : HeapPageTupleHeader.Bounded ⟨myXid, s.store.undoSize + 1, ⟨false, false⟩⟩ := ⟨hx, by simp only; omega⟩
  obtain ⟨header', values', -, hundo, hv'⟩ := isVersion_of_serialize hb hdata
  have hres : (HeapUndoRecord.Update tableId tid tid (cur tid)).RestoresAt tid (cur tid ++ []) := by
    rw [List.append_nil]
    exact .inl ⟨tableId, rfl⟩
  refine ⟨_, h.changed htid hlog hres ?_ (.inl ⟨header', values', hv'⟩) ?_ hc hrun⟩
  · rw [List.append_nil]
    exact Rolling.length_le hrest
  · have := hv'.ofBytes_eq []
    rw [List.append_nil] at this
    rw [this]
    exact hundo

theorem Rolling.delete {s t : RollbackRun} (h : Rolling dbg desc rows s0 orig s cur)
    (htid : tid ∈ rows) (hx : myXid < 2 ^ 64) (hlt : s.store.undoSize + 1 < 2 ^ 63)
    (hs : s.call dbg desc tid (fun old => (heapTable dbg tableId myXid desc).deleteTuple wait old) = some t) :
    ∃ cur', Rolling dbg desc rows s0 orig t cur' := by
  obtain ⟨header, values0, u, hrun, hv, hu, rfl⟩ := h.of_call htid hs
  obtain ⟨rest, hrest⟩ := h.holds tid htid
  have hxid : (HeapPageTupleHeader.ofBytes (s.store.content tid)).xid = header.xid := by
    rw [hrest, hv.ofBytes_eq]
  obtain ⟨u', hu', hlog, hc⟩ :=
    HeapTable.deleteTuple_inPlace (heapTable dbg tableId myXid desc) ⟨header, values0, tid⟩ wait
    (h.slots.placed tid htid) hxid
  rw [hu] at hu'
  cases hu'
  have hb : HeapPageTupleHeader.Bounded ((heapTable dbg tableId myXid desc).deletedHeader (s.store.undoSize + 1)) :=
    ⟨hx, by simp only [HeapTable.deletedHeader]; omega⟩
  have hread := HeapPageTupleHeader.ofBytes_toBytes hb []
  rw [List.append_nil] at hread
  have hres : (HeapUndoRecord.Insert tableId tid (s.store.content tid)).RestoresAt tid (cur tid ++ rest) := by
    rw [hrest]
    exact .inr ⟨tableId, rfl⟩
  refine ⟨_, h.changed htid hlog hres ?_ (.inr ⟨?_, ?_⟩) ?_ hc hrun⟩
  · rw [← hrest, content_length]
  · exact Nat.le_of_eq (HeapPageTupleHeader.toBytes_length _).symm
  · rw [hread]
    rfl
  · rw [hread]
    rfl

/-! ## What others and evictions do -/

theorem Rolling.leaves {s : RollbackRun} (h : Rolling dbg desc rows s0 orig s cur) (hl : Leaves rows s.store u)
    (disk : Nat → Memory) : Rolling dbg desc rows s0 orig { s with store := u, disk := disk } cur := by
  have hsize := hl.undoSize
  refine ⟨h.slots.leaves hl, fun r hr => ?_, fun n hn => ?_, fun r hr => ?_, ?_, h.current⟩
  · exact (hl.item r hr).trans (h.item r hr)
  · have := h.recorded n hn
    show n ≤ (u.undoSize : Int)
    omega
  · rw [hl.content r hr]
    exact h.holds r hr
  · exact h.undoes.mono fun n hn => hl.undo n (h.recorded n hn)

theorem Rolling.step {s t : RollbackRun} {op : RollbackOp} (h : Rolling dbg desc rows s0 orig s cur)
    (hx : myXid < 2 ^ 64) (hset : Setting rows s op) (hun : Unlost s op)
    (ht : step dbg tableId myXid desc wait s op = some t) : ∃ cur', Rolling dbg desc rows s0 orig t cur' := by
  cases op with
  | update tid values fuel =>
    unfold RollbackRun.step at ht
    simp only at ht
    split_ifs at ht with hfits
    exact h.update hset.1 hx hset.2 hfits ht
  | delete tid => exact h.delete hset.1 hx hset.2 ht
  | undo =>
    unfold RollbackRun.step at ht
    simp only at ht
    cases hs : s.history with
    | nil =>
      rw [hs] at ht
      cases ht
    | cons usn history =>
      obtain ⟨u, cur', hu, h'⟩ := h.undoNext hs
      simp only [hs, hu] at ht
      cases ht
      exact ⟨cur', h'⟩
  | others store disk =>
    cases ht
    exact ⟨cur, h.leaves hset disk⟩
  | evict pageno =>
    cases ht
    exact ⟨cur, h.leaves (evicted_leaves hun) _⟩

theorem Rows.start (h0 : Rows dbg desc rows s0) (disk : Nat → Memory) :
    ∃ orig, Rolling dbg desc rows s0 orig (start s0 disk) orig ∧
    ∀ r ∈ rows, ∃ header values rest, IsVersion dbg desc header values (orig r) ∧
    s0.content r = orig r ++ rest := by
  have hall : ∀ r, ∃ bytes, r ∈ rows → ∃ header values rest,
      IsVersion dbg desc header values bytes ∧ s0.content r = bytes ++ rest := by
    intro r
    by_cases hr : r ∈ rows
    · obtain ⟨header, values, bytes, rest, hv, hc⟩ := h0.version r hr
      exact ⟨bytes, fun _ => ⟨header, values, rest, hv, hc⟩⟩
    · exact ⟨[], fun h => absurd h hr⟩
  choose orig horig using hall
  refine ⟨orig, ⟨h0.slots, fun _ _ => rfl, nofun, fun r hr => ?_, .nil fun _ _ => rfl, fun _ r hr => ?_⟩, horig⟩
  · obtain ⟨header, values, rest, hv, hc⟩ := horig r hr
    exact ⟨rest, hc⟩
  · obtain ⟨header, values, rest, hv, hc⟩ := horig r hr
    exact .inl ⟨header, values, hv⟩

end

/-- With no eviction of a changed page that is not marked, the rollback restores every row. -/
theorem rolls_back {dbg : Bool} {tableId myXid : Nat} {desc : TupleDescriptor} {wait : Nat → HeapM Unit}
    {rows : Set TupleId} {s0 : HeapStore} {disk : Nat → Memory} {s : RollbackRun} (hx : myXid < 2 ^ 64)
    (h0 : Rows dbg desc rows s0)
    (h : Reach (step dbg tableId myXid desc wait) (fun s op => Setting rows s op ∧ Unlost s op) (start s0 disk) s) :
    RollsBack dbg desc rows s0 s := by
  obtain ⟨orig, hstart, horig⟩ := h0.start disk
  have hinv : ∀ s op t, (∃ cur, Rolling dbg desc rows s0 orig s cur) → Setting rows s op ∧ Unlost s op →
      step dbg tableId myXid desc wait s op = some t → ∃ cur, Rolling dbg desc rows s0 orig t cur := by
    rintro s op t ⟨cur, hs⟩ hC ht
    exact hs.step hx hC.1 hC.2 ht
  obtain ⟨cur, hr⟩ := h.inv hinv ⟨orig, hstart⟩
  obtain ⟨u, cur', hu, hend⟩ := Rolling.undoAll rfl hr
  refine ⟨u, hu, fun r hr => ?_⟩
  obtain ⟨header, values, rest, hv, hc⟩ := horig r hr
  have hback : cur' r = orig r := by
    cases hend.undoes with
    | nil h => exact h r hr
  obtain ⟨rest', hrest'⟩ := hend.holds r hr
  rw [hback] at hrest'
  exact ⟨⟨header, values, r⟩, slotTuple_of_version (h0.slots.placed r hr) hv hc,
    slotTuple_of_version (hend.slots.placed r hr) hv hrest'⟩

/-! ## A row of one byte -/

theorem oneRow_rows (dbg : Bool) : Rows dbg byteDesc firstSlot oneRow where
  slots := oneRow_slots
  version r hr := by
    cases hr
    obtain ⟨bytes, hv, hc⟩ := oneRow_version dbg
    exact ⟨_, _, bytes, [], hv, hc⟩

/-- An update that was not undone yet. -/
theorem rolls_back_update : ∃ s, Reach (step true 1 3 byteDesc fun _ => pure ())
      (fun s op => Setting firstSlot s op ∧ Unlost s op) (start oneRow oneRow.page) s ∧
    s.history = [1] ∧ RollsBack true byteDesc firstSlot oneRow s := by
  have h : ((step true 1 3 byteDesc (fun _ => pure ()) (start oneRow oneRow.page)
      (.update ⟨0, 0⟩ [some (.scalar 5)] 0)).map history) = some [1] := by decide +kernel
  obtain ⟨s, hs, hhist⟩ := Option.map_eq_some_iff.1 h
  have hr : Reach (step true 1 3 byteDesc fun _ => pure ()) (fun s op => Setting firstSlot s op ∧ Unlost s op)
      (start oneRow oneRow.page) s :=
    .tail (.update ⟨0, 0⟩ [some (.scalar 5)] 0) .refl ⟨⟨rfl, by decide⟩, trivial⟩ hs
  exact ⟨s, hr, hhist, rolls_back (by decide) (oneRow_rows true) hr⟩

/-- The steps of one transaction on this row. -/
def alone (s : RollbackRun) : RollbackOp → Bool
  | .update tid _ _ | .delete tid => decide (tid = ⟨0, 0⟩) && decide (s.store.undoSize + 1 < 2 ^ 63)
  | .undo | .evict _ => true
  | .others _ _ => false

theorem setting_of_alone {s : RollbackRun} {op : RollbackOp} (h : alone s op = true) : Setting firstSlot s op := by
  cases op with
  | update tid values fuel =>
    simp only [alone, Bool.and_eq_true, decide_eq_true_eq] at h
    exact h
  | delete tid =>
    simp only [alone, Bool.and_eq_true, decide_eq_true_eq] at h
    exact h
  | undo => exact trivial
  | others store disk => cases h
  | evict pageno => exact trivial

/-- Two updates of a row; its page is evicted before the undo of the second one and after it. -/
theorem evicted_rollback_throws : Rows true byteDesc firstSlot oneRow ∧ ∃ s,
    Reach (step true 1 3 byteDesc fun _ => pure ()) (Setting firstSlot) (start oneRow oneRow.page) s ∧
    ¬ RollsBack true byteDesc firstSlot oneRow s ∧ (VirtualUndoLog.undoAllRecords true s.history s.store).1 =
      .error (.runtimeError "can not undo update: tuple was concurrently modified") := by
  have h : (exec (guarded (fun s op => alone s op = true) (step true 1 3 byteDesc fun _ => pure ()))
      (start oneRow oneRow.page) [.update ⟨0, 0⟩ [some (.scalar 5)] 0, .update ⟨0, 0⟩ [some (.scalar 6)] 0,
        .evict 0, .undo, .evict 0]).map (fun s => (VirtualUndoLog.undoAllRecords true s.history s.store).1 ==
          .error (.runtimeError "can not undo update: tuple was concurrently modified")) = some true := by
    decide +kernel
  obtain ⟨s, hr, hs⟩ := reach_of_test h
  have hthrow := eq_of_beq hs
  refine ⟨oneRow_rows true, s, hr.of_guarded.mono fun _ _ => setting_of_alone, ?_, hthrow⟩
  rintro ⟨u, hu, -⟩
  rw [hu] at hthrow
  cases hthrow

end RollbackRun

end Mimidb
