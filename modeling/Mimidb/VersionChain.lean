import Mimidb.RowSlots

/-!
# Version chains

A slot has its newest version on the page; the undo pointer of a version leads
to the record with the one before. The walk of a scan along this chain answers
with the newest version that its snapshot sees, unless it comes to a version
whose transaction is in the middle of its commit.
-/

namespace Mimidb

/-- A version of a slot; a delete has no values. -/
structure SlotVersion where
  header : HeapPageTupleHeader
  values : Option Values

def SlotVersion.tuple (v : SlotVersion) (tid : TupleId) : Option (HeapTuple Values) :=
  v.values.map fun values => ⟨v.header, values, tid⟩

/-- The transaction committed before the snapshot was taken. -/
def Snapshot.sees (snapshot : Snapshot) (csn : Nat) : Bool :=
  csn == CommitSeqNumber.Frozen || (CommitSeqNumber.isNormal csn && decide (csn < snapshot.csn))

section
variable (history : Nat → Nat) (snapshot : Snapshot) (tid : TupleId)

/-- The newest version whose writer is visible; nothing if it is a delete. -/
def newestVisible : List SlotVersion → Option (HeapTuple Values)
  | [] => none
  | v :: versions => if snapshot.sees (history v.header.xid) then v.tuple tid else newestVisible versions

/-- The walk from the newest version on; it does not come past a transaction that commits. -/
def walk : List SlotVersion → Except Fault (Option (HeapTuple Values))
  | [] => .ok none
  | v :: versions =>
    if history v.header.xid = CommitSeqNumber.Committing then .error .diverges
    else if snapshot.sees (history v.header.xid) then .ok (v.tuple tid)
    else walk versions

/-- No version down to the first visible one is by a transaction in the middle of its commit. -/
def Decided : List SlotVersion → Prop
  | [] => True
  | v :: versions => history v.header.xid ≠ CommitSeqNumber.Committing ∧
    (snapshot.sees (history v.header.xid) = false → Decided versions)

end

section
variable {history : Nat → Nat} {snapshot : Snapshot} {tid : TupleId}

theorem walk_eq_iff : ∀ {versions : List SlotVersion},
    walk history snapshot tid versions = .ok (newestVisible history snapshot tid versions) ↔
    Decided history snapshot versions
  | [] => iff_of_true rfl trivial
  | v :: versions => by
    unfold walk newestVisible Decided
    by_cases hc : history v.header.xid = CommitSeqNumber.Committing
    · rw [if_pos hc]
      exact iff_of_false nofun fun h => h.1 hc
    · rw [if_neg hc]
      cases hs : snapshot.sees (history v.header.xid) with
      | true => exact iff_of_true rfl ⟨hc, nofun⟩
      | false =>
        rw [if_neg Bool.false_ne_true, if_neg Bool.false_ne_true, walk_eq_iff]
        exact ⟨fun h => ⟨hc, fun _ => h⟩, fun h => h.2 rfl⟩

theorem decided_of_forall : ∀ {versions : List SlotVersion},
    (∀ v ∈ versions, history v.header.xid ≠ CommitSeqNumber.Committing) → Decided history snapshot versions
  | [], _ => trivial
  | _ :: _, h => ⟨h _ List.mem_cons_self, fun _ => decided_of_forall fun v hv => h v (List.mem_cons_of_mem _ hv)⟩

theorem csnIsVisible_eq_sees {csn : Nat} (h0 : csn ≠ CommitSeqNumber.Invalid)
    (hc : csn ≠ CommitSeqNumber.Committing) :
    csnIsVisible snapshot csn = snapshot.sees csn := by
  simp only [CommitSeqNumber.Invalid, CommitSeqNumber.Committing] at h0 hc
  unfold csnIsVisible Snapshot.sees
  rcases Nat.lt_or_ge csn CommitSeqNumber.Min with hlt | hge
  · simp only [CommitSeqNumber.Min] at hlt
    have hcases : csn = 1 ∨ csn = 2 ∨ csn = 3 := by omega
    rcases hcases with rfl | rfl | rfl <;> rfl
  · have hnormal : CommitSeqNumber.isNormal csn = true := decide_eq_true hge
    have hfrozen : csn ≠ CommitSeqNumber.Frozen := by
      simp only [CommitSeqNumber.Min, CommitSeqNumber.Frozen] at hge ⊢
      omega
    rw [← csnIsVisible, csnIsVisible_normal hge, hnormal, beq_false_of_ne hfrozen]
    rfl

end

/-! ## Chains -/

/-- The record of `usn` saves the bytes that the slot had before. -/
structure Saves (s : HeapStore) (tid : TupleId) (usn : Int) (before : List UInt8) : Prop where
  record : ∃ record rest, s.undo usn = some record ∧ record.RestoresAt tid (before ++ rest) ∧
    (before ++ rest).length ≤ (s.item tid).length
  pos : 0 < usn
  valid : usn ≤ UndoSeqNumber.Max
  logged : usn ≤ s.undoSize
  older : (HeapPageTupleHeader.ofBytes before).undo < usn

/-- The versions of a slot that was not deleted, from its bytes on. -/
inductive Chain (dbg : Bool) (desc : TupleDescriptor) (s : HeapStore) (tid : TupleId) :
    List UInt8 → List SlotVersion → Prop where
  | insert {header : HeapPageTupleHeader} {values : Values} {bytes : List UInt8} :
    IsVersion dbg desc header values bytes → header.undo = UndoSeqNumber.Invalid →
    Chain dbg desc s tid bytes [⟨header, some values⟩]
  | update {header : HeapPageTupleHeader} {values : Values} {bytes before : List UInt8}
      {versions : List SlotVersion} :
    IsVersion dbg desc header values bytes → Saves s tid header.undo before → Chain dbg desc s tid before versions →
    Chain dbg desc s tid bytes (⟨header, some values⟩ :: versions)

/-- The versions of a slot; only the newest one can be a delete. -/
inductive SlotChain (dbg : Bool) (desc : TupleDescriptor) (s : HeapStore) (tid : TupleId) :
    List UInt8 → List SlotVersion → Prop where
  | live {bytes : List UInt8} {versions : List SlotVersion} : Chain dbg desc s tid bytes versions →
    SlotChain dbg desc s tid bytes versions
  | deleted {header : HeapPageTupleHeader} {before : List UInt8} {versions : List SlotVersion} : header.Bounded →
    header.flags = ⟨true, false⟩ → Saves s tid header.undo before → Chain dbg desc s tid before versions →
    SlotChain dbg desc s tid header.toBytes (⟨header, none⟩ :: versions)

section
variable {dbg : Bool} {desc : TupleDescriptor} {s u : HeapStore} {tid : TupleId} {bytes rest before : List UInt8}
  {versions : List SlotVersion} {history : Nat → Nat} {reader : Nat} {snapshot : Snapshot}
    {header : HeapPageTupleHeader}
  {values : Values} {usn : Int} {fuel : Nat}

/-! ## Changes elsewhere -/

/-- The undo log is only appended to, and the slot keeps its item. -/
structure Extends (s u : HeapStore) (tid : TupleId) : Prop where
  item : u.item tid = s.item tid
  undoSize : s.undoSize ≤ u.undoSize
  undo : ∀ usn : Int, usn ≤ s.undoSize → u.undo usn = s.undo usn

theorem Saves.mono (h : Saves s tid usn before) (he : Extends s u tid) : Saves u tid usn before := by
  have hsize := he.undoSize
  have hlogged := h.logged
  refine ⟨?_, h.pos, h.valid, by omega, h.older⟩
  obtain ⟨record, rest, hrec, hres, hlen⟩ := h.record
  exact ⟨record, rest, (he.undo usn hlogged).trans hrec, hres, by rw [he.item]; exact hlen⟩

theorem Chain.mono (h : Chain dbg desc s tid bytes versions) (he : Extends s u tid) :
    Chain dbg desc u tid bytes versions := by
  induction h with
  | insert hv hundo => exact .insert hv hundo
  | update hv hs _ ih => exact .update hv (hs.mono he) ih

theorem SlotChain.mono (h : SlotChain dbg desc s tid bytes versions) (he : Extends s u tid) :
    SlotChain dbg desc u tid bytes versions := by
  cases h with
  | live h => exact .live (h.mono he)
  | deleted hb hflags hs h => exact .deleted hb hflags (hs.mono he) (h.mono he)

/-! ## The walk -/

theorem tupleIsVisible_other (hx : header.xid ≠ reader) (h0 : history header.xid ≠ CommitSeqNumber.Invalid) :
    (s.view dbg desc history reader).tupleIsVisible snapshot header =
      if history header.xid = CommitSeqNumber.Committing then .error .diverges
      else .ok (snapshot.sees (history header.xid)) := by
  have hx' : ¬ header.xid = (s.view dbg desc history reader).myXid := hx
  unfold HeapView.tupleIsVisible HeapView.getTransactionCsn
  rw [if_neg hx']
  by_cases hc : history header.xid = CommitSeqNumber.Committing
  · have hc' : (s.view dbg desc history reader).history header.xid = CommitSeqNumber.Committing := hc
    rw [if_pos hc, if_pos hc']
    rfl
  · have hc' : ¬ (s.view dbg desc history reader).history header.xid = CommitSeqNumber.Committing := hc
    have hassert : assert dbg (history header.xid != CommitSeqNumber.Invalid) = .ok () := by
      rw [bne_iff_ne.2 h0]
      cases dbg <;> rfl
    rw [if_neg hc, if_neg hc', ← csnIsVisible_eq_sees h0 hc]
    show (do
      assert dbg (history header.xid != CommitSeqNumber.Invalid)
      return csnIsVisible snapshot (history header.xid)) = _
    rw [hassert]
    rfl

theorem imageTuple_eq (s : HeapStore) (tid : TupleId) (snapshot : Snapshot)
    (hv : IsVersion dbg desc header values bytes) (hx : header.xid ≠ reader)
    (h0 : history header.xid ≠ CommitSeqNumber.Invalid) (rest : List UInt8) :
    (s.view dbg desc history reader).imageTuple snapshot (bytes ++ rest) tid =
      if history header.xid = CommitSeqNumber.Committing then .error .diverges
      else .ok (header.undo, if snapshot.sees (history header.xid) then some ⟨header, values, tid⟩ else none) := by
  have hge : ¬ (bytes ++ rest).length < HeapPageTupleHeader.size := by
    have := hv.size_le
    rw [List.length_append]
    omega
  unfold HeapView.imageTuple
  simp only [if_neg hge, hv.ofBytes_eq, tupleIsVisible_other hx h0]
  by_cases hc : history header.xid = CommitSeqNumber.Committing
  · rw [if_pos hc, if_pos hc]
    rfl
  · rw [if_neg hc, if_neg hc]
    cases snapshot.sees (history header.xid) with
    | true =>
      show (do
        let tuple ← (s.view dbg desc history reader).buildHeapTuple (bytes ++ rest) (bytes ++ rest).length tid
        return (header.undo, some tuple)) = _
      rw [hv.build_eq rfl]
      rfl
    | false => rfl

theorem isValid_pos (h : 0 < usn) (h' : usn ≤ UndoSeqNumber.Max) : UndoSeqNumber.isValid usn = true := by
  unfold UndoSeqNumber.isValid UndoSeqNumber.Invalid
  rw [Bool.and_eq_true, bne_iff_ne, decide_eq_true_eq]
  exact ⟨by omega, h'⟩

theorem findVisible_not_valid {c : HeapView Values} (h : UndoSeqNumber.isValid usn = false) (fuel : Nat) :
    c.findVisibleTuplePage snapshot fuel usn = .ok none := by
  have hvalid : ¬ UndoSeqNumber.isValid usn = true := by simp [h]
  cases fuel with
  | zero => rw [HeapView.findVisibleTuplePage, if_neg hvalid]
  | succ fuel => rw [HeapView.findVisibleTuplePage, if_neg hvalid]

theorem findVisible_saved (hs : Saves s tid usn bytes) (hv : IsVersion dbg desc header values bytes)
    (hx : header.xid ≠ reader) (h0 : history header.xid ≠ CommitSeqNumber.Invalid) (fuel : Nat) :
    (s.view dbg desc history reader).findVisibleTuplePage snapshot (fuel + 1) usn =
      if history header.xid = CommitSeqNumber.Committing then .error .diverges
      else if snapshot.sees (history header.xid) then .ok (some ⟨header, values, tid⟩)
      else (s.view dbg desc history reader).findVisibleTuplePage snapshot fuel header.undo := by
  obtain ⟨record, rest, hrec, hres, -⟩ := hs.record
  have hget : (s.view dbg desc history reader).getRecord usn = .ok (.heap record) := by
    simp only [HeapStore.view, hrec]
  have himage := imageTuple_eq s tid snapshot hv hx h0 rest
  rw [HeapView.findVisibleTuplePage, if_pos (isValid_pos hs.pos hs.valid), hget]
  by_cases hc : history header.xid = CommitSeqNumber.Committing
  · rw [if_pos hc] at himage ⊢
    rcases hres with ⟨table, rfl⟩ | ⟨table, rfl⟩ <;>
      simp only [bind, Except.bind, ne_eq, not_true_eq_false, if_false, himage]
  · rw [if_neg hc] at himage ⊢
    cases hv : snapshot.sees (history header.xid) <;> rw [hv] at himage <;>
      rcases hres with ⟨table, rfl⟩ | ⟨table, rfl⟩ <;>
      simp only [bind, Except.bind, ne_eq, not_true_eq_false, if_false, himage] <;> rfl

/-- The walk along the records answers as the walk along the versions. -/
theorem Chain.find (h : Chain dbg desc s tid bytes versions) :
    ∀ {fuel : Nat} {usn : Int}, Saves s tid usn bytes → usn ≤ fuel →
    (∀ v ∈ versions, v.header.xid ≠ reader ∧ history v.header.xid ≠ CommitSeqNumber.Invalid) →
    (s.view dbg desc history reader).findVisibleTuplePage snapshot fuel usn =
    walk history snapshot tid versions := by
  induction h with
  | @insert header values bytes hv hundo =>
    intro fuel usn hs hf hw
    have hpos := hs.pos
    obtain ⟨fuel, rfl⟩ : ∃ n, fuel = n + 1 := ⟨fuel - 1, by omega⟩
    obtain ⟨hx, h0⟩ := hw _ List.mem_cons_self
    rw [findVisible_saved hs hv hx h0, hundo, findVisible_not_valid rfl]
    rfl
  | @update header values bytes before versions hv hsave _ ih =>
    intro fuel usn hs hf hw
    have hpos := hs.pos
    have holder := hs.older
    have hhead := hv.ofBytes_eq []
    rw [List.append_nil] at hhead
    rw [hhead] at holder
    obtain ⟨fuel, rfl⟩ : ∃ n, fuel = n + 1 := ⟨fuel - 1, by omega⟩
    obtain ⟨hx, h0⟩ := hw _ List.mem_cons_self
    rw [findVisible_saved hs hv hx h0, ih hsave (by omega) fun v hv => hw v (List.mem_cons_of_mem _ hv)]
    rfl

theorem Chain.undo_le (h : Chain dbg desc s tid bytes versions) :
    (HeapPageTupleHeader.ofBytes bytes).undo ≤ s.undoSize := by
  cases h with
  | insert hv hundo =>
    have hhead := hv.ofBytes_eq []
    rw [List.append_nil] at hhead
    rw [hhead, hundo]
    exact Int.natCast_nonneg _
  | update hv hsave =>
    have hhead := hv.ofBytes_eq []
    rw [List.append_nil] at hhead
    rw [hhead]
    exact hsave.logged

theorem SlotChain.saves {v : SlotVersion} (h : SlotChain dbg desc s tid bytes (v :: versions))
    (hne : v.header.undo ≠ UndoSeqNumber.Invalid) : HeapPageTupleHeader.ofBytes bytes = v.header ∧
      HeapPageTupleHeader.size ≤ bytes.length ∧
      ∃ before, Saves s tid v.header.undo before ∧ Chain dbg desc s tid before versions := by
  cases h with
  | live h =>
    cases h with
    | insert hv hundo => exact absurd hundo hne
    | @update header values bytes before versions hv hsave hchain =>
      have hhead := hv.ofBytes_eq []
      rw [List.append_nil] at hhead
      exact ⟨hhead, hv.size_le, before, hsave, hchain⟩
  | @deleted header before versions hb hflags hsave hchain =>
    have hhead := HeapPageTupleHeader.ofBytes_toBytes hb []
    rw [List.append_nil] at hhead
    exact ⟨hhead, Nat.le_of_eq header.toBytes_length.symm, before, hsave, hchain⟩

theorem itemTuple_eq (hp : s.Placed tid) :
    (s.view dbg desc history reader).itemTuple snapshot tid.pageno tid.itemid =
    (s.view dbg desc history reader).tupleIsVisible snapshot (.ofBytes (s.content tid)) >>= fun visible =>
      if visible then
        if (HeapPageTupleHeader.ofBytes (s.content tid)).flags.Deleted then .ok none
        else some <$> (s.view dbg desc history reader).slotTuple tid
      else (s.view dbg desc history reader).findVisibleTuplePage snapshot s.undoSize
        (HeapPageTupleHeader.ofBytes (s.content tid)).undo := by
  have hitem :
    HeapPage.getItemId (s.view dbg desc history reader).dbg ((s.view dbg desc history reader).page tid.pageno)
      tid.itemid = .ok (s.item tid) := hp.getItemId_eq
  have haddr : HeapPage.getTuple (s.view dbg desc history reader).dbg (s.item tid) = .ok (s.item tid).offset :=
    hp.getTuple_eq
  have hread : HeapPage.readHeader ((s.view dbg desc history reader).page tid.pageno) (s.item tid).offset =
      .ok (.ofBytes (s.content tid)) := hp.readHeader_eq
  have hnormal : (s.item tid).isNormal = true := hp.normal
  have hassert : assert (s.view dbg desc history reader).dbg (s.item tid).hasHeader = .ok () := by
    have hheader : (s.item tid).hasHeader = true := by rw [ItemId.hasHeader, hnormal, Bool.true_or]
    rw [hheader]
    cases (s.view dbg desc history reader).dbg <;> rfl
  unfold HeapView.itemTuple HeapView.slotTuple
  simp only [bind, Except.bind, hitem, hnormal, Bool.not_true, Bool.false_eq_true, if_false, hassert, haddr, hread]
  rfl

/-- The slot step for the version on the page and those before it. -/
theorem itemTuple_walk {v : SlotVersion} (hp : s.Placed tid)
    (hhead : HeapPageTupleHeader.ofBytes (s.content tid) = v.header) (hx : v.header.xid ≠ reader)
    (h0 : history v.header.xid ≠ CommitSeqNumber.Invalid)
    (hsees : (if v.header.flags.Deleted then .ok none
      else some <$> (s.view dbg desc history reader).slotTuple tid) = Except.ok (v.tuple tid))
    (hold : (s.view dbg desc history reader).findVisibleTuplePage snapshot s.undoSize v.header.undo =
      walk history snapshot tid versions) :
    (s.view dbg desc history reader).itemTuple snapshot tid.pageno tid.itemid = walk history snapshot tid
      (v :: versions) := by
  rw [itemTuple_eq hp, hhead, tupleIsVisible_other hx h0, walk]
  by_cases hc : history v.header.xid = CommitSeqNumber.Committing
  · rw [if_pos hc, if_pos hc]
    rfl
  · rw [if_neg hc, if_neg hc]
    cases snapshot.sees (history v.header.xid) with
    | true => exact hsees
    | false => exact hold

theorem SlotChain.itemTuple (h : SlotChain dbg desc s tid bytes versions) (hp : s.Placed tid)
    (hc : s.content tid = bytes ++ rest)
    (hw : ∀ v ∈ versions, v.header.xid ≠ reader ∧ history v.header.xid ≠ CommitSeqNumber.Invalid) :
    (s.view dbg desc history reader).itemTuple snapshot tid.pageno tid.itemid =
    walk history snapshot tid versions := by
  have hlive : ∀ {header : HeapPageTupleHeader} {values : Values}, IsVersion dbg desc header values bytes →
      (if header.flags.Deleted then .ok none else some <$> (s.view dbg desc history reader).slotTuple tid) =
        Except.ok (SlotVersion.tuple ⟨header, some values⟩ tid) := by
    intro header values hv
    rw [hv.flags, HeapStore.slotTuple_of_version hp hv hc]
    rfl
  cases h with
  | live h =>
    cases h with
    | @insert header values bytes hv hundo =>
      obtain ⟨hx, h0⟩ := hw _ List.mem_cons_self
      have hhead : HeapPageTupleHeader.ofBytes (s.content tid) = header := by rw [hc, hv.ofBytes_eq]
      refine itemTuple_walk (v := ⟨header, some values⟩) hp hhead hx h0 (hlive hv) ?_
      show (s.view dbg desc history reader).findVisibleTuplePage snapshot s.undoSize header.undo = .ok none
      rw [hundo, findVisible_not_valid rfl]
    | @update header values bytes before versions hv hsave hchain =>
      obtain ⟨hx, h0⟩ := hw _ List.mem_cons_self
      have hhead : HeapPageTupleHeader.ofBytes (s.content tid) = header := by rw [hc, hv.ofBytes_eq]
      exact itemTuple_walk (v := ⟨header, some values⟩) hp hhead hx h0 (hlive hv)
        (hchain.find hsave hsave.logged fun v hv => hw v (List.mem_cons_of_mem _ hv))
  | @deleted header before versions hb hflags hsave hchain =>
    obtain ⟨hx, h0⟩ := hw _ List.mem_cons_self
    have hhead : HeapPageTupleHeader.ofBytes (s.content tid) = header := by
      rw [hc]
      exact HeapPageTupleHeader.ofBytes_toBytes hb rest
    refine itemTuple_walk (v := ⟨header, none⟩) hp hhead hx h0 ?_
      (hchain.find hsave hsave.logged fun v hv => hw v (List.mem_cons_of_mem _ hv))
    rw [hflags]
    rfl

end

end Mimidb
