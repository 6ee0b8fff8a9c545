import Mimidb.HeapRun
import Mimidb.VersionChain

/-!
# Undo pointers

A header points to the record of the change before it, so the pointers of a
table lead to older and older records and the walk of a scan along them comes
to an end. This holds as long as the tuples keep to their slots: an update to a
new slot does not move the end of the free space, and the next tuple that is
put on the page is written over the new version and its pointer.
-/

namespace Mimidb

open HeapStore

/-! ## The walk ends -/

/-- The computation does not go on forever. -/
def Halts {α : Type} (x : Except Fault α) : Prop := x ≠ .error .diverges

section
variable {α β : Type}

theorem Halts.ok (a : α) : Halts (.ok a : Except Fault α) := nofun

theorem Halts.bind {x : Except Fault α} {f : α → Except Fault β} (hx : Halts x)
    (hf : ∀ a, x = .ok a → Halts (f a)) :
    Halts (x >>= f) := by
  cases x with
  | ok a => exact hf a rfl
  | error e =>
    intro h
    apply hx
    exact congrArg Except.error (Except.error.inj h)

theorem halts_assert {dbg c : Bool} : Halts (assert dbg c) := by
  unfold assert
  split <;> intro h <;> cases h

theorem halts_extractAttrDatum {dbg : Bool} {cursor : List UInt8} {attr : AttributeDescriptor} :
    Halts (TupleSerializer.extractAttrDatum dbg cursor attr) := by
  unfold TupleSerializer.extractAttrDatum
  split_ifs with hval hlen hshort
  · refine halts_assert.bind fun _ _ => ?_
    split
    · exact halts_assert.bind fun _ _ => nofun
    · split_ifs <;> intro h <;> cases h
  · intro h
    cases h
  · exact .ok _
  · simp only
    split_ifs <;> intro h <;> cases h

theorem halts_extractValues {dbg : Bool} :
    ∀ (attrs : List AttributeDescriptor) (nulls : List Bool) (cursor : List UInt8),
    Halts (TupleSerializer.extractValues dbg attrs nulls cursor)
  | [], _, _ => .ok _
  | _ :: _, [], _ => nofun
  | _ :: attrs, true :: nulls, cursor => by
    unfold TupleSerializer.extractValues
    exact (halts_extractValues attrs nulls cursor).bind fun _ _ => .ok _
  | attr :: attrs, false :: nulls, cursor => by
    unfold TupleSerializer.extractValues
    exact halts_extractAttrDatum.bind fun _ _ => (halts_extractValues attrs nulls _).bind fun _ _ => .ok _

theorem halts_deserialize {dbg : Bool} {desc : TupleDescriptor} (hd : desc.getMaxAttrNumber ≠ 2 ^ 16 - 1)
    (array : List UInt8) (hasnulls : Bool)
    (size : Nat) : Halts (TupleSerializer.deserialize dbg desc array hasnulls size) := by
  unfold TupleSerializer.deserialize
  simp only [if_neg hd]
  split_ifs
  · intro h
    cases h
  · exact halts_extractValues _ _ _
  · exact halts_extractValues _ _ _

end

section
variable {dbg : Bool} {desc : TupleDescriptor} {s : HeapStore} {history : Nat → Nat} {reader : Nat}
  {snapshot : Snapshot}
  {tid : TupleId} {image : List UInt8} {usn : Int} {tuple : HeapTuple Values}

theorem halts_buildHeapTuple (hd : desc.getMaxAttrNumber ≠ 2 ^ 16 - 1) (bytes : List UInt8) (size : Nat) :
    Halts ((s.view dbg desc history reader).buildHeapTuple bytes size tid) := by
  unfold HeapView.buildHeapTuple
  split_ifs
  · intro h
    cases h
  · apply Halts.bind
    · exact halts_deserialize hd _ _ ((size + (2 ^ 64 - HeapPageTupleHeader.size)) % 2 ^ 64)
    · exact fun _ _ => .ok _

/-- No transaction is in the middle of its commit. -/
def NoneCommitting (history : Nat → Nat) : Prop := ∀ xid, history xid ≠ CommitSeqNumber.Committing

theorem halts_tupleIsVisible (hc : NoneCommitting history) (header : HeapPageTupleHeader) :
    Halts ((s.view dbg desc history reader).tupleIsVisible snapshot header) := by
  unfold HeapView.tupleIsVisible
  split_ifs
  · exact .ok _
  · have hcsn : (s.view dbg desc history reader).getTransactionCsn header.xid = .ok (history header.xid) :=
      if_neg (hc _)
    rw [hcsn]
    exact halts_assert.bind fun _ _ => .ok _

theorem halts_imageTuple (hd : desc.getMaxAttrNumber ≠ 2 ^ 16 - 1) (hc : NoneCommitting history) :
    Halts ((s.view dbg desc history reader).imageTuple snapshot image tid) := by
  unfold HeapView.imageTuple
  split_ifs
  · intro h
    cases h
  · refine (halts_tupleIsVisible hc _).bind fun visible _ => ?_
    split_ifs
    · exact (halts_buildHeapTuple hd _ _).bind fun _ _ => .ok _
    · exact .ok _

theorem imageTuple_undo {undo : Int} {found : Option (HeapTuple Values)}
    (h : (s.view dbg desc history reader).imageTuple snapshot image tid = .ok (undo, found)) :
    undo = (HeapPageTupleHeader.ofBytes image).undo ∧ ∀ tuple ∈ found, tuple.header = .ofBytes image := by
  unfold HeapView.imageTuple at h
  split_ifs at h
  · cases h
  · obtain ⟨visible, _, h⟩ := bind_eq_ok.1 h
    split_ifs at h
    · obtain ⟨tuple, ht, h⟩ := bind_eq_ok.1 h
      cases h
      refine ⟨rfl, fun t hm => ?_⟩
      cases hm
      exact HeapView.buildHeapTuple_header ht
    · cases h
      exact ⟨rfl, nofun⟩

theorem findVisible_round (fuel : Nat) (hvalid : UndoSeqNumber.isValid usn = true) :
    (∃ e, e ≠ Fault.diverges ∧ (s.view dbg desc history reader).findVisibleTuplePage snapshot (fuel + 1) usn =
      .error e) ∨
    (s.view dbg desc history reader).findVisibleTuplePage snapshot (fuel + 1) usn = .ok none ∨
    ∃ record image tid, s.undo usn = some record ∧ record.image = some image ∧
      (s.view dbg desc history reader).findVisibleTuplePage snapshot (fuel + 1) usn =
        (s.view dbg desc history reader).imageTuple snapshot image tid >>= fun r =>
          match r with
          | (_, some tuple) => .ok (some tuple)
          | (undo, none) => (s.view dbg desc history reader).findVisibleTuplePage snapshot fuel undo := by
  rw [HeapView.findVisibleTuplePage, if_pos hvalid]
  cases hrec : s.undo usn with
  | none =>
    have hget : (s.view dbg desc history reader).getRecord usn =
        .error (.runtimeError "could not read UndoLogRecordHeader") := by
      simp only [view, hrec]
    rw [hget]
    exact .inl ⟨.runtimeError "could not read UndoLogRecordHeader", by simp, rfl⟩
  | some record =>
    have hget : (s.view dbg desc history reader).getRecord usn = .ok (.heap record) := by
      simp only [view, hrec]
    rw [hget]
    cases record with
    | Delete table tupId => exact .inr (.inl rfl)
    | Update table oldLocation newLocation tupleData =>
      by_cases he : newLocation ≠ oldLocation
      · refine .inr (.inl ?_)
        simp only [bind, Except.bind, if_pos he]
        rfl
      · refine .inr (.inr ⟨_, tupleData, newLocation, rfl, rfl, ?_⟩)
        simp only [bind, Except.bind, if_neg he]
        rcases (s.view dbg desc history reader).imageTuple snapshot tupleData
          newLocation with e | ⟨undo, _ | tuple⟩ <;> rfl
    | Insert table location tupleData =>
      refine .inr (.inr ⟨_, tupleData, location, rfl, rfl, ?_⟩)
      simp only [bind, Except.bind]
      rcases (s.view dbg desc history reader).imageTuple snapshot tupleData location with e | ⟨undo, _ | tuple⟩ <;>
        rfl

theorem findVisible_header : ∀ {fuel : Nat} {usn : Int},
    (s.view dbg desc history reader).findVisibleTuplePage snapshot fuel usn = .ok (some tuple) →
    ∃ usn' record image, s.undo usn' = some record ∧ record.image = some image ∧ tuple.header = .ofBytes image := by
  intro fuel
  induction fuel with
  | zero =>
    intro usn h
    unfold HeapView.findVisibleTuplePage at h
    split_ifs at h
    cases h
  | succ fuel ih =>
    intro usn h
    by_cases hvalid : UndoSeqNumber.isValid usn = true
    · rcases @findVisible_round dbg desc s history reader snapshot usn fuel hvalid with
        ⟨e, _, he⟩ | he | ⟨record, image, tid, hrec, himage, he⟩
      · rw [he] at h
        cases h
      · rw [he] at h
        cases h
      · rw [he] at h
        obtain ⟨⟨undo, found⟩, hr, h⟩ := bind_eq_ok.1 h
        cases found with
        | some t =>
          cases h
          exact ⟨usn, record, image, hrec, himage, (imageTuple_undo hr).2 _ rfl⟩
        | none => exact ih h
    · rw [HeapView.findVisibleTuplePage, if_neg hvalid] at h
      cases h

/-- Each saved tuple points to nothing or to an older record. -/
def Descending (undo : Int → Option HeapUndoRecord) : Prop :=
  ∀ usn record image, undo usn = some record → record.image = some image →
    (HeapPageTupleHeader.ofBytes image).undo = UndoSeqNumber.Invalid ∨
      (0 < (HeapPageTupleHeader.ofBytes image).undo ∧ (HeapPageTupleHeader.ofBytes image).undo < usn)

/-- Each round takes the walk to an older record. -/
theorem halts_findVisible (hdesc : Descending s.undo) (hd : desc.getMaxAttrNumber ≠ 2 ^ 16 - 1)
    (hc : NoneCommitting history) :
    ∀ {fuel : Nat} {usn : Int}, usn = UndoSeqNumber.Invalid ∨ 0 < usn → usn ≤ fuel →
    Halts ((s.view dbg desc history reader).findVisibleTuplePage snapshot fuel usn) := by
  intro fuel
  induction fuel with
  | zero =>
    intro usn hpos hle
    have hzero : usn = UndoSeqNumber.Invalid := by
      rcases hpos with h | h
      · exact h
      · omega
    rw [hzero, findVisible_not_valid rfl]
    exact .ok _
  | succ fuel ih =>
    intro usn hpos hle
    by_cases hvalid : UndoSeqNumber.isValid usn = true
    · rcases @findVisible_round dbg desc s history reader snapshot usn fuel hvalid with
        ⟨e, hne, he⟩ | he | ⟨record, image, tid, hrec, himage, he⟩
      · rw [he]
        exact fun h => hne (Except.error.inj h)
      · rw [he]
        exact .ok _
      · rw [he]
        refine (halts_imageTuple hd hc).bind fun r hr => ?_
        obtain ⟨undo, found⟩ := r
        cases found with
        | some tuple => exact .ok _
        | none =>
          obtain ⟨rfl, -⟩ := imageTuple_undo hr
          have hback := hdesc usn record image hrec himage
          refine ih ?_ ?_
          · rcases hback with h | h
            · exact .inl h
            · exact .inr h.1
          · rcases hback with h | h
            · rw [h]
              exact Int.natCast_nonneg _
            · omega
    · rw [HeapView.findVisibleTuplePage, if_neg hvalid]
      exact .ok _

end

/-! ## Pointers of a table -/

/-- Nothing, or the start of a record of the log. -/
def Refers (s : HeapStore) (undo : Int) : Prop := undo = UndoSeqNumber.Invalid ∨ ∃ record, s.undo undo = some record

/-- Pointers lead to older records, and the walk along them ends. -/
structure LeadsBack (dbg : Bool) (desc : TupleDescriptor) (s : HeapStore) : Prop where
  older : ∀ usn record image, s.undo usn = some record → record.image = some image →
    (HeapPageTupleHeader.ofBytes image).undo = UndoSeqNumber.Invalid ∨
      (UndoSeqNumber.isValid (HeapPageTupleHeader.ofBytes image).undo = true ∧
        (HeapPageTupleHeader.ofBytes image).undo < usn)
  stored : ∀ tid, s.Used tid → Refers s (EvictRun.slotUndo s tid)
  saved : ∀ usn record image, s.undo usn = some record → record.image = some image →
    Refers s (HeapPageTupleHeader.ofBytes image).undo
  -- the decoding of a tuple with 65535 attributes does not end
  walk : desc.getMaxAttrNumber ≠ 2 ^ 16 - 1 → ∀ history reader snapshot tid, NoneCommitting history → s.Used tid →
    Halts ((s.view dbg desc history reader).findVisibleTuplePage snapshot s.undoSize (EvictRun.slotUndo s tid))

/-- The invariant of the pages, the file, the tuples in the hands of callers and the log. -/
structure Pointed (s : HeapStore) (disk : Nat → Memory) (scanned : List (HeapTuple Values)) : Prop where
  tidy : ∀ p, HeapPage.Tidy (s.page p)
  diskTidy : ∀ p, HeapPage.Tidy (disk p)
  slots : ∀ r, s.Placed r → Refers s (HeapPageTupleHeader.ofBytes (s.content r)).undo
  diskSlots :
    ∀ p j, HeapPage.Placed (disk p) j → Refers s (HeapPageTupleHeader.ofBytes (HeapPage.slot (disk p) j)).undo
  scanned : ∀ tuple ∈ scanned, tuple.header.Bounded ∧ Refers s tuple.header.undo
  logged : ∀ usn record, s.undo usn = some record → 0 < usn ∧ usn ≤ s.undoSize ∧ usn ≤ UndoSeqNumber.Max
  saved : ∀ usn record image, s.undo usn = some record → record.image = some image →
    HeapPageTupleHeader.size ≤ image.length ∧
    Refers s (HeapPageTupleHeader.ofBytes image).undo ∧ (HeapPageTupleHeader.ofBytes image).undo < usn

section
variable {dbg : Bool} {desc : TupleDescriptor} {s u : HeapStore} {disk : Nat → Memory}
  {scanned : List (HeapTuple Values)}
  {record : HeapUndoRecord} {undo : Int}

theorem HeapPageTupleHeader.bounded_ofBytes (bytes : List UInt8) : (HeapPageTupleHeader.ofBytes bytes).Bounded := by
  have hlt : ∀ bs : List UInt8, decodeLE (bs.take 8) < 2 ^ 64 := by
    intro bs
    refine Nat.lt_of_lt_of_le (decodeLE_lt _) ?_
    have hlen : (bs.take 8).length ≤ 8 := List.length_take_le _ _
    exact Nat.pow_le_pow_right (by decide) hlen
  refine ⟨hlt bytes, ?_⟩
  have h := hlt (bytes.drop 8)
  unfold HeapPageTupleHeader.ofBytes signed
  simp only
  split_ifs <;> omega

theorem Pointed.range (h : Pointed s disk scanned) (hr : Refers s undo) :
    undo = UndoSeqNumber.Invalid ∨ (0 < undo ∧ undo ≤ s.undoSize ∧ undo ≤ UndoSeqNumber.Max) := by
  rcases hr with hr | ⟨record, hr⟩
  · exact .inl hr
  · exact .inr (h.logged undo record hr)

theorem Pointed.refers_mono (h : Pointed s disk scanned) (hlog : HeapTable.Logged s u record) (hr : Refers s undo) :
    Refers u undo := by
  rcases hr with hr | ⟨record', hr⟩
  · exact .inl hr
  · have := (h.logged undo record' hr).2.1
    refine .inr ⟨record', ?_⟩
    rw [hlog.undo, Function.update_of_ne (by omega), hr]

/-- A change with its record; what it saves is a tuple of the page or in the hands of the caller. -/
theorem Pointed.changed (h : Pointed s disk scanned) (hlog : HeapTable.Logged s u record)
    (hmax : (s.undoSize : Int) + 1 ≤ UndoSeqNumber.Max)
    (hf : Fills (fun _ => False) (fun bytes => Refers u (HeapPageTupleHeader.ofBytes bytes).undo) s u)
    (himage : ∀ image, record.image = some image → HeapPageTupleHeader.size ≤ image.length ∧
      Refers s (HeapPageTupleHeader.ofBytes image).undo) : Pointed u disk scanned := by
  have hsize : (s.undoSize : Int) + 1 ≤ u.undoSize := by rw [hlog.undoSize]; omega
  have hmono : ∀ {undo}, Refers s undo → Refers u undo := fun hr => h.refers_mono hlog hr
  have hcase : ∀ usn record', u.undo usn = some record' →
      (usn = s.undoSize + 1 ∧ record' = record) ∨ s.undo usn = some record' := by
    intro usn record' hu
    rw [hlog.undo] at hu
    by_cases he : usn = s.undoSize + 1
    · rw [he, Function.update_self] at hu
      exact .inl ⟨he, (Option.some.inj hu).symm⟩
    · rw [Function.update_of_ne he] at hu
      exact .inr hu
  refine ⟨hf.tidy, h.diskTidy, fun r hr => ?_, fun p j hj => hmono (h.diskSlots p j hj), fun tuple ht => ?_,
    fun usn record' hu => ?_, fun usn record' image hu hi => ?_⟩
  · rcases hf.slots r hr with ⟨hr', he⟩ | hg
    · rw [he]
      exact hmono (h.slots r hr')
    · exact hg
  · exact ⟨(h.scanned tuple ht).1, hmono (h.scanned tuple ht).2⟩
  · rcases hcase usn record' hu with ⟨rfl, -⟩ | hu
    · omega
    · have := h.logged usn record' hu
      omega
  · rcases hcase usn record' hu with ⟨rfl, rfl⟩ | hu
    · obtain ⟨hlen, hr⟩ := himage image hi
      refine ⟨hlen, hmono hr, ?_⟩
      rcases h.range hr with he | he
      · rw [he]
        show (0 : Int) < _
        omega
      · omega
    · obtain ⟨hlen, hr, hlt⟩ := h.saved usn record' image hu hi
      exact ⟨hlen, hmono hr, hlt⟩

theorem Pointed.leadsBack (h : Pointed s disk scanned) : LeadsBack dbg desc s := by
  have hslot : ∀ tid, s.Used tid → Refers s (EvictRun.slotUndo s tid) := by
    intro tid hu
    have hp : s.Placed tid := (h.tidy _).placed _ hu.1 hu.2
    have hr := h.slots tid hp
    unfold EvictRun.slotUndo
    rw [HeapPage.Placed.headerAt_eq hp, HeapPage.ofBytes_take (Nat.le_refl _)]
    exact hr
  have hdesc : Descending s.undo := by
    intro usn record image hu hi
    obtain ⟨-, hr, hlt⟩ := h.saved usn record image hu hi
    rcases h.range hr with he | he
    · exact .inl he
    · exact .inr ⟨he.1, hlt⟩
  refine ⟨fun usn record image hu hi => ?_, hslot,
    fun usn record image hu hi => (h.saved usn record image hu hi).2.1,
    fun hd history reader snapshot tid hc hu => ?_⟩
  · obtain ⟨-, hr, hlt⟩ := h.saved usn record image hu hi
    rcases h.range hr with he | he
    · exact .inl he
    · exact .inr ⟨isValid_pos he.1 he.2.2, hlt⟩
  · rcases h.range (hslot tid hu) with he | he
    · refine halts_findVisible hdesc hd hc (.inl he) ?_
      rw [he]
      exact Int.natCast_nonneg _
    · exact halts_findVisible hdesc hd hc (.inr he.1) he.2.1

theorem Pointed.filled {dead : TupleId → Prop} (h : Pointed s disk scanned) (hu : u.undo = s.undo)
    (hs : s.undoSize ≤ u.undoSize)
    (hf : Fills dead (fun bytes => Refers s (HeapPageTupleHeader.ofBytes bytes).undo) s u) :
    Pointed u disk scanned := by
  have hmono : ∀ {undo}, Refers s undo → Refers u undo := by
    intro undo hr
    unfold Refers at hr ⊢
    rw [hu]
    exact hr
  refine ⟨hf.tidy, h.diskTidy, fun r hr => ?_, fun p j hj => hmono (h.diskSlots p j hj),
    fun tuple ht => ⟨(h.scanned tuple ht).1, hmono (h.scanned tuple ht).2⟩, fun usn record hr => ?_,
    fun usn record image hr hi => ?_⟩
  · rcases hf.slots r hr with ⟨hr', he⟩ | hg
    · rw [he]
      exact hmono (h.slots r hr')
    · exact hmono hg
  · have := h.logged usn record (hu ▸ hr)
    omega
  · obtain ⟨hlen, hr', hlt⟩ := h.saved usn record image (hu ▸ hr) hi
    exact ⟨hlen, hmono hr', hlt⟩

/-- A page that comes from the file has slots with the pointers that they had there. -/
theorem Pointed.evict {pageno : Nat} (h : Pointed s disk scanned) :
    Pointed (s.evicted disk pageno).1 (s.evicted disk pageno).2 scanned := by
  -- the file after the write of a dirty page
  have hdisk : (∀ p, HeapPage.Tidy ((s.evicted disk pageno).2 p)) ∧ ∀ p j,
      HeapPage.Placed ((s.evicted disk pageno).2 p) j →
        Refers s (HeapPageTupleHeader.ofBytes (HeapPage.slot ((s.evicted disk pageno).2 p) j)).undo := by
    have hfrom : ∀ p, ((s.evicted disk pageno).2 p = disk p) ∨ (s.evicted disk pageno).2 p = s.page pageno := by
      intro p
      unfold evicted EvictRun.evict
      simp only
      split_ifs
      · by_cases hp : p = EvictRun.writePageno pageno
        · rw [hp, Function.update_self]
          exact .inr rfl
        · rw [Function.update_of_ne hp]
          exact .inl rfl
      · exact .inl rfl
    refine ⟨fun p => ?_, fun p j hj => ?_⟩
    all_goals rcases hfrom p with he | he
    · rw [he]
      exact h.diskTidy p
    · rw [he]
      exact h.tidy pageno
    · rw [he] at hj ⊢
      exact h.diskSlots p j hj
    · rw [he] at hj ⊢
      exact h.slots ⟨pageno, j⟩ hj
  have hpage : (s.evicted disk pageno).1.page =
      Function.update s.page pageno ((s.evicted disk pageno).2 pageno) := rfl
  refine ⟨fun p => ?_, hdisk.1, fun ⟨p, j⟩ hr => ?_, hdisk.2, h.scanned, h.logged, h.saved⟩
  all_goals by_cases hp : p = pageno
  · rw [hpage, hp, Function.update_self]
    exact hdisk.1 pageno
  · rw [hpage, Function.update_of_ne hp]
    exact h.tidy p
  · subst hp
    unfold Placed content at *
    rw [hpage, Function.update_self] at hr ⊢
    exact hdisk.2 p j hr
  · unfold Placed content at *
    rw [hpage, Function.update_of_ne hp] at hr ⊢
    exact h.slots ⟨p, j⟩ hr

theorem Pointed.extend (h : Pointed s disk scanned) (q : Nat) :
    Pointed s.grown (Function.update disk q fun _ => 0) scanned := by
  refine ⟨fun p => ?_, fun p => ?_, fun ⟨p, j⟩ hr => ?_, fun p j hj => ?_, h.scanned, h.logged, h.saved⟩
  · by_cases hp : p = s.pagesCount
    · rw [hp, grown_page]
      exact HeapPage.tidy_init
    · rw [grown_page_ne hp]
      exact h.tidy p
  · by_cases hp : p = q
    · rw [hp, Function.update_self]
      exact HeapPage.tidy_zero
    · rw [Function.update_of_ne hp]
      exact h.diskTidy p
  · by_cases hp : p = s.pagesCount
    · subst hp
      unfold Placed at hr
      rw [grown_page] at hr
      exact (HeapPage.not_placed_init hr).elim
    · unfold Placed content at *
      rw [grown_page_ne hp] at hr ⊢
      exact h.slots ⟨p, j⟩ hr
  · by_cases hp : p = q
    · rw [hp, Function.update_self] at hj
      exact (HeapPage.not_placed_zero hj).elim
    · rw [Function.update_of_ne hp] at hj ⊢
      exact h.diskSlots p j hj

end

namespace HeapRun

variable {dbg : Bool} {tableId : Nat} {desc : TupleDescriptor} {s t : HeapRun} {xid : Nat}

theorem change_inv {m : HeapM Unit} (h : s.change xid m = some t) :
    s.phase xid = .running ∧ ∃ u, m s.store = (.ok (), u) ∧ t = s.pushed u xid := by
  unfold change at h
  split_ifs at h with hrun
  refine ⟨hrun, ?_⟩
  rcases hm : m s.store with ⟨_ | _, u⟩
  · rw [hm] at h
    cases h
  · rw [hm] at h
    exact ⟨u, rfl, (Option.some.inj h).symm⟩

theorem undoNext_inv (h : s.undoNext dbg xid = some t) : ∃ usn pending u, s.pending xid = usn :: pending ∧
    performUndo dbg usn s.store = (.ok (), u) ∧ t = s.popped u xid usn pending := by
  unfold undoNext at h
  cases hp : s.pending xid with
  | nil =>
    rw [hp] at h
    cases h
  | cons usn pending =>
    rw [hp] at h
    rcases hm : performUndo dbg usn s.store with ⟨_ | _, u⟩
    · simp only [hm] at h
      cases h
    · simp only [hm] at h
      exact ⟨usn, pending, u, rfl, hm, (Option.some.inj h).symm⟩

theorem scan_inv {reader : Nat} {history : Nat → Nat} {snapshot : Snapshot} {tid : TupleId}
    (ht : ∀ p, HeapPage.Tidy (s.store.page p)) (h : s.scan dbg desc reader history snapshot tid = some t) :
    ∃ tuple, t = { s with scanned := tuple :: s.scanned } ∧
      ((s.store.Placed tid ∧ tuple.header = .ofBytes (s.store.content tid)) ∨
        ∃ usn record image, s.store.undo usn = some record ∧ record.image = some image ∧
        tuple.header = .ofBytes image) := by
  unfold scan at h
  split_ifs at h with hlt
  rcases hi : (s.store.view dbg desc history reader).itemTuple snapshot tid.pageno tid.itemid with e | _ | tuple
  · simp only [hi] at h
    cases h
  · simp only [hi] at h
    cases h
  · simp only [hi] at h
    refine ⟨tuple, (Option.some.inj h).symm, ?_⟩
    by_cases hn : (s.store.item tid).isNormal = true
    · have hp : s.store.Placed tid := (ht _).placed _ hlt hn
      rw [itemTuple_eq hp] at hi
      obtain ⟨visible, _, hi⟩ := bind_eq_ok.1 hi
      split_ifs at hi
      · cases hi
      · obtain ⟨tuple', hs, he⟩ := map_eq_ok.1 hi
        obtain ⟨rest, hr⟩ := hp.slotTuple_eq dbg desc history reader
        rw [hr] at hs
        cases he
        have hsize : HeapPageTupleHeader.size ≤ (s.store.content tid).length := by
          rw [content_length]
          exact hp.size
        refine .inl ⟨hp, ?_⟩
        rw [HeapView.buildHeapTuple_header hs, HeapPageTupleHeader.ofBytes_append hsize]
      · exact .inr (findVisible_header hi)
    · exfalso
      unfold HeapView.itemTuple at hi
      obtain ⟨item, hitem, hi⟩ := bind_eq_ok.1 hi
      obtain rfl := HeapPage.getItemId_ok hitem
      have hn' : ¬ (HeapPage.itemAt ((s.store.view dbg desc history reader).page tid.pageno) tid.itemid).isNormal =
        true := hn
      simp only [hn', Bool.not_false, if_true] at hi
      cases hi

/-! ## Steps -/

variable {store : HeapStore} {disk : Nat → Memory}

/-- The invariant of a run. -/
def WellPointed (s : HeapRun) : Prop := Pointed s.store s.disk s.scanned

theorem insert_inv {values : Values} {pageno : Nat} (ht : ∀ p, HeapPage.Tidy (s.store.page p)) (hx : xid < 2 ^ 64)
    (hin : InSlots dbg tableId desc s (.insert xid values pageno))
    (hs : s.change xid ((heapTable dbg tableId xid desc).insertOn values pageno) = some t) :
    ∃ u tid, t = s.pushed u xid ∧ HeapTable.Logged s.store u (.Delete tableId tid) ∧ u.Placed tid ∧
    ∀ good : List UInt8 → Prop,
      (∀ bytes, (HeapPageTupleHeader.ofBytes bytes).undo = UndoSeqNumber.Invalid → good bytes) →
      Fills (fun _ => False) good s.store u := by
  obtain ⟨-, u, hu, rfl⟩ := change_inv hs
  obtain ⟨bytes, _, h1, hu⟩ := Fallible.bind_eq_ok.1 hu
  obtain ⟨hser, rfl⟩ := Fallible.ofExcept_eq_ok.1 h1
  have hb : HeapPageTupleHeader.Bounded ((heapTable dbg tableId xid desc).newHeader values) :=
    ⟨hx, (by decide : -(2 ^ 63) ≤ UndoSeqNumber.Invalid ∧ UndoSeqNumber.Invalid < 2 ^ 63)⟩
  obtain ⟨hlog, hp, hf⟩ := HeapTable.performInsert_fills ht (HeapTable.serialize_size hser) (hin bytes hser) hu
  refine ⟨u, _, rfl, hlog, hp, fun good hg => hf _ good (hg bytes ?_)⟩
  have := (HeapTable.serialize_header hb hser []).2
  rw [List.append_nil] at this
  exact this

theorem update_inv {old : HeapTuple Values} {values : Values} {newTID : TupleId}
    (ht : ∀ p, HeapPage.Tidy (s.store.page p)) (hx : xid < 2 ^ 64)
    (hmax : (s.store.undoSize : Int) + 1 ≤ UndoSeqNumber.Max)
    (hin : InSlots dbg tableId desc s (.update xid old values newTID))
    (hmay : (heapTable dbg tableId xid desc).mayUpdate s.store old values newTID = true)
    (hs : s.change xid ((heapTable dbg tableId xid desc).performUpdate old values newTID) = some t) :
    ∃ u image, t = s.pushed u xid ∧ (heapTable dbg tableId xid desc).serialize old.header old.values = .ok image ∧
      HeapTable.Logged s.store u (.Update tableId old.tid newTID image) ∧
      ∀ good, HeapTable.Heads xid (s.store.undoSize + 1) good → Fills (fun _ => False) good s.store u := by
  obtain ⟨-, u, hu, rfl⟩ := change_inv hs
  obtain ⟨hp, hfits, hvac⟩ := hin
  obtain ⟨hinPlace, hmoved⟩ := HeapTable.mayUpdate_place hp hmay
  have hplace :
    newTID ≠ old.tid → ∀ header bytes, (heapTable dbg tableId xid desc).serialize header values = .ok bytes →
      HeapPage.Vacant (s.store.page newTID.pageno) (HeapPage.upper (s.store.page newTID.pageno) - bytes.length)
        bytes.length := by
    intro hne header bytes hser
    obtain ⟨data, hdata, -⟩ := HeapTable.serialize_bytes hser
    have hnew := HeapTable.serialize_eq ((heapTable dbg tableId xid desc).newHeader values) hdata
    rw [(HeapTable.serialize_length hser hnew).1]
    exact hvac hne _ hnew
  obtain ⟨image, himage, hlog, hf⟩ := HeapTable.performUpdate_fills ht hp hinPlace
    (fun hne => ⟨hmoved hne, hplace hne⟩) (Int.lt_of_le_of_lt hmax (by decide)) hx hu
  exact ⟨u, image, rfl, himage, hlog, hf _⟩

theorem delete_inv {tid : TupleId} (ht : ∀ p, HeapPage.Tidy (s.store.page p)) (hx : xid < 2 ^ 64)
    (hmax : (s.store.undoSize : Int) + 1 ≤ UndoSeqNumber.Max) (hp : s.store.Placed tid)
    (hs : s.change xid ((heapTable dbg tableId xid desc).deleteAt tid) = some t) :
    ∃ u, t = s.pushed u xid ∧ HeapTable.Logged s.store u (.Insert tableId tid (s.store.content tid)) ∧
      ∀ good, HeapTable.Heads xid (s.store.undoSize + 1) good → Fills (fun _ => False) good s.store u := by
  obtain ⟨-, u, hu, rfl⟩ := change_inv hs
  unfold HeapTable.deleteAt at hu
  rw [Fallible.bind_ok (HeapTable.locate_eq hp)] at hu
  obtain ⟨hlog, hf⟩ := HeapTable.performDelete_fills ht hp (Int.lt_of_le_of_lt hmax (by decide)) hx hu
  exact ⟨u, rfl, hlog, hf _⟩

theorem heads_refer {u : HeapStore} {record : HeapUndoRecord} (hlog : HeapTable.Logged s.store u record) :
    HeapTable.Heads xid (s.store.undoSize + 1) fun bytes => Refers u (HeapPageTupleHeader.ofBytes bytes).undo := by
  intro bytes _ hundo
  refine .inr ⟨record, ?_⟩
  rw [hundo, hlog.undo, Function.update_self]

theorem WellPointed.insert {values : Values} {pageno : Nat} (h : WellPointed s) (hx : xid < 2 ^ 64)
    (hmax : (s.store.undoSize : Int) + 1 ≤ UndoSeqNumber.Max)
    (hin : InSlots dbg tableId desc s (.insert xid values pageno))
    (hs : s.change xid ((heapTable dbg tableId xid desc).insertOn values pageno) = some t) : WellPointed t := by
  obtain ⟨u, tid, rfl, hlog, -, hf⟩ := insert_inv h.tidy hx hin hs
  exact Pointed.changed h hlog hmax (hf _ fun _ he => .inl he) nofun

theorem WellPointed.update {old : HeapTuple Values} {values : Values} {newTID : TupleId} (h : WellPointed s)
    (hx : xid < 2 ^ 64) (hmax : (s.store.undoSize : Int) + 1 ≤ UndoSeqNumber.Max)
    (hin : InSlots dbg tableId desc s (.update xid old values newTID))
    (hold : old ∈ s.scanned) (hmay : (heapTable dbg tableId xid desc).mayUpdate s.store old values newTID = true)
    (hs : s.change xid ((heapTable dbg tableId xid desc).performUpdate old values newTID) = some t) :
    WellPointed t := by
  obtain ⟨u, image, rfl, himage, hlog, hf⟩ := update_inv h.tidy hx hmax hin hmay hs
  refine Pointed.changed h hlog hmax (hf _ (heads_refer hlog)) fun image' hi => ?_
  cases hi
  obtain ⟨hbounded, hrefers⟩ := h.scanned old hold
  have hundo := (HeapTable.serialize_header hbounded himage []).2
  rw [List.append_nil] at hundo
  rw [hundo]
  exact ⟨HeapTable.serialize_size himage, hrefers⟩

theorem WellPointed.delete {tuple : HeapTuple Values} (h : WellPointed s) (hx : xid < 2 ^ 64)
    (hmax : (s.store.undoSize : Int) + 1 ≤ UndoSeqNumber.Max) (hp : s.store.Placed tuple.tid)
    (hs : s.change xid ((heapTable dbg tableId xid desc).deleteAt tuple.tid) = some t) : WellPointed t := by
  obtain ⟨u, rfl, hlog, hf⟩ := delete_inv h.tidy hx hmax hp hs
  refine Pointed.changed h hlog hmax (hf _ (heads_refer hlog)) fun image hi => ?_
  cases hi
  refine ⟨?_, h.slots _ hp⟩
  rw [content_length]
  exact hp.size

theorem WellPointed.undo (h : WellPointed s) (hin : InSlots dbg tableId desc s (.undo xid))
    (hs : s.undoNext dbg xid = some t) :
    WellPointed t := by
  obtain ⟨usn, pending, u, hpending, hu, rfl⟩ := undoNext_inv hs
  cases hrec : s.store.undo usn with
  | none =>
    simp only [performUndo, Fallible.bind_apply, Fallible.get_apply, hrec] at hu
    cases hu
  | some record =>
    have hfound : record.Found s.store := hin usn (by rw [hpending]; rfl) record hrec
    obtain ⟨hf, hundo, hsize⟩ :
      Fills record.Kills (fun bytes => Refers s.store (HeapPageTupleHeader.ofBytes bytes).undo) s.store u ∧
        u.undo = s.store.undo ∧ u.undoSize = s.store.undoSize := performUndo_fills h.tidy hrec hfound
      (fun image hi rest => by
        obtain ⟨hlen, hr, -⟩ := h.saved usn record image hrec hi
        rw [HeapPageTupleHeader.ofBytes_append hlen]
        exact hr) hu
    exact Pointed.filled h hundo (Nat.le_of_eq hsize.symm) hf

theorem WellPointed.scan {reader : Nat} {history : Nat → Nat} {snapshot : Snapshot} {tid : TupleId}
    (h : WellPointed s) (hs : s.scan dbg desc reader history snapshot tid = some t) : WellPointed t := by
  obtain ⟨tuple, rfl, ht⟩ := scan_inv h.tidy hs
  refine ⟨h.tidy, h.diskTidy, h.slots, h.diskSlots, fun tuple' hm => ?_, h.logged, h.saved⟩
  rcases List.mem_cons.1 hm with rfl | hm
  · rcases ht with ⟨hp, he⟩ | ⟨usn, record, image, hrec, hi, he⟩
    · rw [he]
      exact ⟨HeapPageTupleHeader.bounded_ofBytes _, h.slots tid hp⟩
    · rw [he]
      exact ⟨HeapPageTupleHeader.bounded_ofBytes _, (h.saved usn record image hrec hi).2.1⟩
  · exact h.scanned tuple' hm

theorem WellPointed.step {op : HeapOp} (h : WellPointed s) (hset : Setting s op)
    (hin : InSlots dbg tableId desc s op) (hs : step dbg tableId desc s op = some t) : WellPointed t := by
  cases op with
  | scan reader history snapshot tid => exact h.scan hs
  | insert xid values pageno =>
    unfold HeapRun.step at hs
    simp only at hs
    split_ifs at hs
    exact h.insert hset.1 hset.2 hin hs
  | update xid old values newTID =>
    unfold HeapRun.step at hs
    simp only at hs
    split_ifs at hs with hmay
    exact h.update hset.1 hset.2 hin hmay.1 hmay.2 hs
  | delete xid tuple =>
    unfold HeapRun.step at hs
    simp only at hs
    split_ifs at hs
    exact h.delete hset.1 hset.2 hin hs
  | undo xid =>
    unfold HeapRun.step at hs
    simp only at hs
    split_ifs at hs
    exact h.undo hin hs
  | commit xid =>
    unfold HeapRun.step at hs
    simp only at hs
    split_ifs at hs
    cases hs
    exact h
  | abort xid =>
    unfold HeapRun.step at hs
    simp only at hs
    split_ifs at hs
    cases hs
    exact h
  | extend =>
    cases hs
    exact Pointed.extend h _
  | others bytes =>
    cases hs
    have hf : Fills (fun _ => False) (fun bytes => Refers s.store (HeapPageTupleHeader.ofBytes bytes).undo) s.store
        { s.store with undoSize := s.store.undoSize + bytes } := .of_same h.tidy rfl
    exact Pointed.filled h rfl (Nat.le_add_right _ _) hf
  | evict pageno =>
    cases hs
    exact Pointed.evict h

/-- Tidy pages with tuples as they were inserted, and nothing in the undo log. -/
structure Loaded (store : HeapStore) : Prop where
  tidy : ∀ p, HeapPage.Tidy (store.page p)
  inserted : ∀ r, store.Placed r → (HeapPageTupleHeader.ofBytes (store.content r)).undo = UndoSeqNumber.Invalid
  unlogged : ∀ usn, store.undo usn = none

theorem Loaded.wellPointed (h : Loaded store) (phase : Nat → Phase) : WellPointed (start store phase) where
  tidy := h.tidy
  diskTidy := h.tidy
  slots r hr := .inl (h.inserted r hr)
  diskSlots p j hj := .inl (h.inserted ⟨p, j⟩ hj)
  scanned := nofun
  logged usn record hu := by
    have hnone : store.undo usn = some record := hu
    rw [h.unlogged usn] at hnone
    cases hnone
  saved usn record image hu := by
    have hnone : store.undo usn = some record := hu
    rw [h.unlogged usn] at hnone
    cases hnone

/-- As long as every tuple keeps to its slot the pointers lead back. -/
theorem pointers_lead_back {phase : Nat → Phase} (h0 : Loaded store)
    (h : Reach (step dbg tableId desc) (fun s op => Setting s op ∧ InSlots dbg tableId desc s op)
      (start store phase) s) :
    LeadsBack dbg desc s.store :=
  Pointed.leadsBack (h.inv (I := WellPointed) (fun _ _ _ hs hC ht => hs.step hC.1 hC.2 ht) (h0.wellPointed phase))

/-! ## A row of one byte -/

theorem oneRow_loaded : Loaded oneRow := by
  have hone : ∀ p, HeapPage.itemsCount (oneRow.page p) = 1 := by
    intro p
    show HeapPage.itemsCount (frozenPage 0) = 1
    decide +kernel
  have hzero : ∀ {p j}, HeapPage.Placed (oneRow.page p) j → j = 0 := by
    intro p j hj
    have hlt := hj.lt
    rw [hone p] at hlt
    omega
  have hfirst : HeapPage.Placed (frozenPage 0) 0 := oneRow_slots.placed ⟨0, 0⟩ rfl
  refine ⟨fun p => ⟨?_, ?_, fun i hi _ => ?_, fun i j hne hi hj => ?_⟩, fun ⟨p, j⟩ hr => ?_, fun _ => rfl⟩
  · show HeapPage.upper (frozenPage 0) ≤ Config.PageSize
    decide +kernel
  · show HeapPage.lower (frozenPage 0) < HeapPage.upper (frozenPage 0) → _
    exact fun _ => hfirst.header
  · rw [hone p] at hi
    obtain rfl : i = 0 := by omega
    exact hfirst
  · exact absurd ((hzero hi).trans (hzero hj).symm) hne
  · obtain rfl := hzero hr
    show (HeapPageTupleHeader.ofBytes (HeapPage.slot (frozenPage 0) 0)).undo = UndoSeqNumber.Invalid
    decide +kernel

def zeroTuple : HeapTuple Values :=
  ⟨⟨TransactionId.Min, UndoSeqNumber.Invalid, ⟨false, false⟩⟩, [some (.scalar 0)], ⟨0, 0⟩⟩

theorem scan_zero (phase : Nat → Phase) : step true 1 byteDesc (start oneRow phase)
    (.scan 3 (fun _ => CommitSeqNumber.Frozen) ⟨CommitSeqNumber.Min, 0⟩ ⟨0, 0⟩) =
    some { start oneRow phase with scanned := [zeroTuple] } := by
  have h :
    ((oneRow.view true byteDesc (fun _ => CommitSeqNumber.Frozen) 3).itemTuple ⟨CommitSeqNumber.Min, 0⟩ 0 0) =
      .ok (some zeroTuple) := by
    decide +kernel
  have hlt : 0 < HeapPage.itemsCount (oneRow.page 0) := by decide +kernel
  simp only [HeapRun.step, HeapRun.scan, start, h, hlt, if_true]

/-- The row after an update in place. -/
theorem updated_row_leads_back : ∃ s, Reach (step true 1 byteDesc)
    (fun s op => Setting s op ∧ InSlots true 1 byteDesc s op) (start oneRow (fun _ => .running)) s ∧
    s.pending 3 = [1] ∧
    LeadsBack true byteDesc s.store := by
  have hupdate : ((step true 1 byteDesc { start oneRow (fun _ => .running) with scanned := [zeroTuple] }
      (.update 3 zeroTuple [some (.scalar 5)] ⟨0, 0⟩)).map fun s => s.pending 3) = some [1] := by
    decide +kernel
  obtain ⟨s, hs, hpending⟩ := Option.map_eq_some_iff.1 hupdate
  have hin : InSlots true 1 byteDesc { start oneRow (fun _ => .running) with scanned := [zeroTuple] }
      (.update 3 zeroTuple [some (.scalar 5)] ⟨0, 0⟩) := by
    refine ⟨oneRow_slots.placed ⟨0, 0⟩ rfl, fun image h => ?_, fun h => absurd rfl h⟩
    have himage : (heapTable true 1 3 byteDesc).serialize zeroTuple.header zeroTuple.values =
        .ok (zeroTuple.header.toBytes ++ [0]) := by decide +kernel
    rw [himage] at h
    cases h
    decide +kernel
  have hr : Reach (step true 1 byteDesc) (fun s op => Setting s op ∧ InSlots true 1 byteDesc s op)
    (start oneRow (fun _ => .running)) s :=
    .tail (.update 3 zeroTuple [some (.scalar 5)] ⟨0, 0⟩)
      (.tail (.scan 3 _ _ _) .refl ⟨trivial, trivial⟩ (scan_zero _))
      ⟨⟨by decide, by decide⟩, hin⟩ hs
  exact ⟨s, hr, hpending, pointers_lead_back oneRow_loaded hr⟩

/-! ## Two rows in one place -/

def pairDesc : TupleDescriptor := ⟨[⟨1, true⟩, ⟨1, true⟩]⟩

def nullPair : HeapTuple Values := ⟨⟨2, UndoSeqNumber.Invalid, ⟨false, true⟩⟩, [none, none], ⟨0, 0⟩⟩

theorem initialised_loaded : Loaded (HeapTable.initialised 1) where
  tidy _ := HeapPage.tidy_init
  inserted _ hr := (HeapPage.not_placed_init hr).elim
  unlogged _ := rfl

/-- An update moves a row to a new slot; the next row is written over the new version, and the flags of its header
come to lie where the undo pointer was. -/
theorem moved_row_overwritten : Loaded (HeapTable.initialised 1) ∧ ∃ s,
    Reach (step false 1 pairDesc) Setting (start (HeapTable.initialised 1) fun _ => .running) s ∧
    EvictRun.slotUndo s.store ⟨0, 1⟩ = 131072 ∧ s.store.undo 131072 = none ∧
    ¬ LeadsBack false pairDesc s.store := by
  have h : (exec (guarded Setting (step false 1 pairDesc)) (start (HeapTable.initialised 1) fun _ => .running)
      [.insert 2 [none, none] 0, .scan 2 (fun _ => 0) ⟨0, 1⟩ ⟨0, 0⟩,
        .update 2 nullPair [some (.scalar 1), some (.scalar 1)] ⟨0, 1⟩,
        .insert 2 [none, some (.scalar 1)] 0]).map (fun s => decide (EvictRun.slotUndo s.store ⟨0, 1⟩ = 131072) &&
          (s.store.undo 131072).isNone && decide (1 < HeapPage.itemsCount (s.store.page 0)) &&
          (s.store.item ⟨0, 1⟩).isNormal) =
      some true := by
    decide +kernel
  obtain ⟨s, hr, hs⟩ := reach_of_test h
  simp only [Bool.and_eq_true, decide_eq_true_eq, Option.isNone_iff_eq_none] at hs
  obtain ⟨⟨⟨hundo, hnone⟩, hlt⟩, hnormal⟩ := hs
  refine ⟨initialised_loaded, s, hr.of_guarded, hundo, hnone, fun hl => ?_⟩
  rcases hl.stored ⟨0, 1⟩ ⟨hlt, hnormal⟩ with he | ⟨record, he⟩
  · rw [hundo] at he
    cases he
  · rw [hundo, hnone] at he
    cases he

end HeapRun

end Mimidb
