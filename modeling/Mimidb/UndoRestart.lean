import Mimidb.UndoPointers

/-!
# Undo again

`UndoAllRecords` that fails on its way leaves the whole history, and the next
call starts with records that are undone already. The undo of an insert and of
a delete pass over such a record, while that of an update takes it for a
concurrent change: the check meant to find the restored tuple compares two
addresses (`update_undone_twice`).
-/

namespace Mimidb

open HeapStore

/-! ## Undo of one record -/

section
variable {dbg : Bool} {s : HeapStore} {usn : Int} {table : Nat} {tid : TupleId} {image : List UInt8}

theorem performUndo_delete (hrec : s.undo usn = some (.Delete table tid)) (hp : s.Placed tid)
    (hu : (HeapPageTupleHeader.ofBytes (s.content tid)).undo ≠ usn) : performUndo dbg usn s = (.ok (), s) := by
  have hu' : (HeapPageTupleHeader.ofBytes (HeapPage.slot (s.page tid.pageno) tid.itemid)).undo ≠ usn := hu
  simp only [performUndo, Fallible.bind_apply, Fallible.get_apply, hrec, UndoApplierVisitor.visit,
    UndoApplierVisitor.visitDelete,
    getPage, Fallible.ofExcept, hp.getItemId_eq, hp.normal, Bool.not_true, Bool.false_eq_true, if_false,
    hp.getTuple_eq, hp.readHeader_eq, if_pos hu']
  rfl

theorem performUndo_insert_skip (hrec : s.undo usn = some (.Insert table tid image)) (hp : s.Placed tid)
    (hu : (HeapPageTupleHeader.ofBytes (s.content tid)).undo ≠ usn) : performUndo dbg usn s = (.ok (), s) := by
  have hu' : (HeapPageTupleHeader.ofBytes (HeapPage.slot (s.page tid.pageno) tid.itemid)).undo ≠ usn := hu
  simp only [performUndo, Fallible.bind_apply, Fallible.get_apply, hrec, UndoApplierVisitor.visit,
    UndoApplierVisitor.visitInsert, getPage, Fallible.ofExcept, hp.tupleAt_eq, if_pos hu']
  rfl

theorem performUndo_insert (hrec : s.undo usn = some (.Insert table tid image)) (hp : s.Placed tid)
    (hu : (HeapPageTupleHeader.ofBytes (s.content tid)).undo = usn) (hlen : image.length ≤ (s.item tid).length) :
    performUndo dbg usn s = (.ok (), UndoApplierVisitor.restored s tid image) :=
  performUndo_inPlace hrec (.inr ⟨table, rfl⟩) hp hu hlen

end

namespace HeapUndoRecord

def isUpdate : HeapUndoRecord → Bool
  | .Update _ _ _ _ => true
  | _ => false

/-- The slot of an insert or a delete has a tuple, with room for the saved one. -/
def Stands (s : HeapStore) : HeapUndoRecord → Prop
  | .Delete _ tupId => s.Placed tupId
  | .Update _ _ _ _ => True
  | .Insert _ location tupleData => s.Placed location ∧ tupleData.length ≤ (s.item location).length

end HeapUndoRecord

namespace HeapRun

/-- The undone records are passed over, and the next `UndoAllRecords` does what is left. -/
structure Restarts (dbg : Bool) (s : HeapRun) (xid : Nat) : Prop where
  again : ∀ usn ∈ s.undone xid, performUndo dbg usn s.store = (.ok (), s.store)
  resumes : VirtualUndoLog.undoAllRecords dbg (s.undone xid ++ s.pending xid) s.store =
    VirtualUndoLog.undoAllRecords dbg (s.pending xid) s.store
  completes : (∀ usn ∈ s.pending xid, ∀ record, s.store.undo usn = some record → record.isUpdate = false) →
    ∃ u, VirtualUndoLog.undoAllRecords dbg (s.undone xid ++ s.pending xid) s.store = (.ok (), u) ∧
      ∀ usn ∈ s.undone xid ++ s.pending xid, performUndo dbg usn u = (.ok (), u)

/-- No update is undone, no delete is written over a change of a transaction that has not ended, no change is lost
with its page and no page is added twice. -/
def Restartable (s : HeapRun) : HeapOp → Prop
  | .delete xid tuple =>
    let header := HeapPageTupleHeader.ofBytes (s.store.content tuple.tid)
    header.xid = xid ∨ s.phase header.xid = .ended
  | .undo xid => ∀ usn ∈ (s.pending xid).head?, ∀ record, s.store.undo usn = some record → record.isUpdate = false
  | .extend => ∀ j, ¬ HeapPage.Placed (s.store.page s.store.pagesCount) j
  | .evict pageno => s.store.Unlost s.disk pageno
  | _ => True

/-! ## The invariant -/

/-- The records of a transaction that has not ended, the last one first. -/
def owned (s : HeapRun) (xid : Nat) : List Int := s.undone xid ++ s.pending xid

/-- A pointer of a tuple: not to an insert, and to a record of its writer. -/
structure Honest (s : HeapRun) (header : HeapPageTupleHeader) : Prop where
  change : ∀ record, s.store.undo header.undo = some record → record.image ≠ none
  writer : ∀ xid, s.phase xid ≠ .ended → header.undo ∈ s.owned xid → header.xid = xid

structure Replays (s : HeapRun) : Prop where
  pointed : WellPointed s
  slots : ∀ r, s.store.Placed r → Honest s (.ofBytes (s.store.content r))
  images : ∀ usn table tid image, s.store.undo usn = some (.Insert table tid image) → Honest s (.ofBytes image)
  stands : ∀ xid, s.phase xid ≠ .ended → ∀ usn ∈ s.owned xid, ∃ record, s.store.undo usn = some record ∧
    record.Stands s.store
  sorted : ∀ xid, s.phase xid ≠ .ended → (s.owned xid).Pairwise (· > ·)
  -- the saved tuples of a transaction are its own or of one that has ended
  settled : ∀ xid, s.phase xid ≠ .ended → ∀ usn ∈ s.pending xid, ∀ table tid image,
    s.store.undo usn = some (.Insert table tid image) → ∀ xid', xid' ≠ xid → s.phase xid' ≠ .ended →
      (HeapPageTupleHeader.ofBytes image).undo ∉ s.owned xid'
  undone : ∀ xid, s.phase xid ≠ .ended → ∀ usn ∈ s.undone xid, ∀ record, s.store.undo usn = some record →
    record.isUpdate = false ∧ ∀ table tid image, record = .Insert table tid image →
      (HeapPageTupleHeader.ofBytes (s.store.content tid)).undo ≠ usn
  running : ∀ xid, s.phase xid = .running → s.undone xid = []

variable {dbg : Bool} {tableId : Nat} {desc : TupleDescriptor} {s t : HeapRun} {u : HeapStore} {xid xid' : Nat}
  {usn : Int}
  {header : HeapPageTupleHeader} {record : HeapUndoRecord}

theorem Replays.owned_range (h : Replays s) (hl : s.phase xid ≠ .ended) (hu : usn ∈ s.owned xid) :
    0 < usn ∧ usn ≤ s.store.undoSize := by
  obtain ⟨record, hrec, -⟩ := h.stands xid hl usn hu
  have := h.pointed.logged usn record hrec
  exact ⟨this.1, this.2.1⟩

theorem Replays.undone_owned (hu : usn ∈ s.undone xid) : usn ∈ s.owned xid := List.mem_append_left _ hu

theorem Replays.pending_owned (hu : usn ∈ s.pending xid) : usn ∈ s.owned xid := List.mem_append_right _ hu

theorem stands_mono {good : List UInt8 → Prop} (hf : Fills (fun _ => False) good s.store u)
    (h : record.Stands s.store) :
    record.Stands u := by
  cases record with
  | Delete table tupId => exact (hf.kept tupId (fun h => h) h).1
  | Update table oldLocation newLocation tupleData => trivial
  | Insert table location tupleData =>
    obtain ⟨hp, hi⟩ := hf.kept location (fun h => h) h.1
    refine ⟨hp, ?_⟩
    rw [hi]
    exact h.2

/-! ## Steps that leave the records -/

/-- A step that writes nothing but saved tuples, and may undo a record or end a transaction. -/
theorem Replays.kept (h : Replays s) (hpointed : WellPointed t) (hundo : t.store.undo = s.store.undo)
    (hf : Fills (fun _ => False) (fun bytes => Honest s (.ofBytes bytes) ∧ ∀ xid, t.phase xid ≠ .ended →
      (HeapPageTupleHeader.ofBytes bytes).undo ∉ t.undone xid) s.store t.store)
    (hlive : ∀ xid, t.phase xid ≠ .ended → s.phase xid ≠ .ended ∧ t.owned xid = s.owned xid ∧
      ∀ usn ∈ t.pending xid, usn ∈ s.pending xid)
    (hdone : ∀ xid, t.phase xid ≠ .ended → ∀ usn ∈ t.undone xid, usn ∈ s.undone xid ∨
      ∀ record, s.store.undo usn = some record → record.isUpdate = false ∧
      ∀ table tid image, record = .Insert table tid image →
        (HeapPageTupleHeader.ofBytes (t.store.content tid)).undo ≠ usn)
    (hrun : ∀ xid, t.phase xid = .running → t.undone xid = []) : Replays t := by
  have hhonest : ∀ header, Honest s header → Honest t header := by
    intro header hh
    refine ⟨fun record hr => hh.change record (hundo ▸ hr), fun xid hl hu => ?_⟩
    obtain ⟨hl', howned, -⟩ := hlive xid hl
    exact hh.writer xid hl' (howned ▸ hu)
  refine ⟨hpointed, fun r hr => ?_, fun usn table tid image hr => ?_, fun xid hl usn hu => ?_, fun xid hl => ?_,
    fun xid hl usn hu table tid image hr xid' hne hl' hown => ?_, fun xid hl usn hu record hr => ?_, hrun⟩
  · rcases hf.slots r hr with ⟨hr', he⟩ | hg
    · rw [he]
      exact hhonest _ (h.slots r hr')
    · exact hhonest _ hg.1
  · exact hhonest _ (h.images usn table tid image (hundo ▸ hr))
  · obtain ⟨hl', howned, -⟩ := hlive xid hl
    obtain ⟨record, hrec, hs⟩ := h.stands xid hl' usn (howned ▸ hu)
    exact ⟨record, hundo ▸ hrec, stands_mono hf hs⟩
  · obtain ⟨hl', howned, -⟩ := hlive xid hl
    rw [howned]
    exact h.sorted xid hl'
  · obtain ⟨hl1, -, hpending⟩ := hlive xid hl
    obtain ⟨hl2, howned, -⟩ := hlive xid' hl'
    exact h.settled xid hl1 usn (hpending usn hu) table tid image (hundo ▸ hr) xid' hne hl2 (howned ▸ hown)
  · rcases hdone xid hl usn hu with hu' | hnew
    · obtain ⟨hl', -, -⟩ := hlive xid hl
      obtain ⟨hno, hslot⟩ := h.undone xid hl' usn hu' record (hundo ▸ hr)
      refine ⟨hno, fun table tid image he => ?_⟩
      obtain ⟨record', hrec, hs⟩ := h.stands xid hl' usn (Replays.undone_owned hu')
      obtain rfl : record' = record := Option.some.inj (hrec.symm.trans (hundo ▸ hr))
      subst he
      rcases hf.slots tid (hf.kept tid (fun h => h) hs.1).1 with ⟨-, he⟩ | hg
      · rw [he]
        exact hslot table tid image rfl
      · intro he
        rw [he] at hg
        exact hg.2 xid hl hu
    · exact hnew record (hundo ▸ hr)

theorem Replays.still (h : Replays s) (hpointed : WellPointed t) (hundo : t.store.undo = s.store.undo)
    (hf : ∀ good, Fills (fun _ => False) good s.store t.store) (hundone : t.undone = s.undone)
    (hpending : t.pending = s.pending)
    (hlive : ∀ xid, t.phase xid ≠ .ended → t.phase xid = s.phase xid) : Replays t := by
  refine h.kept hpointed hundo (hf _) (fun xid hl => ⟨hlive xid hl ▸ hl, ?_, fun usn hu => ?_⟩)
    (fun xid _ usn hu => ?_)
    fun xid hr => ?_
  · unfold owned
    rw [hundone, hpending]
  · rw [hpending] at hu
    exact hu
  · rw [hundone] at hu
    exact .inl hu
  · rw [hundone]
    apply h.running
    rw [← hlive xid (by rw [hr]; nofun), hr]

theorem live_of_ended (hl : Function.update s.phase xid .ended xid' ≠ .ended) :
    Function.update s.phase xid .ended xid' = s.phase xid' := by
  apply Function.update_of_ne
  intro he
  rw [he, Function.update_self] at hl
  exact hl rfl

/-! ## Undo -/

section
variable {rest : List Int}

theorem popped_owned (hpending : s.pending xid = usn :: rest) :
    (s.popped u xid usn rest).owned xid' = s.owned xid' := by
  unfold owned popped
  by_cases hx : xid' = xid
  · subst hx
    simp only [Function.update_self, hpending, List.append_assoc, List.singleton_append]
  · simp only [Function.update_of_ne hx]

theorem popped_undone {usn' : Int} (hu : usn' ∈ (s.popped u xid usn rest).undone xid') :
    usn' ∈ s.undone xid' ∨ xid' = xid ∧ usn' = usn := by
  unfold popped at hu
  by_cases hx : xid' = xid
  · subst hx
    simp only [Function.update_self] at hu
    rcases List.mem_append.1 hu with hu | hu
    · exact .inl hu
    · exact .inr ⟨rfl, List.mem_singleton.1 hu⟩
  · simp only [Function.update_of_ne hx] at hu
    exact .inl hu

theorem popped_live (hpending : s.pending xid = usn :: rest) (hl : s.phase xid ≠ .ended)
    (hl' : (s.popped u xid usn rest).phase xid' ≠ .ended) : s.phase xid' ≠ .ended ∧
      (s.popped u xid usn rest).owned xid' = s.owned xid' ∧
      ∀ usn' ∈ (s.popped u xid usn rest).pending xid', usn' ∈ s.pending xid' := by
  refine ⟨?_, popped_owned hpending, fun usn' hu => ?_⟩
  · by_cases hx : xid' = xid
    · rw [hx]
      exact hl
    · unfold popped at hl'
      simp only [Function.update_of_ne hx] at hl'
      exact hl'
  · unfold popped at hu
    by_cases hx : xid' = xid
    · subst hx
      simp only [Function.update_self] at hu
      rw [hpending]
      exact List.mem_cons_of_mem _ hu
    · simp only [Function.update_of_ne hx] at hu
      exact hu

theorem popped_aborting : (s.popped u xid usn rest).phase xid ≠ .ended := by
  show Function.update s.phase xid .aborting xid ≠ .ended
  rw [Function.update_self]
  nofun

theorem Replays.popped_running (h : Replays s) (hr : (s.popped u xid usn rest).phase xid' = .running) :
    (s.popped u xid usn rest).undone xid' = [] := by
  unfold popped at hr ⊢
  by_cases hx : xid' = xid
  · subst hx
    simp only [Function.update_self] at hr
    cases hr
  · simp only [Function.update_of_ne hx] at hr ⊢
    exact h.running xid' hr

theorem Replays.passed (h : Replays s) (hpending : s.pending xid = usn :: rest) (hl : s.phase xid ≠ .ended)
    (hpointed : WellPointed (s.popped s.store xid usn rest)) (hrec : s.store.undo usn = some record)
    (hno : record.isUpdate = false)
    (hslot : ∀ table tid image, record = .Insert table tid image →
      (HeapPageTupleHeader.ofBytes (s.store.content tid)).undo ≠ usn) :
    Replays (s.popped s.store xid usn rest) := by
  refine h.kept hpointed rfl (.of_same h.pointed.tidy rfl) (fun _ => popped_live hpending hl)
    (fun xid' _ usn' hu => ?_)
    fun _ => h.popped_running
  rcases popped_undone hu with hu | ⟨-, rfl⟩
  · exact .inl hu
  · refine .inr fun record' hr => ?_
    obtain rfl : record = record' := Option.some.inj (hrec.symm.trans hr)
    exact ⟨hno, hslot⟩

theorem Replays.restored {table : Nat} {tid : TupleId} {image : List UInt8} (h : Replays s)
    (hpending : s.pending xid = usn :: rest) (hl : s.phase xid ≠ .ended)
    (hpointed : WellPointed (s.popped (UndoApplierVisitor.restored s.store tid image) xid usn rest))
    (hrec : s.store.undo usn = some (.Insert table tid image)) (hp : s.store.Placed tid)
    (hlen : image.length ≤ (s.store.item tid).length) :
    Replays (s.popped (UndoApplierVisitor.restored s.store tid image) xid usn rest) := by
  obtain ⟨hsize, -, hlt⟩ := h.pointed.saved usn _ image hrec rfl
  have hheader : ∀ rest, HeapPageTupleHeader.ofBytes (image ++ rest) = .ofBytes image :=
    HeapPageTupleHeader.ofBytes_append hsize
  have hmem : usn ∈ s.pending xid := by
    rw [hpending]
    exact List.mem_cons_self
  -- the saved pointer is to none of the records that are undone
  have hfree : ∀ xid', (s.popped (UndoApplierVisitor.restored s.store tid image) xid usn rest).phase xid' ≠ .ended →
      (HeapPageTupleHeader.ofBytes image).undo ∉
        (s.popped (UndoApplierVisitor.restored s.store tid image) xid usn rest).undone xid' := by
    intro xid' hl' hm
    obtain ⟨hl', -, -⟩ := popped_live hpending hl hl'
    rcases popped_undone hm with hold | ⟨-, he⟩
    · by_cases hx : xid' = xid
      · subst hx
        have hs := h.sorted xid' hl
        unfold owned at hs
        rw [hpending] at hs
        have := (List.pairwise_append.1 hs).2.2 _ hold usn List.mem_cons_self
        omega
      · exact h.settled xid hl usn hmem table tid image hrec xid' hx hl' (Replays.undone_owned hold)
    · omega
  refine h.kept hpointed rfl (UndoApplierVisitor.restore_fills h.pointed.tidy hp hlen fun rest => ?_)
    (fun _ => popped_live hpending hl) (fun xid' _ usn' hu => ?_) fun _ => h.popped_running
  · simp only [hheader]
    exact ⟨h.images usn table tid image hrec, hfree⟩
  · rcases popped_undone hu with hu | ⟨-, rfl⟩
    · exact .inl hu
    · refine .inr fun record hr => ?_
      cases hrec.symm.trans hr
      refine ⟨rfl, fun table' tid' image' he => ?_⟩
      cases he
      have hcontent := (UndoApplierVisitor.restored_slotChange hp hlen).content
      show (HeapPageTupleHeader.ofBytes ((UndoApplierVisitor.restored s.store tid image).content tid)).undo ≠ usn'
      rw [hcontent, hheader]
      omega

theorem Replays.found (h : Replays s) (hl : s.phase xid ≠ .ended) (hu : usn ∈ s.owned xid)
    (hrec : s.store.undo usn = some record) (hno : record.isUpdate = false) : record.Found s.store := by
  obtain ⟨record', hrec', hstands⟩ := h.stands xid hl usn hu
  obtain rfl : record' = record := Option.some.inj (hrec'.symm.trans hrec)
  cases record' with
  | Delete table tupId => exact hstands.lt
  | Update table oldLocation newLocation tupleData => cases hno
  | Insert table location tupleData => exact hstands

theorem Replays.undo (h : Replays s) (dbg : Bool) (hpending : s.pending xid = usn :: rest)
    (hl : s.phase xid ≠ .ended) (hno : ∀ record, s.store.undo usn = some record → record.isUpdate = false) :
    ∃ u, performUndo dbg usn s.store = (.ok (), u) ∧ u.undo = s.store.undo ∧ Replays (s.popped u xid usn rest) := by
  have hmem : usn ∈ s.pending xid := by
    rw [hpending]
    exact List.mem_cons_self
  obtain ⟨record, hrec, hstands⟩ := h.stands xid hl usn (Replays.pending_owned hmem)
  have hpointed : ∀ u, performUndo dbg usn s.store = (.ok (), u) → WellPointed (s.popped u xid usn rest) := by
    intro u hu
    have hs : s.undoNext dbg xid = some (s.popped u xid usn rest) := by
      unfold undoNext
      simp only [hpending, hu]
    refine @WellPointed.undo dbg 0 ⟨[]⟩ s _ xid h.pointed (fun usn' hu' record' hrec' => ?_) hs
    rw [hpending] at hu'
    cases hu'
    exact h.found hl (Replays.pending_owned hmem) hrec' (hno record' hrec')
  cases record with
  | Delete table tupId =>
    have hne : (HeapPageTupleHeader.ofBytes (s.store.content tupId)).undo ≠ usn := by
      intro he
      exact (h.slots tupId hstands).change _ (he ▸ hrec) rfl
    have hskip : performUndo dbg usn s.store = (.ok (), s.store) := performUndo_delete hrec hstands hne
    exact ⟨s.store, hskip, rfl, h.passed hpending hl (hpointed _ hskip) hrec rfl nofun⟩
  | Update table oldLocation newLocation tupleData => exact nomatch hno _ hrec
  | Insert table location tupleData =>
    obtain ⟨hp, hlen⟩ := hstands
    by_cases hu : (HeapPageTupleHeader.ofBytes (s.store.content location)).undo = usn
    · have hback : performUndo dbg usn s.store = (.ok (), UndoApplierVisitor.restored s.store location tupleData) :=
        performUndo_insert hrec hp hu hlen
      exact ⟨_, hback, rfl, h.restored hpending hl (hpointed _ hback) hrec hp hlen⟩
    · have hskip : performUndo dbg usn s.store = (.ok (), s.store) := performUndo_insert_skip hrec hp hu
      refine ⟨s.store, hskip, rfl, h.passed hpending hl (hpointed _ hskip) hrec rfl fun table' tid image he => ?_⟩
      cases he
      exact hu

/-! ## Changes -/

/-- The header of a change with this record, or of an insert. -/
def Written (xid : Nat) (usn : Int) (record : HeapUndoRecord) (bytes : List UInt8) : Prop :=
  (HeapPageTupleHeader.ofBytes bytes).undo = UndoSeqNumber.Invalid ∨
    ((HeapPageTupleHeader.ofBytes bytes).undo = usn ∧ (HeapPageTupleHeader.ofBytes bytes).xid = xid ∧
      record.image ≠ none)

theorem pushed_owned (h : Replays s) (hrun : s.phase xid = .running) :
    (s.pushed u xid).owned xid = (s.store.undoSize + 1 : Int) :: s.owned xid := by
  unfold owned pushed
  simp only [Function.update_self, h.running xid hrun, List.nil_append]

theorem pushed_owned_ne (hx : xid' ≠ xid) : (s.pushed u xid).owned xid' = s.owned xid' := by
  unfold owned pushed
  simp only [Function.update_of_ne hx]

theorem Replays.honest_pushed (h : Replays s) (hlog : HeapTable.Logged s.store u record)
    (hrun : s.phase xid = .running) (hr : Refers s.store header.undo)
    (hh : Honest s header) : Honest (s.pushed u xid) header := by
  have hle : header.undo ≤ s.store.undoSize := by
    rcases h.pointed.range hr with he | he
    · rw [he]
      exact Int.natCast_nonneg _
    · exact he.2.1
  refine ⟨fun record' hr' => hh.change record' ?_, fun xid' hl hu => hh.writer xid' hl ?_⟩
  · have hr' : u.undo header.undo = some record' := hr'
    rw [hlog.undo, Function.update_of_ne (by omega)] at hr'
    exact hr'
  · by_cases hx : xid' = xid
    · rw [hx, pushed_owned h hrun] at hu
      rw [hx]
      rcases List.mem_cons.1 hu with he | hu
      · omega
      · exact hu
    · rw [pushed_owned_ne hx] at hu
      exact hu

theorem Replays.honest_written {bytes : List UInt8} (h : Replays s) (hpointed : WellPointed (s.pushed u xid))
    (hlog : HeapTable.Logged s.store u record) (hrun : s.phase xid = .running)
    (hw : Written xid (s.store.undoSize + 1) record bytes) :
    Honest (s.pushed u xid) (.ofBytes bytes) := by
  rcases hw with he | ⟨he, hxid, himage⟩
  · refine ⟨fun record' hr => ?_, fun xid' hl hu => ?_⟩
    · have := (hpointed.logged _ record' hr).1
      rw [he] at this
      exact nomatch this
    · rw [he] at hu
      by_cases hx : xid' = xid
      · rw [hx, pushed_owned h hrun] at hu
        rcases List.mem_cons.1 hu with hu | hu
        · simp only [UndoSeqNumber.Invalid] at hu
          omega
        · exact nomatch (h.owned_range (by rw [hrun]; nofun) hu).1
      · rw [pushed_owned_ne hx] at hu
        exact nomatch (h.owned_range hl hu).1
  · refine ⟨fun record' hr => ?_, fun xid' hl hu => ?_⟩
    · have hr : u.undo (HeapPageTupleHeader.ofBytes bytes).undo = some record' := hr
      rw [he, hlog.undo, Function.update_self] at hr
      obtain rfl : record = record' := Option.some.inj hr
      exact himage
    · by_cases hx : xid' = xid
      · rw [hx]
        exact hxid
      · rw [pushed_owned_ne hx, he] at hu
        have := (h.owned_range hl hu).2
        omega

/-- A change that saves the tuple of a slot whose writer is the same or has ended. -/
theorem Replays.pushed (h : Replays s) (hrun : s.phase xid = .running) (hpointed : WellPointed (s.pushed u xid))
    (hlog : HeapTable.Logged s.store u record)
    (hf : Fills (fun _ => False) (Written xid (s.store.undoSize + 1) record) s.store u)
    (hstands : record.Stands u)
    (himage : ∀ table tid image, record = .Insert table tid image → s.store.Placed tid ∧
      image = s.store.content tid ∧
      ((HeapPageTupleHeader.ofBytes image).xid = xid ∨ s.phase (HeapPageTupleHeader.ofBytes image).xid = .ended)) :
    Replays (s.pushed u xid) := by
  have hlive : s.phase xid ≠ .ended := by
    rw [hrun]
    nofun
  have hold : ∀ {usn : Int}, usn ≤ s.store.undoSize → u.undo usn = s.store.undo usn := by
    intro usn hle
    rw [hlog.undo, Function.update_of_ne (by omega)]
  have hcase : ∀ {usn record'}, u.undo usn = some record' →
      (usn = s.store.undoSize + 1 ∧ record' = record) ∨ s.store.undo usn = some record' := by
    intro usn record' hu
    by_cases he : usn = s.store.undoSize + 1
    · rw [hlog.undo, he, Function.update_self] at hu
      exact .inl ⟨he, (Option.some.inj hu).symm⟩
    · rw [hlog.undo, Function.update_of_ne he] at hu
      exact .inr hu
  have howned : ∀ {xid' usn}, usn ∈ (s.pushed u xid).owned xid' → (xid' = xid ∧ usn = s.store.undoSize + 1) ∨
      usn ∈ s.owned xid' := by
    intro xid' usn hu
    by_cases hx : xid' = xid
    · rw [hx, pushed_owned h hrun] at hu
      rw [hx]
      rcases List.mem_cons.1 hu with he | hu
      · exact .inl ⟨rfl, he⟩
      · exact .inr hu
    · rw [pushed_owned_ne hx] at hu
      exact .inr hu
  refine ⟨hpointed, fun r hr => ?_, fun usn table tid image hr => ?_, fun xid' hl usn hu => ?_, fun xid' hl => ?_,
    fun xid' hl usn hu table tid image hr xid'' hne hl' hown => ?_, fun xid' hl usn hu record' hr => ?_,
    fun xid' hr => h.running xid' hr⟩
  · rcases hf.slots r hr with ⟨hr', he⟩ | hg
    · show Honest _ (.ofBytes (u.content r))
      rw [he]
      exact h.honest_pushed hlog hrun (h.pointed.slots r hr') (h.slots r hr')
    · exact h.honest_written hpointed hlog hrun hg
  · rcases hcase hr with ⟨-, he⟩ | hr
    · obtain ⟨hp, rfl, -⟩ := himage table tid image he.symm
      exact h.honest_pushed hlog hrun (h.pointed.slots tid hp) (h.slots tid hp)
    · exact h.honest_pushed hlog hrun (h.pointed.saved usn _ image hr rfl).2.1 (h.images usn table tid image hr)
  · rcases howned hu with ⟨rfl, rfl⟩ | hu
    · refine ⟨record, ?_, hstands⟩
      show u.undo _ = _
      rw [hlog.undo, Function.update_self]
    · obtain ⟨record', hrec, hs⟩ := h.stands xid' hl usn hu
      exact ⟨record', (hold (h.owned_range hl hu).2).trans hrec, stands_mono hf hs⟩
  · by_cases hx : xid' = xid
    · rw [hx, pushed_owned h hrun]
      refine List.pairwise_cons.2 ⟨fun usn hu => ?_, h.sorted xid hlive⟩
      have := (h.owned_range hlive hu).2
      omega
    · rw [pushed_owned_ne hx]
      exact h.sorted xid' hl
  · -- the saved pointer is older than the change
    have holder : (HeapPageTupleHeader.ofBytes image).undo ≤ s.store.undoSize := by
      have hlt := (hpointed.saved usn _ image hr rfl).2.2
      rcases hcase hr with ⟨he, -⟩ | hr
      · omega
      · have := (h.pointed.logged usn _ hr).2.1
        omega
    have hown' : (HeapPageTupleHeader.ofBytes image).undo ∈ s.owned xid'' := by
      rcases howned hown with ⟨-, he⟩ | hown
      · omega
      · exact hown
    rcases hcase hr with ⟨he, hrec⟩ | hr
    · obtain ⟨hp, rfl, hwriter⟩ := himage table tid image hrec.symm
      have hx : xid' = xid := by
        rcases howned (Replays.pending_owned hu) with ⟨hx, -⟩ | hu
        · exact hx
        · have := (h.owned_range hl hu).2
          omega
      have hxid := (h.slots tid hp).writer xid'' hl' hown'
      rcases hwriter with hw | hw
      · exact hne (hxid.symm.trans (hw.trans hx.symm))
      · rw [hxid] at hw
        exact hl' hw
    · have hu' : usn ∈ s.pending xid' := by
        have hle := (h.pointed.logged usn _ hr).2.1
        unfold HeapRun.pushed at hu
        by_cases hx : xid' = xid
        · subst hx
          simp only [Function.update_self] at hu
          rcases List.mem_cons.1 hu with he | hu
          · omega
          · exact hu
        · simp only [Function.update_of_ne hx] at hu
          exact hu
      exact h.settled xid' hl usn hu' table tid image hr xid'' hne hl' hown'
  · have hown := h.stands xid' hl usn (Replays.undone_owned hu)
    have hle := (h.owned_range hl (Replays.undone_owned hu)).2
    have hr' : s.store.undo usn = some record' := (hold hle).symm.trans hr
    obtain ⟨hno, hslot⟩ := h.undone xid' hl usn hu record' hr'
    refine ⟨hno, fun table tid image he => ?_⟩
    obtain ⟨record'', hrec, hs⟩ := hown
    obtain rfl : record' = record'' := Option.some.inj (hr'.symm.trans hrec)
    subst he
    show (HeapPageTupleHeader.ofBytes (u.content tid)).undo ≠ usn
    rcases hf.slots tid (hf.kept tid (fun h => h) hs.1).1 with ⟨-, he⟩ | hg
    · rw [he]
      exact hslot table tid image rfl
    · have hpos := (h.owned_range hl (Replays.undone_owned hu)).1
      rcases hg with he | ⟨he, -, -⟩
      · rw [he]
        intro hz
        rw [← hz] at hpos
        exact nomatch hpos
      · rw [he]
        omega

/-! ## Undo of a transaction -/

theorem Replays.again (h : Replays s) (hl : s.phase xid ≠ .ended) (hu : usn ∈ s.undone xid) :
    performUndo dbg usn s.store = (.ok (), s.store) := by
  obtain ⟨record, hrec, hstands⟩ := h.stands xid hl usn (Replays.undone_owned hu)
  obtain ⟨hno, hslot⟩ := h.undone xid hl usn hu record hrec
  cases record with
  | Delete table tupId =>
    apply performUndo_delete hrec hstands
    intro he
    exact (h.slots tupId hstands).change _ (he ▸ hrec) rfl
  | Update table oldLocation newLocation tupleData => cases hno
  | Insert table location tupleData => exact performUndo_insert_skip hrec hstands.1 (hslot _ _ _ rfl)

theorem undoAllRecords_cons {s u : HeapStore} (h : performUndo dbg usn s = (.ok (), u)) :
    VirtualUndoLog.undoAllRecords dbg (usn :: rest) s = VirtualUndoLog.undoAllRecords dbg rest u := by
  show (performUndo dbg usn >>= fun _ => VirtualUndoLog.undoAllRecords dbg rest) s = _
  rw [Fallible.bind_ok h]

theorem undoAllRecords_append {s : HeapStore} : ∀ {done : List Int},
    (∀ usn ∈ done, performUndo dbg usn s = (.ok (), s)) →
    VirtualUndoLog.undoAllRecords dbg (done ++ rest) s = VirtualUndoLog.undoAllRecords dbg rest s
  | [], _ => rfl
  | usn :: done, h => by
    rw [List.cons_append, undoAllRecords_cons (h usn List.mem_cons_self)]
    exact undoAllRecords_append fun usn' hu => h usn' (List.mem_cons_of_mem _ hu)

/-- The records that are left are undone, the last one first. -/
theorem Replays.completes (h : Replays s) (hl : s.phase xid ≠ .ended)
    (hno : ∀ usn ∈ s.pending xid, ∀ record, s.store.undo usn = some record → record.isUpdate = false) :
    ∃ u, VirtualUndoLog.undoAllRecords dbg (s.pending xid) s.store = (.ok (), u) ∧
      ∀ usn ∈ s.owned xid, performUndo dbg usn u = (.ok (), u) := by
  induction hp : s.pending xid generalizing s with
  | nil =>
    refine ⟨s.store, rfl, fun usn hu => ?_⟩
    unfold owned at hu
    rw [hp, List.append_nil] at hu
    exact h.again hl hu
  | cons usn rest ih =>
    rw [hp] at hno
    obtain ⟨u, hu, hundo, h'⟩ := h.undo dbg hp hl (hno usn List.mem_cons_self)
    have hrest : (s.popped u xid usn rest).pending xid = rest := Function.update_self ..
    obtain ⟨v, hv, hagain⟩ := ih h' popped_aborting (fun usn' hm record hr => by
      rw [hrest] at hm
      exact hno usn' (List.mem_cons_of_mem _ hm) record (hundo ▸ hr)) hrest
    rw [popped_owned hp] at hagain
    exact ⟨v, (undoAllRecords_cons hu).trans hv, hagain⟩

theorem Replays.restarts (h : Replays s) (hl : s.phase xid ≠ .ended) : Restarts dbg s xid := by
  have hresumes : VirtualUndoLog.undoAllRecords dbg (s.undone xid ++ s.pending xid) s.store =
      VirtualUndoLog.undoAllRecords dbg (s.pending xid) s.store := undoAllRecords_append fun usn hu => h.again hl hu
  refine ⟨fun usn hu => h.again hl hu, hresumes, fun hno => ?_⟩
  rw [hresumes]
  exact h.completes hl hno

end

/-! ## Steps -/

theorem change_running {m : HeapM Unit} (hs : s.change xid m = some t) : s.phase xid = .running := (change_inv hs).1

theorem written_heads (himage : record.image ≠ none) : HeapTable.Heads xid usn (Written xid usn record) :=
  fun _ hxid hundo => .inr ⟨hundo, hxid, himage⟩

theorem Replays.insert {values : Values} {pageno : Nat} (h : Replays s) (hx : xid < 2 ^ 64)
    (hin : InSlots dbg tableId desc s (.insert xid values pageno))
    (hs : s.change xid ((heapTable dbg tableId xid desc).insertOn values pageno) = some t)
    (hpointed : WellPointed t) : Replays t := by
  have hrun := change_running hs
  obtain ⟨u, tid, rfl, hlog, hp, hf⟩ := insert_inv h.pointed.tidy hx hin hs
  exact h.pushed hrun hpointed hlog (hf _ fun _ he => .inl he) hp nofun

theorem Replays.update {old : HeapTuple Values} {values : Values} {newTID : TupleId} (h : Replays s)
    (hx : xid < 2 ^ 64) (hmax : (s.store.undoSize : Int) + 1 ≤ UndoSeqNumber.Max)
    (hin : InSlots dbg tableId desc s (.update xid old values newTID))
    (hmay : (heapTable dbg tableId xid desc).mayUpdate s.store old values newTID = true)
    (hs : s.change xid ((heapTable dbg tableId xid desc).performUpdate old values newTID) = some t)
    (hpointed : WellPointed t) :
    Replays t := by
  have hrun := change_running hs
  obtain ⟨u, image, rfl, -, hlog, hf⟩ := update_inv h.pointed.tidy hx hmax hin hmay hs
  exact h.pushed hrun hpointed hlog (hf _ (written_heads nofun)) trivial nofun

theorem Replays.delete {tuple : HeapTuple Values} (h : Replays s) (hx : xid < 2 ^ 64)
    (hmax : (s.store.undoSize : Int) + 1 ≤ UndoSeqNumber.Max) (hp : s.store.Placed tuple.tid)
    (hwriter : Restartable s (.delete xid tuple))
    (hs : s.change xid ((heapTable dbg tableId xid desc).deleteAt tuple.tid) = some t) (hpointed : WellPointed t) :
    Replays t := by
  have hrun := change_running hs
  obtain ⟨u, rfl, hlog, hf⟩ := delete_inv h.pointed.tidy hx hmax hp hs
  have hheads : HeapTable.Heads xid (s.store.undoSize + 1)
      (Written xid (s.store.undoSize + 1) (.Insert tableId tuple.tid (s.store.content tuple.tid))) :=
        written_heads nofun
  have hf' := hf _ hheads
  refine h.pushed hrun hpointed hlog hf' ?_ fun table tid image he => ?_
  · obtain ⟨hp', hi⟩ := hf'.kept tuple.tid (fun h => h) hp
    refine ⟨hp', ?_⟩
    rw [hi, content_length]
  · cases he
    exact ⟨hp, rfl, hwriter⟩

theorem Replays.step {op : HeapOp} (h : Replays s) (hset : Setting s op) (hin : InSlots dbg tableId desc s op)
    (hres : Restartable s op) (hs : step dbg tableId desc s op = some t) : Replays t := by
  have hpointed := h.pointed.step hset hin hs
  have hsame : ∀ {u : HeapStore}, u.page = s.store.page → ∀ good, Fills (fun _ => False) good s.store u :=
    fun hp _ => .of_same h.pointed.tidy hp
  cases op with
  | scan reader history snapshot tid =>
    obtain ⟨tuple, rfl, -⟩ := scan_inv h.pointed.tidy hs
    exact h.still hpointed rfl (hsame rfl) rfl rfl fun _ _ => rfl
  | insert xid values pageno =>
    unfold HeapRun.step at hs
    simp only at hs
    split_ifs at hs
    exact h.insert hset.1 hin hs hpointed
  | update xid old values newTID =>
    unfold HeapRun.step at hs
    simp only at hs
    split_ifs at hs with hmay
    exact h.update hset.1 hset.2 hin hmay.2 hs hpointed
  | delete xid tuple =>
    unfold HeapRun.step at hs
    simp only at hs
    split_ifs at hs
    exact h.delete hset.1 hset.2 hin hres hs hpointed
  | undo xid =>
    unfold HeapRun.step at hs
    simp only at hs
    split_ifs at hs with hl
    obtain ⟨usn, rest, u, hp, hu, rfl⟩ := undoNext_inv hs
    obtain ⟨u', hu', -, h'⟩ := h.undo dbg hp hl fun record hr => hres usn (by rw [hp]; rfl) record hr
    rw [hu] at hu'
    cases hu'
    exact h'
  | commit xid =>
    unfold HeapRun.step at hs
    simp only at hs
    split_ifs at hs
    cases hs
    exact h.still hpointed rfl (hsame rfl) rfl rfl fun _ hl => live_of_ended hl
  | abort xid =>
    unfold HeapRun.step at hs
    simp only at hs
    split_ifs at hs
    cases hs
    exact h.still hpointed rfl (hsame rfl) rfl rfl fun _ hl => live_of_ended hl
  | extend =>
    cases hs
    refine h.still hpointed rfl (fun good => ⟨hpointed.tidy, fun r _ hr => ?_, fun r hr => ?_⟩) rfl rfl fun _ _ =>
      rfl
    · have hne : r.pageno ≠ s.store.pagesCount := by
        intro he
        unfold Placed at hr
        rw [he] at hr
        exact hres _ hr
      show s.store.grown.Placed r ∧ s.store.grown.item r = s.store.item r
      unfold Placed HeapStore.item
      rw [grown_page_ne hne]
      exact ⟨hr, rfl⟩
    · have hne : r.pageno ≠ s.store.pagesCount := by
        intro he
        have hr : HeapPage.Placed (s.store.grown.page r.pageno) r.itemid := hr
        rw [he, grown_page] at hr
        exact HeapPage.not_placed_init hr
      have hr : s.store.grown.Placed r := hr
      unfold Placed at hr
      rw [grown_page_ne hne] at hr
      refine .inl ⟨hr, ?_⟩
      show s.store.grown.content r = s.store.content r
      unfold content
      rw [grown_page_ne hne]
  | others bytes =>
    cases hs
    exact h.still hpointed rfl (hsame rfl) rfl rfl fun _ _ => rfl
  | evict pageno =>
    cases hs
    exact h.still hpointed rfl (hsame (evicted_page hres)) rfl rfl fun _ _ => rfl

variable {store : HeapStore} {phase : Nat → Phase}

theorem Loaded.replays (h : Loaded store) (phase : Nat → Phase) : Replays (start store phase) := by
  have hnone : ∀ {usn record}, store.undo usn ≠ some record := by
    intro usn record he
    rw [h.unlogged usn] at he
    cases he
  exact ⟨h.wellPointed phase, fun r hr => ⟨fun _ he => (hnone he).elim, nofun⟩, fun _ _ _ _ he => (hnone he).elim,
    nofun, fun _ _ => .nil, nofun, nofun, fun _ _ => rfl⟩

/-- A transaction that has undone no update may start its undo again. -/
theorem undo_restarts (h0 : Loaded store)
    (h : Reach (step dbg tableId desc) (fun s op => Setting s op ∧ InSlots dbg tableId desc s op ∧ Restartable s op)
      (start store phase) s) : ∀ xid, s.phase xid ≠ .ended → Restarts dbg s xid := by
  have hinv : Replays s :=
    h.inv (I := Replays) (fun _ _ _ hs hC ht => hs.step hC.1 hC.2.1 hC.2.2 ht) (h0.replays phase)
  exact fun xid hl => hinv.restarts hl

/-! ## A row of one byte -/

/-- The transaction that wrote the row has ended. -/
def loadedBy (xid : Nat) : Phase := if xid = TransactionId.Min then .ended else .running

/-- The row after a delete and its undo. -/
theorem deleted_row_restarts : ∃ s, Reach (step true 1 byteDesc)
    (fun s op => Setting s op ∧ InSlots true 1 byteDesc s op ∧ Restartable s op) (start oneRow loadedBy) s ∧
    s.undone 3 = [1] ∧ Restarts true s 3 := by
  have hp : oneRow.Placed ⟨0, 0⟩ := oneRow_slots.placed ⟨0, 0⟩ rfl
  obtain ⟨s1, hs1⟩ : ∃ s1, s1 = { start oneRow loadedBy with scanned := [zeroTuple] } := ⟨_, rfl⟩
  have hr1 :
    Reach (step true 1 byteDesc) (fun s op => Setting s op ∧ InSlots true 1 byteDesc s op ∧ Restartable s op)
      (start oneRow loadedBy) s1 :=
        .tail (.scan 3 _ _ _) .refl ⟨trivial, trivial, trivial⟩ (hs1 ▸ scan_zero loadedBy)
  have hdelete : ((step true 1 byteDesc s1 (.delete 3 zeroTuple)).map fun s =>
      (s.phase 3, s.undone 3, s.pending 3, (s.store.undo 1).map HeapUndoRecord.isUpdate)) =
      some (.running, [], [1], some false) := by
    subst hs1
    decide +kernel
  obtain ⟨s2, hs2, hstate⟩ := Option.map_eq_some_iff.1 hdelete
  simp only [Prod.mk.injEq] at hstate
  obtain ⟨hphase, hundone, hpending, hrecord⟩ := hstate
  have hwriter : Restartable s1 (.delete 3 zeroTuple) := by
    subst hs1
    right
    decide +kernel
  have hset : Setting s1 (.delete 3 zeroTuple) := by
    subst hs1
    exact ⟨by decide, by decide⟩
  have hin : InSlots true 1 byteDesc s1 (.delete 3 zeroTuple) := by
    subst hs1
    exact hp
  have hr2 := Reach.tail _ hr1 ⟨hset, hin, hwriter⟩ hs2
  have h2 : Replays s2 :=
    hr2.inv (I := Replays) (fun _ _ _ hs hC ht => hs.step hC.1 hC.2.1 hC.2.2 ht) (oneRow_loaded.replays loadedBy)
  have hl : s2.phase 3 ≠ .ended := by
    rw [hphase]
    nofun
  have hno : ∀ record, s2.store.undo 1 = some record → record.isUpdate = false := by
    intro record hr
    rw [hr] at hrecord
    exact Option.some.inj hrecord
  obtain ⟨u, hu, -, -⟩ := h2.undo true hpending hl hno
  have hundo : step true 1 byteDesc s2 (.undo 3) = some (s2.popped u 3 1 []) := by
    show (if s2.phase 3 = .ended then none else s2.undoNext true 3) = _
    unfold undoNext
    simp only [if_neg hl, hpending, hu]
  have hr3 :
    Reach (step true 1 byteDesc) (fun s op => Setting s op ∧ InSlots true 1 byteDesc s op ∧ Restartable s op)
      (start oneRow loadedBy) (s2.popped u 3 1 []) := by
    refine .tail (.undo 3) hr2 ⟨trivial, fun usn hm record hr => ?_, fun usn hm record hr => ?_⟩ hundo
    all_goals
      rw [hpending] at hm
      cases hm
    · exact h2.found hl (Replays.pending_owned (by rw [hpending]; exact List.mem_singleton_self 1)) hr
        (hno record hr)
    · exact hno record hr
  have hdone : (s2.popped u 3 1 []).undone 3 = [1] := by
    show Function.update s2.undone 3 (s2.undone 3 ++ [1]) 3 = [1]
    rw [Function.update_self, hundone]
    rfl
  exact ⟨_, hr3, hdone, undo_restarts oneRow_loaded hr3 3 popped_aborting⟩

/-- The undo of an update puts the old tuple back, and then takes it for a concurrent change. -/
theorem update_undone_twice : Loaded oneRow ∧ ∃ s, Reach (step false 1 byteDesc) Setting (start oneRow loadedBy) s ∧
    s.phase 3 = .aborting ∧ s.undone 3 = [1] ∧
    (performUndo false 1 s.store).1 =
    .error (.runtimeError "can not undo update: tuple was concurrently modified") ∧
    ¬ Restarts false s 3 := by
  have h : (exec (guarded Setting (step false 1 byteDesc)) (start oneRow loadedBy)
      [.scan 3 (fun _ => CommitSeqNumber.Frozen) ⟨CommitSeqNumber.Min, 0⟩ ⟨0, 0⟩,
        .update 3 zeroTuple [some (.scalar 5)] ⟨0, 0⟩,
        .undo 3]).map (fun s => decide (s.phase 3 = .aborting) && decide (s.undone 3 = [1]) &&
          decide ((performUndo false 1 s.store).1 =
            .error (.runtimeError "can not undo update: tuple was concurrently modified"))) =
      some true := by
    decide +kernel
  obtain ⟨s, hr, hs⟩ := reach_of_test h
  simp only [Bool.and_eq_true, decide_eq_true_eq] at hs
  obtain ⟨⟨hphase, hundone⟩, hthrows⟩ := hs
  refine ⟨oneRow_loaded, s, hr.of_guarded, hphase, hundone, hthrows, fun hn => ?_⟩
  have hagain := hn.again 1 (by rw [hundone]; exact List.mem_singleton_self 1)
  rw [hagain] at hthrows
  cases hthrows

end HeapRun

end Mimidb
