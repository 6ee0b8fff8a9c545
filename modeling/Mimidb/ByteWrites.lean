import Mimidb.ByteScans

/-!
# What changes write

A change of a slot, its undo and an insert put bytes into one slot and leave
all others. The pages and the undo log then have the rows that the change
left.
-/

namespace Mimidb

open HeapStore

/-! ## One slot of a page -/

namespace HeapPage

variable {page page' : Memory} {i j offset : Nat} {bytes : List UInt8}

/-- The slot has these bytes, and nothing else on the page has changed for a reader. -/
structure Refills (page page' : Memory) (i : Nat) (bytes : List UInt8) : Prop where
  tidy : Tidy page'
  placed : Placed page' i
  content : slot page' i = bytes
  kept : ∀ j, Placed page j → Placed page' j ∧ itemAt page' j = itemAt page j
  back : ∀ j, Placed page' j → Placed page j ∨ j = i
  others : ∀ j, Placed page j → j ≠ i → slot page' j = slot page j

theorem Tidy.refills (h : Tidy page) (hp : Placed page i) (hw : SlotWrite page page' i bytes) (ht : Tidy page') :
    Refills page page' i bytes := by
  refine ⟨ht, hw.placed hp, hw.content, fun j hj => ⟨hw.placed hj, hw.items j hj.lt⟩, fun j hj => .inl ?_,
    fun j hj hne => ?_⟩
  · have hlt := hj.lt
    rw [itemsCount_congr hw.lower] at hlt
    exact hj.of_items hw.lower.symm (hw.items j hlt).symm
  · exact hw.apart j hj (h.apart i j (Ne.symm hne) hp hj)

theorem lands_items (hl : Lands page page' offset bytes) (hv : Vacant page offset bytes.length)
    (hlo : SizeOfHeapPageHeader ≤ lower page) (hj : j < itemsCount page) : itemAt page' j = itemAt page j := by
  have hlow := hv.1
  have haddr := itemAddr_itemsCount hlo
  have hj' := itemAddr_mono hj
  have h0 := le_itemAddr j
  simp only [SizeOfHeapPageHeader, ItemId.size] at h0 hlow
  unfold itemAt Memory.readLE
  rw [hl.outside _ _ h0 (.inl hj') (.inl (by omega))]

theorem lands_slot (hl : Lands page page' offset bytes) (hv : Vacant page offset bytes.length)
    (hlo : SizeOfHeapPageHeader ≤ lower page) (hj : Placed page j) : slot page' j = slot page j := by
  have hi := lands_items hl hv hlo hj.lt
  have haddr := itemAddr_itemsCount hlo
  obtain ⟨hbe, hap⟩ := hv.2.2.2 j hj.lt hj.normal
  simp only [SizeOfHeapPageHeader, ItemId.size] at hlo hbe
  unfold slot
  rw [hi]
  exact hl.outside _ _ (by omega) (.inr (by omega)) (by omega)

theorem Tidy.refills_lands (h : Tidy page) (hv : Vacant page offset bytes.length)
    (hlo : SizeOfHeapPageHeader ≤ lower page) (hsize : HeapPageTupleHeader.size ≤ bytes.length)
    (hl : Lands page page' offset bytes) :
    Refills page page' (itemsCount page) bytes := by
  have hf : Fills (fun _ => False) (fun _ => True) page page' := fills_lands h hv hlo hsize hl trivial
  obtain ⟨-, hcount⟩ := lands_count hl hv hlo
  refine ⟨hf.tidy, lands_placed hl hv hlo hsize, ?_, fun j hj => hf.kept j (fun h => h) hj, fun j hj => ?_,
    fun j hj _ => lands_slot hl hv hlo hj⟩
  · unfold slot
    rw [hl.item]
    exact hl.content
  · have hlt := hj.lt
    rw [hcount] at hlt
    rcases Nat.lt_succ_iff_lt_or_eq.1 hlt with hlt | he
    · have hn := hj.normal
      rw [lands_items hl hv hlo hlt] at hn
      exact .inl (h.placed j hlt hn)
    · exact .inr he

end HeapPage

/-! ## One slot of a table -/

namespace HeapStore

variable {s u : HeapStore} {tid : TupleId} {bytes : List UInt8} {page' : Memory}

/-- The slot `tid` has these bytes, and a reader finds all others as they were. -/
structure Refills (s u : HeapStore) (tid : TupleId) (bytes : List UInt8) : Prop where
  tidy : ∀ n, HeapPage.Tidy (u.page n)
  count : u.pagesCount = s.pagesCount
  placed : u.Placed tid
  content : u.content tid = bytes
  kept : ∀ r, s.Placed r → u.Placed r ∧ u.item r = s.item r
  back : ∀ r, u.Placed r → s.Placed r ∨ r = tid
  others : ∀ r, s.Placed r → r ≠ tid → u.content r = s.content r

theorem Refills.of_page {p i : Nat} (ht : ∀ n, HeapPage.Tidy (s.page n))
    (hu : u.page = Function.update s.page p page') (hs : u.size = s.size)
    (h : HeapPage.Refills (s.page p) page' i bytes) : Refills s u ⟨p, i⟩ bytes := by
  have hsame : u.page p = page' := by rw [hu, Function.update_self]
  have hother : ∀ q, q ≠ p → u.page q = s.page q := fun q hq => by rw [hu, Function.update_of_ne hq]
  refine ⟨fun q => ?_, by unfold pagesCount; rw [hs], ?_, ?_, fun r hr => ?_, fun r hr => ?_, fun r hr hne => ?_⟩
  · by_cases hq : q = p
    · rw [hq, hsame]
      exact h.tidy
    · rw [hother q hq]
      exact ht q
  · unfold HeapStore.Placed
    rw [hsame]
    exact h.placed
  · unfold HeapStore.content
    rw [hsame]
    exact h.content
  all_goals
    obtain ⟨q, j⟩ := r
    unfold HeapStore.Placed at hr
    by_cases hq : q = p
  · subst hq
    unfold HeapStore.Placed item
    rw [hsame]
    exact h.kept j hr
  · unfold HeapStore.Placed item
    rw [hother q hq]
    exact ⟨hr, rfl⟩
  · subst hq
    rw [hsame] at hr
    exact (h.back j hr).imp_right fun e => by rw [e]
  · rw [hother q hq] at hr
    exact .inl hr
  · subst hq
    unfold HeapStore.content
    rw [hsame]
    exact h.others j hr fun e => hne (by rw [e])
  · unfold HeapStore.content
    rw [hother q hq]

end HeapStore

/-! ## Changes -/

namespace HeapTable

variable {V : Type} {t : HeapTable V} {s u : HeapStore} {old : HeapTuple V} {values : V} {tid : TupleId}
  {image data bytes : List UInt8} {p : Nat}

theorem changePage_keeps {n : Nat} {f : Memory → Except Fault Memory} :
    Fallible.Maintains (fun s : HeapStore => s.size = n) (changePage p f) :=
  .bind (getPage_maintains p) fun _ => .bind (ofExcept_maintains _) fun _ _ h => h

theorem performUpdate_keeps {newTID : TupleId} {n : Nat} :
    Fallible.Maintains (fun s : HeapStore => s.size = n) (t.performUpdate old values newTID) := by
  have hlog : Fallible.Maintains (fun s : HeapStore => s.size = n) (t.logUpdate old values newTID) := by
    refine .bind (ofExcept_maintains _) fun image => .bind (fun _ h => h) fun usn => .bind (ofExcept_maintains _)
      fun bytes => ?_
    exact .bind (ofExcept_maintains _) fun _ => .bind (fun _ h => h) fun lsn => .pure
  refine .bind hlog fun logged => ?_
  obtain ⟨usn, bytes, lsn⟩ := logged
  refine .bind ?_ fun _ => ?_
  · unfold writeUpdate
    exact .ite (fun _ => changePage_keeps) fun _ => .bind changePage_keeps fun _ => changePage_keeps
  · have hmark : Fallible.Maintains (fun s : HeapStore => s.size = n) (do
        markDirty old.tid.pageno
        if newTID.pageno ≠ old.tid.pageno then markDirty newTID.pageno) :=
      .bind (fun _ h => h) fun _ => .ite (fun _ _ h => h) fun _ => .pure
    exact .bind changePage_keeps fun _ => .ite (fun _ => .bind changePage_keeps fun _ => hmark) fun _ => hmark

theorem performUpdate_refills (ht : ∀ n, HeapPage.Tidy (s.page n)) (hp : s.Placed old.tid)
    (himage : t.serialize old.header old.values = .ok image) (hdata : t.serializeValues values = .ok data)
    (hfit : HeapPageTupleHeader.size + data.length ≤ (s.item old.tid).length)
    (hx : t.myXid < 2 ^ 64) (hu : (s.undoSize : Int) + 1 < 2 ^ 63)
    (h : t.performUpdate old values old.tid s = (.ok (), u)) :
    Logged s u (.Update t.tableId old.tid old.tid image) ∧
    Refills s u old.tid (t.versionBytes (s.undoSize + 1) values data ++
      (s.content old.tid).drop (t.versionBytes (s.undoSize + 1) values data).length) := by
  have hsize : u.size = s.size := performUpdate_keeps.ok rfl h
  have hlen : ∀ header bytes, t.serialize header values = .ok bytes → bytes.length ≤ (s.item old.tid).length :=
    fun header bytes hser => by
    rw [serialize_eq header hdata] at hser
    cases hser
    rw [List.length_append, HeapPageTupleHeader.toBytes_length]
    exact hfit
  obtain ⟨-, -, -, hf⟩ := performUpdate_fills ht hp (fun _ => hlen) (fun hne => absurd rfl hne) hu hx h
  have htidy := (hf (fun _ => False) (fun _ => True) fun _ _ _ => trivial).tidy
  obtain ⟨u', page', hu', hlog, hpage, hw⟩ := performUpdate_inPlace t old hp himage hdata hfit
  rw [h] at hu'
  cases hu'
  refine ⟨hlog, .of_page ht hpage hsize ((ht _).refills hp hw ?_)⟩
  have := htidy old.tid.pageno
  rwa [hpage, Function.update_self] at this

theorem deleteAt_refills (ht : ∀ n, HeapPage.Tidy (s.page n)) (hp : s.Placed tid) (hx : t.myXid < 2 ^ 64)
    (hu : (s.undoSize : Int) + 1 < 2 ^ 63)
    (h : t.deleteAt tid s = (.ok (), u)) : Logged s u (.Insert t.tableId tid (s.content tid)) ∧
      Refills s u tid ((t.deletedHeader (s.undoSize + 1)).toBytes ++
        (s.content tid).drop (t.deletedHeader (s.undoSize + 1)).toBytes.length) := by
  unfold deleteAt at h
  rw [Fallible.bind_ok (locate_eq hp)] at h
  have hsize : u.size = s.size := by
    refine Fallible.Maintains.ok (I := fun u : HeapStore => u.size = s.size) ?_ rfl h
    refine .bind (getPage_maintains _) fun page => .bind (ofExcept_maintains _) fun _ => .bind (fun _ h => h)
      fun usn => ?_
    exact .bind (fun _ h => h) fun lsn => changePage_keeps
  obtain ⟨-, hf⟩ := performDelete_fills ht hp hu hx h
  have htidy := (hf (fun _ => False) (fun _ => True) fun _ _ _ => trivial).tidy
  obtain ⟨u', page', hu', hlog, hpage, hw⟩ := performDelete_inPlace t hp
  rw [h] at hu'
  cases hu'
  refine ⟨hlog, .of_page ht hpage hsize ((ht _).refills hp hw ?_)⟩
  have := htidy tid.pageno
  rwa [hpage, Function.update_self] at this

theorem performInsert_refills (ht : ∀ n, HeapPage.Tidy (s.page n)) (hsize : HeapPageTupleHeader.size ≤ bytes.length)
    (hv : HeapPage.Vacant (s.page p) (HeapPage.upper (s.page p) - BitUtils.maxAlign bytes.length) bytes.length)
    (h : t.performInsert p bytes s = (.ok (), u)) :
    Logged s u (.Delete t.tableId ⟨p, HeapPage.itemsCount (s.page p)⟩) ∧
      Refills s u ⟨p, HeapPage.itemsCount (s.page p)⟩ bytes := by
  obtain ⟨hlog, -, -⟩ := performInsert_fills ht hsize hv h
  obtain ⟨u', hs, ⟨lsn, page', hins, hpage, hu'⟩ | ⟨lsn, e, hins, hpage, hu'⟩⟩ := performInsert_cases t p bytes s
  · rw [h] at hu'
    cases hu'
    obtain ⟨hlo, hl⟩ := HeapPage.lands_insertLast (ht p) hv hins
    exact ⟨hlog, .of_page ht hpage hs ((ht p).refills_lands hv hlo hsize hl)⟩
  · rw [h] at hu'
    cases hu'

end HeapTable

theorem UndoApplierVisitor.restored_refills {s : HeapStore} {tid : TupleId} {image : List UInt8}
    (ht : ∀ n, HeapPage.Tidy (s.page n)) (hp : s.Placed tid) (hfit : image.length ≤ (s.item tid).length) :
    Refills s (restored s tid image) tid (image ++ (s.content tid).drop image.length) := by
  have hf : HeapPage.Fills (fun _ => False) (fun _ => True) (s.page tid.pageno) _ :=
    HeapPage.fills_blit (ht _) hp hfit trivial
  exact .of_page ht rfl rfl ((ht _).refills hp (.blit hp hfit) hf.tidy)

/-! ## Rows on the pages -/

namespace ByteRun

variable {dbg : Bool} {desc : TupleDescriptor} {s u : HeapStore} {slots : TupleId → Option (RowVersion Values)}
  {undo : Int → Option (RowRecord Values)} {tid : TupleId} {usn : Int} {bytes : List UInt8}
    {v image : RowVersion Values}
  {record : HeapUndoRecord} {row : RowRecord Values} {tuple : HeapTuple Values}

theorem Image.mono (h : Image dbg desc s usn tid bytes image)
    (hk : ∀ r, s.Placed r → u.Placed r ∧ u.item r = s.item r) :
    Image dbg desc u usn tid bytes image := by
  obtain ⟨hplaced, hitem⟩ := hk tid h.placed
  exact ⟨h.shows, h.live, hitem ▸ h.fits, hplaced, h.older⟩

theorem Saved.mono (h : Saved dbg desc s usn record row) (hk : ∀ r, s.Placed r → u.Placed r ∧ u.item r = s.item r) :
    Saved dbg desc u usn record row := by
  cases h with
  | delete hp => exact .delete (hk _ hp).1
  | update hi => exact .update (hi.mono hk)
  | insert hi => exact .insert (hi.mono hk)

theorem rel_mono {α β : Type*} {R R' : α → β → Prop} {a : Option α} {b : Option β} (h : Option.Rel R a b)
    (hR : ∀ a b, R a b → R' a b) :
    Option.Rel R' a b := by
  cases h with
  | some h => exact .some (hR _ _ h)
  | none => exact .none

theorem Held.mono (h : Held dbg desc s tuple) (hk : ∀ r, s.Placed r → u.Placed r ∧ u.item r = s.item r) :
    Held dbg desc u tuple := by
  obtain ⟨hplaced, hitem⟩ := hk tuple.tid h.placed
  obtain ⟨data, hv, hfits⟩ := h.version
  exact ⟨hplaced, data, hv, hitem ▸ hfits⟩

theorem Bears.refill (h : Bears dbg desc s slots undo) (hr : Refills s u tid bytes) (hv : Shows dbg desc bytes v)
    (hin : tid.pageno < s.pagesCount) (hundo : u.undo = s.undo) (hsize : s.undoSize ≤ u.undoSize) :
    Bears dbg desc u (Function.update slots tid (some v)) undo := by
  refine ⟨hr.tidy, fun r a ha => ?_, fun r hnone hp => ?_, fun r hp => ?_, fun n => ?_, fun n row hn => ?_⟩
  · by_cases e : r = tid
    · subst e
      obtain rfl : v = a := by simpa using ha
      exact ⟨hr.placed, hr.content ▸ hv⟩
    · rw [Function.update_of_ne e] at ha
      obtain ⟨hp, hshows⟩ := h.slot r a ha
      exact ⟨(hr.kept r hp).1, (hr.others r hp e).symm ▸ hshows⟩
  · by_cases e : r = tid
    · subst e
      simp at hnone
    · rw [Function.update_of_ne e] at hnone
      exact h.vacant r hnone ((hr.back r hp).resolve_right e)
  · rw [hr.count]
    rcases hr.back r hp with hp | rfl
    · exact h.beyond r hp
    · exact hin
  · rw [hundo]
    exact rel_mono (h.record n) fun _ _ hsaved => hsaved.mono hr.kept
  · obtain ⟨hpos, hle⟩ := h.range n row hn
    exact ⟨hpos, by omega⟩

theorem Bears.log (h : Bears dbg desc s slots undo) {n : Nat} (hpos : 0 < usn)
    (hrow : Saved dbg desc s usn record row) (hn : usn ≤ n) (hsize : s.undoSize ≤ n) :
    Bears dbg desc { s with undo := Function.update s.undo usn (some record), undoSize := n } slots
      (Function.update undo usn (some row)) := by
  refine ⟨h.tidy, h.slot, h.vacant, h.beyond, fun m => ?_, fun m other hm => ?_⟩
  · by_cases e : m = usn
    · subst e
      simp only [Function.update_self]
      exact .some (hrow.mono fun r hr => ⟨hr, rfl⟩)
    · simp only [Function.update_of_ne e]
      exact rel_mono (h.record m) fun _ _ hsaved => hsaved.mono fun r hr => ⟨hr, rfl⟩
  · by_cases e : m = usn
    · subst e
      exact ⟨hpos, hn⟩
    · rw [Function.update_of_ne e] at hm
      obtain ⟨hpos, hle⟩ := h.range m other hm
      exact ⟨hpos, by simp only; omega⟩

theorem Bears.put (h : Bears dbg desc s slots undo) (hlog : HeapTable.Logged s u record)
    (hr : Refills s u tid bytes) (hrow : Saved dbg desc u (s.undoSize + 1) record row) (hv : Shows dbg desc bytes v)
    (hin : tid.pageno < s.pagesCount) :
    Bears dbg desc u (Function.update slots tid (some v)) (Function.update undo (s.undoSize + 1) (some row)) := by
  have hsize := hlog.undoSize
  have hold := h.refill (u := { u with undo := s.undo })
    ⟨hr.tidy, hr.count, hr.placed, hr.content, hr.kept, hr.back, hr.others⟩ hv hin rfl
    (by simp only; omega)
  have hu : u = { u with
    undo := Function.update s.undo (s.undoSize + 1) (some record), undoSize := u.undoSize } := by rw [← hlog.undo]
  rw [hu]
  exact hold.log (by omega) (hrow.mono fun r hr => ⟨hr, rfl⟩) (by omega) (Nat.le_refl _)

theorem Bears.congr (h : Bears dbg desc s slots undo) (hpage : u.page = s.page) (hundo : u.undo = s.undo)
    (hsize : u.size = s.size) (hgrows : s.undoSize ≤ u.undoSize) : Bears dbg desc u slots undo := by
  have hkept : ∀ r, s.Placed r → u.Placed r ∧ u.item r = s.item r := fun r hp => by
    unfold HeapStore.Placed item at *
    rw [hpage]
    exact ⟨hp, rfl⟩
  have hback : ∀ r, u.Placed r → s.Placed r := fun r hp => by
    unfold HeapStore.Placed at *
    rwa [hpage] at hp
  refine ⟨fun n => hpage ▸ h.tidy n, fun r a ha => ?_, fun r hnone hp => h.vacant r hnone (hback r hp),
    fun r hp => ?_, fun n => ?_, fun n row hn => ?_⟩
  · obtain ⟨hp, hshows⟩ := h.slot r a ha
    refine ⟨(hkept r hp).1, ?_⟩
    unfold content at *
    rw [hpage]
    exact hshows
  · unfold pagesCount
    rw [hsize]
    exact h.beyond r (hback r hp)
  · rw [hundo]
    exact rel_mono (h.record n) fun _ _ hsaved => hsaved.mono hkept
  · obtain ⟨hpos, hle⟩ := h.range n row hn
    exact ⟨hpos, by omega⟩

theorem Bears.grown (h : Bears dbg desc s slots undo) : Bears dbg desc s.grown slots undo ∧
    ∀ r, s.Placed r → s.grown.Placed r ∧ s.grown.item r = s.item r := by
  have hother : ∀ {r}, s.Placed r → s.grown.page r.pageno = s.page r.pageno := fun {r} hp => by
    have hlt := h.beyond r hp
    exact grown_page_ne (by omega)
  have hback : ∀ {r}, s.grown.Placed r → s.Placed r := fun {r} hp => by
    unfold HeapStore.Placed at *
    by_cases e : r.pageno = s.pagesCount
    · rw [e, grown_page] at hp
      exact (HeapPage.not_placed_init hp).elim
    · rwa [grown_page_ne e] at hp
  have hkept : ∀ r, s.Placed r → s.grown.Placed r ∧ s.grown.item r = s.item r := fun r hp => by
    have hsame := hother hp
    unfold HeapStore.Placed item at *
    rw [hsame]
    exact ⟨hp, rfl⟩
  refine ⟨⟨fun n => ?_, fun r a ha => ?_, fun r hnone hp => h.vacant r hnone (hback hp), fun r hp => ?_,
    fun n => ?_, h.range⟩, hkept⟩
  · by_cases e : n = s.pagesCount
    · rw [e, grown_page]
      exact HeapPage.tidy_init
    · rw [grown_page_ne e]
      exact h.tidy n
  · obtain ⟨hp, hshows⟩ := h.slot r a ha
    refine ⟨(hkept r hp).1, ?_⟩
    unfold content at *
    rw [hother hp]
    exact hshows
  · exact Nat.lt_of_lt_of_le (h.beyond r (hback hp)) le_grown_pagesCount
  · exact rel_mono (h.record n) fun _ _ hsaved => hsaved.mono hkept

/-! ## Values -/

theorem Shows.append (h : Shows dbg desc bytes v) (hlive : v.deleted = false) (rest : List UInt8) :
    Shows dbg desc (bytes ++ rest) v := by
  obtain ⟨data, rest', rfl, hv⟩ := h.version hlive
  have hsize : HeapPageTupleHeader.size ≤ (data ++ rest').length := by
    rw [List.length_append]
    exact Nat.le_trans hv.size_le (Nat.le_add_right _ _)
  have hsame := HeapPageTupleHeader.ofBytes_append hsize rest
  refine ⟨by rw [hsame]; exact h.xid, by rw [hsame]; exact h.undo, by rw [hsame]; exact h.deleted, fun _ => ?_⟩
  rw [hsame]
  exact ⟨data, rest' ++ rest, List.append_assoc _ _ _, hv⟩

/-- The bytes of a new version are those of what a scan decodes. -/
theorem stored_version {values : Values} {data : List UInt8} {tableId myXid : Nat}
    (hb : HeapPageTupleHeader.Bounded ⟨myXid, usn, ⟨false, false⟩⟩)
    (h : (heapTable dbg tableId myXid desc).serializeValues values = .ok data) :
    ∃ header, header.xid = myXid ∧ header.undo = usn ∧
      IsVersion dbg desc header (stored dbg desc values)
        ((heapTable dbg tableId myXid desc).versionBytes usn values data) := by
  obtain ⟨⟨data', hasnulls⟩, hser, rfl⟩ := map_eq_ok.1 h
  obtain ⟨values', htyped, hser', hnulls⟩ := TupleSerializer.serialize_typed hser
  have hflag := TupleSerializer.serialize_hasNulls hser
  have hstored : stored dbg desc values = values' := by
    obtain ⟨data, hdata, hdes⟩ := TupleSerializer.deserialize_serialize htyped
    rw [hser'] at hdata
    cases hdata
    have := hdes [] data'.length
    rw [List.append_nil] at this
    unfold stored
    simp only [hser, this]
    rfl
  rw [hstored]
  refine ⟨⟨myXid, usn, ⟨false, values'.any Option.isNone⟩⟩, rfl, rfl, ⟨hb.xid, hb.undo⟩, rfl, htyped, data',
    hnulls ▸ hser', ?_⟩
  show HeapPageTupleHeader.toBytes ⟨myXid, usn, ⟨false, (values.take desc.getMaxAttrNumber).any Option.isNone⟩⟩ ++
    data' = _
  rw [← hflag, hnulls]

theorem shows_deleted {tableId myXid : Nat} (hb : HeapPageTupleHeader.Bounded ⟨myXid, usn, ⟨true, false⟩⟩)
    (rest : List UInt8) (values : Values) :
    Shows dbg desc (((heapTable dbg tableId myXid desc).deletedHeader usn).toBytes ++ rest)
      ⟨myXid, usn, true, values⟩ := by
  have hread := HeapPageTupleHeader.ofBytes_toBytes hb rest
  exact ⟨congrArg HeapPageTupleHeader.xid hread, congrArg HeapPageTupleHeader.undo hread,
    congrArg (fun h => h.flags.Deleted) hread, fun h => by cases h⟩

end ByteRun

end Mimidb
