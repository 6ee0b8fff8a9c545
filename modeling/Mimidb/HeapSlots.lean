import Mimidb.HeapLayout
import Mimidb.HeapWrites
import Mimidb.TupleSerializer
import Mimidb.UndoApplier

/-!
# Slots

A slot is the part of a page that an item gives to a tuple. The in-place
writes of the heap calls and of undo change the slot they are for and no
other one.
-/

namespace Mimidb

/-! ## Ranges of a memory -/

namespace Memory

variable {m : Memory} {addr n k : Nat} {bs : List UInt8}

theorem slice_append (m : Memory) (addr n k : Nat) :
    m.slice addr (n + k) = m.slice addr n ++ m.slice (addr + n) k := by
  induction n generalizing addr with
  | zero => simp [slice]
  | succ n ih =>
    rw [Nat.add_right_comm, slice, slice, ih, List.cons_append]
    congr 2
    rw [Nat.add_right_comm]
    rfl

theorem slice_take (h : k ≤ n) : (m.slice addr n).take k = m.slice addr k := by
  obtain ⟨d, rfl⟩ := Nat.exists_eq_add_of_le h
  rw [slice_append, List.take_left' (slice_length m addr k)]

theorem slice_drop (h : k ≤ n) : (m.slice addr n).drop k = m.slice (addr + k) (n - k) := by
  obtain ⟨d, rfl⟩ := Nat.exists_eq_add_of_le h
  rw [slice_append, List.drop_left' (slice_length m addr k), Nat.add_sub_cancel_left]

theorem slice_blit (h : bs.length ≤ n) :
    (m.blit addr bs).slice addr n = bs ++ (m.slice addr n).drop bs.length := by
  obtain ⟨d, rfl⟩ := Nat.exists_eq_add_of_le h
  rw [slice_append, slice_blit_same, slice_drop (Nat.le_add_right _ _), Nat.add_sub_cancel_left,
    slice_blit_disjoint (.inr (Nat.le_refl _))]

end Memory

/-! ## Headers -/

namespace HeapPageTupleHeader

/-- The fields have 64 bits. -/
structure Bounded (h : HeapPageTupleHeader) : Prop where
  xid : h.xid < 2 ^ 64
  undo : -(2 ^ 63) ≤ h.undo ∧ h.undo < 2 ^ 63

@[simp] theorem toBytes_length (h : HeapPageTupleHeader) : h.toBytes.length = size := by simp [toBytes, size]

theorem signed_undo {n : Int} (h : -(2 ^ 63) ≤ n ∧ n < 2 ^ 63) : signed 64 ((n % 2 ^ 64).toNat % 256 ^ 8) = n := by
  unfold signed
  norm_num at h ⊢
  split_ifs <;> omega

theorem ofBytes_toBytes {h : HeapPageTupleHeader} (hb : h.Bounded) (rest : List UInt8) :
    ofBytes (h.toBytes ++ rest) = h := by
  obtain ⟨xid, undo, flags⟩ := h
  have h1 := hb.xid
  have h2 := hb.undo
  simp only at h1 h2
  simp only [ofBytes, toBytes, List.append_assoc]
  have e1 : ∀ x : List UInt8, (encodeLE 8 xid ++ x).take 8 = encodeLE 8 xid :=
    fun x => List.take_left' (encodeLE_length _ _)
  have e2 : ∀ x : List UInt8, (encodeLE 8 xid ++ x).drop 8 = x := fun x => List.drop_left' (encodeLE_length _ _)
  have e3 : ∀ n (x : List UInt8), (encodeLE 8 n ++ x).take 8 = encodeLE 8 n :=
    fun n x => List.take_left' (encodeLE_length _ _)
  have e4 : ∀ x : List UInt8, (encodeLE 8 xid ++ (encodeLE 8 (undo % 2 ^ 64).toNat ++ x)).drop 16 = x := by
    intro x
    rw [← List.append_assoc]
    exact List.drop_left' (by simp)
  rw [e1, e2, e3, e4, e3, decodeLE_encodeLE, decodeLE_encodeLE, decodeLE_encodeLE, signed_undo h2,
    Nat.mod_eq_of_lt (by omega)]
  obtain ⟨d, n⟩ := flags
  cases d <;> cases n <;> rfl

end HeapPageTupleHeader

/-! ## Slots of a page -/

namespace HeapPage

variable {page page' page'' : Memory} {index j : Nat} {bs bytes : List UInt8} {dbg : Bool}

def slot (page : Memory) (index : Nat) : List UInt8 :=
  page.slice (itemAt page index).offset (itemAt page index).length

@[simp] theorem slot_length : (slot page index).length = (itemAt page index).length := Memory.slice_length _ _ _

/-- An item with a tuple behind the items. -/
structure Placed (page : Memory) (index : Nat) : Prop where
  header : SizeOfHeapPageHeader ≤ lower page
  lt : index < itemsCount page
  normal : (itemAt page index).isNormal = true
  behind : lower page ≤ (itemAt page index).offset
  padding : sizeofHeapPageHeader < (itemAt page index).offset
  size : HeapPageTupleHeader.size ≤ (itemAt page index).length
  inside : (itemAt page index).offset + (itemAt page index).length ≤ Config.PageSize

/-- Two slots that do not overlap. -/
def Apart (page : Memory) (i j : Nat) : Prop :=
  (itemAt page i).offset + (itemAt page i).length ≤ (itemAt page j).offset ∨
    (itemAt page j).offset + (itemAt page j).length ≤ (itemAt page i).offset

theorem itemAddr_lt (h : SizeOfHeapPageHeader ≤ lower page) (hj : j < itemsCount page) :
    itemAddr j + 4 ≤ lower page := by
  rw [itemsCount_eq h] at hj
  simp only [itemAddr, ItemId.size, SizeOfHeapPageHeader] at *
  omega

theorem Placed.getItemId_eq (h : Placed page index) : getItemId dbg page index = .ok (itemAt page index) := by
  have haddr := itemAddr_lt h.header h.lt
  have hin := h.inside
  have hbe := h.behind
  have hacc : access (itemAddr index) ItemId.size = .ok () := if_pos (by simp only [ItemId.size]; omega)
  simp only [getItemId, assert, h.lt, hacc]
  cases dbg <;> rfl

theorem Placed.getTuple_eq (h : Placed page index) :
    getTuple dbg (itemAt page index) = .ok (itemAt page index).offset := by
  have hin := h.inside
  have hsz := h.size
  have hlt : (itemAt page index).offset < Config.PageSize := by
    simp only [HeapPageTupleHeader.size] at hsz
    omega
  simp only [getTuple, assert, h.normal, hlt, h.padding]
  cases dbg <;> rfl

theorem Placed.access_eq (h : Placed page index) {n : Nat} (hn : n ≤ (itemAt page index).length) :
    access (itemAt page index).offset n = .ok () := by
  have hin := h.inside
  exact if_pos (by omega)

theorem Placed.headerAt_eq (h : Placed page index) :
    headerAt page (itemAt page index).offset = .ofBytes ((slot page index).take HeapPageTupleHeader.size) := by
  rw [slot, Memory.slice_take h.size, headerAt]

theorem ofBytes_take {n : Nat} (hn : HeapPageTupleHeader.size ≤ n) (bs : List UInt8) :
    HeapPageTupleHeader.ofBytes (bs.take n) = .ofBytes bs := by
  simp only [HeapPageTupleHeader.size] at hn
  simp only [HeapPageTupleHeader.ofBytes, List.take_take, List.drop_take]
  rw [Nat.min_eq_left (by omega), Nat.min_eq_left (by omega), Nat.min_eq_left (by omega)]

theorem Placed.readHeader_eq (h : Placed page index) :
    readHeader page (itemAt page index).offset = .ok (.ofBytes (slot page index)) := by
  rw [readHeader, h.access_eq h.size, h.headerAt_eq, ofBytes_take (Nat.le_refl _)]
  rfl

theorem Placed.tupleAt_eq (h : Placed page index) : tupleAt dbg page index =
    .ok (itemAt page index, (itemAt page index).offset, .ofBytes (slot page index)) := by
  rw [tupleAt, h.getItemId_eq]
  show (do
    let addr ← getTuple dbg (itemAt page index)
    let header ← readHeader page addr
    return (itemAt page index, addr, header)) = _
  rw [h.getTuple_eq]
  show (do
    let header ← readHeader page (itemAt page index).offset
    return (itemAt page index, (itemAt page index).offset, header)) = _
  rw [h.readHeader_eq]
  rfl

/-! ## Writes to one slot -/

/-- A page after a write to one of its slots. -/
structure SlotWrite (page page' : Memory) (index : Nat) (bytes : List UInt8) : Prop where
  lower : lower page' = lower page
  items : ∀ j < itemsCount page, itemAt page' j = itemAt page j
  content : slot page' index = bytes
  apart : ∀ j, Placed page j → Apart page index j → slot page' j = slot page j

theorem SlotWrite.blit (h : Placed page index) (hb : bs.length ≤ (itemAt page index).length) :
    SlotWrite page (page.blit (itemAt page index).offset bs) index (bs ++ (slot page index).drop bs.length) := by
  have hbe := h.behind
  have hpad := h.padding
  simp only [sizeofHeapPageHeader] at hpad
  have hitems : ∀ j < itemsCount page, itemAt (page.blit (itemAt page index).offset bs) j = itemAt page j := by
    intro j hj
    have := itemAddr_lt h.header hj
    exact itemAt_blit (.inl (by omega))
  refine ⟨lower_blit (.inl (by omega)), hitems, ?_, fun j hj hap => ?_⟩
  · rw [slot, hitems index h.lt, Memory.slice_blit hb]
    rfl
  · rw [slot, hitems j hj.lt, slot]
    refine Memory.slice_blit_disjoint ?_
    rcases hap with hap | hap
    · exact .inr (by omega)
    · exact .inl hap

theorem slot_setLsn {n : Nat} (h : Placed page j) : slot (setLsn page n) j = slot page j := by
  have hpad := h.padding
  simp only [sizeofHeapPageHeader] at hpad
  have hdisj : 0 + (encodeLE 8 n).length ≤ (itemAt page j).offset := by rw [encodeLE_length]; omega
  rw [slot, itemAt_setLsn, slot]
  exact Memory.slice_blit_disjoint (.inr hdisj)

theorem Placed.of_items (h : Placed page j) (hl : lower page' = lower page) (hi : itemAt page' j = itemAt page j) :
    Placed page' j := by
  constructor
  · rw [hl]; exact h.header
  · rw [itemsCount_congr hl]; exact h.lt
  · rw [hi]; exact h.normal
  · rw [hl, hi]; exact h.behind
  · rw [hi]; exact h.padding
  · rw [hi]; exact h.size
  · rw [hi]; exact h.inside

theorem SlotWrite.placed (h : SlotWrite page page' index bytes) (hj : Placed page j) : Placed page' j :=
  hj.of_items h.lower (h.items j hj.lt)

theorem SlotWrite.setLsn {n : Nat} (h : SlotWrite page page' index bytes) (hp : Placed page index) :
    SlotWrite page (setLsn page' n) index bytes := by
  refine ⟨by rw [lower_setLsn]; exact h.lower, fun j hj => by rw [itemAt_setLsn]; exact h.items j hj, ?_,
    fun j hj hap => ?_⟩
  · rw [slot_setLsn (h.placed hp)]
    exact h.content
  · rw [slot_setLsn (h.placed hj)]
    exact h.apart j hj hap

theorem Placed.memcpy_eq (h : Placed page index) (hb : bs.length ≤ (itemAt page index).length) :
    memcpy page (itemAt page index).offset bs = .ok (page.blit (itemAt page index).offset bs) := by
  rw [memcpy, h.access_eq hb]
  rfl

theorem Placed.overwrite_eq (h : Placed page index) (hb : bs.length ≤ (itemAt page index).length) :
    overwrite dbg page index bs = .ok (page.blit (itemAt page index).offset bs) := by
  rw [overwrite, h.getItemId_eq]
  show (do
    let addr ← getTuple dbg (itemAt page index)
    memcpy page addr bs) = _
  rw [h.getTuple_eq]
  exact h.memcpy_eq hb

end HeapPage

/-! ## Slots of a table -/

namespace HeapStore

def item (s : HeapStore) (tid : TupleId) : ItemId := HeapPage.itemAt (s.page tid.pageno) tid.itemid

def content (s : HeapStore) (tid : TupleId) : List UInt8 := HeapPage.slot (s.page tid.pageno) tid.itemid

def Placed (s : HeapStore) (tid : TupleId) : Prop := HeapPage.Placed (s.page tid.pageno) tid.itemid

def Apart (s : HeapStore) (tid tid' : TupleId) : Prop :=
  tid.pageno = tid'.pageno → HeapPage.Apart (s.page tid.pageno) tid.itemid tid'.itemid

/-- The slot `tid` was changed and no other one. -/
structure SlotChange (s u : HeapStore) (tid : TupleId) (bytes : List UInt8) : Prop where
  content : u.content tid = bytes
  placed : ∀ r, s.Placed r → u.Placed r
  item : ∀ r, s.Placed r → u.item r = s.item r
  apart : ∀ r, s.Placed r → s.Apart tid r → u.content r = s.content r

variable {s u : HeapStore} {tid : TupleId} {bytes : List UInt8} {page' : Memory}

theorem SlotChange.of_page (hu : u.page = Function.update s.page tid.pageno page')
    (h : HeapPage.SlotWrite (s.page tid.pageno) page' tid.itemid bytes) : SlotChange s u tid bytes := by
  have hsame : u.page tid.pageno = page' := by rw [hu, Function.update_self]
  have hother : ∀ r : TupleId, r.pageno ≠ tid.pageno → u.page r.pageno = s.page r.pageno := fun r hr => by
    rw [hu, Function.update_of_ne hr]
  refine ⟨by rw [HeapStore.content, hsame, h.content], fun r hr => ?_, fun r hr => ?_, fun r hr hap => ?_⟩
  all_goals by_cases hp : r.pageno = tid.pageno
  · rw [HeapStore.Placed, hp, hsame]
    rw [HeapStore.Placed, hp] at hr
    exact h.placed hr
  · rw [HeapStore.Placed, hother r hp]
    exact hr
  · rw [HeapStore.item, hp, hsame, HeapStore.item, hp]
    rw [HeapStore.Placed, hp] at hr
    exact h.items _ hr.lt
  · rw [HeapStore.item, hother r hp, HeapStore.item]
  · rw [HeapStore.content, hp, hsame, HeapStore.content, hp]
    rw [HeapStore.Placed, hp] at hr
    exact h.apart _ hr (hap hp.symm)
  · rw [HeapStore.content, hother r hp, HeapStore.content]

theorem content_length (s : HeapStore) (tid : TupleId) : (s.content tid).length = (s.item tid).length :=
  HeapPage.slot_length

end HeapStore

/-! ## Changes in place -/

namespace HeapTable

open HeapStore

variable {V : Type} {t : HeapTable V} {s : HeapStore} {old : HeapTuple V} {values : V} {tid : TupleId}

theorem changePage_eq {pageno : Nat} {f : Memory → Except Fault Memory} {page' : Memory}
    (h : f (s.page pageno) = .ok page') :
    changePage pageno f s = (.ok (), { s with page := Function.update s.page pageno page' }) := by
  simp only [changePage, getPage, setPage, Fallible.bind_apply, Fallible.ofExcept, h]

theorem locate_eq (h : s.Placed tid) : t.locate tid s = (.ok (s.item tid).offset, s) := by
  simp only [locate, getPage, Fallible.bind_apply, Fallible.ofExcept, h.getItemId_eq, h.getTuple_eq, item]

/-- No wait when the tuple is by the transaction that wrote the one given. -/
theorem checkUnchanged_eq {wait : Nat → HeapM Unit} (h : s.Placed old.tid)
    (hx : (HeapPageTupleHeader.ofBytes (s.content old.tid)).xid = old.header.xid) :
    checkUnchanged wait old (s.item old.tid).offset s = (.ok (), s) := by
  have hr :
    HeapPage.readHeader (s.page old.tid.pageno) (s.item old.tid).offset = .ok (.ofBytes (s.content old.tid)) :=
    h.readHeader_eq
  simp only [checkUnchanged, getPage, Fallible.bind_apply, Fallible.ofExcept, hr, hx, ne_eq, not_true_eq_false,
    if_false]
  rfl

theorem serialize_bytes {header : HeapPageTupleHeader} {bytes : List UInt8}
    (h : t.serialize header values = .ok bytes) :
    ∃ data, t.serializeValues values = .ok data ∧
      bytes = { header with flags := ⟨false, t.hasNulls values⟩ }.toBytes ++ data := by
  obtain ⟨data, hd, h⟩ := bind_eq_ok.1 h
  exact ⟨data, hd, (Except.ok.inj h).symm⟩

theorem serialize_eq (header : HeapPageTupleHeader) {data : List UInt8} (h : t.serializeValues values = .ok data) :
    t.serialize header values = .ok ({ header with flags := ⟨false, t.hasNulls values⟩ }.toBytes ++ data) := by
  rw [serialize, h]
  rfl

theorem prepareUpdate_eq {wait : Nat → HeapM Unit} {fuel : Nat} {data : List UInt8} (h : s.Placed old.tid)
    (hx : (HeapPageTupleHeader.ofBytes (s.content old.tid)).xid = old.header.xid)
    (hser : t.serializeValues values = .ok data)
    (hfit : HeapPageTupleHeader.size + data.length ≤ (s.item old.tid).length) :
    t.prepareUpdate wait old values fuel s = (.ok old.tid, s) := by
  have hfit' :
    HeapPageTupleHeader.size + data.length ≤ (HeapPage.itemAt (s.page old.tid.pageno) old.tid.itemid).length :=
    hfit
  simp only [prepareUpdate, Fallible.bind_apply, Fallible.ofExcept, serialize_eq _ hser, locate_eq h,
    checkUnchanged_eq h hx, findPlace, getPage, List.length_append, HeapPageTupleHeader.toBytes_length,
    if_pos hfit']
  rfl

/-- The bytes of a new version. -/
def versionBytes (t : HeapTable V) (usn : Int) (values : V) (data : List UInt8) : List UInt8 :=
  HeapPageTupleHeader.toBytes ⟨t.myXid, usn, ⟨false, t.hasNulls values⟩⟩ ++ data

@[simp] theorem versionBytes_length {usn : Int} {data : List UInt8} :
    (t.versionBytes usn values data).length = HeapPageTupleHeader.size + data.length := by
  simp [versionBytes]

theorem logUpdate_eq (s : HeapStore) (newTID : TupleId) {image data : List UInt8}
    (himage : t.serialize old.header old.values = .ok image) (hser : t.serializeValues values = .ok data)
    (hlen : HeapPageTupleHeader.size + data.length < 2 ^ 16 - 1) :
    ∃ lsn u, t.logUpdate old values newTID s =
      (.ok ((s.undoSize : Int) + 1, t.versionBytes (s.undoSize + 1) values data, lsn), u) ∧ u.page = s.page ∧
      u.undo = Function.update s.undo (s.undoSize + 1) (some (.Update t.tableId old.tid newTID image)) ∧
      u.undoSize = s.undoSize + 24 + BitUtils.maxAlign
        (HeapUndoRecord.Update t.tableId old.tid newTID image).calculateSize := by
  have hassert :
      assert t.dbg (decide ((t.versionBytes (s.undoSize + 1) values data).length < 2 ^ 16 - 1)) = .ok () := by
    rw [versionBytes_length, decide_eq_true hlen]
    cases t.dbg <;> rfl
  let record : HeapWALRecord := .Update t.tableId newTID old.tid (t.versionBytes (s.undoSize + 1) values data)
  refine ⟨s.walEnd + 24 + record.calculateSize + 1,
    (writeLogRecord record (insertUndoRecord (.Update t.tableId old.tid newTID image) s).2).2, ?_, rfl, rfl, rfl⟩
  · simp only [logUpdate, Fallible.bind_apply, Fallible.ofExcept, himage, insertUndoRecord, newHeader,
      serialize_eq _ hser]
    rw [versionBytes] at hassert
    simp only [hassert]
    rfl

theorem finishUpdate_eq {lsn : Nat} : finishUpdate tid tid lsn s = (.ok (), { s with
    page := Function.update s.page tid.pageno (HeapPage.setLsn (s.page tid.pageno) lsn)
    dirty := Function.update s.dirty tid.pageno true }) := by
  simp only [finishUpdate, Fallible.bind_apply, ne_eq, not_true_eq_false, if_false]
  rfl

/-- What an in-place change does to the logs. -/
structure Logged (s u : HeapStore) (record : HeapUndoRecord) : Prop where
  undo : u.undo = Function.update s.undo (s.undoSize + 1) (some record)
  undoSize : u.undoSize = s.undoSize + 24 + BitUtils.maxAlign record.calculateSize

theorem performUpdate_inPlace (t : HeapTable V) (old : HeapTuple V) {data image : List UInt8} (h : s.Placed old.tid)
    (himage : t.serialize old.header old.values = .ok image) (hser : t.serializeValues values = .ok data)
    (hfit : HeapPageTupleHeader.size + data.length ≤ (s.item old.tid).length) :
    ∃ u page', t.performUpdate old values old.tid s = (.ok (), u) ∧
      Logged s u (.Update t.tableId old.tid old.tid image) ∧ u.page = Function.update s.page old.tid.pageno page' ∧
      HeapPage.SlotWrite (s.page old.tid.pageno) page' old.tid.itemid
        (t.versionBytes (s.undoSize + 1) values data ++
        (s.content old.tid).drop (t.versionBytes (s.undoSize + 1) values data).length) := by
  have hlen : (s.item old.tid).length < 2 ^ 15 := (HeapPage.itemAt_lt _ _).2.2
  obtain ⟨lsn, s1, hlog, hpage, hundo, hsize⟩ := logUpdate_eq s old.tid himage hser (by omega)
  have hbytes : (t.versionBytes (s.undoSize + 1) values data).length ≤
      (HeapPage.itemAt (s.page old.tid.pageno) old.tid.itemid).length := by rw [versionBytes_length]; exact hfit
  have hw : t.writeUpdate old.tid old.tid (s.undoSize + 1) (t.versionBytes (s.undoSize + 1) values data) s1 =
      (.ok (), { s1 with
        page := Function.update s1.page old.tid.pageno
          ((s.page old.tid.pageno).blit (s.item old.tid).offset
            (t.versionBytes (s.undoSize + 1) values data)) }) := by
    rw [writeUpdate, if_pos rfl]
    exact changePage_eq (by rw [hpage]; exact h.overwrite_eq hbytes)
  let page1 := (s.page old.tid.pageno).blit (s.item old.tid).offset (t.versionBytes (s.undoSize + 1) values data)
  refine ⟨{ s1 with
      page := Function.update (Function.update s1.page old.tid.pageno page1) old.tid.pageno
        (HeapPage.setLsn page1 lsn)
      dirty := Function.update s1.dirty old.tid.pageno true }, HeapPage.setLsn page1 lsn, ?_, ⟨hundo, hsize⟩, ?_,
    (HeapPage.SlotWrite.blit h hbytes).setLsn h (n := lsn)⟩
  · rw [performUpdate, Fallible.bind_ok hlog]
    simp only
    rw [Fallible.bind_ok hw, finishUpdate_eq]
    simp only [Function.update_self]
    rfl
  · simp only [Function.update_idem, hpage]

theorem updateTuple_inPlace (t : HeapTable V) (old : HeapTuple V) (wait : Nat → HeapM Unit) (fuel : Nat)
    {data image : List UInt8} (h : s.Placed old.tid)
    (hx : (HeapPageTupleHeader.ofBytes (s.content old.tid)).xid = old.header.xid)
    (himage : t.serialize old.header old.values = .ok image) (hser : t.serializeValues values = .ok data)
    (hfit : HeapPageTupleHeader.size + data.length ≤ (s.item old.tid).length) :
    ∃ u, t.updateTuple wait old values fuel s = (.ok (), u) ∧
      Logged s u (.Update t.tableId old.tid old.tid image) ∧
      SlotChange s u old.tid (t.versionBytes (s.undoSize + 1) values data ++
        (s.content old.tid).drop (t.versionBytes (s.undoSize + 1) values data).length) := by
  obtain ⟨u, page', hu, hlog, hpage, hw⟩ := performUpdate_inPlace t old h himage hser hfit
  refine ⟨u, ?_, hlog, .of_page hpage hw⟩
  rw [updateTuple, Fallible.bind_ok (prepareUpdate_eq h hx hser hfit)]
  exact hu

/-- The header that marks a tuple as deleted. -/
def deletedHeader (t : HeapTable V) (usn : Int) : HeapPageTupleHeader := ⟨t.myXid, usn, ⟨true, false⟩⟩

theorem performDelete_inPlace (t : HeapTable V) (h : s.Placed tid) :
    ∃ u page', t.performDelete tid (s.item tid).offset s = (.ok (), u) ∧
    Logged s u (.Insert t.tableId tid (s.content tid)) ∧
      u.page = Function.update s.page tid.pageno page' ∧
      HeapPage.SlotWrite (s.page tid.pageno) page' tid.itemid ((t.deletedHeader (s.undoSize + 1)).toBytes ++
        (s.content tid).drop (t.deletedHeader (s.undoSize + 1)).toBytes.length) := by
  have hbytes : (t.deletedHeader (s.undoSize + 1)).toBytes.length ≤
      (HeapPage.itemAt (s.page tid.pageno) tid.itemid).length := by
    rw [HeapPageTupleHeader.toBytes_length]
    exact h.size
  let record : HeapUndoRecord := .Insert t.tableId tid (s.content tid)
  let s1 := (writeLogRecord (.Delete t.tableId tid) (insertUndoRecord record s).2).2
  let lsn := s.walEnd + 24 + (HeapWALRecord.Delete t.tableId tid).calculateSize + 1
  let page1 := (s.page tid.pageno).blit (s.item tid).offset (t.deletedHeader (s.undoSize + 1)).toBytes
  refine ⟨{ s1 with page := Function.update s1.page tid.pageno (HeapPage.setLsn page1 lsn) },
    HeapPage.setLsn page1 lsn, ?_, ⟨rfl, rfl⟩, rfl, (HeapPage.SlotWrite.blit h hbytes).setLsn h (n := lsn)⟩
  have hacc :
    HeapPage.access (s.item tid).offset (HeapPage.itemAt (s.page tid.pageno) tid.itemid).length = .ok () :=
    h.access_eq (Nat.le_refl _)
  have hcopy := h.memcpy_eq hbytes
  simp only [performDelete, getPage, Fallible.bind_apply, Fallible.ofExcept, hacc, insertUndoRecord, writeLogRecord]
  refine changePage_eq ?_
  show (do
    let page ← HeapPage.memcpy (s.page tid.pageno) (HeapPage.itemAt (s.page tid.pageno) tid.itemid).offset
      (t.deletedHeader (s.undoSize + 1)).toBytes
    return HeapPage.setLsn page lsn) = _
  rw [hcopy]
  rfl

theorem deleteTuple_inPlace (t : HeapTable V) (old : HeapTuple V) (wait : Nat → HeapM Unit) (h : s.Placed old.tid)
    (hx : (HeapPageTupleHeader.ofBytes (s.content old.tid)).xid = old.header.xid) :
    ∃ u, t.deleteTuple wait old s = (.ok (), u) ∧ Logged s u (.Insert t.tableId old.tid (s.content old.tid)) ∧
      SlotChange s u old.tid ((t.deletedHeader (s.undoSize + 1)).toBytes ++
        (s.content old.tid).drop (t.deletedHeader (s.undoSize + 1)).toBytes.length) := by
  have hprep : t.prepareDelete wait old s = (.ok (s.item old.tid).offset, s) := by
    rw [prepareDelete, Fallible.bind_ok (locate_eq h), Fallible.bind_ok (checkUnchanged_eq h hx)]
    rfl
  obtain ⟨u, page', hu, hlog, hpage, hw⟩ := performDelete_inPlace t h
  refine ⟨u, ?_, hlog, .of_page hpage hw⟩
  rw [deleteTuple_eq, Fallible.bind_ok hprep]
  exact hu

end HeapTable

/-! ## Undo in place -/

namespace UndoApplierVisitor

open HeapStore

variable {s : HeapStore} {tid : TupleId} {image : List UInt8} {dbg : Bool} {usn : Int}

/-- The state after an image was written back to the start of a slot. -/
def restored (s : HeapStore) (tid : TupleId) (image : List UInt8) : HeapStore :=
  { s with page := Function.update s.page tid.pageno ((s.page tid.pageno).blit (s.item tid).offset image) }

theorem restored_slotChange (h : s.Placed tid) (hfit : image.length ≤ (s.item tid).length) :
    SlotChange s (restored s tid image) tid (image ++ (s.content tid).drop image.length) :=
  SlotChange.of_page rfl (HeapPage.SlotWrite.blit h hfit)

theorem restore_eq (h : s.Placed tid) (hfit : image.length ≤ (s.item tid).length) :
    changePage tid.pageno (HeapPage.memcpy · (s.item tid).offset image) s = (.ok (), restored s tid image) :=
  HeapTable.changePage_eq (h.memcpy_eq hfit)

theorem visitUpdate_inPlace (h : s.Placed tid) (hu : (HeapPageTupleHeader.ofBytes (s.content tid)).undo = usn)
    (hfit : image.length ≤ (s.item tid).length) :
    visitUpdate dbg usn tid tid image s = (.ok (), restored s tid image) := by
  have hread : readOwn dbg usn tid.pageno tid.itemid "can not undo update: tuple was concurrently modified" s =
      (.ok (s.item tid, (s.item tid).offset), s) := by
    have hne : ¬ (HeapPageTupleHeader.ofBytes (HeapPage.slot (s.page tid.pageno) tid.itemid)).undo ≠ usn :=
      not_not.2 hu
    simp only [readOwn, getPage, Fallible.bind_apply, Fallible.ofExcept, h.tupleAt_eq, if_neg hne]
    rfl
  rw [visitUpdate, if_pos rfl, Fallible.bind_ok hread]
  exact restore_eq h hfit

theorem visitInsert_inPlace (h : s.Placed tid) (hu : (HeapPageTupleHeader.ofBytes (s.content tid)).undo = usn)
    (hfit : image.length ≤ (s.item tid).length) :
    visitInsert dbg usn tid image s = (.ok (), restored s tid image) := by
  have hne : ¬ (HeapPageTupleHeader.ofBytes (HeapPage.slot (s.page tid.pageno) tid.itemid)).undo ≠ usn :=
    not_not.2 hu
  have hassert :
      assert dbg (decide (image.length ≤ (HeapPage.itemAt (s.page tid.pageno) tid.itemid).length)) = .ok () := by
    have hle : image.length ≤ (HeapPage.itemAt (s.page tid.pageno) tid.itemid).length := hfit
    rw [decide_eq_true hle]
    cases dbg <;> rfl
  simp only [visitInsert, getPage, Fallible.bind_apply, Fallible.ofExcept, h.tupleAt_eq, if_neg hne, hassert]
  exact restore_eq h hfit

end UndoApplierVisitor

end Mimidb
