import Mimidb.EvictionDurability
import Mimidb.SlotTuples

/-!
# Rows in slots

What runs that change rows in place, undo such changes and evict pages have in
common.
-/

namespace Mimidb

theorem HeapPageTupleHeader.ofBytes_append {bytes : List UInt8} (h : HeapPageTupleHeader.size ≤ bytes.length)
    (rest : List UInt8) :
    HeapPageTupleHeader.ofBytes (bytes ++ rest) = .ofBytes bytes := by
  rw [← HeapPage.ofBytes_take (Nat.le_refl _), List.take_append_of_le_length h,
    HeapPage.ofBytes_take (Nat.le_refl _)]

namespace HeapStore

/-- A slot as the scan decodes it. -/
def decoded (s : HeapStore) (dbg : Bool) (desc : TupleDescriptor) (tid : TupleId) :
    Except Fault (HeapTuple Values) :=
  (s.view dbg desc (fun _ => CommitSeqNumber.Frozen) TransactionId.Invalid).slotTuple tid

/-- The slot has a tuple. -/
def Used (s : HeapStore) (tid : TupleId) : Prop :=
  tid.itemid < HeapPage.itemsCount (s.page tid.pageno) ∧ (s.item tid).isNormal = true

/-- What `tryVacateEntry` and the next read of the page make of the table and its file. -/
def evicted (s : HeapStore) (disk : Nat → Memory) (pageno : Nat) : HeapStore × (Nat → Memory) :=
  let e := (EvictRun.mk s disk s.page).evict pageno
  (e.store, e.disk)

/-- An evicted page is dirty or as it is in the file. -/
def Unlost (s : HeapStore) (disk : Nat → Memory) (pageno : Nat) : Prop :=
  if s.dirty pageno then pageno < 2 ^ 19 else s.page pageno = disk pageno

/-- Slots that lie behind the items of their pages and do not overlap. -/
structure Slots (rows : Set TupleId) (s : HeapStore) : Prop where
  placed : ∀ r ∈ rows, s.Placed r
  apart : ∀ r ∈ rows, ∀ r' ∈ rows, r ≠ r' → s.Apart r r'

/-- What others do leaves the rows alone, and the undo log is only appended to. -/
structure Leaves (rows : Set TupleId) (s u : HeapStore) : Prop where
  content : ∀ r ∈ rows, u.content r = s.content r
  item : ∀ r ∈ rows, u.item r = s.item r
  placed : ∀ r ∈ rows, s.Placed r → u.Placed r
  undoSize : s.undoSize ≤ u.undoSize
  undo : ∀ usn : Int, usn ≤ s.undoSize → u.undo usn = s.undo usn

section
variable {s u : HeapStore} {rows : Set TupleId} {dbg : Bool} {usn : Int} {tid : TupleId}

theorem Placed.decoded_header {desc : TupleDescriptor} {bytes rest : List UInt8} {tuple : HeapTuple Values}
    (h : s.Placed tid) (hc : s.content tid = bytes ++ rest) (hsize : HeapPageTupleHeader.size ≤ bytes.length)
    (hd : s.decoded dbg desc tid = .ok tuple) : tuple.header = .ofBytes bytes := by
  obtain ⟨rest', hr⟩ := h.slotTuple_eq dbg desc (fun _ => CommitSeqNumber.Frozen) TransactionId.Invalid
  unfold decoded at hd
  rw [hr, hc, List.append_assoc] at hd
  rw [HeapView.buildHeapTuple_header hd, HeapPageTupleHeader.ofBytes_append hsize]

theorem apart_of_item {r r' : TupleId} (h : s.Apart r r') (hr : u.item r = s.item r) (hr' : u.item r' = s.item r') :
    u.Apart r r' := by
  intro hp
  have hs := h hp
  have hi : HeapPage.itemAt (u.page r.pageno) r.itemid = HeapPage.itemAt (s.page r.pageno) r.itemid := hr
  have hi' : HeapPage.itemAt (u.page r.pageno) r'.itemid = HeapPage.itemAt (s.page r.pageno) r'.itemid := by
    rw [hp]
    exact hr'
  unfold HeapPage.Apart at hs ⊢
  rw [hi, hi']
  exact hs

theorem Slots.of_item (h : Slots rows s) (hp : ∀ r ∈ rows, s.Placed r → u.Placed r)
    (hi : ∀ r ∈ rows, u.item r = s.item r) :
    Slots rows u where
  placed r hr := hp r hr (h.placed r hr)
  apart r hr r' hr' hne := apart_of_item (h.apart r hr r' hr' hne) (hi r hr) (hi r' hr')

theorem Slots.leaves (h : Slots rows s) (hl : Leaves rows s u) : Slots rows u := h.of_item hl.placed hl.item

theorem Slots.change {bytes : List UInt8} (h : Slots rows s) (hc : SlotChange s u tid bytes) : Slots rows u :=
  h.of_item (fun r _ => hc.placed r) fun r hr => hc.item r (h.placed r hr)

theorem Slots.content_ne {bytes : List UInt8} (h : Slots rows s) (hc : SlotChange s u tid bytes) {r : TupleId}
    (htid : tid ∈ rows) (hr : r ∈ rows) (hne : r ≠ tid) : u.content r = s.content r :=
  hc.apart r (h.placed r hr) (h.apart tid htid r hr hne.symm)

theorem Leaves.of_page (hp : u.page = s.page) (hn : u.undoSize = s.undoSize) (hu : u.undo = s.undo) :
    Leaves rows s u where
  content r _ := by rw [HeapStore.content, HeapStore.content, hp]
  item r _ := by rw [HeapStore.item, HeapStore.item, hp]
  placed r _ h := by
    rw [Placed, hp]
    exact h
  undoSize := Nat.le_of_eq hn.symm
  undo _ _ := by rw [hu]

theorem evicted_page {disk : Nat → Memory} {pageno : Nat} (h : s.Unlost disk pageno) :
    (s.evicted disk pageno).1.page = s.page := by
  unfold Unlost at h
  show Function.update s.page pageno (_ : Memory) = s.page
  by_cases hd : s.dirty pageno = true
  · rw [if_pos hd] at h
    simp only [hd, if_true, EvictRun.writePageno_small h, Function.update_self, Function.update_eq_self]
  · rw [if_neg hd] at h
    simp only [hd, Bool.false_eq_true, if_false, ← h, Function.update_eq_self]

theorem evicted_leaves {disk : Nat → Memory} {pageno : Nat} (h : s.Unlost disk pageno) :
    Leaves rows s (s.evicted disk pageno).1 := Leaves.of_page (evicted_page h) rfl rfl

end

end HeapStore

/-! ## Changes that fit -/

/-- The new version fits in the slot of the old one. -/
def HeapTable.fits {V : Type} (t : HeapTable V) (s : HeapStore) (tid : TupleId) (values : V) : Bool :=
  match t.serializeValues values with
  | .ok data => HeapPageTupleHeader.size + data.length ≤ (s.item tid).length
  | .error _ => false

theorem HeapTable.fits_iff {V : Type} {t : HeapTable V} {s : HeapStore} {tid : TupleId} {values : V} :
    t.fits s tid values = true ↔ ∃ data, t.serializeValues values = .ok data ∧
      HeapPageTupleHeader.size + data.length ≤ (s.item tid).length := by
  unfold fits
  cases t.serializeValues values with
  | ok data => simp
  | error err => simp

/-! ## Undo of such changes -/

namespace HeapUndoRecord

/-- A record that an in-place change of the slot leaves. -/
def RestoresAt (record : HeapUndoRecord) (tid : TupleId) (image : List UInt8) : Prop :=
  (∃ table, record = .Update table tid tid image) ∨ ∃ table, record = .Insert table tid image

end HeapUndoRecord

theorem performUndo_inPlace {s : HeapStore} {tid : TupleId} {dbg : Bool} {record : HeapUndoRecord}
    {image : List UInt8} {usn : Int} (hrec : s.undo usn = some record) (hres : record.RestoresAt tid image)
    (hp : s.Placed tid) (hundo : (HeapPageTupleHeader.ofBytes (s.content tid)).undo = usn)
    (hlen : image.length ≤ (s.item tid).length) :
    performUndo dbg usn s = (.ok (), UndoApplierVisitor.restored s tid image) := by
  have hvisit : performUndo dbg usn s = UndoApplierVisitor.visit dbg usn record s := by
    simp only [performUndo, Fallible.bind_apply, Fallible.get_apply, hrec]
  rw [hvisit]
  rcases hres with ⟨table, rfl⟩ | ⟨table, rfl⟩
  · exact UndoApplierVisitor.visitUpdate_inPlace hp hundo hlen
  · exact UndoApplierVisitor.visitInsert_inPlace hp hundo hlen

/-! ## A row of one byte -/

def byteDesc : TupleDescriptor := ⟨[⟨1, true⟩]⟩

def firstSlot : Set TupleId := fun r => r = ⟨0, 0⟩

theorem oneRow_slots : HeapStore.Slots firstSlot oneRow where
  placed r hr := by
    cases hr
    constructor <;> decide +kernel
  apart r hr r' hr' hne := by
    have h : r = ⟨0, 0⟩ := hr
    have h' : r' = ⟨0, 0⟩ := hr'
    exact absurd (h.trans h'.symm) hne

theorem oneRow_version (dbg : Bool) :
    ∃ bytes, IsVersion dbg byteDesc ⟨TransactionId.Min, UndoSeqNumber.Invalid, ⟨false, false⟩⟩
    [some (.scalar 0)] bytes ∧ oneRow.content ⟨0, 0⟩ = bytes ++ [] := by
  refine ⟨_, ⟨⟨by decide, by decide⟩, rfl, ⟨by decide, .cons (fun d hd => ?_) .nil⟩,
    [0], by cases dbg <;> rfl, rfl⟩, by decide +kernel⟩
  cases hd
  exact ⟨rfl, 1, rfl, by decide, by decide⟩

end Mimidb
