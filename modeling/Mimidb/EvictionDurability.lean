import Mimidb.HeapLayout
import Mimidb.HeapWrites
import Mimidb.Run
import Mimidb.UndoApplier

/-!
# Evictions between changes of a heap

A run of the sections in which the heap calls and the undo change pages,
with evictions anywhere between them. An eviction writes a dirty page to the
relation file and forgets a clean one; the page is read back from the file.
`plain` is the run without a cache.
-/

namespace Mimidb

open HeapStore

structure EvictRun where
  store : HeapStore
  /-- The pages of the relation file. -/
  disk : Nat → Memory
  /-- The pages as they would be without evictions. -/
  plain : Nat → Memory

inductive EvictOp (V : Type) where
  /-- `ExtendRelation`, which writes the page of zeros to the file. -/
  | extend
  /-- The page initialisation of `searchPageFreeSpace`. -/
  | init (pageno : Nat)
  | insert (t : HeapTable V) (pageno : Nat) (heapTuple : List UInt8)
  | update (t : HeapTable V) (old : HeapTuple V) (values : V) (newTID : TupleId)
  | delete (t : HeapTable V) (tid : TupleId) (addr : Nat)
  | undo (dbg : Bool) (usn : Int)
  /-- `tryVacateEntry`, and the next read of the page. -/
  | evict (pageno : Nat)

namespace EvictRun

variable {V : Type}

def start (store : HeapStore) : EvictRun := ⟨store, store.page, store.page⟩

def initPage (pageno : Nat) : HeapM Unit :=
  changePage pageno fun page => .ok (if HeapPage.isNew page then HeapPage.init page else page)

/-- The change of a section. -/
def change : EvictOp V → HeapM Unit
  | .extend => do let _ ← extendRelation
  | .init pageno => initPage pageno
  | .insert t pageno heapTuple => t.performInsert pageno heapTuple
  | .update t old values newTID => t.performUpdate old values newTID
  | .delete t tid addr => t.performDelete tid addr
  | .undo dbg usn => performUndo dbg usn
  | .evict _ => pure ()

/-- The page of the file that a write goes to; the offset has 32 bits. -/
def writePageno (pageno : Nat) : Nat := Config.PageSize * pageno % 2 ^ 32 / Config.PageSize

/-- What a change does to the file. -/
def diskAfter (s : EvictRun) : EvictOp V → Nat → Memory
  | .extend => Function.update s.disk (writePageno s.store.pagesCount) fun _ => 0
  | _ => s.disk

def evict (s : EvictRun) (pageno : Nat) : EvictRun :=
  let disk :=
    if s.store.dirty pageno then Function.update s.disk (writePageno pageno) (s.store.page pageno) else s.disk
  { s with
    store := { s.store with
      page := Function.update s.store.page pageno (disk pageno)
      dirty := Function.update s.store.dirty pageno false }
    disk := disk }

/-- The state after a section. -/
def after (s : EvictRun) (op : EvictOp V) : EvictRun :=
  ⟨(change op).exec s.store, s.diskAfter op, ((change op).exec { s.store with page := s.plain }).page⟩

/-- A section that throws leaves what it did; a run does not go on after a crash. -/
def runSection (s : EvictRun) (op : EvictOp V) : Option EvictRun :=
  match (change op s.store).1 with
  | .ok () => some (s.after op)
  | .error (.runtimeError _) => some (s.after op)
  | .error _ => none

def step (s : EvictRun) : EvictOp V → Option EvictRun
  | .evict pageno => some (s.evict pageno)
  | op => s.runSection op

/-- Every page that is not dirty is in the file, and no change was lost. -/
structure Preserved (s : EvictRun) : Prop where
  covered : ∀ pageno, s.store.dirty pageno = false → s.store.page pageno = s.disk pageno
  kept : s.store.page = s.plain

/-- The undo pointer of the tuple in a slot. -/
def slotUndo (s : HeapStore) (tid : TupleId) : Int :=
  (HeapPage.headerAt (s.page tid.pageno) (HeapPage.itemAt (s.page tid.pageno) tid.itemid).offset).undo

/-- The undo of an update or a delete writes to dirty pages, or the slot has another tuple by now. -/
def undoMarked (s : HeapStore) (usn : Int) : Prop :=
  match s.undo usn with
  | some (.Update _ oldLocation newLocation _) =>
    slotUndo s oldLocation = usn → s.dirty oldLocation.pageno = true ∧ s.dirty newLocation.pageno = true
  | some (.Insert _ location _) => slotUndo s location = usn → s.dirty location.pageno = true
  | _ => True

/-- The sections that do not mark their page change one that is dirty already. -/
def Marked (s : EvictRun) : EvictOp V → Prop
  | .extend => s.store.pagesCount < 2 ^ 19
  | .init pageno => HeapPage.isNew (s.store.page pageno) = true → s.store.dirty pageno = true
  | .insert _ pageno _ => s.store.dirty pageno = true
  | .update _ _ _ _ => True
  | .delete _ tid _ => s.store.dirty tid.pageno = true
  | .undo _ usn => undoMarked s.store usn
  | .evict pageno => s.store.dirty pageno = true → pageno < 2 ^ 19

/-! ## What a section changes -/

/-- A page that differs afterwards is dirty or still to be marked, and no dirty mark is lost. -/
structure Covers (X : Nat → Prop) (s u : HeapStore) : Prop where
  changed : ∀ pageno, u.dirty pageno = false → ¬ X pageno → u.page pageno = s.page pageno
  grows : ∀ pageno, s.dirty pageno = true → u.dirty pageno = true

/-- Nothing is left to be marked. -/
def nowhere : Nat → Prop := fun _ => False

/-- An error that is no exception. -/
def Crash (err : Fault) : Prop := ∀ what, err ≠ .runtimeError what

section
variable {X : Nat → Prop} {s0 s u : HeapStore} {t : HeapTable V} {dbg : Bool} {usn : Int} {pageno : Nat}

theorem Covers.refl (s : HeapStore) : Covers X s s := ⟨fun _ _ _ => rfl, fun _ h => h⟩

theorem Covers.of_same {u' : HeapStore} (h : Covers X s u) (hp : u'.page = u.page) (hd : u'.dirty = u.dirty) :
    Covers X s u' := by
  refine ⟨fun pageno hq hX => ?_, fun pageno hq => ?_⟩
  · rw [hp]; exact h.changed pageno (hd ▸ hq) hX
  · rw [hd]; exact h.grows pageno hq

theorem Covers.setPage {page : Memory} (h : Covers X s u) (hX : X pageno ∨ s.dirty pageno = true) :
    Covers X s { u with page := Function.update u.page pageno page } := by
  refine ⟨fun q hq hq' => ?_, h.grows⟩
  have hne : q ≠ pageno := by
    intro he
    subst he
    rcases hX with hX | hX
    · exact hq' hX
    · exact absurd ((h.grows _ hX).symm.trans hq) (by decide)
  rw [← h.changed q hq hq']
  exact Function.update_of_ne hne _ _

theorem Covers.markDirty (h : Covers X s u) (pageno : Nat) :
    Covers (fun q => X q ∧ q ≠ pageno) s { u with dirty := Function.update u.dirty pageno true } := by
  refine ⟨fun q hq hX => ?_, fun q hq => ?_⟩
  · have hne : q ≠ pageno := by
      intro he
      subst he
      simp at hq
    simp only [Function.update_of_ne hne] at hq
    exact h.changed q hq fun hq' => hX ⟨hq', hne⟩
  · by_cases hne : q = pageno
    · simp [hne]
    · simp only [Function.update_of_ne hne]
      exact h.grows q hq

theorem changePage_covers {f : Memory → Except Fault Memory} (hX : X pageno ∨ s0.dirty pageno = true) :
    Fallible.Maintains (Covers X s0) (changePage pageno f) := by
  refine .bind (HeapTable.getPage_maintains pageno) fun page => .bind (HeapTable.ofExcept_maintains _) fun page' =>
    ?_
  exact fun u h => h.setPage hX

theorem insertUndoRecord_covers (record : HeapUndoRecord) :
    Fallible.Maintains (Covers X s0) (insertUndoRecord record) := fun _ h => h.of_same rfl rfl

theorem writeLogRecord_covers (record : HeapWALRecord) :
    Fallible.Maintains (Covers X s0) (writeLogRecord record) := fun _ h => h.of_same rfl rfl

/-- What a section that keeps covering leaves, whether it fails or not. -/
theorem covers_of_run {α : Type} {m : HeapM α} {r : Except Fault α} (hm : Fallible.Maintains (Covers X s) m)
    (h : m s = (r, u)) : Covers X s u := by
  cases r with
  | ok a => exact hm.ok (.refl s) h
  | error err => exact hm.error (.refl s) h

theorem performInsert_covers {heapTuple : List UInt8} (hd : s0.dirty pageno = true) :
    Fallible.Maintains (Covers X s0) (t.performInsert pageno heapTuple) := by
  refine .bind (HeapTable.getPage_maintains pageno) fun page => .bind (insertUndoRecord_covers _) fun _ => ?_
  exact .bind (writeLogRecord_covers _) fun lsn => changePage_covers (.inr hd)

theorem performDelete_covers {tid : TupleId} {addr : Nat} (hd : s0.dirty tid.pageno = true) :
    Fallible.Maintains (Covers X s0) (t.performDelete tid addr) := by
  refine .bind (HeapTable.getPage_maintains _) fun page => .bind (HeapTable.ofExcept_maintains _) fun _ => ?_
  refine .bind (insertUndoRecord_covers _) fun usn => .bind (writeLogRecord_covers _) fun lsn => ?_
  exact changePage_covers (.inr hd)

theorem logUpdate_covers {old : HeapTuple V} {values : V} {newTID : TupleId} :
    Fallible.Maintains (Covers X s0) (t.logUpdate old values newTID) := by
  refine .bind (HeapTable.ofExcept_maintains _) fun image => .bind (insertUndoRecord_covers _) fun usn => ?_
  refine .bind (HeapTable.ofExcept_maintains _) fun bytes => .bind (HeapTable.ofExcept_maintains _) fun _ => ?_
  exact .bind (writeLogRecord_covers _) fun lsn => .pure

/-! ## Updates -/

/-- The pages of an update, until they are marked. -/
def touched (oldTID newTID : TupleId) (pageno : Nat) : Prop := pageno = oldTID.pageno ∨ pageno = newTID.pageno

theorem writeUpdate_covers {oldTID newTID : TupleId} {bytes : List UInt8} :
    Fallible.Maintains (Covers (touched oldTID newTID) s0) (t.writeUpdate oldTID newTID usn bytes) := by
  unfold HeapTable.writeUpdate
  refine .ite (fun _ => changePage_covers (.inl (.inl rfl))) fun _ => ?_
  exact .bind (changePage_covers (.inl (.inr rfl))) fun _ => changePage_covers (.inl (.inl rfl))

theorem finishUpdate_covers {oldTID newTID : TupleId} {lsn : Nat} (hs : Covers (touched oldTID newTID) s0 s)
    (h : HeapTable.finishUpdate oldTID newTID lsn s = (.ok (), u)) : Covers nowhere s0 u := by
  obtain ⟨_, s1, h1, h⟩ := Fallible.bind_eq_ok.1 h
  have hs1 := (changePage_covers (.inl (.inl rfl))).ok hs h1
  split_ifs at h with hne
  · obtain ⟨_, s2, h2, h⟩ := Fallible.bind_eq_ok.1 h
    have hs2 := (changePage_covers (.inl (.inr rfl))).ok hs1 h2
    obtain ⟨_, _, h3, h⟩ := Fallible.bind_eq_ok.1 h
    cases h3
    cases h
    have h4 := (hs2.markDirty oldTID.pageno).markDirty newTID.pageno
    refine ⟨fun q hq _ => h4.changed q hq fun hX => ?_, h4.grows⟩
    exact hX.1.1.elim hX.1.2 hX.2
  · obtain ⟨_, _, h3, h⟩ := Fallible.bind_eq_ok.1 h
    cases h3
    cases h
    have h4 := hs1.markDirty oldTID.pageno
    refine ⟨fun q hq _ => h4.changed q hq fun hX => ?_, h4.grows⟩
    simp only [ne_eq, not_not] at hne
    exact hX.1.elim hX.2 fun he => hX.2 (he.trans hne)

end

/-! ## Crashes -/

/-- A computation that throws no exception. -/
def NoThrow {α : Type} (x : Except Fault α) : Prop := ∀ err, x = .error err → Crash err

section
variable {α β : Type} {dbg : Bool} {page : Memory} {addr index : Nat} {bytes : List UInt8}

theorem NoThrow.ok {a : α} : NoThrow (.ok a) := fun _ h => nomatch h

theorem NoThrow.bind {x : Except Fault α} {f : α → Except Fault β} (hx : NoThrow x) (hf : ∀ a, NoThrow (f a)) :
    NoThrow (x >>= f) := by
  cases x with
  | ok a => exact hf a
  | error err => exact fun err' h => by cases h; exact hx err rfl

theorem NoThrow.assert {c : Bool} : NoThrow (assert dbg c) := by
  unfold Mimidb.assert
  split_ifs
  · intro err h what
    cases h
    exact nofun
  · exact .ok

theorem NoThrow.access {n : Nat} : NoThrow (HeapPage.access addr n) := by
  unfold HeapPage.access
  split_ifs
  · exact .ok
  · intro err h what
    cases h
    exact nofun

theorem getItemId_noThrow : NoThrow (HeapPage.getItemId dbg page index) :=
  .bind .assert fun _ => .bind .access fun _ => .ok

theorem getTuple_noThrow {itemId : ItemId} : NoThrow (HeapPage.getTuple dbg itemId) :=
  .bind .assert fun _ => .bind .assert fun _ => .bind .assert fun _ => .ok

theorem memcpy_noThrow : NoThrow (HeapPage.memcpy page addr bytes) := .bind .access fun _ => .ok

theorem overwrite_noThrow : NoThrow (HeapPage.overwrite dbg page index bytes) :=
  .bind getItemId_noThrow fun _ => .bind getTuple_noThrow fun _ => memcpy_noThrow

theorem setNormal_noThrow {itemId : ItemId} {length offset : Nat} : NoThrow (itemId.setNormal dbg length offset) :=
  .bind (.bind .assert fun _ => .ok) fun _ => .bind (.bind .assert fun _ => .ok) fun _ => .ok

theorem relocate_noThrow : NoThrow (HeapPage.relocate dbg page index bytes) :=
  .bind getItemId_noThrow fun _ => .bind setNormal_noThrow fun _ => .bind getTuple_noThrow fun _ => memcpy_noThrow

theorem markUpdated_noThrow {xid : Nat} {usn : Int} : NoThrow (HeapPage.markUpdated dbg page index xid usn) :=
  .bind getItemId_noThrow fun _ => .bind getTuple_noThrow fun _ => .bind .access fun _ => .ok

/-- An error of a page change comes from the change. -/
theorem changePage_crash {pageno : Nat} {f : Memory → Except Fault Memory} {s u : HeapStore} {err : Fault}
    (hf : ∀ page, NoThrow (f page)) (h : changePage pageno f s = (.error err, u)) : Crash err := by
  simp only [changePage, getPage, setPage, Fallible.bind_apply, Fallible.ofExcept] at h
  rcases hp : f (s.page pageno) with err' | page' <;> rw [hp] at h
  · cases h
    exact hf _ _ hp
  · cases h

theorem bind_crash {m : HeapM α} {f : α → HeapM β} {s u : HeapStore} {err : Fault}
    (hm : ∀ u, m s = (.error err, u) → Crash err) (hf : ∀ a s', f a s' = (.error err, u) → Crash err)
    (h : (m >>= f) s = (.error err, u)) : Crash err := by
  rw [Fallible.bind_apply] at h
  rcases hr : m s with ⟨_ | a, s'⟩ <;> rw [hr] at h
  · cases h
    exact hm _ hr
  · exact hf a s' h

end

section
variable {s0 s u : HeapStore} {t : HeapTable V} {dbg : Bool} {usn : Int} {err : Fault} {r : Except Fault Unit}

theorem writeUpdate_crash {oldTID newTID : TupleId} {bytes : List UInt8}
    (h : t.writeUpdate oldTID newTID usn bytes s = (.error err, u)) : Crash err := by
  unfold HeapTable.writeUpdate at h
  split_ifs at h
  · exact changePage_crash (fun _ => overwrite_noThrow) h
  · refine bind_crash (fun _ h => ?_) (fun _ _ h => ?_) h
    · exact changePage_crash (fun _ => relocate_noThrow) h
    · exact changePage_crash (fun _ => markUpdated_noThrow) h

theorem finishUpdate_crash {oldTID newTID : TupleId} {lsn : Nat}
    (h : HeapTable.finishUpdate oldTID newTID lsn s = (.error err, u)) : Crash err := by
  refine bind_crash (fun _ h => changePage_crash (fun _ => .ok) h) (fun _ s1 h => ?_) h
  split_ifs at h
  · refine bind_crash (fun _ h => changePage_crash (fun _ => .ok) h) (fun _ s2 h => ?_) h
    cases h
  · cases h

theorem performUpdate_covers {old : HeapTuple V} {values : V} {newTID : TupleId}
    (h : t.performUpdate old values newTID s = (r, u)) (hr : ∀ err, r = .error err → ¬ Crash err) :
    Covers nowhere s u := by
  unfold HeapTable.performUpdate at h
  rw [Fallible.bind_apply] at h
  rcases h1 : t.logUpdate old values newTID s with ⟨err | ⟨usn, bytes, lsn⟩, s1⟩ <;> rw [h1] at h
  · cases h
    exact logUpdate_covers.error (.refl s) h1
  · have hs1 : Covers (touched old.tid newTID) s s1 := logUpdate_covers.ok (.refl s) h1
    simp only at h
    rw [Fallible.bind_apply] at h
    rcases h2 : t.writeUpdate old.tid newTID usn bytes s1 with ⟨err | ⟨⟩, s2⟩ <;> rw [h2] at h
    · cases h
      exact absurd (writeUpdate_crash h2) (hr _ rfl)
    · cases r with
      | error err => exact absurd (finishUpdate_crash h) (hr _ rfl)
      | ok => exact finishUpdate_covers (writeUpdate_covers.ok hs1 h2) h

/-! ## Undo -/

theorem tupleAt_undo {tid : TupleId} {itemId : ItemId} {addr : Nat} {header : HeapPageTupleHeader}
    (h : HeapPage.tupleAt dbg (s.page tid.pageno) tid.itemid = .ok (itemId, addr, header)) :
    slotUndo s tid = header.undo := by
  obtain ⟨i, hi, h⟩ := bind_eq_ok.1 h
  obtain ⟨a, ha, h⟩ := bind_eq_ok.1 h
  obtain ⟨hd, hh, h⟩ := bind_eq_ok.1 h
  cases h
  obtain ⟨_, -, hh⟩ := bind_eq_ok.1 hh
  have hh : HeapPage.headerAt (s.page tid.pageno) addr = header := Except.ok.inj hh
  rw [HeapPage.getItemId_ok hi] at ha
  rw [HeapPage.getTuple_ok ha] at hh
  rw [slotUndo, hh]

theorem readOwn_cases (location : TupleId) (what : String) :
    ∃ r, UndoApplierVisitor.readOwn dbg usn location.pageno location.itemid what s = (r, s) ∧
      ∀ a, r = .ok a → slotUndo s location = usn := by
  simp only [UndoApplierVisitor.readOwn, getPage, Fallible.bind_apply, Fallible.ofExcept]
  rcases ht : HeapPage.tupleAt dbg (s.page location.pageno) location.itemid with err | ⟨itemId, addr, header⟩
  · exact ⟨_, rfl, fun a h => by cases h⟩
  · simp only
    split_ifs with hne
    · exact ⟨_, rfl, fun a h => by cases h⟩
    · refine ⟨_, rfl, fun _ _ => ?_⟩
      rw [tupleAt_undo ht]
      exact not_not.1 hne

theorem visitUpdate_covers {oldLocation newLocation : TupleId} {tupleData : List UInt8}
    (hm : slotUndo s oldLocation = usn → s.dirty oldLocation.pageno = true ∧ s.dirty newLocation.pageno = true)
    (h : UndoApplierVisitor.visitUpdate dbg usn oldLocation newLocation tupleData s = (r, u)) :
    Covers nowhere s u := by
  unfold UndoApplierVisitor.visitUpdate at h
  split_ifs at h with heq
  · obtain ⟨r1, h1, hr1⟩ := readOwn_cases oldLocation "can not undo update: tuple was concurrently modified"
    rw [Fallible.bind_apply, h1] at h
    rcases r1 with err | ⟨_, addr⟩
    · cases h
      exact .refl s
    · have hd := hm (hr1 _ rfl)
      exact covers_of_run (changePage_covers (.inr hd.1)) h
  · obtain ⟨r1, h1, hr1⟩ := readOwn_cases oldLocation "can not undo update: old tuple was concurrently modified"
    rw [Fallible.bind_apply, h1] at h
    rcases r1 with err | ⟨_, addr⟩
    · cases h
      exact .refl s
    · have hd := hm (hr1 _ rfl)
      obtain ⟨r2, h2, -⟩ := readOwn_cases newLocation "can not undo update: new tuple was concurrently modified"
      simp only at h
      rw [Fallible.bind_apply, h2] at h
      rcases r2 with err | ⟨newItemId, _⟩
      · cases h
        exact .refl s
      · have hmain : Fallible.Maintains (Covers nowhere s) (do
            changePage oldLocation.pageno (HeapPage.memcpy · addr tupleData)
            changePage newLocation.pageno fun page =>
              .ok (HeapPage.setItem page newLocation.itemid newItemId.setDead)) :=
          .bind (changePage_covers (.inr hd.1)) fun _ => changePage_covers (.inr hd.2)
        exact covers_of_run hmain h

theorem visitInsert_covers {location : TupleId} {tupleData : List UInt8}
    (hm : slotUndo s location = usn → s.dirty location.pageno = true)
    (h : UndoApplierVisitor.visitInsert dbg usn location tupleData s = (r, u)) : Covers nowhere s u := by
  simp only [UndoApplierVisitor.visitInsert, getPage, Fallible.bind_apply, Fallible.ofExcept] at h
  rcases ht : HeapPage.tupleAt dbg (s.page location.pageno) location.itemid with err | ⟨itemId, addr, header⟩ <;>
    rw [ht] at h
  · cases h
    exact .refl s
  · simp only at h
    split_ifs at h with hne
    · cases h
      exact .refl s
    · have hd := hm (by rw [tupleAt_undo ht]; exact not_not.1 hne)
      refine covers_of_run (m := do
        Fallible.ofExcept (assert dbg (tupleData.length ≤ itemId.length))
        changePage location.pageno (HeapPage.memcpy · addr tupleData)) ?_ h
      exact .bind (HeapTable.ofExcept_maintains _) fun _ => changePage_covers (.inr hd)

theorem visitDelete_covers {tupId : TupleId} (h : UndoApplierVisitor.visitDelete dbg usn tupId s = (r, u)) :
    Covers nowhere s u := by
  have hdead : ∀ itemId : ItemId, Covers nowhere s { s with
      page := Function.update s.page tupId.pageno
        (HeapPage.setItem (s.page tupId.pageno) tupId.itemid itemId.setDead)
      dirty := Function.update s.dirty tupId.pageno true } := by
    intro itemId
    have h1 : Covers (· = tupId.pageno) s { s with
        page := Function.update s.page tupId.pageno
          (HeapPage.setItem (s.page tupId.pageno) tupId.itemid itemId.setDead) } :=
      (Covers.refl s).setPage (.inl rfl)
    have h2 := h1.markDirty tupId.pageno
    refine ⟨fun q hq _ => h2.changed q hq fun hX => hX.2 hX.1, h2.grows⟩
  simp only [UndoApplierVisitor.visitDelete, getPage, Fallible.bind_apply, Fallible.ofExcept] at h
  rcases hi : HeapPage.getItemId dbg (s.page tupId.pageno) tupId.itemid with err | itemId <;> rw [hi] at h
  · cases h
    exact .refl s
  · simp only at h
    split_ifs at h
    · cases h
      exact .refl s
    · simp only [Fallible.bind_apply, Fallible.ofExcept] at h
      rcases ha : HeapPage.getTuple dbg itemId with err | addr <;> rw [ha] at h
      · cases h
        exact .refl s
      · simp only at h
        rcases hh : HeapPage.readHeader (s.page tupId.pageno) addr with err | header <;> rw [hh] at h
        · cases h
          exact .refl s
        · simp only at h
          split_ifs at h <;> cases h
          · exact .refl s
          · exact hdead itemId

theorem performUndo_covers (hm : undoMarked s usn) (h : performUndo dbg usn s = (r, u)) : Covers nowhere s u := by
  simp only [performUndo, Fallible.bind_apply, Fallible.get_apply] at h
  unfold undoMarked at hm
  cases hrec : s.undo usn with
  | some record =>
    rw [hrec] at h hm
    cases record with
    | Delete tableId tupId => exact visitDelete_covers h
    | Update tableId oldLocation newLocation tupleData => exact visitUpdate_covers hm h
    | Insert tableId location tupleData => exact visitInsert_covers hm h
  | none =>
    rw [hrec] at h
    cases h
    exact .refl s

end

/-! ## Runs -/

section
variable {s t : EvictRun} {op : EvictOp V}

theorem runSection_some (h : s.runSection op = some t) : t = s.after op ∧
    ∀ err, (change op s.store).1 = .error err → ¬ Crash err := by
  unfold runSection at h
  rcases hr : (change op s.store).1 with err | ⟨⟩ <;> rw [hr] at h
  · cases err with
    | runtimeError what =>
      refine ⟨(Option.some.inj h).symm, fun err he hc => ?_⟩
      cases he
      exact hc what rfl
    | _ => cases h
  · exact ⟨(Option.some.inj h).symm, nofun⟩

theorem Preserved.section {m : HeapM Unit} (h : Preserved s) (hc : Covers nowhere s.store (m.exec s.store)) :
    Preserved ⟨m.exec s.store, s.disk, (m.exec { s.store with page := s.plain }).page⟩ := by
  refine ⟨fun pageno hd => ?_, ?_⟩
  · have hs : s.store.dirty pageno = false := by
      by_contra hne
      have := hc.grows pageno (by simpa using hne)
      exact absurd (hd.symm.trans this) (by decide)
    show (m.exec s.store).page pageno = _
    rw [hc.changed pageno hd not_false, h.covered pageno hs]
  · rw [← h.kept]

theorem writePageno_small {pageno : Nat} (h : pageno < 2 ^ 19) : writePageno pageno = pageno := by
  unfold writePageno Config.PageSize
  omega

theorem Preserved.extend (h : Preserved s) (hn : s.store.pagesCount < 2 ^ 19)
    (hs : step s (.extend : EvictOp V) = some t) :
    Preserved t := by
  obtain ⟨rfl, -⟩ := runSection_some hs
  have hne : s.store.pagesCount ≠ PageNumber.Invalid := by
    unfold PageNumber.Invalid
    omega
  have hx : (change (.extend : EvictOp V)).exec s.store = { s.store with
      size := max s.store.size (Config.PageSize * s.store.pagesCount % 2 ^ 32 + Config.PageSize)
      page := Function.update s.store.page s.store.pagesCount fun _ => 0 } := by
    simp only [change, Fallible.exec, Fallible.bind_apply, extendRelation, hne, if_false]
    rfl
  have hp : { s.store with page := s.plain } = s.store := by rw [← h.kept]
  refine ⟨fun pageno hd => ?_, by rw [after, hp]⟩
  · simp only [after, hx] at hd ⊢
    simp only [diskAfter, writePageno_small hn]
    by_cases hp : pageno = s.store.pagesCount
    · subst hp
      simp
    · simp only [Function.update_of_ne hp]
      exact h.covered pageno hd

theorem Preserved.evict (h : Preserved s) {pageno : Nat} (hn : s.store.dirty pageno = true → pageno < 2 ^ 19) :
    Preserved (s.evict pageno) := by
  have hdisk : (s.evict pageno).disk pageno = s.store.page pageno := by
    unfold EvictRun.evict
    cases hd : s.store.dirty pageno with
    | true => simp [writePageno_small (hn hd)]
    | false => simp [h.covered pageno hd]
  have hpage : (s.evict pageno).store.page = s.store.page := by
    have : (s.evict pageno).store.page = Function.update s.store.page pageno ((s.evict pageno).disk pageno) := rfl
    rw [this, hdisk, Function.update_eq_self]
  refine ⟨fun q hq => ?_, hpage.trans h.kept⟩
  rw [hpage]
  by_cases hp : q = pageno
  · rw [hp, hdisk]
  · have hq : s.store.dirty q = false := by
      have : (s.evict pageno).store.dirty q = s.store.dirty q := Function.update_of_ne hp _ _
      rwa [← this]
    rw [h.covered q hq]
    unfold EvictRun.evict
    cases hd : s.store.dirty pageno with
    | true => simp [writePageno_small (hn hd), Function.update_of_ne hp]
    | false => simp

theorem Preserved.step (h : Preserved s) (hm : Marked s op) (hs : step s op = some t) : Preserved t := by
  have hrun : change op s.store = ((change op s.store).1, (change op).exec s.store) := rfl
  cases op with
  | extend => exact h.extend hm hs
  | evict pageno =>
    cases hs
    exact h.evict hm
  | init pageno =>
    have hs : s.runSection (.init pageno) = some t := hs
    obtain ⟨rfl, -⟩ := runSection_some hs
    refine h.section ?_
    by_cases hnew : HeapPage.isNew (s.store.page pageno) = true
    · exact covers_of_run (changePage_covers (.inr (hm hnew))) hrun
    · refine (Covers.refl s.store).of_same ?_ rfl
      show Function.update s.store.page pageno (if HeapPage.isNew (s.store.page pageno) = true then _ else _) = _
      rw [if_neg hnew, Function.update_eq_self]
  | insert table pageno heapTuple =>
    have hs : s.runSection (.insert table pageno heapTuple) = some t := hs
    obtain ⟨rfl, -⟩ := runSection_some hs
    exact h.section (covers_of_run (performInsert_covers hm) hrun)
  | update table old values newTID =>
    have hs : s.runSection (.update table old values newTID) = some t := hs
    obtain ⟨rfl, hr⟩ := runSection_some hs
    exact h.section (performUpdate_covers hrun hr)
  | delete table tid addr =>
    have hs : s.runSection (.delete table tid addr) = some t := hs
    obtain ⟨rfl, -⟩ := runSection_some hs
    exact h.section (covers_of_run (performDelete_covers hm) hrun)
  | undo dbg usn =>
    have hs : s.runSection (.undo dbg usn) = some t := hs
    obtain ⟨rfl, -⟩ := runSection_some hs
    exact h.section (performUndo_covers hm hrun)

end

/-- With every unmarked change on a dirty page, evictions lose nothing. -/
theorem evictions_preserve {store : HeapStore} {s : EvictRun} (h : Reach (step (V := V)) Marked (start store) s) :
    Preserved s :=
  h.inv (fun _ _ _ hs hm ht => hs.step hm ht) ⟨fun _ _ => rfl, rfl⟩

/-- An update in place and an eviction of its page. -/
theorem evictions_preserve_update : ∃ s, Reach (step (V := List UInt8)) Marked (start oneRow) s ∧
    step (start oneRow) (.update (byteTable true) firstRow [9] ⟨0, 0⟩) = some s ∧ Preserved (s.evict 0) := by
  have h : (step (start oneRow) (.update (byteTable true) firstRow [9] ⟨0, 0⟩)).isSome = true := by decide +kernel
  obtain ⟨s, hs⟩ := Option.isSome_iff_exists.1 h
  have hr : Reach (step (V := List UInt8)) Marked (start oneRow) s :=
    .tail (.update (byteTable true) firstRow [9] ⟨0, 0⟩) .refl trivial hs
  exact ⟨s, hr, hs, evictions_preserve (hr.tail (.evict 0) (fun _ => by decide) rfl)⟩

/-- An insert and a delete leave their page clean; after an eviction they are gone. -/
theorem changes_lost : (∃ s : EvictRun, exec (step (V := List UInt8)) (start oneRow)
      [.insert (byteTable true) 0 (HeapPageTupleHeader.toBytes ⟨3, 0, ⟨false, false⟩⟩ ++ [7]), .evict 0] = some s ∧
      HeapPage.itemsCount (s.plain 0) = 2 ∧ HeapPage.itemsCount (s.store.page 0) = 1 ∧ ¬ Preserved s) ∧
    ∃ s : EvictRun, exec (step (V := List UInt8)) (start oneRow) [.delete (byteTable true) ⟨0, 0⟩ 8160, .evict 0] =
    some s ∧
      (HeapPage.headerAt (s.plain 0) 8160).flags.Deleted = true ∧
      (HeapPage.headerAt (s.store.page 0) 8160).flags.Deleted = false ∧ ¬ Preserved s := by
  refine ⟨?_, ?_⟩
  · have h : (exec (step (V := List UInt8)) (start oneRow)
        [.insert (byteTable true) 0 (HeapPageTupleHeader.toBytes ⟨3, 0, ⟨false, false⟩⟩ ++ [7]), .evict 0]).map
          (fun s =>
          HeapPage.itemsCount (s.plain 0) == 2 && HeapPage.itemsCount (s.store.page 0) == 1) = some true := by
      decide +kernel
    obtain ⟨s, hs, hp⟩ := Option.map_eq_some_iff.1 h
    simp only [Bool.and_eq_true, beq_iff_eq] at hp
    refine ⟨s, hs, hp.1, hp.2, fun hpres => ?_⟩
    rw [hpres.kept] at hp
    omega
  · have h :
      (exec (step (V := List UInt8)) (start oneRow) [.delete (byteTable true) ⟨0, 0⟩ 8160, .evict 0]).map (fun s =>
        (HeapPage.headerAt (s.plain 0) 8160).flags.Deleted &&
        !(HeapPage.headerAt (s.store.page 0) 8160).flags.Deleted) =
          some true := by
      decide +kernel
    obtain ⟨s, hs, hp⟩ := Option.map_eq_some_iff.1 h
    simp only [Bool.and_eq_true, Bool.not_eq_true'] at hp
    refine ⟨s, hs, hp.1, hp.2, fun hpres => ?_⟩
    rw [hpres.kept] at hp
    exact absurd (hp.1.symm.trans hp.2) (by decide)

end EvictRun

end Mimidb
