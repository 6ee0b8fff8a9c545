import Mimidb.TableInsert
import Mimidb.TidyPages

/-!
# What a change does to a tidy table

One lemma for each change of the heap calls and of undo: the record that it
logs and the slots that it fills. The new contents of a slot enter as a
property `good`, which has to hold of what the change writes.
-/

namespace Mimidb

open HeapStore

namespace HeapUndoRecord

/-- The saved tuple. -/
def image : HeapUndoRecord → Option (List UInt8)
  | .Delete _ _ => none
  | .Update _ _ _ tupleData => some tupleData
  | .Insert _ _ tupleData => some tupleData

end HeapUndoRecord

namespace HeapTable

variable {V : Type} {t : HeapTable V} {s u : HeapStore} {p : Nat} {bytes : List UInt8} {old : HeapTuple V}
  {values : V} {newTID tid : TupleId}

theorem changePage_inv {f : Memory → Except Fault Memory} (h : changePage p f s = (.ok (), u)) :
    ∃ page', f (s.page p) = .ok page' ∧ u = { s with page := Function.update s.page p page' } := by
  rcases changePage_cases p f s with ⟨page', hf, e⟩ | ⟨fault, hf, e⟩
  · rw [e] at h
    exact ⟨page', hf, (Prod.mk.inj h).2.symm⟩
  · rw [e] at h
    cases h

/-- The headers that a change with this record writes. -/
def Heads (xid : Nat) (usn : Int) (good : List UInt8 → Prop) : Prop :=
  ∀ bytes, (HeapPageTupleHeader.ofBytes bytes).xid = xid → (HeapPageTupleHeader.ofBytes bytes).undo = usn →
  good bytes

theorem ofBytes_append_of {header : HeapPageTupleHeader} (hb : header.Bounded) (data rest : List UInt8) :
    HeapPageTupleHeader.ofBytes (header.toBytes ++ data ++ rest) = header := by
  rw [List.append_assoc]
  exact HeapPageTupleHeader.ofBytes_toBytes hb _

theorem serialize_size {header : HeapPageTupleHeader} (h : t.serialize header values = .ok bytes) :
    HeapPageTupleHeader.size ≤ bytes.length := by
  obtain ⟨data, -, rfl⟩ := serialize_bytes h
  rw [List.length_append, HeapPageTupleHeader.toBytes_length]
  exact Nat.le_add_right _ _

/-- What the serializer writes starts with the header, but for its flags. -/
theorem serialize_header {header : HeapPageTupleHeader} (hb : header.Bounded)
    (h : t.serialize header values = .ok bytes)
    (rest : List UInt8) : (HeapPageTupleHeader.ofBytes (bytes ++ rest)).xid = header.xid ∧
      (HeapPageTupleHeader.ofBytes (bytes ++ rest)).undo = header.undo := by
  obtain ⟨data, -, rfl⟩ := serialize_bytes h
  have hb' : HeapPageTupleHeader.Bounded { header with flags := ⟨false, t.hasNulls values⟩ } := ⟨hb.xid, hb.undo⟩
  rw [ofBytes_append_of hb']
  exact ⟨rfl, rfl⟩

/-! ## Insert -/

theorem performInsert_fills (ht : ∀ p, HeapPage.Tidy (s.page p)) (hsize : HeapPageTupleHeader.size ≤ bytes.length)
    (hv : HeapPage.Vacant (s.page p) (HeapPage.upper (s.page p) - BitUtils.maxAlign bytes.length) bytes.length)
    (h : t.performInsert p bytes s = (.ok (), u)) :
    Logged s u (.Delete t.tableId ⟨p, HeapPage.itemsCount (s.page p)⟩) ∧
      u.Placed ⟨p, HeapPage.itemsCount (s.page p)⟩ ∧ ∀ dead good, good bytes → Fills dead good s u := by
  obtain ⟨page, _, h1, h⟩ := Fallible.bind_eq_ok.1 h
  cases h1
  obtain ⟨usn, s1, h2, h⟩ := Fallible.bind_eq_ok.1 h
  cases h2
  obtain ⟨lsn, s2, h3, h⟩ := Fallible.bind_eq_ok.1 h
  cases h3
  obtain ⟨page', hp, rfl⟩ := changePage_inv h
  obtain ⟨hlo, hl⟩ := HeapPage.lands_insertLast (ht p) hv hp
  refine ⟨⟨rfl, rfl⟩, ?_, fun dead good hg => .of_page ht rfl (HeapPage.fills_lands (ht p) hv hlo hsize hl hg)⟩
  show HeapPage.Placed (Function.update s.page p page' p) (HeapPage.itemsCount (s.page p))
  rw [Function.update_self]
  exact HeapPage.lands_placed hl hv hlo hsize

/-! ## Update -/

theorem logUpdate_inv {usn : Int} {lsn : Nat} (h : t.logUpdate old values newTID s = (.ok (usn, bytes, lsn), u)) :
    u.page = s.page ∧ usn = s.undoSize + 1 ∧ t.serialize { t.newHeader values with undo := usn } values =
    .ok bytes ∧
      ∃ image, t.serialize old.header old.values = .ok image ∧
      Logged s u (.Update t.tableId old.tid newTID image) := by
  obtain ⟨image, _, h1, h⟩ := Fallible.bind_eq_ok.1 h
  obtain ⟨himage, rfl⟩ := Fallible.ofExcept_eq_ok.1 h1
  obtain ⟨usn', _, h2, h⟩ := Fallible.bind_eq_ok.1 h
  cases h2
  obtain ⟨bytes', _, h3, h⟩ := Fallible.bind_eq_ok.1 h
  obtain ⟨hser, rfl⟩ := Fallible.ofExcept_eq_ok.1 h3
  obtain ⟨_, _, h4, h⟩ := Fallible.bind_eq_ok.1 h
  obtain ⟨_, rfl⟩ := Fallible.ofExcept_eq_ok.1 h4
  obtain ⟨lsn', _, h5, h⟩ := Fallible.bind_eq_ok.1 h
  cases h5
  cases h
  exact ⟨rfl, rfl, hser, image, himage, rfl, rfl⟩

theorem finishUpdate_fills {oldTID : TupleId} {lsn : Nat} (ht : ∀ p, HeapPage.Tidy (s.page p))
    (h : finishUpdate oldTID newTID lsn s = (.ok (), u)) :
    u.undo = s.undo ∧ u.undoSize = s.undoSize ∧ ∀ dead good, Fills dead good s u := by
  have hlsn : ∀ {s u : HeapStore} {p : Nat}, (∀ p, HeapPage.Tidy (s.page p)) →
      changePage p (fun page => .ok (HeapPage.setLsn page lsn)) s = (.ok (), u) →
      u.undo = s.undo ∧ u.undoSize = s.undoSize ∧ ∀ dead good, Fills dead good s u := by
    intro s u p ht h
    obtain ⟨page', hp, rfl⟩ := changePage_inv h
    cases hp
    exact ⟨rfl, rfl, fun dead good => .of_page ht rfl (HeapPage.fills_setLsn (ht p))⟩
  obtain ⟨_, s1, h1, h⟩ := Fallible.bind_eq_ok.1 h
  obtain ⟨hu1, hs1, hf1⟩ := hlsn ht h1
  have ht1 := (hf1 (fun _ => False) fun _ => True).tidy
  split at h
  · obtain ⟨_, s2, h2, h⟩ := Fallible.bind_eq_ok.1 h
    obtain ⟨hu2, hs2, hf2⟩ := hlsn ht1 h2
    have ht2 := (hf2 (fun _ => False) fun _ => True).tidy
    obtain ⟨_, _, h3, h⟩ := Fallible.bind_eq_ok.1 h
    cases h3
    cases h
    exact ⟨hu2.trans hu1, hs2.trans hs1, fun dead good => ((hf1 dead good).trans (hf2 dead good)).trans
      (.of_same ht2 rfl)⟩
  · obtain ⟨_, _, h3, h⟩ := Fallible.bind_eq_ok.1 h
    cases h3
    cases h
    exact ⟨hu1, hs1, fun dead good => (hf1 dead good).trans (.of_same ht1 rfl)⟩

theorem writeUpdate_fills {oldTID : TupleId} {usn : Int} (ht : ∀ p, HeapPage.Tidy (s.page p)) (hp : s.Placed oldTID)
    (hsize : HeapPageTupleHeader.size ≤ bytes.length)
    (hfit : newTID = oldTID → bytes.length ≤ (s.item oldTID).length)
    (hv : newTID ≠ oldTID → newTID.itemid = HeapPage.itemsCount (s.page newTID.pageno) ∧
      HeapPage.Vacant (s.page newTID.pageno) (HeapPage.upper (s.page newTID.pageno) - bytes.length) bytes.length)
    (hu : -(2 ^ 63) ≤ usn ∧ usn < 2 ^ 63) (hx : t.myXid < 2 ^ 64)
    (h : t.writeUpdate oldTID newTID usn bytes s = (.ok (), u)) :
    u.undo = s.undo ∧ u.undoSize = s.undoSize ∧
      ∀ dead good, Heads t.myXid usn good → (∀ rest, good (bytes ++ rest)) → Fills dead good s u := by
  unfold writeUpdate at h
  split_ifs at h with he
  · subst he
    obtain ⟨page', hw, rfl⟩ := changePage_inv h
    rw [hp.overwrite_eq (hfit rfl)] at hw
    cases hw
    exact ⟨rfl, rfl, fun dead good _ hb => .of_page ht rfl (HeapPage.fills_blit (ht _) hp (hfit rfl) (hb _))⟩
  · obtain ⟨hi, hvac⟩ := hv he
    obtain ⟨_, s1, h1, h⟩ := Fallible.bind_eq_ok.1 h
    obtain ⟨page1, hr, rfl⟩ := changePage_inv h1
    rw [hi] at hr
    obtain ⟨page2, hm, hu'⟩ := changePage_inv h
    refine ⟨by rw [hu'], by rw [hu'], fun dead good hg hb => ?_⟩
    have hgood : good bytes := by
      have := hb []
      rwa [List.append_nil] at this
    have hf1 : Fills (fun _ => False) good s { s with page := Function.update s.page newTID.pageno page1 } :=
      .of_page ht rfl (HeapPage.fills_relocate (ht _) hvac hsize hr hgood)
    have hmod : t.myXid % 2 ^ 64 = t.myXid := Nat.mod_eq_of_lt hx
    have hf2 :
      HeapPage.Fills (fun _ => False) good (Function.update s.page newTID.pageno page1 oldTID.pageno) page2 :=
      HeapPage.fills_markUpdated (hf1.tidy _) (hf1.kept oldTID (fun h => h) hp).1
      hu hm fun bytes h1 h2 => hg bytes (h1.trans hmod) h2
    have hf := hf1.trans (.of_page hf1.tidy (congrArg HeapStore.page hu') hf2)
    exact ⟨hf.tidy, fun r _ hr => hf.kept r (fun h => h) hr, hf.slots⟩

theorem performUpdate_fills (ht : ∀ p, HeapPage.Tidy (s.page p)) (hp : s.Placed old.tid)
    (hfit : newTID = old.tid → ∀ header bytes, t.serialize header values = .ok bytes →
      bytes.length ≤ (s.item old.tid).length)
    (hv : newTID ≠ old.tid → newTID.itemid = HeapPage.itemsCount (s.page newTID.pageno) ∧
      ∀ header bytes, t.serialize header values = .ok bytes →
        HeapPage.Vacant (s.page newTID.pageno) (HeapPage.upper (s.page newTID.pageno) - bytes.length) bytes.length)
    (hu : (s.undoSize : Int) + 1 < 2 ^ 63) (hx : t.myXid < 2 ^ 64)
    (h : t.performUpdate old values newTID s = (.ok (), u)) :
    ∃ image, t.serialize old.header old.values = .ok image ∧ Logged s u (.Update t.tableId old.tid newTID image) ∧
      ∀ dead good, Heads t.myXid (s.undoSize + 1) good → Fills dead good s u := by
  obtain ⟨⟨usn, bytes, lsn⟩, s1, h1, h⟩ := Fallible.bind_eq_ok.1 h
  obtain ⟨hpage, rfl, hser, image, himage, hlog⟩ := logUpdate_inv h1
  obtain ⟨_, s2, h2, h⟩ := Fallible.bind_eq_ok.1 h
  have ht1 : ∀ p, HeapPage.Tidy (s1.page p) := fun p => by
    rw [hpage]
    exact ht p
  have hp1 : s1.Placed old.tid := by
    unfold Placed
    rw [hpage]
    exact hp
  have hbounded : HeapPageTupleHeader.Bounded { t.newHeader values with undo := (s.undoSize : Int) + 1 } :=
    ⟨hx, by simp only; omega⟩
  obtain ⟨hu2, hs2, hf2⟩ := writeUpdate_fills ht1 hp1 (serialize_size hser)
    (fun he => by
      unfold HeapStore.item
      rw [hpage]
      exact hfit he _ _ hser)
    (fun hne => by
      rw [hpage]
      exact ⟨(hv hne).1, (hv hne).2 _ _ hser⟩)
    ⟨by omega, hu⟩ hx h2
  have hheader : ∀ good, Heads t.myXid (s.undoSize + 1) good → ∀ rest, good (bytes ++ rest) :=
    fun good hg rest => by
    obtain ⟨h1, h2⟩ := serialize_header hbounded hser rest
    exact hg _ h1 h2
  have ht2 := (hf2 (fun _ => False) (fun _ => True) (fun _ _ _ => trivial) fun _ => trivial).tidy
  obtain ⟨hu3, hs3, hf3⟩ := finishUpdate_fills ht2 h
  refine ⟨image, himage, ⟨?_, ?_⟩, fun dead good hg => ?_⟩
  · rw [hu3, hu2, hlog.undo]
  · rw [hs3, hs2, hlog.undoSize]
  · have hf1 : Fills dead good s s1 := .of_same ht hpage
    exact (hf1.trans (hf2 dead good hg (hheader good hg))).trans (hf3 dead good)

/-! ## Delete -/

theorem performDelete_fills (ht : ∀ p, HeapPage.Tidy (s.page p)) (hp : s.Placed tid)
    (hu : (s.undoSize : Int) + 1 < 2 ^ 63) (hx : t.myXid < 2 ^ 64)
    (h : t.performDelete tid (s.item tid).offset s = (.ok (), u)) :
    Logged s u (.Insert t.tableId tid (s.content tid)) ∧
      ∀ dead good, Heads t.myXid (s.undoSize + 1) good → Fills dead good s u := by
  obtain ⟨page, _, h1, h⟩ := Fallible.bind_eq_ok.1 h
  cases h1
  obtain ⟨_, _, h2, h⟩ := Fallible.bind_eq_ok.1 h
  obtain ⟨_, rfl⟩ := Fallible.ofExcept_eq_ok.1 h2
  obtain ⟨usn, s1, h3, h⟩ := Fallible.bind_eq_ok.1 h
  cases h3
  obtain ⟨lsn, s2, h4, h⟩ := Fallible.bind_eq_ok.1 h
  cases h4
  obtain ⟨page', hw, rfl⟩ := changePage_inv h
  refine ⟨⟨rfl, rfl⟩, fun dead good hg => .of_page ht rfl ?_⟩
  obtain ⟨page1, hm, hw⟩ := bind_eq_ok.1 hw
  cases hw
  have hb : HeapPageTupleHeader.Bounded ⟨t.myXid, (s.undoSize : Int) + 1, ⟨true, false⟩⟩ :=
    ⟨hx, by simp only; omega⟩
  have hlen : (HeapPageTupleHeader.toBytes ⟨t.myXid, (s.undoSize : Int) + 1, ⟨true, false⟩⟩).length ≤
      (s.item tid).length := by
    rw [HeapPageTupleHeader.toBytes_length]
    exact hp.size
  have hcopy := hp.memcpy_eq hlen
  change HeapPage.memcpy _ _ _ = _ at hm
  rw [show HeapPage.memcpy (s.page tid.pageno) (s.item tid).offset _ = _ from hcopy] at hm
  cases hm
  have hread := HeapPageTupleHeader.ofBytes_toBytes hb
  have hf : HeapPage.Fills (fun j => dead ⟨tid.pageno, j⟩) good (s.page tid.pageno) _ :=
    HeapPage.fills_blit (ht tid.pageno) hp hlen (hg _ (by rw [hread]) (by rw [hread]))
  exact hf.trans (HeapPage.fills_setLsn hf.tidy)

end HeapTable

/-! ## Undo -/

namespace HeapUndoRecord

/-- The slots of the record hold tuples, with room for the saved one. -/
def Found (s : HeapStore) : HeapUndoRecord → Prop
  | .Delete _ tupId => tupId.itemid < HeapPage.itemsCount (s.page tupId.pageno)
  | .Update _ oldLocation newLocation tupleData =>
    s.Placed oldLocation ∧ s.Placed newLocation ∧ tupleData.length ≤ (s.item oldLocation).length
  | .Insert _ location tupleData => s.Placed location ∧ tupleData.length ≤ (s.item location).length

/-- The slot that the undo of the record takes away. -/
def Kills : HeapUndoRecord → TupleId → Prop
  | .Delete _ tupId, r => r = tupId
  | .Update _ oldLocation newLocation _, r => newLocation ≠ oldLocation ∧ r = newLocation
  | .Insert _ _ _, _ => False

end HeapUndoRecord

namespace UndoApplierVisitor

variable {s u : HeapStore} {good : List UInt8 → Prop} {dead : TupleId → Prop} {dbg : Bool} {usn : Int}
  {tid : TupleId}
  {image : List UInt8}

theorem readOwn_inv {i : ItemId} {addr : Nat} {what : String} (hp : s.Placed tid)
    (h : readOwn dbg usn tid.pageno tid.itemid what s = (.ok (i, addr), u)) :
    s = u ∧ addr = (s.item tid).offset ∧ (HeapPageTupleHeader.ofBytes (s.content tid)).undo = usn := by
  obtain ⟨page, _, h1, h⟩ := Fallible.bind_eq_ok.1 h
  cases h1
  obtain ⟨⟨i', addr', header⟩, _, h2, h⟩ := Fallible.bind_eq_ok.1 h
  obtain ⟨ht, rfl⟩ := Fallible.ofExcept_eq_ok.1 h2
  rw [hp.tupleAt_eq] at ht
  cases ht
  by_cases hu : (HeapPageTupleHeader.ofBytes (s.content tid)).undo = usn
  · have hne : ¬ (HeapPageTupleHeader.ofBytes (HeapPage.slot (s.page tid.pageno) tid.itemid)).undo ≠ usn :=
      not_not.2 hu
    simp only [if_neg hne] at h
    cases h
    exact ⟨rfl, rfl, hu⟩
  · have hne : (HeapPageTupleHeader.ofBytes (HeapPage.slot (s.page tid.pageno) tid.itemid)).undo ≠ usn := hu
    simp only [if_pos hne] at h
    cases h

theorem restore_fills (ht : ∀ p, HeapPage.Tidy (s.page p)) (hp : s.Placed tid)
    (hlen : image.length ≤ (s.item tid).length)
    (hg : ∀ rest, good (image ++ rest)) : Fills dead good s (restored s tid image) :=
  .of_page ht rfl (HeapPage.fills_blit (ht _) hp hlen (hg _))

theorem visitDelete_fills (ht : ∀ p, HeapPage.Tidy (s.page p))
    (hi : tid.itemid < HeapPage.itemsCount (s.page tid.pageno)) (hd : dead tid)
    (h : visitDelete dbg usn tid s = (.ok (), u)) :
    Fills dead good s u ∧ u.undo = s.undo ∧ u.undoSize = s.undoSize := by
  have hsame : Fills dead good s s := .of_same ht rfl
  obtain ⟨page, _, h1, h⟩ := Fallible.bind_eq_ok.1 h
  cases h1
  obtain ⟨item, _, h2, h⟩ := Fallible.bind_eq_ok.1 h
  obtain ⟨hitem, rfl⟩ := Fallible.ofExcept_eq_ok.1 h2
  obtain rfl := HeapPage.getItemId_ok hitem
  by_cases hn : (HeapPage.itemAt (s.page tid.pageno) tid.itemid).isNormal = true
  · have hp : HeapPage.Placed (s.page tid.pageno) tid.itemid := (ht _).placed _ hi hn
    simp only [hn, Bool.not_true, Bool.false_eq_true, if_false] at h
    obtain ⟨addr, _, h3, h⟩ := Fallible.bind_eq_ok.1 h
    obtain ⟨-, rfl⟩ := Fallible.ofExcept_eq_ok.1 h3
    obtain ⟨header, _, h4, h⟩ := Fallible.bind_eq_ok.1 h
    obtain ⟨-, rfl⟩ := Fallible.ofExcept_eq_ok.1 h4
    split_ifs at h
    · cases h
      exact ⟨hsame, rfl, rfl⟩
    · obtain ⟨_, _, h5, h⟩ := Fallible.bind_eq_ok.1 h
      cases h5
      cases h
      exact ⟨.of_page ht rfl (HeapPage.fills_setDead (ht _) hp hd _), rfl, rfl⟩
  · simp only [hn, Bool.not_false, if_true] at h
    cases h
    exact ⟨hsame, rfl, rfl⟩

theorem visitInsert_fills (ht : ∀ p, HeapPage.Tidy (s.page p)) (hp : s.Placed tid)
    (hlen : image.length ≤ (s.item tid).length) (hg : ∀ rest, good (image ++ rest))
    (h : visitInsert dbg usn tid image s = (.ok (), u)) :
    Fills dead good s u ∧ u.undo = s.undo ∧ u.undoSize = s.undoSize := by
  by_cases hu : (HeapPageTupleHeader.ofBytes (s.content tid)).undo = usn
  · rw [visitInsert_inPlace hp hu hlen] at h
    cases h
    exact ⟨restore_fills ht hp hlen hg, rfl, rfl⟩
  · have hskip : visitInsert dbg usn tid image s = (.ok (), s) := by
      have hu' : (HeapPageTupleHeader.ofBytes (HeapPage.slot (s.page tid.pageno) tid.itemid)).undo ≠ usn := hu
      simp only [visitInsert, getPage, Fallible.bind_apply, Fallible.ofExcept, hp.tupleAt_eq, if_pos hu']
      rfl
    rw [hskip] at h
    cases h
    exact ⟨.of_same ht rfl, rfl, rfl⟩

theorem visitUpdate_fills {oldLocation newLocation : TupleId} (ht : ∀ p, HeapPage.Tidy (s.page p))
    (hp : s.Placed oldLocation) (hp' : s.Placed newLocation) (hlen : image.length ≤ (s.item oldLocation).length)
    (hg : ∀ rest, good (image ++ rest))
    (hd : newLocation ≠ oldLocation → dead newLocation)
    (h : visitUpdate dbg usn oldLocation newLocation image s = (.ok (), u)) :
    Fills dead good s u ∧ u.undo = s.undo ∧ u.undoSize = s.undoSize := by
  unfold visitUpdate at h
  split_ifs at h with he
  · obtain ⟨⟨_, addr⟩, _, h1, h⟩ := Fallible.bind_eq_ok.1 h
    obtain ⟨rfl, rfl, -⟩ := readOwn_inv hp h1
    simp only [restore_eq hp hlen] at h
    cases h
    exact ⟨restore_fills ht hp hlen hg, rfl, rfl⟩
  · obtain ⟨⟨_, addr⟩, _, h1, h⟩ := Fallible.bind_eq_ok.1 h
    obtain ⟨rfl, rfl, -⟩ := readOwn_inv hp h1
    obtain ⟨⟨newItemId, _⟩, _, h2, h⟩ := Fallible.bind_eq_ok.1 h
    obtain ⟨rfl, -, -⟩ := readOwn_inv hp' h2
    obtain ⟨_, s1, h3, h⟩ := Fallible.bind_eq_ok.1 h
    simp only [restore_eq hp hlen] at h3
    cases h3
    have hf : Fills (fun _ => False) good s (restored s oldLocation image) := restore_fills ht hp hlen hg
    obtain ⟨page', hs, hu⟩ := HeapTable.changePage_inv h
    cases hs
    have hf2 : Fills dead good (restored s oldLocation image) u :=
      .of_page hf.tidy (congrArg HeapStore.page hu)
        (HeapPage.fills_setDead (hf.tidy _) (hf.kept newLocation (fun h => h) hp').1 (hd he) newItemId)
    have hf1 : Fills dead good s (restored s oldLocation image) :=
      ⟨hf.tidy, fun r _ hr => hf.kept r (fun h => h) hr, hf.slots⟩
    exact ⟨hf1.trans hf2, by rw [hu]; rfl, by rw [hu]; rfl⟩

end UndoApplierVisitor

open UndoApplierVisitor in
/-- An undo writes the saved tuple back, or takes a slot away. -/
theorem performUndo_fills {s u : HeapStore} {good : List UInt8 → Prop} {dbg : Bool} {usn : Int}
    {record : HeapUndoRecord} (ht : ∀ p, HeapPage.Tidy (s.page p)) (hrec : s.undo usn = some record)
    (hf : record.Found s) (hg : ∀ image ∈ record.image, ∀ rest, good (image ++ rest))
    (h : performUndo dbg usn s = (.ok (), u)) :
    Fills record.Kills good s u ∧ u.undo = s.undo ∧ u.undoSize = s.undoSize := by
  have hvisit : UndoApplierVisitor.visit dbg usn record s = (.ok (), u) := by
    simp only [performUndo, Fallible.bind_apply, Fallible.get_apply, hrec] at h
    exact h
  cases record with
  | Delete table tupId => exact visitDelete_fills ht hf rfl hvisit
  | Update table oldLocation newLocation tupleData =>
    exact visitUpdate_fills ht hf.1 hf.2.1 hf.2.2 (hg _ rfl) (fun hne => ⟨hne, rfl⟩) hvisit
  | Insert table location tupleData => exact visitInsert_fills ht hf.1 hf.2 (hg _ rfl) hvisit

end Mimidb
