import Mimidb.HeapCalls

/-!
# Undo of the last change

What `PerformUndo` does right after a call of a heap table. It takes a delete
back, and an update of the tuple that its slot has. An insert stays: the tuple
on the page has no undo pointer, so its record does not find it.
-/

namespace Mimidb

open HeapStore

/-! ## Pages -/

namespace HeapPage

/-- The layout, with a tuple for each item in use. -/
structure Arranged (page : Memory) : Prop where
  layout : Layout page
  placed : ∀ i < itemsCount page, (itemAt page i).isNormal = true → Placed page i

/-- But for the slots that are gone, `page` has the items of `base` and no other
ones, and the same tuples but for those hit. -/
structure Spares (gone hit : Nat → Prop) (base page : Memory) : Prop where
  count : itemsCount base ≤ itemsCount page
  new : ∀ j, itemsCount base ≤ j → j < itemsCount page → gone j
  items : ∀ j < itemsCount base, ¬ gone j → itemAt page j = itemAt base j
  placed : ∀ j, Placed base j → ¬ gone j → Placed page j
  slots : ∀ j, Placed base j → ¬ gone j → ¬ hit j → slot page j = slot base j

/-- An item with its tuple, which may start right behind the items. -/
structure Lies (page : Memory) (index offset : Nat) (bytes : List UInt8) : Prop where
  header : SizeOfHeapPageHeader ≤ lower page
  behind : lower page ≤ offset
  size : HeapPageTupleHeader.size ≤ bytes.length
  inside : offset + bytes.length ≤ Config.PageSize
  lt : index < itemsCount page
  item : itemAt page index = ⟨ItemState.Normal, offset, bytes.length⟩
  content : page.slice offset bytes.length = bytes

variable {base page page' : Memory} {gone hit : Nat → Prop} {i j n offset lsn : Nat} {bs bytes : List UInt8}
  {dbg : Bool}

theorem Arranged.tidy (h : Arranged page) : Tidy page where
  bound := h.layout.bound
  header _ := h.layout.header
  placed := h.placed
  apart i j hne hi hj := h.layout.disjoint i hi.lt j hj.lt hne (not_dead hi.normal) (not_dead hj.normal)

theorem arranged_init : Arranged (init page) where
  layout := by
    have hcount : itemsCount (init page) = 0 := by
      rw [itemsCount_eq (by rw [lower_init]), lower_init]
      rfl
    refine ⟨by rw [lower_init], by rw [lower_init, upper_init]; decide, by rw [upper_init], fun i hi => ?_,
      fun i hi => ?_⟩
    all_goals
      rw [hcount] at hi
      exact absurd hi (Nat.not_lt_zero i)
  placed i hi := by
    rw [itemsCount_eq (by rw [lower_init]), lower_init] at hi
    simp [SizeOfHeapPageHeader] at hi

theorem Spares.refl : Spares gone hit page page :=
  ⟨Nat.le_refl _, fun _ h h' => absurd h (Nat.not_le_of_lt h'), fun _ _ _ => rfl, fun _ hj _ => hj,
  fun _ _ _ _ => rfl⟩

theorem Spares.slotWrite (h : Spares gone hit base page) (hb : Tidy base) (hi : Placed base i) (hg : ¬ gone i)
    (hh : hit i) (hw : SlotWrite page page' i bytes) : Spares gone hit base page' := by
  have hcount := itemsCount_congr hw.lower
  have hitems : ∀ j < itemsCount base, ¬ gone j → itemAt page' j = itemAt base j := fun j hj hgj =>
    (hw.items j (Nat.lt_of_lt_of_le hj h.count)).trans (h.items j hj hgj)
  refine ⟨by rw [hcount]; exact h.count, fun j hj hj' => h.new j hj (hcount ▸ hj'), hitems,
    fun j hj hgj => hw.placed (h.placed j hj hgj), fun j hj hgj hhj => ?_⟩
  have hne : i ≠ j := fun he => hhj (he ▸ hh)
  have hap : Apart page i j := by
    have ha := hb.apart i j hne hi hj
    unfold Apart at ha ⊢
    rw [h.items i hi.lt hg, h.items j hj.lt hgj]
    exact ha
  exact (hw.apart j (h.placed j hj hgj) hap).trans (h.slots j hj hgj hhj)

theorem Spares.setLsn (h : Spares gone hit base page) : Spares gone hit base (setLsn page lsn) := by
  have hplaced : ∀ j, Placed page j → Placed (HeapPage.setLsn page lsn) j :=
    fun j hj => hj.of_items lower_setLsn itemAt_setLsn
  refine ⟨by rw [itemsCount_setLsn]; exact h.count, fun j hj hj' => h.new j hj (by rwa [itemsCount_setLsn] at hj'),
    fun j hj hg => ?_, fun j hj hg => hplaced j (h.placed j hj hg), fun j hj hg hh => ?_⟩
  · rw [itemAt_setLsn]
    exact h.items j hj hg
  · rw [slot_setLsn (h.placed j hj hg)]
    exact h.slots j hj hg hh

theorem spares_lands (h : Lands base page offset bytes) (hl : Layout base)
    (hlow : lower base + ItemId.size ≤ offset) (hin : offset + bytes.length ≤ upper base)
    (hg : gone (itemsCount base)) : Spares gone hit base page := by
  have hup := hl.bound
  have hlo := hl.header
  have hlow' := h.lower
  have haddr := itemAddr_itemsCount hlo
  simp only [SizeOfHeapPageHeader, ItemId.size, Config.PageSize] at *
  have hcount : itemsCount page = itemsCount base + 1 := by
    rw [itemsCount_eq (by simp only [SizeOfHeapPageHeader]; omega),
      itemsCount_eq (by simp only [SizeOfHeapPageHeader]; omega), hlow']
    simp only [SizeOfHeapPageHeader]
    omega
  have hitem : ∀ j < itemsCount base, itemAt page j = itemAt base j := by
    intro j hj
    have h0 := le_itemAddr j
    have h1 := itemAddr_mono hj
    simp only [SizeOfHeapPageHeader] at h0
    unfold itemAt Memory.readLE
    rw [h.outside _ _ h0 (.inl h1) (.inl (by omega))]
  refine ⟨by omega, fun j hj hj' => ?_, fun j hj _ => hitem j hj, fun j hj _ => ?_, fun j hj _ _ => ?_⟩
  · obtain rfl : j = itemsCount base := by omega
    exact hg
  all_goals
    have hi := hitem j hj.lt
    have hin' := (hl.inside j hj.lt (not_dead hj.normal)).1
  · refine ⟨by rw [hlow']; simp only [SizeOfHeapPageHeader]; omega, by rw [hcount]; exact Nat.lt_succ_of_lt hj.lt,
      hi ▸ hj.normal, ?_, hi ▸ hj.padding, hi ▸ hj.size, hi ▸ hj.inside⟩
    rw [hi, hlow']
    omega
  · unfold slot
    rw [hi]
    exact h.outside _ _ (by omega) (.inr (by omega)) (.inr (by omega))

theorem slot_setItem (hlo : SizeOfHeapPageHeader ≤ lower page) (hi : i < itemsCount page) (hj : Placed page j)
    (hne : j ≠ i) (item : ItemId) :
    slot (setItem page i item) j = slot page j := by
  have haddr := itemAddr_lt hlo hi
  have hbe := hj.behind
  unfold slot
  rw [itemAt_setItem_ne hne]
  unfold setItem Memory.writeLE
  exact Memory.slice_blit_disjoint (.inr (by rw [encodeLE_length]; omega))

theorem Spares.setItem (h : Spares gone hit base page) (hlo : SizeOfHeapPageHeader ≤ lower page)
    (hi : i < itemsCount page) (hg : gone i) (item : ItemId) : Spares gone hit base (setItem page i item) := by
  have hcount : itemsCount (HeapPage.setItem page i item) = itemsCount page := itemsCount_congr lower_setItem
  have hne : ∀ j, ¬ gone j → j ≠ i := fun j hj he => hj (he ▸ hg)
  have hitem : ∀ j, ¬ gone j → itemAt (HeapPage.setItem page i item) j = itemAt page j :=
    fun j hj => itemAt_setItem_ne (hne j hj)
  refine ⟨by rw [hcount]; exact h.count, fun j hj hj' => h.new j hj (hcount ▸ hj'),
    fun j hj hgj => (hitem j hgj).trans (h.items j hj hgj),
    fun j hj hgj => (h.placed j hj hgj).of_items lower_setItem (hitem j hgj), fun j hj hgj hh => ?_⟩
  exact (slot_setItem hlo hi (h.placed j hj hgj) (hne j hgj) item).trans (h.slots j hj hgj hh)

/-! ## The new slot -/

theorem lies_lands (h : Lands page page' offset bytes) (hlo : SizeOfHeapPageHeader ≤ lower page)
    (hlow : lower page + ItemId.size ≤ offset) (hin : offset + bytes.length ≤ Config.PageSize)
    (hsize : HeapPageTupleHeader.size ≤ bytes.length) : Lies page' (itemsCount page) offset bytes := by
  have hlow' := h.lower
  have hlo' : SizeOfHeapPageHeader ≤ lower page' := by
    rw [hlow']
    omega
  refine ⟨hlo', by rw [hlow']; exact hlow, hsize, hin, ?_, h.item, h.content⟩
  rw [itemsCount_eq hlo', itemsCount_eq hlo, hlow']
  simp only [SizeOfHeapPageHeader, ItemId.size, Config.PageSize] at *
  omega

theorem Lies.setLsn (h : Lies page n offset bytes) : Lies (setLsn page lsn) n offset bytes := by
  have hlo := h.header
  have hbe := h.behind
  simp only [SizeOfHeapPageHeader] at hlo
  have hdisj : 0 + (encodeLE 8 lsn).length ≤ offset := by
    rw [encodeLE_length]
    omega
  exact ⟨by rw [lower_setLsn]; exact h.header, by rw [lower_setLsn]; exact hbe, h.size,
    h.inside, by rw [itemsCount_setLsn]; exact h.lt,
    by rw [itemAt_setLsn]; exact h.item, (Memory.slice_blit_disjoint (.inr hdisj)).trans h.content⟩

theorem Lies.slotWrite (h : Lies page n offset bytes) (hp : Placed page i)
    (hap : offset + bytes.length ≤ (itemAt page i).offset)
    (hout : ∀ a, a < (itemAt page i).offset ∨ (itemAt page i).offset + (itemAt page i).length ≤ a →
      page' a = page a) :
    Lies page' n offset bytes := by
  obtain ⟨hw, -⟩ := slotWrite_within hp hout
  exact ⟨by rw [hw.lower]; exact h.header, by rw [hw.lower]; exact h.behind, h.size,
    h.inside, by rw [itemsCount_congr hw.lower]; exact h.lt,
    (hw.items n h.lt).trans h.item, (Memory.slice_congr fun a _ ha => hout a (.inl (by omega))).trans h.content⟩

theorem Lies.tupleAt_eq (h : Lies page n offset bytes) :
    tupleAt false page n = .ok (⟨ItemState.Normal, offset, bytes.length⟩, offset, .ofBytes bytes) := by
  have haddr := itemAddr_lt h.header h.lt
  have hbe := h.behind
  have hin := h.inside
  have hsize := h.size
  have hacc : access (itemAddr n) ItemId.size = .ok () := if_pos (by simp only [ItemId.size]; omega)
  have hacc' : access offset HeapPageTupleHeader.size = .ok () := if_pos (by omega)
  have hget : getItemId false page n = .ok ⟨ItemState.Normal, offset, bytes.length⟩ := by
    rw [← h.item]
    simp only [getItemId, assert, hacc]
    rfl
  have hread : readHeader page offset = .ok (.ofBytes bytes) := by
    unfold readHeader
    rw [hacc']
    show Except.ok (headerAt page offset) = _
    unfold headerAt
    rw [← Memory.slice_take hsize, h.content, ofBytes_take (Nat.le_refl _)]
  rw [tupleAt, hget]
  show (do
    let header ← readHeader page offset
    return ((⟨ItemState.Normal, offset, bytes.length⟩ : ItemId), offset, header)) = _
  rw [hread]
  rfl

/-- A new slot is made only without assertions, one of which is that the item is there already. -/
theorem relocate_release (hr : relocate dbg page (itemsCount page) bytes = .ok page') : dbg = false := by
  cases dbg with
  | false => rfl
  | true =>
    obtain ⟨_, hi, -⟩ := bind_eq_ok.1 hr
    obtain ⟨_, ha, -⟩ := bind_eq_ok.1 hi
    unfold assert at ha
    simp only [Nat.lt_irrefl, decide_false, Bool.not_false, Bool.and_true, if_true] at ha
    cases ha

end HeapPage

/-! ## Tables -/

namespace HeapStore

/-- Pages in use are arranged; the others are zero, and so is what lies behind the end of the relation. -/
structure Sound (s : HeapStore) : Prop where
  pages : ∀ p, HeapPage.Arranged (s.page p) ∨ s.page p = fun _ => 0
  behind : ∀ p, s.pagesCount ≤ p → s.page p = fun _ => 0

def Spares (gone hit : TupleId → Prop) (base s : HeapStore) : Prop :=
  ∀ p, HeapPage.Spares (fun j => gone ⟨p, j⟩) (fun j => hit ⟨p, j⟩) (base.page p) (s.page p)

/-- A slot of the table. -/
def Has (s : HeapStore) (tid : TupleId) : Prop :=
  tid.pageno < s.pagesCount ∧ tid.itemid < HeapPage.itemsCount (s.page tid.pageno)

/-- The slot of the tuple has it. -/
structure Holds (dbg : Bool) (desc : TupleDescriptor) (s : HeapStore) (tuple : HeapTuple Values) : Prop where
  placed : s.Placed tuple.tid
  version : ∃ bytes rest, IsVersion dbg desc tuple.header tuple.values bytes ∧ s.content tuple.tid = bytes ++ rest

/-- In `v` the table is as it was in `s`, but for dead slots that came with `u`. -/
structure TakenBack (dbg : Bool) (desc : TupleDescriptor) (s u v : HeapStore) : Prop where
  created : ∀ r, u.Used r → ¬ s.Used r → (v.item r).isDead = true
  items : ∀ r, s.Has r → r.itemid < HeapPage.itemsCount (v.page r.pageno) ∧ v.item r = s.item r
  tuples : ∀ r, s.Has r → s.Used r → v.content r = s.content r ∨
    ∃ tuple, tuple.tid = r ∧ s.Holds dbg desc tuple ∧ v.decoded dbg desc r = .ok tuple

/-- The undo of the call that led from `s` to `u` goes through and takes the call back. -/
def Inverted (dbg : Bool) (desc : TupleDescriptor) (s u : HeapStore) : Prop :=
  ∃ v, performUndo dbg (s.undoSize + 1) u = (.ok (), v) ∧ s.TakenBack dbg desc u v

end HeapStore

/-- A change of the table, with nobody else at work. -/
inductive TableCall where
  | insert (values : Values) (fuel : Nat)
  | update (old : HeapTuple Values) (values : Values) (fuel : Nat)
  | delete (tuple : HeapTuple Values)

namespace TableCall

def run (t : HeapTable Values) : TableCall → HeapM Unit
  | .insert values fuel => t.insertTuple values fuel
  | .update old values fuel => t.updateTuple (fun _ => pure ()) old values fuel
  | .delete tuple => t.deleteTuple (fun _ => pure ()) tuple

/-- The slot of the given tuple is in use, and has room for the tuple of an update. -/
def Admits (dbg : Bool) (desc : TupleDescriptor) (s : HeapStore) : TableCall → Prop
  | .insert _ _ => True
  | .update old _ _ => s.Placed old.tid ∧ old.tid.pageno < s.pagesCount ∧
    ∃ image, IsVersion dbg desc old.header old.values image ∧ image.length ≤ (s.item old.tid).length
  | .delete tuple => s.Placed tuple.tid

/-- A delete, or an update of the tuple that its slot has. -/
def Reverts (dbg : Bool) (desc : TupleDescriptor) (s : HeapStore) : TableCall → Prop
  | .insert _ _ => False
  | .update old _ _ => s.Holds dbg desc old
  | .delete _ => True

/-- A page with room for the tuple of an insert has room for it with its padding. -/
def Roomy (t : HeapTable Values) (s : HeapStore) : TableCall → Prop
  | .insert values _ => ∀ bytes, t.serialize (t.newHeader values) values = .ok bytes →
    ∀ p, bytes.length + ItemId.size ≤ HeapPage.getFreeSpace (s.page p) → HeapPage.Roomy (s.page p) bytes.length
  | .update _ _ _ | .delete _ => True

end TableCall

namespace HeapStore

/-- `base`, then `u` after a change and `v` after its undo: the slots that came are
dead in `v`, and that of `tid` was hit. -/
structure Undone (base u v : HeapStore) (gone : TupleId → Prop) (tid : TupleId) : Prop where
  before : Spares gone (· = tid) base u
  after : Spares gone (· = tid) base v
  dead : ∀ r, gone r → HeapPage.itemsCount (base.page r.pageno) ≤ r.itemid ∧ (v.item r).isDead = true

section
variable {dbg : Bool} {desc : TupleDescriptor} {base s u v : HeapStore} {gone hit : TupleId → Prop}
  {tuple : HeapTuple Values} {p : Nat}
  {page' : Memory} {tid : TupleId}

theorem Spares.of_same (hp : s.page = base.page) : Spares gone hit base s := by
  intro p
  rw [hp]
  exact .refl

theorem Spares.page (h : Spares gone hit base s) (hu : u.page = Function.update s.page p page')
    (hp : HeapPage.Spares (fun j => gone ⟨p, j⟩) (fun j => hit ⟨p, j⟩) (base.page p) page') :
    Spares gone hit base u := by
  intro q
  rw [hu]
  by_cases hq : q = p
  · subst hq
    rw [Function.update_self]
    exact hp
  · rw [Function.update_of_ne hq]
    exact h q

theorem Spares.placed (h : Spares gone hit base s) {r : TupleId} (hr : base.Placed r) (hg : ¬ gone r) :
    s.Placed r :=
  (h r.pageno).placed r.itemid hr hg

theorem Spares.item (h : Spares gone hit base s) {r : TupleId} (hr : base.Placed r) (hg : ¬ gone r) :
    s.item r = base.item r :=
  (h r.pageno).items r.itemid hr.lt hg

theorem Sound.tidy (h : s.Sound) (p : Nat) : HeapPage.Tidy (s.page p) := by
  rcases h.pages p with h | h
  · exact h.tidy
  · rw [h]
    exact HeapPage.tidy_zero

theorem placed_of_used (h : ∀ p, HeapPage.Tidy (s.page p)) (hr : s.Used tid) : s.Placed tid :=
  (h tid.pageno).placed _ hr.1 hr.2

theorem Undone.takenBack (h : Undone base u v gone tid) (ht : ∀ p, HeapPage.Tidy (base.page p))
    (hc : v.content tid = base.content tid ∨ ∃ tuple, tuple.tid = tid ∧ base.Holds dbg desc tuple ∧
      v.decoded dbg desc tid = .ok tuple) :
    base.TakenBack dbg desc u v := by
  have hkept : ∀ r, r.itemid < HeapPage.itemsCount (base.page r.pageno) → ¬ gone r := fun r hr hg =>
    absurd hr (Nat.not_lt.2 (h.dead r hg).1)
  refine ⟨fun r hu hb => ?_, fun r hr => ?_, fun r hr hn => ?_⟩
  · by_cases hg : gone r
    · exact (h.dead r hg).2
    · have hlt : r.itemid < HeapPage.itemsCount (base.page r.pageno) := by
        by_contra hge
        exact hg ((h.before r.pageno).new r.itemid (Nat.not_lt.1 hge) hu.1)
      have hi : u.item r = base.item r := (h.before r.pageno).items r.itemid hlt hg
      exact absurd ⟨hlt, hi ▸ hu.2⟩ hb
  · have ha := h.after r.pageno
    exact ⟨Nat.lt_of_lt_of_le hr.2 ha.count, ha.items r.itemid hr.2 (hkept r hr.2)⟩
  · by_cases hrt : r = tid
    · subst hrt
      exact hc
    · exact .inl ((h.after r.pageno).slots r.itemid (placed_of_used ht hn) (hkept r hr.2) hrt)

/-! ## Growth of the relation -/

theorem Sound.grew (h : s.Sound) (hg : s.Grew u) (p : Nat) :
    HeapPage.Arranged (u.page p) ∨ u.page p = fun _ => 0 := by
  rcases hg.page p with he | ⟨-, he⟩
  · rw [he]
    exact h.pages p
  · rw [he]
    exact .inl HeapPage.arranged_init

theorem Sound.grew_tidy (h : s.Sound) (hg : s.Grew u) (p : Nat) : HeapPage.Tidy (u.page p) := by
  rcases h.grew hg p with h | h
  · exact h.tidy
  · rw [h]
    exact HeapPage.tidy_zero

theorem Sound.grew_layout (h : s.Sound) (hg : s.Grew u) {p : Nat} (hp : 0 < HeapPage.getFreeSpace (u.page p)) :
    HeapPage.Layout (u.page p) := by
  rcases h.grew hg p with h | h
  · exact h.layout
  · rw [h] at hp
    exact absurd hp (by decide)

theorem Grew.used (hg : s.Grew u) {r : TupleId} (hr : u.Used r) : s.Used r := by
  unfold Used item at *
  rcases hg.page r.pageno with he | ⟨-, he⟩
  · rwa [he] at hr
  · rw [he, HeapPage.itemsCount_eq (by rw [HeapPage.lower_init]), HeapPage.lower_init] at hr
    exact absurd hr.1 (by simp [HeapPage.SizeOfHeapPageHeader])

theorem Grew.page_of_lt (hg : s.Grew u) (hp : p < s.pagesCount) : u.page p = s.page p := by
  rcases hg.page p with he | ⟨hle, -⟩
  · exact he
  · exact absurd hp (Nat.not_lt.2 hle)

theorem TakenBack.of_grew (hg : s.Grew base) (h : base.TakenBack dbg desc u v) : s.TakenBack dbg desc u v := by
  have hhas : ∀ r, s.Has r → base.Has r := fun r hr => by
    unfold Has
    rw [hg.page_of_lt hr.1]
    exact ⟨Nat.lt_of_lt_of_le hr.1 hg.le_pagesCount, hr.2⟩
  have hitem : ∀ r, s.Has r → base.item r = s.item r := fun r hr => by
    unfold item
    rw [hg.page_of_lt hr.1]
  have hcontent : ∀ r, s.Has r → base.content r = s.content r := fun r hr => by
    unfold content
    rw [hg.page_of_lt hr.1]
  refine ⟨fun r hu hb => h.created r hu fun hb' => hb (hg.used hb'), fun r hr => ?_, fun r hr hn => ?_⟩
  · rw [← hitem r hr]
    exact h.items r (hhas r hr)
  · have hused : base.Used r := by
      unfold Used item
      rw [hg.page_of_lt hr.1]
      exact hn
    rw [← hcontent r hr]
    refine (h.tuples r (hhas r hr) hused).imp_right fun ⟨tuple, hr', hh, hd⟩ => ⟨tuple, hr', ⟨?_, ?_⟩, hd⟩
    · have hp := hh.placed
      unfold Placed at hp ⊢
      rw [hr'] at hp ⊢
      rwa [hg.page_of_lt hr.1] at hp
    · obtain ⟨bytes, rest, hv, hc⟩ := hh.version
      rw [hr', hcontent r hr, ← hr'] at hc
      exact ⟨bytes, rest, hv, hc⟩

end

end HeapStore

/-! ## Changes in place and their undo -/

namespace HeapTable

open HeapStore

section
variable {dbg : Bool} {tableId myXid : Nat} {desc : TupleDescriptor} {s u : HeapStore}
  {old tuple : HeapTuple Values} {values : Values}
  {tid newTID : TupleId} {image bytes : List UInt8} {page' : Memory} {record : HeapUndoRecord}

/-- A record that restores one slot is applied right after the call that wrote it. -/
theorem undone_inPlace (ht : ∀ p, HeapPage.Tidy (s.page p)) (hp : s.Placed tid) (hlog : Logged s u record)
    (hrec : record.RestoresAt tid image) (hpage : u.page = Function.update s.page tid.pageno page')
    (hw : HeapPage.SlotWrite (s.page tid.pageno) page' tid.itemid bytes)
    (hundo : (HeapPageTupleHeader.ofBytes bytes).undo = s.undoSize + 1)
    (hlen : image.length ≤ (s.item tid).length) :
    ∃ v, performUndo dbg (s.undoSize + 1) u = (.ok (), v) ∧ Undone s u v (fun _ => False) tid ∧ v.Placed tid ∧
      v.content tid = image ++ bytes.drop image.length := by
  have hbefore : Spares (fun _ => False) (· = tid) s u :=
    (Spares.of_same rfl).page hpage (HeapPage.Spares.refl.slotWrite (ht _) hp id rfl hw)
  have hpu : u.Placed tid := hbefore.placed hp id
  have hitem : u.item tid = s.item tid := hbefore.item hp id
  have hcontent : u.content tid = bytes := by
    unfold content
    rw [hpage, Function.update_self]
    exact hw.content
  have hlen' : image.length ≤ (u.item tid).length := hitem ▸ hlen
  have hrun : performUndo dbg (s.undoSize + 1) u = (.ok (), UndoApplierVisitor.restored u tid image) :=
    performUndo_inPlace (by rw [hlog.undo, Function.update_self]) hrec hpu (by rw [hcontent]; exact hundo) hlen'
  have hback : HeapPage.SlotWrite (u.page tid.pageno) _ tid.itemid _ := HeapPage.SlotWrite.blit hpu hlen'
  refine ⟨_, hrun, ⟨hbefore, hbefore.page rfl ?_, fun _ h => h.elim⟩, ?_, ?_⟩
  · exact (hbefore tid.pageno).slotWrite (ht _) hp id rfl hback
  · exact (UndoApplierVisitor.restored_slotChange hpu hlen').placed tid hpu
  · rw [← hcontent]
    exact (UndoApplierVisitor.restored_slotChange hpu hlen').content

theorem usn_bounds (hu : (s.undoSize : Int) + 1 ≤ UndoSeqNumber.Max) :
    -(2 ^ 63) ≤ (s.undoSize : Int) + 1 ∧ (s.undoSize : Int) + 1 < 2 ^ 63 := by
  unfold UndoSeqNumber.Max at hu
  omega

theorem deleteTuple_inverted (ht : ∀ p, HeapPage.Tidy (s.page p)) (hx : myXid < 2 ^ 64)
    (hu : (s.undoSize : Int) + 1 ≤ UndoSeqNumber.Max)
    (hp : s.Placed tuple.tid) (h : (heapTable dbg tableId myXid desc).deleteTuple (fun _ => pure ()) tuple s =
      (.ok (), u)) :
    s.Inverted dbg desc u := by
  have h := deleteTuple_inv h
  rw [deleteAt, Fallible.bind_ok (locate_eq hp)] at h
  obtain ⟨u', page', hrun, hlog, hpage, hw⟩ := performDelete_inPlace (heapTable dbg tableId myXid desc) hp
  rw [hrun] at h
  cases h
  have hsize : HeapPageTupleHeader.size ≤ (s.content tuple.tid).length := by
    rw [content_length]
    exact hp.size
  have hundo := congrArg HeapPageTupleHeader.undo (HeapPageTupleHeader.ofBytes_toBytes
    (h := (heapTable dbg tableId myXid desc).deletedHeader (s.undoSize + 1)) ⟨hx, usn_bounds hu⟩
      ((s.content tuple.tid).drop HeapPageTupleHeader.size))
  rw [HeapPageTupleHeader.toBytes_length] at hw
  obtain ⟨v, hv, hundone, -, hc⟩ :=
    undone_inPlace ht hp hlog (.inr ⟨_, rfl⟩) hpage hw hundo (Nat.le_of_eq (content_length _ _))
  refine ⟨v, hv, hundone.takenBack ht (.inl ?_)⟩
  rw [hc, List.drop_eq_nil_of_le, List.append_nil]
  rw [List.length_append, HeapPageTupleHeader.toBytes_length, List.length_drop]
  omega

/-- The undo of an update writes the image of `old` back. -/
def PutsBack (s u : HeapStore) (dbg : Bool) (tid : TupleId) (image : List UInt8) : Prop :=
  ∃ v gone rest, performUndo dbg (s.undoSize + 1) u = (.ok (), v) ∧ Undone s u v gone tid ∧ v.Placed tid ∧
  v.content tid = image ++ rest

theorem performUpdate_inPlace_putsBack (ht : ∀ p, HeapPage.Tidy (s.page p)) (hx : myXid < 2 ^ 64)
    (hu : (s.undoSize : Int) + 1 ≤ UndoSeqNumber.Max) (hp : s.Placed old.tid)
    (hv : IsVersion dbg desc old.header old.values image)
    (hlen : image.length ≤ (s.item old.tid).length) {header : HeapPageTupleHeader}
    (hser : (heapTable dbg tableId myXid desc).serialize header values = .ok bytes)
    (hfit : bytes.length ≤ (s.item old.tid).length)
    (h : (heapTable dbg tableId myXid desc).performUpdate old values old.tid s = (.ok (), u)) :
    PutsBack s u dbg old.tid image := by
  obtain ⟨data, hdata, rfl⟩ := serialize_bytes hser
  rw [List.length_append, HeapPageTupleHeader.toBytes_length] at hfit
  obtain ⟨u', page', hrun, hlog, hpage, hw⟩ :=
    performUpdate_inPlace (heapTable dbg tableId myXid desc) old hp hv.serialize hdata hfit
  rw [hrun] at h
  cases h
  have hundo : ∀ rest, (HeapPageTupleHeader.ofBytes
    ((heapTable dbg tableId myXid desc).versionBytes (s.undoSize + 1) values data ++ rest)).undo =
      s.undoSize + 1 := fun rest => by
    unfold versionBytes
    rw [ofBytes_append_of ⟨hx, usn_bounds hu⟩]
  obtain ⟨v, hrun, hundone, hpv, hc⟩ := undone_inPlace ht hp hlog (.inl ⟨_, rfl⟩) hpage hw (hundo _) hlen
  exact ⟨v, _, _, hrun, hundone, hpv, hc⟩

/-! ## Updates to a new slot and their undo -/

/-- The new version lies in its slot, and the old slot has the undo pointer. -/
structure Moved (base s : HeapStore) (oldTID newTID : TupleId) (usn : Int) (offset : Nat) (bytes : List UInt8) :
    Prop where
  spares : Spares (· = newTID) (· = oldTID) base s
  lies : HeapPage.Lies (s.page newTID.pageno) newTID.itemid offset bytes
  undo : (HeapPageTupleHeader.ofBytes (s.content oldTID)).undo = usn

variable {base : HeapStore} {oldTID : TupleId} {usn : Int} {offset lsn p : Nat}

theorem Moved.setLsn (h : Moved base s oldTID newTID usn offset bytes) (hp : s.Placed oldTID)
    (hu : changePage p (fun page => .ok (HeapPage.setLsn page lsn)) s = (.ok (), u)) :
    Moved base u oldTID newTID usn offset bytes ∧ u.Placed oldTID ∧ u.undo = s.undo := by
  obtain ⟨page', hpage, rfl⟩ := changePage_inv hu
  cases hpage
  have hcontent : HeapStore.content { s with page := Function.update s.page p (HeapPage.setLsn (s.page p) lsn) }
    oldTID = s.content oldTID ∧
      HeapStore.Placed { s with page := Function.update s.page p (HeapPage.setLsn (s.page p) lsn) } oldTID := by
    unfold HeapStore.content HeapStore.Placed at *
    simp only
    by_cases hq : oldTID.pageno = p
    · subst hq
      rw [Function.update_self]
      exact ⟨HeapPage.slot_setLsn hp, hp.of_items HeapPage.lower_setLsn HeapPage.itemAt_setLsn⟩
    · rw [Function.update_of_ne hq]
      exact ⟨rfl, hp⟩
  refine ⟨⟨h.spares.page rfl (h.spares p).setLsn, ?_, by rw [hcontent.1]; exact h.undo⟩, hcontent.2, rfl⟩
  show HeapPage.Lies (Function.update s.page p _ newTID.pageno) _ _ _
  by_cases hq : newTID.pageno = p
  · subst hq
    rw [Function.update_self]
    exact h.lies.setLsn
  · rw [Function.update_of_ne hq]
    exact h.lies

theorem finishUpdate_moved (h : Moved base s oldTID newTID usn offset bytes) (hp : s.Placed oldTID)
    (hu : finishUpdate oldTID newTID lsn s = (.ok (), u)) :
    Moved base u oldTID newTID usn offset bytes ∧ u.Placed oldTID ∧ u.undo = s.undo := by
  obtain ⟨_, s1, h1, hu⟩ := Fallible.bind_eq_ok.1 hu
  obtain ⟨hm1, hp1, hu1⟩ := h.setLsn hp h1
  have hdirty : ∀ {s u : HeapStore} {p : Nat}, Moved base s oldTID newTID usn offset bytes ∧ s.Placed oldTID →
    markDirty p s = (.ok (), u) →
      (Moved base u oldTID newTID usn offset bytes ∧ u.Placed oldTID) ∧ u.undo = s.undo := fun h hu => by
    cases hu
    exact ⟨⟨⟨h.1.spares, h.1.lies, h.1.undo⟩, h.2⟩, rfl⟩
  split at hu
  · obtain ⟨_, s2, h2, hu⟩ := Fallible.bind_eq_ok.1 hu
    obtain ⟨hm2, hp2, hu2⟩ := hm1.setLsn hp1 h2
    obtain ⟨_, s3, h3, hu⟩ := Fallible.bind_eq_ok.1 hu
    obtain ⟨hm3, hu3⟩ := hdirty ⟨hm2, hp2⟩ h3
    obtain ⟨hm4, hu4⟩ := hdirty hm3 hu
    exact ⟨hm4.1, hm4.2, hu4.trans (hu3.trans (hu2.trans hu1))⟩
  · obtain ⟨_, s2, h2, hu⟩ := Fallible.bind_eq_ok.1 hu
    obtain ⟨hm2, hu2⟩ := hdirty ⟨hm1, hp1⟩ h2
    cases hu
    exact ⟨hm2.1, hm2.2, hu2.trans hu1⟩

/-- The pages of an update to a new slot, which only a build without assertions writes. -/
theorem writeUpdate_moved {t : HeapTable Values} (ht : HeapPage.Tidy (s.page oldTID.pageno)) (hp : s.Placed oldTID)
    (hl : HeapPage.Layout (s.page newTID.pageno)) (hi : newTID.itemid = HeapPage.itemsCount (s.page newTID.pageno))
    (hroom : bytes.length + ItemId.size ≤ HeapPage.getFreeSpace (s.page newTID.pageno))
    (hsize : HeapPageTupleHeader.size ≤ bytes.length)
    (husn : -(2 ^ 63) ≤ usn ∧ usn < 2 ^ 63) (hne : newTID ≠ oldTID)
    (h : t.writeUpdate oldTID newTID usn bytes s = (.ok (), u)) :
    t.dbg = false ∧ u.undo = s.undo ∧ u.Placed oldTID ∧ ∃ offset, Moved s u oldTID newTID usn offset bytes := by
  rw [writeUpdate, if_neg hne] at h
  obtain ⟨_, s1, h1, h⟩ := Fallible.bind_eq_ok.1 h
  obtain ⟨page1, hr, rfl⟩ := changePage_inv h1
  rw [hi] at hr
  rw [HeapPage.getFreeSpace_eq hl.free] at hroom
  have hfree := hl.free
  have hbound := hl.bound
  have hlands := HeapPage.lands_relocate hl.header (by simp only [ItemId.size] at *; omega) hl.bound hsize hr
  have hold : oldTID ≠ newTID := hne.symm
  have hs1 : Spares (· = newTID) (· = oldTID) s { s with page := Function.update s.page newTID.pageno page1 } := by
    refine (Spares.of_same rfl).page rfl (HeapPage.spares_lands hlands hl (by simp only [ItemId.size] at *; omega)
      (by omega) ?_)
    exact congrArg (TupleId.mk _) hi.symm
  have hlies := HeapPage.lies_lands hlands hl.header (by simp only [ItemId.size] at *; omega) (by omega) hsize
  have hp1 := hs1.placed hp hold
  have hitem := hs1.item hp hold
  obtain ⟨page2, hm, hu⟩ := changePage_inv h
  have hpage : u.page = Function.update (Function.update s.page newTID.pageno page1) oldTID.pageno page2 :=
    congrArg HeapStore.page hu
  obtain ⟨hsame, -, hundo⟩ := HeapPage.markUpdated_inv hp1 husn hm
  obtain ⟨hw, -⟩ := HeapPage.slotWrite_within hp1 hsame
  have hs2 := hs1.page hpage ((hs1 oldTID.pageno).slotWrite ht hp hold rfl hw)
  refine ⟨HeapPage.relocate_release
    hr, by rw [hu], hs2.placed hp hold, HeapPage.upper (s.page newTID.pageno) - bytes.length, hs2, ?_, ?_⟩
  · rw [hpage, hi]
    by_cases hq : newTID.pageno = oldTID.pageno
    · -- the tuples of the page lie behind the new one
      have hin :=
        (hl.inside oldTID.itemid (by rw [hq]; exact hp.lt) (by rw [hq]; exact HeapPage.not_dead hp.normal)).1
      have hpage1 : Function.update s.page newTID.pageno page1 oldTID.pageno = page1 := by
        rw [← hq, Function.update_self]
      unfold HeapStore.Placed at hp1
      unfold HeapStore.item at hitem
      simp only [hpage1] at hp1 hitem hsame
      rw [hq, Function.update_self]
      refine (hq ▸ hlies).slotWrite hp1 ?_ hsame
      rw [hitem, ← hq]
      omega
    · rw [Function.update_of_ne hq, Function.update_self]
      exact hlies
  · unfold HeapStore.content
    rw [hpage, Function.update_self]
    exact hundo

theorem moved_undone {tableId : Nat} (hm : Moved base u oldTID newTID usn offset bytes) (hp : u.Placed oldTID)
    (ht : HeapPage.Tidy (base.page oldTID.pageno)) (hpb : base.Placed oldTID)
    (hrec : u.undo usn = some (.Update tableId oldTID newTID image)) (hne : newTID ≠ oldTID)
    (hi : newTID.itemid = HeapPage.itemsCount (base.page newTID.pageno))
    (hbytes : (HeapPageTupleHeader.ofBytes bytes).undo = usn)
    (hlen : image.length ≤ (base.item oldTID).length) :
    ∃ v rest, performUndo false usn u = (.ok (), v) ∧ Undone base u v (· = newTID) oldTID ∧ v.Placed oldTID ∧
      v.content oldTID = image ++ rest := by
  have hold : oldTID ≠ newTID := hne.symm
  have hitem : u.item oldTID = base.item oldTID := hm.spares.item hpb hold
  have hlen' : image.length ≤ (u.item oldTID).length := hitem ▸ hlen
  let item : ItemId := ⟨ItemState.Normal, offset, bytes.length⟩
  let u1 := UndoApplierVisitor.restored u oldTID image
  let v : HeapStore := { u1 with
    page := Function.update u1.page newTID.pageno
      (HeapPage.setItem (u1.page newTID.pageno) newTID.itemid item.setDead) }
  have hread : UndoApplierVisitor.readOwn false usn oldTID.pageno oldTID.itemid
    "can not undo update: old tuple was concurrently modified" u =
      (.ok (u.item oldTID, (u.item oldTID).offset), u) := by
    have hne : ¬ (HeapPageTupleHeader.ofBytes (HeapPage.slot (u.page oldTID.pageno) oldTID.itemid)).undo ≠ usn :=
      not_not.2 hm.undo
    simp only [UndoApplierVisitor.readOwn, getPage, Fallible.bind_apply, Fallible.ofExcept,
      HeapPage.Placed.tupleAt_eq hp, if_neg hne]
    rfl
  have hread' : UndoApplierVisitor.readOwn false usn newTID.pageno newTID.itemid
    "can not undo update: new tuple was concurrently modified" u =
      (.ok (item, offset), u) := by
    have hne : ¬ (HeapPageTupleHeader.ofBytes bytes).undo ≠ usn := not_not.2 hbytes
    simp only [UndoApplierVisitor.readOwn, getPage, Fallible.bind_apply, Fallible.ofExcept, hm.lies.tupleAt_eq,
      if_neg hne]
    rfl
  have hrun : performUndo false usn u = (.ok (), v) := by
    have hvisit :
        performUndo false usn u = UndoApplierVisitor.visit false usn (.Update tableId oldTID newTID image) u := by
      rw [performUndo, Fallible.bind_ok (Fallible.get_apply u)]
      simp only [hrec]
    rw [hvisit, UndoApplierVisitor.visit, UndoApplierVisitor.visitUpdate, if_neg hne, Fallible.bind_ok hread]
    simp only
    rw [Fallible.bind_ok hread']
    simp only
    rw [Fallible.bind_ok (UndoApplierVisitor.restore_eq hp hlen')]
    exact changePage_eq rfl
  have hw : HeapPage.SlotWrite (u.page oldTID.pageno) _ oldTID.itemid _ := HeapPage.SlotWrite.blit hp hlen'
  have hchange := UndoApplierVisitor.restored_slotChange hp hlen'
  have hs1 : Spares (· = newTID) (· = oldTID) base u1 :=
    hm.spares.page rfl ((hm.spares oldTID.pageno).slotWrite ht hpb hold rfl hw)
  have hlow : HeapPage.lower (u1.page newTID.pageno) = HeapPage.lower (u.page newTID.pageno) := by
    show HeapPage.lower (Function.update u.page oldTID.pageno _ newTID.pageno) = _
    by_cases hq : newTID.pageno = oldTID.pageno
    · rw [hq, Function.update_self]
      exact hw.lower
    · rw [Function.update_of_ne hq]
  have hlo : HeapPage.SizeOfHeapPageHeader ≤ HeapPage.lower (u1.page newTID.pageno) := by
    rw [hlow]
    exact hm.lies.header
  have hlt : newTID.itemid < HeapPage.itemsCount (u1.page newTID.pageno) := by
    rw [HeapPage.itemsCount_congr hlow]
    exact hm.lies.lt
  have hs2 : Spares (· = newTID) (· = oldTID) base v := hs1.page rfl ((hs1 newTID.pageno).setItem hlo hlt rfl _)
  refine ⟨v, (u.content oldTID).drop image.length, hrun, ⟨hm.spares, hs2, fun r hr => ?_⟩, hs2.placed hpb hold, ?_⟩
  · subst hr
    refine ⟨Nat.le_of_eq hi.symm, ?_⟩
    have hdead : v.item r = item.setDead := by
      show HeapPage.itemAt (Function.update u1.page r.pageno _ r.pageno) r.itemid = _
      rw [Function.update_self]
      exact HeapPage.itemAt_setItem_same (by decide : ItemState.Dead < 4) (by decide : 0 < 2 ^ 15)
        (by decide : 0 < 2 ^ 15)
    rw [hdead]
    rfl
  · rw [← hchange.content]
    show HeapPage.slot (Function.update u1.page newTID.pageno _ oldTID.pageno) oldTID.itemid =
      HeapPage.slot (u1.page oldTID.pageno) oldTID.itemid
    by_cases hq : oldTID.pageno = newTID.pageno
    · have hidx : oldTID.itemid ≠ newTID.itemid := by
        intro he
        apply hold
        show TupleId.mk oldTID.pageno oldTID.itemid = ⟨newTID.pageno, newTID.itemid⟩
        rw [hq, he]
      have hp1 : HeapPage.Placed (u1.page newTID.pageno) oldTID.itemid := hq ▸ hchange.placed oldTID hp
      rw [hq, Function.update_self]
      exact HeapPage.slot_setItem hlo hlt hp1 hidx _
    · rw [Function.update_of_ne hq]

theorem performUpdate_moved_putsBack (ht : ∀ p, HeapPage.Tidy (base.page p)) (hx : myXid < 2 ^ 64)
    (hu : (base.undoSize : Int) + 1 ≤ UndoSeqNumber.Max) (hp : base.Placed old.tid)
    (hv : IsVersion dbg desc old.header old.values image)
    (hlen : image.length ≤ (base.item old.tid).length) (hl : HeapPage.Layout (base.page newTID.pageno))
    (hi : newTID.itemid = HeapPage.itemsCount (base.page newTID.pageno)) (hne : newTID ≠ old.tid)
    {header : HeapPageTupleHeader}
    (hser : (heapTable dbg tableId myXid desc).serialize header values = .ok bytes)
    (hroom : bytes.length + ItemId.size ≤ HeapPage.getFreeSpace (base.page newTID.pageno))
    (h : (heapTable dbg tableId myXid desc).performUpdate old values newTID base = (.ok (), u)) :
    PutsBack base u dbg old.tid image := by
  obtain ⟨⟨usn, bytes', lsn⟩, s1, h1, h⟩ := Fallible.bind_eq_ok.1 h
  obtain ⟨hpage, rfl, hser', image', himage, hlog⟩ := logUpdate_inv h1
  obtain rfl : image = image' := Except.ok.inj (hv.serialize.symm.trans himage)
  obtain ⟨_, s2, h2, h3⟩ := Fallible.bind_eq_ok.1 h
  have hb := usn_bounds hu
  have hp1 : s1.Placed old.tid := by
    unfold HeapStore.Placed
    rw [hpage]
    exact hp
  obtain ⟨hdbg, hu2, hp2, offset, hm2⟩ :=
    writeUpdate_moved (s := s1) (by rw [hpage]; exact ht _) hp1 (by rw [hpage]; exact hl)
    (by rw [hpage]; exact hi) (by rw [hpage, (serialize_length hser' hser).1]; exact hroom)
      (serialize_size hser') hb hne h2
  obtain ⟨hm3, hp3, hu3⟩ := finishUpdate_moved hm2 hp2 h3
  have hm : Moved base u old.tid newTID (base.undoSize + 1) offset bytes' := by
    refine ⟨fun p => ?_, hm3.lies, hm3.undo⟩
    rw [← hpage]
    exact hm3.spares p
  have hundo : (HeapPageTupleHeader.ofBytes bytes').undo = base.undoSize + 1 := by
    have hh := (serialize_header ⟨hx, hb⟩ hser' []).2
    rwa [List.append_nil] at hh
  obtain rfl : dbg = false := hdbg
  have hrec : u.undo (base.undoSize + 1) = some (.Update tableId old.tid newTID image) := by
    rw [hu3, hu2, hlog.undo, Function.update_self]
    rfl
  obtain ⟨v, rest, hrun, hundone, hpv, hc⟩ := moved_undone hm hp3 (ht _) hp hrec hne hi hundo hlen
  exact ⟨v, _, rest, hrun, hundone, hpv, hc⟩

theorem updateTuple_putsBack {fuel : Nat} (hs : s.Sound) (hx : myXid < 2 ^ 64)
    (hu : (s.undoSize : Int) + 1 ≤ UndoSeqNumber.Max) (hp : s.Placed old.tid) (hlt : old.tid.pageno < s.pagesCount)
    (hv : IsVersion dbg desc old.header old.values image)
    (hlen : image.length ≤ (s.item old.tid).length)
    (h : (heapTable dbg tableId myXid desc).updateTuple (fun _ => pure ()) old values fuel s = (.ok (), u)) :
    ∃ base, s.Grew base ∧ PutsBack base u dbg old.tid image := by
  obtain ⟨base, newTID, hg, hmay, hrun⟩ := updateTuple_inv h
  obtain ⟨bytes, hser, hplace⟩ := mayUpdate_inv hmay
  have hpage := hg.page_of_lt hlt
  have hp' : base.Placed old.tid := by
    unfold HeapStore.Placed
    rw [hpage]
    exact hp
  have hitem : base.item old.tid = s.item old.tid := by
    unfold HeapStore.item
    rw [hpage]
  have hu' : (base.undoSize : Int) + 1 ≤ UndoSeqNumber.Max := by
    rw [hg.undoSize]
    exact hu
  refine ⟨base, hg, ?_⟩
  rcases hplace with ⟨rfl, hfit⟩ | ⟨hi, hroom⟩
  · exact performUpdate_inPlace_putsBack (hs.grew_tidy hg) hx hu' hp' hv (hitem ▸ hlen) hser hfit hrun
  · have hne : newTID ≠ old.tid := by
      rintro rfl
      exact absurd hp'.lt (by rw [hi]; exact Nat.lt_irrefl _)
    have hl := hs.grew_layout hg (Nat.lt_of_lt_of_le (by simp only [ItemId.size]; omega) hroom)
    exact performUpdate_moved_putsBack (hs.grew_tidy hg) hx hu' hp' hv (hitem ▸ hlen) hl hi hne hser hroom hrun

theorem updateTuple_inverted_iff {fuel : Nat} (hs : s.Sound) (hx : myXid < 2 ^ 64)
    (hu : (s.undoSize : Int) + 1 ≤ UndoSeqNumber.Max) (hp : s.Placed old.tid) (hlt : old.tid.pageno < s.pagesCount)
    (hv : IsVersion dbg desc old.header old.values image)
    (hlen : image.length ≤ (s.item old.tid).length)
    (h : (heapTable dbg tableId myXid desc).updateTuple (fun _ => pure ()) old values fuel s = (.ok (), u)) :
    s.Inverted dbg desc u ↔ s.Holds dbg desc old := by
  obtain ⟨base, hg, v, gone, rest, hrun, hundone, hpv, hc⟩ := updateTuple_putsBack hs hx hu hp hlt hv hlen h
  rw [hg.undoSize] at hrun
  have hdec : v.decoded dbg desc old.tid = .ok old := slotTuple_of_version hpv hv hc
  constructor
  · rintro ⟨v', hrun', htaken⟩
    rw [hrun] at hrun'
    cases hrun'
    rcases htaken.tuples old.tid ⟨hlt, hp.lt⟩ ⟨hp.lt, hp.normal⟩ with he | ⟨tuple, -, hh, hd⟩
    · exact ⟨hp, _, _, hv, he.symm.trans hc⟩
    · rw [hdec] at hd
      cases hd
      exact hh
  · intro hh
    have hpage := hg.page_of_lt hlt
    have hh' : base.Holds dbg desc old := by
      refine ⟨?_, ?_⟩
      · unfold HeapStore.Placed
        rw [hpage]
        exact hp
      · unfold HeapStore.content
        rw [hpage]
        exact hh.version
    exact ⟨v, hrun, .of_grew hg (hundone.takenBack (hs.grew_tidy hg) (.inr ⟨old, rfl, hh', hdec⟩))⟩

/-! ## Inserts -/

/-- The tuple of a slot has another undo pointer, so the slot stays. -/
theorem visitDelete_stays (hn : (s.item tid).isNormal = true)
    (hu : (HeapPage.headerAt (s.page tid.pageno) (s.item tid).offset).undo ≠ usn)
    (h : UndoApplierVisitor.visitDelete dbg usn tid s = (.ok (), u)) : u = s := by
  obtain ⟨page, _, h1, h⟩ := Fallible.bind_eq_ok.1 h
  cases h1
  obtain ⟨item, _, h2, h⟩ := Fallible.bind_eq_ok.1 h
  obtain ⟨hitem, rfl⟩ := Fallible.ofExcept_eq_ok.1 h2
  obtain rfl : item = s.item tid := HeapPage.getItemId_ok hitem
  simp only [hn, Bool.not_true, Bool.false_eq_true, if_false] at h
  obtain ⟨addr, _, h3, h⟩ := Fallible.bind_eq_ok.1 h
  obtain ⟨haddr, rfl⟩ := Fallible.ofExcept_eq_ok.1 h3
  obtain rfl := HeapPage.getTuple_ok haddr
  obtain ⟨header, _, h4, h⟩ := Fallible.bind_eq_ok.1 h
  obtain ⟨hheader, rfl⟩ := Fallible.ofExcept_eq_ok.1 h4
  obtain ⟨_, -, hheader⟩ := bind_eq_ok.1 hheader
  obtain rfl := Except.ok.inj hheader
  rw [if_pos hu] at h
  cases h
  rfl

theorem performInsert_lands {t : HeapTable Values} (hl : HeapPage.Layout (s.page p))
    (hr : HeapPage.Roomy (s.page p) bytes.length) (h : t.performInsert p bytes s = (.ok (), u)) :
    Logged s u (.Delete t.tableId ⟨p, HeapPage.itemsCount (s.page p)⟩) ∧
      ∃ offset, HeapPage.Lands (s.page p) (u.page p) offset bytes := by
  obtain ⟨page, _, h1, h⟩ := Fallible.bind_eq_ok.1 h
  cases h1
  obtain ⟨usn, s1, h2, h⟩ := Fallible.bind_eq_ok.1 h
  cases h2
  obtain ⟨lsn, s2, h3, h⟩ := Fallible.bind_eq_ok.1 h
  cases h3
  obtain ⟨page', hp, rfl⟩ := changePage_inv h
  have hs := hr.spacious hl
  obtain rfl := HeapPage.insertLast_inserted hs hp
  refine ⟨⟨rfl, rfl⟩, HeapPage.upper (s.page p) - BitUtils.maxAlign bytes.length, ?_⟩
  show HeapPage.Lands _ (Function.update s.page p _ p) _ _
  rw [Function.update_self]
  exact HeapPage.lands_inserted hs

/-- The tuple was serialized before its undo pointer was set, so undo passes it by. -/
theorem insertTuple_not_inverted {fuel : Nat} (hs : s.Sound) (hx : myXid < 2 ^ 64)
    (hroomy : ∀ bytes, (heapTable dbg tableId myXid desc).serialize
      ((heapTable dbg tableId myXid desc).newHeader values) values = .ok bytes →
      ∀ p, bytes.length + ItemId.size ≤ HeapPage.getFreeSpace (s.page p) → HeapPage.Roomy (s.page p) bytes.length)
    (h : (heapTable dbg tableId myXid desc).insertTuple values fuel s = (.ok (), u)) : ¬ s.Inverted dbg desc u := by
  rintro ⟨v, hrun, htaken⟩
  obtain ⟨base, p, bytes, hg, hser, hfit, hins⟩ := insertTuple_inv h
  have hr : HeapPage.Roomy (base.page p) bytes.length := by
    rcases hg.page p with he | ⟨-, he⟩
    · rw [he] at hfit ⊢
      exact hroomy bytes hser p hfit
    · rw [he] at hfit ⊢
      exact HeapPage.roomy_init _ hfit
  have hl := hs.grew_layout hg (Nat.lt_of_lt_of_le (by simp only [ItemId.size]; omega) hfit)
  obtain ⟨hlog, offset, hlands⟩ := performInsert_lands hl hr hins
  have hsize := serialize_size hser
  have hitem : u.item ⟨p, HeapPage.itemsCount (base.page p)⟩ = ⟨ItemState.Normal, offset, bytes.length⟩ :=
    hlands.item
  have hnormal : (u.item ⟨p, HeapPage.itemsCount (base.page p)⟩).isNormal = true := by rw [hitem]; rfl
  have hheader : HeapPage.headerAt (u.page p) offset = .ofBytes bytes := by
    unfold HeapPage.headerAt
    rw [← Memory.slice_take hsize, hlands.content, HeapPage.ofBytes_take (Nat.le_refl _)]
  have hundo : (HeapPageTupleHeader.ofBytes bytes).undo = UndoSeqNumber.Invalid := by
    have hb : ((heapTable dbg tableId myXid desc).newHeader values).Bounded := by
      refine ⟨hx, ?_⟩
      show -(2 ^ 63) ≤ UndoSeqNumber.Invalid ∧ UndoSeqNumber.Invalid < 2 ^ 63
      decide
    have hh := (serialize_header hb hser []).2
    rwa [List.append_nil] at hh
  have hvu : v = u := by
    have hrec : u.undo (s.undoSize + 1) = some (.Delete tableId ⟨p, HeapPage.itemsCount (base.page p)⟩) := by
      rw [hlog.undo, hg.undoSize, Function.update_self]
      rfl
    have hvisit : UndoApplierVisitor.visitDelete dbg (s.undoSize + 1) ⟨p, HeapPage.itemsCount (base.page p)⟩ u =
        (.ok (), v) := by
      simp only [performUndo, Fallible.bind_apply, Fallible.get_apply, hrec] at hrun
      exact hrun
    refine visitDelete_stays hnormal ?_ hvisit
    rw [hitem]
    show (HeapPage.headerAt (u.page p) offset).undo ≠ _
    rw [hheader, hundo, UndoSeqNumber.Invalid]
    omega
  have hlt : HeapPage.itemsCount (base.page p) < HeapPage.itemsCount (u.page p) := by
    have hlow := hlands.lower
    have hh := hl.header
    have hb := Nat.le_trans hl.free hl.bound
    rw [HeapPage.itemsCount_eq hh, HeapPage.itemsCount_eq (by rw [hlow]; omega), hlow]
    simp only [HeapPage.SizeOfHeapPageHeader, ItemId.size] at *
    omega
  have hnew : ¬ s.Used ⟨p, HeapPage.itemsCount (base.page p)⟩ := by
    rintro ⟨hlt', hn⟩
    rcases hg.page p with he | ⟨hle, -⟩
    · rw [he] at hlt'
      exact Nat.lt_irrefl _ hlt'
    · unfold HeapStore.item at hn
      rw [hs.behind p hle, HeapPage.itemAt_zero] at hn
      cases hn
  have hdead := htaken.created _ ⟨hlt, hnormal⟩ hnew
  rw [hvu, hitem] at hdead
  cases hdead

end

end HeapTable

/-! ## Every call -/

/-- A delete is taken back, and so is an update of the tuple that its slot has; an update with another tuple is not,
and an insert is not either where its padding fits. -/
theorem undo_inverts {dbg : Bool} {tableId myXid : Nat} {desc : TupleDescriptor} {s u : HeapStore}
    {call : TableCall} (hs : s.Sound) (hx : myXid < 2 ^ 64) (hu : (s.undoSize : Int) + 1 ≤ UndoSeqNumber.Max)
    (ha : call.Admits dbg desc s) (h : call.run (heapTable dbg tableId myXid desc) s = (.ok (), u)) :
    (call.Reverts dbg desc s → s.Inverted dbg desc u) ∧
      (call.Roomy (heapTable dbg tableId myXid desc) s → s.Inverted dbg desc u → call.Reverts dbg desc s) := by
  cases call with
  | insert values fuel => exact ⟨False.elim, fun hr hi => HeapTable.insertTuple_not_inverted hs hx hr h hi⟩
  | update old values fuel =>
    obtain ⟨hp, hlt, image, hv, hlen⟩ := ha
    have hiff := HeapTable.updateTuple_inverted_iff hs hx hu hp hlt hv hlen h
    exact ⟨hiff.2, fun _ => hiff.1⟩
  | delete tuple => exact ⟨fun _ => HeapTable.deleteTuple_inverted hs.tidy hx hu ha h, fun _ _ => trivial⟩

section
open HeapStore HeapTable

/-- `oneRow` without anything behind its page. -/
def onePage : HeapStore := { oneRow with page := fun p => if p = 0 then frozenPage 0 else fun _ => 0 }

theorem onePage_sound : onePage.Sound := by
  have hone : HeapPage.itemsCount (frozenPage 0) = 1 := by decide +kernel
  refine ⟨fun p => ?_, fun p hp => if_neg fun h => absurd hp (by rw [h]; decide)⟩
  by_cases hp : p = 0
  · left
    rw [show onePage.page p = frozenPage 0 from if_pos hp]
    refine ⟨⟨by decide +kernel, by decide +kernel, by decide +kernel, by decide +kernel, fun i hi j hj hij => ?_⟩,
      fun i hi _ => ?_⟩
    · rw [hone] at hi hj
      omega
    · obtain rfl : i = 0 := by omega
      constructor <;> decide +kernel
  · exact .inr (if_neg hp)

def firstTuple : HeapTuple Values :=
  ⟨⟨TransactionId.Min, UndoSeqNumber.Invalid, ⟨false, false⟩⟩, [some (.scalar 0)], ⟨0, 0⟩⟩

theorem firstTuple_placed : onePage.Placed firstTuple.tid := by
  constructor <;> decide +kernel

def changeFirst : TableCall := .update firstTuple [some (.scalar 5)] 0

theorem changeFirst_admits :
    changeFirst.Admits true byteDesc onePage ∧ changeFirst.Reverts true byteDesc onePage := by
  obtain ⟨bytes, hv, hc⟩ := oneRow_version true
  have hcontent : onePage.content firstTuple.tid = bytes ++ [] := hc
  refine ⟨⟨firstTuple_placed, by decide, bytes, hv, ?_⟩, firstTuple_placed, bytes, [], hv, hcontent⟩
  rw [← content_length, hcontent, List.append_nil]

theorem undo_inverts_update : ∃ u, changeFirst.run (heapTable true 1 3 byteDesc) onePage = (.ok (), u) ∧
    u.content ⟨0, 0⟩ ≠ onePage.content ⟨0, 0⟩ ∧ onePage.Inverted true byteDesc u := by
  have hok : (changeFirst.run (heapTable true 1 3 byteDesc) onePage).1 = .ok () := by decide +kernel
  refine ⟨_, Prod.ext hok rfl, by decide +kernel, ?_⟩
  exact (undo_inverts onePage_sound (by decide) (by decide) changeFirst_admits.1 (Prod.ext hok rfl)).1
    changeFirst_admits.2

/-- The record of an insert does not find its tuple, so the slot stays in use. -/
theorem insert_not_undone : onePage.Sound ∧ ∀ dbg, ∃ u v,
    (TableCall.insert [some (.scalar 5)] 1).run (heapTable dbg 1 3 byteDesc) onePage = (.ok (), u) ∧
    performUndo dbg (onePage.undoSize + 1) u = (.ok (), v) ∧ v.item ⟨0, 1⟩ = ⟨ItemState.Normal, 8128, 25⟩ ∧
    ¬ onePage.Inverted dbg byteDesc u := by
  refine ⟨onePage_sound, fun dbg => ?_⟩
  have hok : ((TableCall.insert [some (.scalar 5)] 1).run (heapTable dbg 1 3 byteDesc) onePage).1 = .ok () := by
    cases dbg <;> decide +kernel
  have hundo :
      (performUndo dbg 1 ((TableCall.insert [some (.scalar 5)] 1).run (heapTable dbg 1 3 byteDesc) onePage).2).1 =
      .ok () := by
    cases dbg <;> decide +kernel
  have hitem :
    (performUndo dbg 1 ((TableCall.insert [some (.scalar 5)] 1).run (heapTable dbg 1 3 byteDesc) onePage).2).2.item
      ⟨0, 1⟩ =
      ⟨ItemState.Normal, 8128, 25⟩ := by
    cases dbg <;> decide +kernel
  refine ⟨_, _, Prod.ext hok rfl, Prod.ext hundo rfl, hitem, ?_⟩
  rintro ⟨v, hv, htaken⟩
  have hv : performUndo dbg 1 _ = (.ok (), v) := hv
  rw [show performUndo dbg 1 _ = (.ok (), _) from Prod.ext hundo rfl] at hv
  cases hv
  have hdead := htaken.created ⟨0, 1⟩ (by cases dbg <;> exact ⟨by decide +kernel, by decide +kernel⟩)
    fun hused => absurd hused.1 (by decide +kernel)
  rw [hitem] at hdead
  cases hdead

end

end Mimidb
