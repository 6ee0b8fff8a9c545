import Mimidb.HeapTable
import Mimidb.HeapTableScanSound

/-!
# The layout of a heap page

How the writes to a page move the ends of its free space and its items, and
what an update to a new slot does to the layout: the new item lies below
`upper`, so the layout is lost (`relocation_never_sound`).
-/

namespace Mimidb

/-! ## Words of a page -/

namespace ItemId

theorem ofWord_toWord {i : ItemId} (hf : i.flags < 4) (ho : i.offset < 2 ^ 15) (hl : i.length < 2 ^ 15) :
    ofWord (i.toWord % 256 ^ 4) = i := by
  obtain ⟨flags, offset, length⟩ := i
  simp only at hf ho hl
  simp only [ofWord, toWord, mk.injEq]
  omega

end ItemId

namespace HeapPage

variable {page : Memory} {addr index n : Nat} {bs : List UInt8} {i : ItemId}

theorem lower_lt (page : Memory) : lower page < 2 ^ 16 := Memory.readLE_lt page 8 2

theorem upper_lt (page : Memory) : upper page < 2 ^ 16 := Memory.readLE_lt page 10 2

theorem itemAt_lt (page : Memory) (index : Nat) : (itemAt page index).flags < 4 ∧
    (itemAt page index).offset < 2 ^ 15 ∧ (itemAt page index).length < 2 ^ 15 :=
  ⟨Nat.mod_lt _ (by decide), Nat.mod_lt _ (by decide), Nat.mod_lt _ (by decide)⟩

theorem lower_blit (h : 10 ≤ addr ∨ addr + bs.length ≤ 8) : lower (page.blit addr bs) = lower page :=
  Memory.readLE_blit_disjoint (by omega)

theorem upper_blit (h : 12 ≤ addr ∨ addr + bs.length ≤ 10) : upper (page.blit addr bs) = upper page :=
  Memory.readLE_blit_disjoint (by omega)

theorem itemAt_blit (h : itemAddr index + 4 ≤ addr ∨ addr + bs.length ≤ itemAddr index) :
    itemAt (page.blit addr bs) index = itemAt page index := by
  rw [itemAt, Memory.readLE_blit_disjoint h, itemAt]

theorem le_itemAddr (index : Nat) : SizeOfHeapPageHeader ≤ itemAddr index := Nat.le_add_right _ _

theorem itemAddr_mono {index' : Nat} (h : index < index') : itemAddr index + 4 ≤ itemAddr index' := by
  simp only [itemAddr, ItemId.size]; omega

@[simp] theorem lower_setLsn : lower (setLsn page n) = lower page :=
  lower_blit (.inr (by simp))

@[simp] theorem upper_setLsn : upper (setLsn page n) = upper page :=
  upper_blit (.inr (by simp))

@[simp] theorem itemAt_setLsn : itemAt (setLsn page n) index = itemAt page index :=
  itemAt_blit (.inr (by have := le_itemAddr index; simp [SizeOfHeapPageHeader] at *; omega))

@[simp] theorem lower_setLower : lower (setLower page n) = n % 2 ^ 16 := Memory.readLE_writeLE_same

@[simp] theorem upper_setLower : upper (setLower page n) = upper page :=
  upper_blit (.inr (by simp))

@[simp] theorem itemAt_setLower : itemAt (setLower page n) index = itemAt page index :=
  itemAt_blit (.inr (by have := le_itemAddr index; simp [SizeOfHeapPageHeader] at *; omega))

@[simp] theorem lower_setItem : lower (setItem page index i) = lower page :=
  lower_blit (.inl (by have := le_itemAddr index; simp [SizeOfHeapPageHeader] at *; omega))

@[simp] theorem upper_setItem : upper (setItem page index i) = upper page :=
  upper_blit (.inl (by have := le_itemAddr index; simp [SizeOfHeapPageHeader] at *; omega))

theorem itemAt_setItem_ne {index' : Nat} (h : index' ≠ index) :
    itemAt (setItem page index i) index' = itemAt page index' := by
  refine itemAt_blit ?_
  rw [encodeLE_length]
  rcases Nat.lt_or_gt_of_ne h with h | h
  · exact .inl (itemAddr_mono h)
  · exact .inr (itemAddr_mono h)

theorem itemAt_setItem_same (hf : i.flags < 4) (ho : i.offset < 2 ^ 15) (hl : i.length < 2 ^ 15) :
    itemAt (setItem page index i) index = i := by
  rw [itemAt, setItem, Memory.readLE_writeLE_same, ItemId.ofWord_toWord hf ho hl]

theorem itemsCount_eq (h : SizeOfHeapPageHeader ≤ lower page) :
    itemsCount page = (lower page - SizeOfHeapPageHeader) / 4 := by
  have := lower_lt page
  simp only [itemsCount, ItemId.size, SizeOfHeapPageHeader] at *
  omega

theorem itemsCount_congr {page' : Memory} (h : lower page' = lower page) :
    itemsCount page' = itemsCount page := by rw [itemsCount, h, itemsCount]

@[simp] theorem itemsCount_setLsn : itemsCount (setLsn page n) = itemsCount page :=
  itemsCount_congr lower_setLsn

theorem getFreeSpace_eq (h : lower page ≤ upper page) : getFreeSpace page = upper page - lower page := by
  have := upper_lt page
  simp only [getFreeSpace]
  omega

/-! ## Layout -/

/-- The header, the items and the tuples do not overlap; dead items have no tuple. -/
structure Layout (page : Memory) : Prop where
  header : SizeOfHeapPageHeader ≤ lower page
  free : lower page ≤ upper page
  bound : upper page ≤ Config.PageSize
  inside : ∀ i < itemsCount page, (itemAt page i).isDead = false → upper page ≤ (itemAt page i).offset ∧
    (itemAt page i).offset + (itemAt page i).length ≤ Config.PageSize
  disjoint : ∀ i < itemsCount page, ∀ j < itemsCount page, i ≠ j → (itemAt page i).isDead = false →
    (itemAt page j).isDead = false → (itemAt page i).offset + (itemAt page i).length ≤ (itemAt page j).offset ∨
      (itemAt page j).offset + (itemAt page j).length ≤ (itemAt page i).offset

/-- An item below the tuples, in what counts as free space. -/
structure Stray (page : Memory) (index : Nat) : Prop where
  lt : index < itemsCount page
  word : itemAddr index + 4 ≤ upper page
  alive : (itemAt page index).isDead = false
  below : (itemAt page index).offset < upper page

theorem Stray.not_layout (h : Stray page index) : ¬ Layout page := fun hl =>
  absurd (hl.inside index h.lt h.alive).1 (Nat.not_le_of_lt h.below)

theorem Stray.setLsn (h : Stray page index) (n : Nat) : Stray (setLsn page n) index := by
  constructor
  · rw [itemsCount_setLsn]; exact h.lt
  · rw [upper_setLsn]; exact h.word
  · rw [itemAt_setLsn]; exact h.alive
  · rw [itemAt_setLsn, upper_setLsn]; exact h.below

theorem Stray.blit (h : Stray page index) (ha : upper page ≤ addr) : Stray (page.blit addr bs) index := by
  have h0 := le_itemAddr index
  have hw := h.word
  simp only [SizeOfHeapPageHeader] at h0
  have hu : upper (page.blit addr bs) = upper page := upper_blit (.inl (by omega))
  have hi : itemAt (page.blit addr bs) index = itemAt page index := itemAt_blit (.inl (by omega))
  constructor
  · rw [itemsCount_congr (lower_blit (.inl (by omega)))]; exact h.lt
  · rw [hu]; exact hw
  · rw [hi]; exact h.alive
  · rw [hi, hu]; exact h.below

theorem getItemId_ok {dbg : Bool} (h : getItemId dbg page index = .ok i) : i = itemAt page index := by
  obtain ⟨_, _, h⟩ := bind_eq_ok.1 h
  obtain ⟨_, _, h⟩ := bind_eq_ok.1 h
  exact (Except.ok.inj h).symm

theorem getTuple_ok {dbg : Bool} (h : getTuple dbg i = .ok addr) : addr = i.offset := by
  obtain ⟨_, _, h⟩ := bind_eq_ok.1 h
  obtain ⟨_, _, h⟩ := bind_eq_ok.1 h
  obtain ⟨_, _, h⟩ := bind_eq_ok.1 h
  exact (Except.ok.inj h).symm

theorem memcpy_ok {page' : Memory} (h : memcpy page addr bs = .ok page') : page' = page.blit addr bs := by
  obtain ⟨_, _, h⟩ := bind_eq_ok.1 h
  exact (Except.ok.inj h).symm

theorem setNormal_ok {dbg : Bool} {i' : ItemId} {length offset : Nat}
    (h : i.setNormal dbg length offset = .ok i') :
    i' = ⟨ItemState.Normal, offset % 2 ^ 15, length % 2 ^ 15⟩ := by
  obtain ⟨_, h1, h⟩ := bind_eq_ok.1 h
  obtain ⟨_, _, h1⟩ := bind_eq_ok.1 h1
  obtain ⟨_, h2, h⟩ := bind_eq_ok.1 h
  obtain ⟨_, _, h2⟩ := bind_eq_ok.1 h2
  obtain rfl := Except.ok.inj h1
  obtain rfl := Except.ok.inj h2
  exact (Except.ok.inj h).symm

theorem relocate_ok {dbg : Bool} {page' : Memory} (hlo : lower page ≤ upper page)
    (hup : upper page ≤ Config.PageSize) (hb : 0 < bs.length) (hfit : bs.length + ItemId.size ≤ getFreeSpace page)
    (h : relocate dbg page (itemsCount page) bs = .ok page') :
    page' = (setLower (setItem page (itemsCount page) ⟨ItemState.Normal, upper page - bs.length, bs.length⟩)
      (lower page + 4)).blit (upper page - bs.length) bs := by
  rw [getFreeSpace_eq hlo] at hfit
  simp only [ItemId.size, Config.PageSize] at hfit hup
  obtain ⟨_, _, h⟩ := bind_eq_ok.1 h
  obtain ⟨i, hi, h⟩ := bind_eq_ok.1 h
  obtain ⟨a, ha, h⟩ := bind_eq_ok.1 h
  have hi := setNormal_ok hi
  have h1 : (upper page + (2 ^ 64 - bs.length)) % 2 ^ 16 % 2 ^ 15 = upper page - bs.length := by omega
  have h2 : bs.length % 2 ^ 16 % 2 ^ 15 = bs.length := by omega
  rw [h1, h2] at hi
  subst hi
  obtain rfl := getTuple_ok ha
  exact memcpy_ok h

/-- The new item of an update to a new slot is astray, and the other items are kept. -/
theorem relocate_stray {dbg : Bool} {page' : Memory} (hl : Layout page) (hb : 0 < bs.length)
    (hfit : bs.length + ItemId.size ≤ getFreeSpace page)
    (h : relocate dbg page (itemsCount page) bs = .ok page') :
    Stray page' (itemsCount page) ∧ upper page' = upper page ∧
      ∀ j < itemsCount page, itemAt page' j = itemAt page j := by
  have hp := relocate_ok hl.free hl.bound hb hfit h
  have hhd := hl.header
  have hup := hl.bound
  have hlo := hl.free
  rw [getFreeSpace_eq hlo] at hfit
  have hc := itemsCount_eq hhd
  have hn : itemAddr (itemsCount page) ≤ lower page := by
    rw [hc]; simp only [itemAddr, ItemId.size, SizeOfHeapPageHeader] at *; omega
  simp only [SizeOfHeapPageHeader, ItemId.size, Config.PageSize] at hhd hfit hup
  generalize hi : (⟨ItemState.Normal, upper page - bs.length, bs.length⟩ : ItemId) = i at hp
  have hupper : upper page' = upper page := by
    rw [hp, upper_blit (.inl (by omega)), upper_setLower, upper_setItem]
  have hlower : lower page' = lower page + 4 := by
    rw [hp, lower_blit (.inl (by omega)), lower_setLower, Nat.mod_eq_of_lt (by omega)]
  have hitem : itemAt page' (itemsCount page) = i := by
    rw [hp, itemAt_blit (.inl (by omega)), itemAt_setLower, itemAt_setItem_same] <;> subst hi
    · exact (by decide : ItemState.Normal < 4)
    · simp only; omega
    · simp only; omega
  refine ⟨⟨?_, ?_, ?_, ?_⟩, hupper, fun j hj => ?_⟩
  · have hc' : itemsCount page' = (lower page' - SizeOfHeapPageHeader) / 4 :=
      itemsCount_eq (by rw [hlower]; simp only [SizeOfHeapPageHeader]; omega)
    rw [hc, hc', hlower]
    simp only [SizeOfHeapPageHeader]
    omega
  · rw [hupper]; omega
  · rw [hitem]; subst hi; rfl
  · rw [hitem, hupper]; subst hi; simp only; omega
  · have hj' := itemAddr_mono hj
    rw [hp, itemAt_blit (.inl (by omega)), itemAt_setLower, itemAt_setItem_ne (by omega)]

theorem Stray.markUpdated {dbg : Bool} {page' : Memory} {old xid : Nat} {usn : Int} (h : Stray page index)
    (ho : upper page ≤ (itemAt page old).offset) (hm : markUpdated dbg page old xid usn = .ok page') :
    Stray page' index := by
  obtain ⟨i, hi, hm⟩ := bind_eq_ok.1 hm
  obtain ⟨a, ha, hm⟩ := bind_eq_ok.1 hm
  obtain ⟨_, _, hm⟩ := bind_eq_ok.1 hm
  obtain rfl := getItemId_ok hi
  obtain rfl := getTuple_ok ha
  obtain rfl := Except.ok.inj hm
  have hu : ∀ (p : Memory) a b, Stray p index → upper page ≤ a → upper p = upper page →
      Stray (p.blit a b) index ∧ upper (p.blit a b) = upper page := fun p a b hs ha hp =>
    ⟨hs.blit (hp ▸ ha), by
      have := hs.word
      have := le_itemAddr index
      simp only [SizeOfHeapPageHeader] at this
      rw [upper_blit (.inl (by omega)), hp]⟩
  obtain ⟨h1, hu1⟩ := hu _ _ _ h (Nat.le_add_right_of_le ho) rfl
  obtain ⟨h2, hu2⟩ := hu _ _ _ h1 ho hu1
  exact (hu _ _ _ h2 (Nat.le_add_right_of_le ho) hu2).1

end HeapPage

/-! ## Updates to a new slot -/

namespace HeapStore

variable {s u : HeapStore} {pageno : Nat} {f : Memory → Except Fault Memory}

theorem changePage_ok (h : changePage pageno f s = (.ok (), u)) : ∃ page', f (s.page pageno) = .ok page' ∧
    u.page = Function.update s.page pageno page' := by
  obtain ⟨page, s1, h1, h⟩ := Fallible.bind_eq_ok.1 h
  cases h1
  obtain ⟨page', s2, h2, h⟩ := Fallible.bind_eq_ok.1 h
  obtain ⟨hf, rfl⟩ := Fallible.ofExcept_eq_ok.1 h2
  cases h
  exact ⟨page', hf, rfl⟩

end HeapStore

namespace HeapTable

open HeapStore HeapPage

variable {V : Type} {t : HeapTable V} {s s1 s2 : HeapStore} {newTID oldTID : TupleId}

theorem serialize_length {header header' : HeapPageTupleHeader} {values : V} {bs bs' : List UInt8}
    (h : t.serialize header values = .ok bs) (h' : t.serialize header' values = .ok bs') :
    bs.length = bs'.length ∧ 0 < bs.length := by
  obtain ⟨data, hd, h⟩ := bind_eq_ok.1 h
  obtain ⟨data', hd', h'⟩ := bind_eq_ok.1 h'
  rw [hd] at hd'
  cases hd'
  cases h
  cases h'
  simp [HeapPageTupleHeader.toBytes]

theorem searchNewPage_ok {held size fuel : Nat} (h : t.searchNewPage held size fuel s = (.ok newTID, s1)) :
    newTID.itemid = itemsCount (s1.page newTID.pageno) ∧
      size + ItemId.size ≤ getFreeSpace (s1.page newTID.pageno) := by
  induction fuel generalizing s with
  | zero => cases h
  | succ fuel ih =>
    obtain ⟨pageno, s', _, h⟩ := Fallible.bind_eq_ok.1 h
    obtain ⟨page, _, h1, h⟩ := Fallible.bind_eq_ok.1 h
    cases h1
    split at h
    · rename_i hfit
      cases h
      exact ⟨rfl, hfit⟩
    · exact ih h

theorem findPlace_ok {size fuel : Nat} (h : t.findPlace oldTID size fuel s = (.ok newTID, s1))
    (hne : newTID ≠ oldTID) : newTID.itemid = itemsCount (s1.page newTID.pageno) ∧
      size + ItemId.size ≤ getFreeSpace (s1.page newTID.pageno) := by
  obtain ⟨page, _, h1, h⟩ := Fallible.bind_eq_ok.1 h
  cases h1
  split at h
  · cases h; exact absurd rfl hne
  · split at h
    · rename_i hfit
      cases h
      exact ⟨rfl, hfit⟩
    · exact searchNewPage_ok h

theorem logUpdate_ok {old : HeapTuple V} {values : V} {usn : Int} {bytes : List UInt8} {lsn : Nat}
    (h : t.logUpdate old values newTID s = (.ok (usn, bytes, lsn), s1)) : s1.page = s.page ∧
      t.serialize { t.newHeader values with undo := usn } values = .ok bytes := by
  obtain ⟨image, _, h1, h⟩ := Fallible.bind_eq_ok.1 h
  obtain ⟨_, rfl⟩ := Fallible.ofExcept_eq_ok.1 h1
  obtain ⟨usn', _, h2, h⟩ := Fallible.bind_eq_ok.1 h
  cases h2
  obtain ⟨bytes', _, h3, h⟩ := Fallible.bind_eq_ok.1 h
  obtain ⟨hser, rfl⟩ := Fallible.ofExcept_eq_ok.1 h3
  obtain ⟨_, _, h4, h⟩ := Fallible.bind_eq_ok.1 h
  obtain ⟨_, rfl⟩ := Fallible.ofExcept_eq_ok.1 h4
  obtain ⟨lsn', _, h5, h⟩ := Fallible.bind_eq_ok.1 h
  cases h5
  cases h
  exact ⟨rfl, hser⟩

/-- An update moves a row from a slot in use to a new one, on a page with the layout. -/
structure Relocates (t : HeapTable V) (wait : Nat → HeapM Unit) (old : HeapTuple V) (values : V) (fuel : Nat)
    (s s1 : HeapStore) (newTID : TupleId) : Prop where
  chosen : t.prepareUpdate wait old values fuel s = (.ok newTID, s1)
  moved : newTID ≠ old.tid
  layout : Layout (s1.page newTID.pageno)
  used : old.tid.itemid < itemsCount (s1.page old.tid.pageno) ∧
    (itemAt (s1.page old.tid.pageno) old.tid.itemid).isNormal = true

/-- The update completes with the index of the new slot in range and keeps the layout. -/
def RelocationSound (t : HeapTable V) (wait : Nat → HeapM Unit) (old : HeapTuple V) (values : V) (fuel : Nat)
    (s s1 : HeapStore) (newTID : TupleId) : Prop :=
  newTID.itemid < itemsCount (s1.page newTID.pageno) ∧
    ∃ s2, t.updateTuple wait old values fuel s = (.ok (), s2) ∧ Layout (s2.page newTID.pageno)

theorem Relocates.place {wait : Nat → HeapM Unit} {old : HeapTuple V} {values : V} {fuel : Nat}
    (h : Relocates t wait old values fuel s s1 newTID) : newTID.itemid = itemsCount (s1.page newTID.pageno) ∧
      ∀ bytes header, t.serialize header values = .ok bytes →
        0 < bytes.length ∧ bytes.length + ItemId.size ≤ getFreeSpace (s1.page newTID.pageno) := by
  obtain ⟨newTup, _, h1, hc⟩ := Fallible.bind_eq_ok.1 h.chosen
  obtain ⟨hser, rfl⟩ := Fallible.ofExcept_eq_ok.1 h1
  obtain ⟨_, _, _, hc⟩ := Fallible.bind_eq_ok.1 hc
  obtain ⟨_, _, _, hc⟩ := Fallible.bind_eq_ok.1 hc
  obtain ⟨hi, hfit⟩ := findPlace_ok hc h.moved
  refine ⟨hi, fun bytes header hb => ?_⟩
  obtain ⟨hlen, hpos⟩ := serialize_length hb hser
  exact ⟨hpos, hlen ▸ hfit⟩

theorem writeUpdate_stray {usn : Int} {bytes : List UInt8} (hl : Layout (s.page newTID.pageno))
    (hne : newTID ≠ oldTID) (hi : newTID.itemid = itemsCount (s.page newTID.pageno))
    (hu : oldTID.itemid < itemsCount (s.page oldTID.pageno) ∧
      (itemAt (s.page oldTID.pageno) oldTID.itemid).isNormal = true)
    (hb : 0 < bytes.length) (hfit : bytes.length + ItemId.size ≤ getFreeSpace (s.page newTID.pageno))
    (h : t.writeUpdate oldTID newTID usn bytes s = (.ok (), s1)) : Stray (s1.page newTID.pageno) newTID.itemid := by
  rw [writeUpdate, if_neg hne] at h
  obtain ⟨_, u, h1, h⟩ := Fallible.bind_eq_ok.1 h
  obtain ⟨page1, hr, hp1⟩ := changePage_ok h1
  obtain ⟨page2, hm, hp2⟩ := changePage_ok h
  rw [hi] at hr ⊢
  obtain ⟨hs, hup, hkeep⟩ := relocate_stray hl hb hfit hr
  by_cases hpage : newTID.pageno = oldTID.pageno
  · have hgoal : s1.page newTID.pageno = page2 := by rw [hp2, hpage, Function.update_self]
    rw [hgoal]
    rw [hp1, ← hpage, Function.update_self] at hm
    rw [← hpage] at hu
    refine hs.markUpdated ?_ hm
    rw [hup, hkeep _ hu.1]
    have hd : (itemAt (s.page newTID.pageno) oldTID.itemid).isDead = false := by
      have := hu.2
      simp only [ItemId.isNormal, ItemId.isDead, beq_iff_eq] at this ⊢
      rw [this]; rfl
    exact (hl.inside _ hu.1 hd).1
  · rw [hp2, Function.update_of_ne hpage, hp1, Function.update_self]
    exact hs

theorem finishUpdate_stray {index lsn : Nat} (hs : Stray (s.page newTID.pageno) index)
    (h : finishUpdate oldTID newTID lsn s = (.ok (), s1)) : Stray (s1.page newTID.pageno) index := by
  obtain ⟨_, u1, h1, h⟩ := Fallible.bind_eq_ok.1 h
  obtain ⟨page1, hp, hp1⟩ := changePage_ok h1
  cases hp
  have hs1 : Stray (u1.page newTID.pageno) index := by
    rw [hp1]
    by_cases hpage : newTID.pageno = oldTID.pageno
    · rw [hpage, Function.update_self]; exact (hpage ▸ hs).setLsn lsn
    · rw [Function.update_of_ne hpage]; exact hs
  split at h
  · obtain ⟨_, u2, h2, h⟩ := Fallible.bind_eq_ok.1 h
    obtain ⟨page2, hp', hp2⟩ := changePage_ok h2
    cases hp'
    obtain ⟨_, _, h3, h⟩ := Fallible.bind_eq_ok.1 h
    cases h3
    cases h
    simp only [hp2, Function.update_self]
    exact hs1.setLsn lsn
  · obtain ⟨_, _, h3, h⟩ := Fallible.bind_eq_ok.1 h
    cases h3
    cases h
    exact hs1

end HeapTable

open HeapTable in
/-- No update to a new slot is sound: the index is the first one behind the items, and a build
without assertions loses the layout. -/
theorem relocation_never_sound {V : Type} {t : HeapTable V} {wait : Nat → HeapM Unit} {old : HeapTuple V}
    {values : V} {fuel : Nat} {s s1 : HeapStore} {newTID : TupleId}
    (h : Relocates t wait old values fuel s s1 newTID) :
    ¬ RelocationSound t wait old values fuel s s1 newTID ∧
    HeapPage.itemsCount (s1.page newTID.pageno) ≤ newTID.itemid ∧
    ∀ s2, t.updateTuple wait old values fuel s = (.ok (), s2) → ¬ HeapPage.Layout (s2.page newTID.pageno) := by
  obtain ⟨hi, hb⟩ := h.place
  refine ⟨fun hsound => absurd hsound.1 (by omega), by omega, fun s2 hu => ?_⟩
  obtain ⟨_, _, h1, hu⟩ := Fallible.bind_eq_ok.1 hu
  rw [h.chosen] at h1
  cases h1
  obtain ⟨⟨usn, bytes, lsn⟩, u1, h2, hu⟩ := Fallible.bind_eq_ok.1 hu
  obtain ⟨hp1, hser⟩ := logUpdate_ok h2
  obtain ⟨hpos, hfit⟩ := hb _ _ hser
  obtain ⟨_, u2, h3, hu⟩ := Fallible.bind_eq_ok.1 hu
  have hs := writeUpdate_stray (by rw [hp1]; exact h.layout) h.moved (by rw [hp1]; exact hi)
    (by rw [hp1]; exact h.used) hpos (by rw [hp1]; exact hfit) h3
  exact (finishUpdate_stray hs hu).not_layout

section
open HeapTable

/-- A table of rows of bytes. -/
def byteTable (dbg : Bool) : HeapTable (List UInt8) := ⟨dbg, 1, 3, fun values => .ok values, fun _ => false⟩

/-- One page with a row of one byte. -/
def oneRow : HeapStore where
  size := Config.PageSize
  page _ := frozenPage 0
  dirty _ := false
  undoSize := 0
  undo _ := none
  walEnd := 0
  wal := []

def firstRow : HeapTuple (List UInt8) := ⟨⟨TransactionId.Min, 0, ⟨false, false⟩⟩, [0], ⟨0, 0⟩⟩

/-- Two bytes do not fit in the slot of one. -/
theorem growing_relocates (dbg : Bool) :
    Relocates (byteTable dbg) (fun _ => pure ()) firstRow [1, 2] 1 oneRow oneRow ⟨0, 1⟩ where
  chosen := by cases dbg <;> rfl
  moved := by decide
  layout := by
    have hone : HeapPage.itemsCount (frozenPage 0) = 1 := by decide +kernel
    refine ⟨by decide +kernel, by decide +kernel, by decide +kernel, by decide +kernel, fun i hi j hj hij => ?_⟩
    exact absurd (hone ▸ hi : i < 1) (by have : j < 1 := hone ▸ hj; omega)
  used := by decide +kernel

theorem relocation_never_sound_growing :
    ¬ RelocationSound (byteTable true) (fun _ => pure ()) firstRow [1, 2] 1 oneRow oneRow ⟨0, 1⟩ :=
  (relocation_never_sound (growing_relocates true)).1

/-- The assertion on the index fails; without assertions the new item lies below `upper`. -/
theorem growing_breaks_layout :
    Relocates (byteTable true) (fun _ => pure ()) firstRow [1, 2] 1 oneRow oneRow ⟨0, 1⟩ ∧
    ¬ RelocationSound (byteTable true) (fun _ => pure ()) firstRow [1, 2] 1 oneRow oneRow ⟨0, 1⟩ ∧
    ∃ s2, (byteTable false).updateTuple (fun _ => pure ()) firstRow [1, 2] 1 oneRow = (.ok (), s2) ∧
      HeapPage.upper (s2.page 0) = 8160 ∧ HeapPage.itemAt (s2.page 0) 1 = ⟨ItemState.Normal, 8134, 26⟩ ∧
      ¬ HeapPage.Layout (s2.page 0) := by
  refine ⟨growing_relocates true, fun h => absurd h.1 (by decide +kernel), _, Prod.ext rfl rfl,
    by decide +kernel, by decide +kernel, ?_⟩
  exact (show HeapPage.Stray _ 1 from ⟨by decide +kernel, by decide +kernel, by decide +kernel,
    by decide +kernel⟩).not_layout

end

end Mimidb
