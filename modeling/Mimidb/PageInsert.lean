import Mimidb.HeapSlots
import Mimidb.ScanItems

/-!
# Inserts on a page

`InsertTuple` asks for the size of the tuple and takes the size rounded up to
8. With room for the latter the new item and its tuple go to the free space
and the page keeps its layout (`appended_inserted`); without it the new item and
its tuple overlap.
-/

namespace Mimidb

theorem encodeLE_mod (w n : Nat) : encodeLE w (n % 256 ^ w) = encodeLE w n := by
  have h := encodeLE_decodeLE (encodeLE w n)
  rwa [encodeLE_length, decodeLE_encodeLE] at h

theorem ok_bind {ε α β : Type} (a : α) (f : α → Except ε β) : (Except.ok a >>= f) = f a := rfl

theorem BitUtils.le_maxAlign (n : Nat) : n ≤ maxAlign n := by
  unfold maxAlign
  omega

theorem BitUtils.maxAlign_lt (n : Nat) : maxAlign n < n + 8 := by
  unfold maxAlign
  omega

namespace HeapPage

variable {page page' : Memory} {lsn j : Nat} {bytes : List UInt8} {dbg : Bool}

/-- The page after `InsertTuple` has put a tuple on it. -/
def inserted (page : Memory) (lsn : Nat) (bytes : List UInt8) : Memory :=
  let offset := upper page - BitUtils.maxAlign bytes.length
  let itemId : ItemId := ⟨ItemState.Normal, offset, bytes.length⟩
  let page' := (setItem (setLsn page lsn) (itemsCount page) itemId).blit offset bytes
  setUpper (setLower page' (lower page + ItemId.size)) offset

/-- Room for a new item and the aligned tuple. -/
def Roomy (page : Memory) (size : Nat) : Prop := BitUtils.maxAlign size + ItemId.size ≤ getFreeSpace page

instance (page : Memory) (size : Nat) : Decidable (Roomy page size) := inferInstanceAs (Decidable (_ ≤ _))

/-- The new item and the aligned tuple fit between the ends of the free space. -/
structure Spacious (page : Memory) (size : Nat) : Prop where
  fits : lower page + 4 + BitUtils.maxAlign size ≤ upper page
  bound : upper page ≤ Config.PageSize
  header : SizeOfHeapPageHeader ≤ lower page

theorem Roomy.spacious (hl : Layout page) {size : Nat} (h : Roomy page size) : Spacious page size := by
  unfold Roomy at h
  rw [getFreeSpace_eq hl.free] at h
  have hfree := hl.free
  refine ⟨?_, hl.bound, hl.header⟩
  simp only [ItemId.size] at h
  omega

theorem itemAddr_itemsCount (h : SizeOfHeapPageHeader ≤ lower page) :
    12 ≤ itemAddr (itemsCount page) ∧ itemAddr (itemsCount page) ≤ lower page := by
  rw [itemsCount_eq h]
  simp only [itemAddr, ItemId.size, SizeOfHeapPageHeader] at *
  omega

theorem insertLast_inserted (hs : Spacious page bytes.length) (h : insertLast dbg page lsn bytes = .ok page') :
    page' = inserted page lsn bytes := by
  obtain ⟨hle, hup, hlo⟩ := hs
  have hmax := BitUtils.le_maxAlign bytes.length
  simp only [Config.PageSize, SizeOfHeapPageHeader] at hup hlo
  obtain ⟨_, _, h⟩ := bind_eq_ok.1 h
  obtain ⟨i, hi, h⟩ := bind_eq_ok.1 h
  obtain ⟨i', hi', h⟩ := bind_eq_ok.1 h
  obtain ⟨addr, ha, h⟩ := bind_eq_ok.1 h
  obtain ⟨page1, hp, h⟩ := bind_eq_ok.1 h
  have hitem : i' = ⟨ItemState.Normal, upper page - BitUtils.maxAlign bytes.length, bytes.length⟩ := by
    rw [setOffset_ok hi', setLength_ok hi, upper_setLsn]
    simp only [ItemId.mk.injEq, true_and]
    omega
  have haddr : addr = upper page - BitUtils.maxAlign bytes.length := by rw [getTuple_ok ha, hitem]
  obtain rfl := memcpy_ok hp
  obtain rfl := Except.ok.inj h
  rw [itemsCount_setLsn, hitem, haddr]
  unfold inserted
  simp only
  have hlow : lower
    ((setItem (setLsn page lsn) (itemsCount page) ⟨ItemState.Normal, upper page - BitUtils.maxAlign bytes.length,
      bytes.length⟩).blit (upper page - BitUtils.maxAlign bytes.length) bytes) = lower page := by
    rw [lower_blit (.inl (by omega)), lower_setItem, lower_setLsn]
  have hupp : upper
    ((setItem (setLsn page lsn) (itemsCount page) ⟨ItemState.Normal, upper page - BitUtils.maxAlign bytes.length,
      bytes.length⟩).blit (upper page - BitUtils.maxAlign bytes.length) bytes) = upper page := by
    rw [upper_blit (.inl (by omega)), upper_setItem, upper_setLsn]
  rw [hlow, upper_setLower, hupp]
  have hmod : (upper page + (2 ^ 16 - BitUtils.maxAlign bytes.length % 2 ^ 16)) % 256 ^ 2 =
      upper page - BitUtils.maxAlign bytes.length := by omega
  unfold setUpper Memory.writeLE
  rw [← encodeLE_mod, hmod]

theorem assert_true (c : Bool) (h : dbg = true → c = true) : assert dbg c = .ok () := by
  cases dbg with
  | false => rfl
  | true => rw [h rfl]; rfl

theorem setLength_eq {i : ItemId} {n : Nat} (h : n < 2 ^ 15) : i.setLength dbg n = .ok { i with length := n } := by
  unfold ItemId.setLength
  rw [Nat.mod_eq_of_lt h, assert_true _ fun _ => decide_eq_true rfl]
  rfl

theorem setOffset_eq {i : ItemId} {n : Nat} (h : n < 2 ^ 15) : i.setOffset dbg n = .ok { i with offset := n } := by
  unfold ItemId.setOffset
  rw [Nat.mod_eq_of_lt h, assert_true _ fun _ => decide_eq_true rfl]
  rfl

theorem getTuple_eq {i : ItemId} (hn : i.isNormal = true) (hlt : i.offset < Config.PageSize)
    (hd : dbg = true → sizeofHeapPageHeader < i.offset) : getTuple dbg i = .ok i.offset := by
  unfold getTuple
  rw [assert_true _ fun _ => hn, assert_true _ fun _ => decide_eq_true hlt,
    assert_true _ fun h => decide_eq_true (hd h)]
  rfl

/-- With room for the size, only the assertions on the place of the tuple can fail. -/
theorem insertLast_returns (hl : Layout page) (hfit : bytes.length + ItemId.size ≤ getFreeSpace page)
    (hle : lower page + BitUtils.maxAlign bytes.length ≤ upper page)
    (ht : getTuple dbg ⟨ItemState.Normal, upper page - BitUtils.maxAlign bytes.length, bytes.length⟩ =
      .ok (upper page - BitUtils.maxAlign bytes.length)) (lsn :
        Nat) : ∃ page', insertLast dbg page lsn bytes = .ok page' := by
  have hlo := hl.header
  have hup := hl.bound
  have hmax := BitUtils.le_maxAlign bytes.length
  have hcount := itemAddr_itemsCount hlo
  rw [getFreeSpace_eq hl.free] at hfit
  simp only [Config.PageSize, SizeOfHeapPageHeader, ItemId.size] at hup hlo hfit
  have hlen : bytes.length % 2 ^ 16 = bytes.length := by omega
  have hoff : (upper page + (2 ^ 64 - BitUtils.maxAlign bytes.length)) % 2 ^ 16 =
      upper page - BitUtils.maxAlign bytes.length := by
    omega
  have hacc : access (itemAddr (itemsCount page)) ItemId.size = .ok () :=
    if_pos (by simp only [ItemId.size, Config.PageSize]; omega)
  have hacc' : access (upper page - BitUtils.maxAlign bytes.length) bytes.length = .ok () :=
    if_pos (by simp only [Config.PageSize]; omega)
  unfold insertLast
  simp only [itemsCount_setLsn, upper_setLsn, hlen, hoff]
  rw [hacc, ok_bind, setLength_eq (by omega), ok_bind, setOffset_eq (by omega), ok_bind, ht, ok_bind]
  unfold memcpy
  rw [hacc']
  exact ⟨_, rfl⟩

/-- A build without assertions returns it, and one with them unless the tuple touches the header's padding. -/
theorem insertLast_eq (hl : Layout page) (hr : Roomy page bytes.length) (hb : bytes ≠ [])
    (hd : dbg = true → sizeofHeapPageHeader < upper page - BitUtils.maxAlign bytes.length) :
    insertLast dbg page lsn bytes = .ok (inserted page lsn bytes) := by
  obtain ⟨hle, hup, hlo⟩ := hr.spacious hl
  have hmax := BitUtils.le_maxAlign bytes.length
  have hpos := List.length_pos_iff.2 hb
  have hfit : bytes.length + ItemId.size ≤ getFreeSpace page := Nat.le_trans (Nat.add_le_add_right hmax _) hr
  have hlt : upper page - BitUtils.maxAlign bytes.length < Config.PageSize := by omega
  obtain ⟨page', h⟩ := insertLast_returns hl hfit (by omega) (getTuple_eq rfl hlt hd) lsn
  rw [h, insertLast_inserted (hr.spacious hl) h]

/-! ## What an insert adds -/

/-- The page has one more item, with the tuple, and the others as they were. -/
structure Appended (page page' : Memory) (bytes : List UInt8) : Prop where
  layout : Layout page'
  count : itemsCount page' = itemsCount page + 1
  items : ∀ j < itemsCount page, itemAt page' j = itemAt page j
  slots : ∀ j < itemsCount page, (itemAt page j).isDead = false → slot page' j = slot page j
  new : (itemAt page' (itemsCount page)).isNormal = true
  content : slot page' (itemsCount page) = bytes
  within : lower page + ItemId.size ≤ (itemAt page' (itemsCount page)).offset ∧
    (itemAt page' (itemsCount page)).offset + (itemAt page' (itemsCount page)).length ≤ upper page

theorem inserted_bytes {addr n : Nat} (h : 12 ≤ addr)
    (hn : addr + n ≤ itemAddr (itemsCount page) ∨ itemAddr (itemsCount page) + 4 ≤ addr)
    (hb : addr + n ≤ upper page - BitUtils.maxAlign bytes.length ∨
      upper page - BitUtils.maxAlign bytes.length + bytes.length ≤ addr) :
    (inserted page lsn bytes).slice addr n = page.slice addr n := by
  unfold inserted setUpper setLower setItem setLsn Memory.writeLE
  simp only
  rw [Memory.slice_blit_disjoint (.inr (by simp; omega)), Memory.slice_blit_disjoint (.inr (by simp; omega)),
    Memory.slice_blit_disjoint (by omega), Memory.slice_blit_disjoint (by simp; omega),
    Memory.slice_blit_disjoint (.inr (by simp; omega))]

section
variable (hs : Spacious page bytes.length)
include hs

theorem lower_inserted (lsn : Nat) : lower (inserted page lsn bytes) = lower page + 4 := by
  obtain ⟨hle, hup, hlo⟩ := hs
  simp only [Config.PageSize] at hup
  unfold inserted
  simp only
  rw [lower_setUpper, lower_setLower]
  simp only [ItemId.size]
  omega

theorem upper_inserted (lsn : Nat) :
    upper (inserted page lsn bytes) = upper page - BitUtils.maxAlign bytes.length := by
  obtain ⟨hle, hup, hlo⟩ := hs
  simp only [Config.PageSize] at hup
  unfold inserted
  simp only
  rw [upper_setUpper]
  omega

theorem itemsCount_inserted (lsn : Nat) : itemsCount (inserted page lsn bytes) = itemsCount page + 1 := by
  have hlo := hs.header
  have hlow := lower_inserted hs lsn
  rw [itemsCount_eq (by rw [hlow]; omega), itemsCount_eq hlo, hlow]
  simp only [SizeOfHeapPageHeader] at *
  omega

theorem itemAt_inserted (lsn : Nat) {j : Nat} (hj : j < itemsCount page) :
    itemAt (inserted page lsn bytes) j = itemAt page j := by
  obtain ⟨hle, hup, hlo⟩ := hs
  have hcount := itemAddr_itemsCount hlo
  have hj' := itemAddr_mono hj
  have h0 := le_itemAddr j
  simp only [SizeOfHeapPageHeader] at h0
  unfold itemAt Memory.readLE
  rw [inserted_bytes h0 (.inl hj') (.inl (by omega))]

theorem itemAt_inserted_new (lsn : Nat) : itemAt (inserted page lsn bytes) (itemsCount page) =
    ⟨ItemState.Normal, upper page - BitUtils.maxAlign bytes.length, bytes.length⟩ := by
  obtain ⟨hle, hup, hlo⟩ := hs
  have hcount := itemAddr_itemsCount hlo
  have hmax := BitUtils.le_maxAlign bytes.length
  simp only [Config.PageSize] at hup
  have hout : ∀ (p : Memory) (addr n : Nat), addr + 2 ≤ 12 →
      itemAt (p.writeLE addr 2 n) (itemsCount page) = itemAt p (itemsCount page) := fun p addr n h =>
    itemAt_blit (.inr (by simp; omega))
  unfold inserted setUpper setLower
  simp only
  rw [hout _ _ _ (by omega), hout _ _ _ (by omega), itemAt_blit (.inl (by omega)), itemAt_setItem_same]
  · exact (by decide : ItemState.Normal < 4)
  · simp only; omega
  · simp only; omega

theorem slice_inserted_new (lsn : Nat) :
    (inserted page lsn bytes).slice (upper page - BitUtils.maxAlign bytes.length) bytes.length = bytes := by
  obtain ⟨hle, hup, hlo⟩ := hs
  simp only [SizeOfHeapPageHeader] at hlo
  unfold inserted setUpper setLower Memory.writeLE
  simp only
  rw [Memory.slice_blit_disjoint (.inr (by simp; omega)), Memory.slice_blit_disjoint (.inr (by simp; omega)),
    Memory.slice_blit_same]

end

theorem appended_inserted (hl : Layout page) (hr : Roomy page bytes.length) (lsn : Nat) :
    Appended page (inserted page lsn bytes) bytes := by
  have hs := hr.spacious hl
  have hle := hs.fits
  have hup := hs.bound
  have hlo := hs.header
  have hmax := BitUtils.le_maxAlign bytes.length
  have hcount := itemAddr_itemsCount hlo
  have hlow := lower_inserted hs lsn
  have hupp := upper_inserted hs lsn
  have hcnt := itemsCount_inserted hs lsn
  have hnew := itemAt_inserted_new hs lsn
  have hold := fun {j} (hj : j < itemsCount page) => itemAt_inserted hs lsn hj
  -- an item is one of those before or the new one
  have hcase : ∀ j < itemsCount (inserted page lsn bytes), j < itemsCount page ∨ j = itemsCount page :=
    fun j hj => by omega
  have hbelow : ∀ j < itemsCount page, (itemAt page j).isDead = false → upper page ≤ (itemAt page j).offset :=
    fun j hj hd => (hl.inside j hj hd).1
  refine ⟨⟨?_, ?_, ?_, fun j hj hd => ?_, fun i hi j hj hne hd hd' => ?_⟩, hcnt, fun j hj => hold hj,
    fun j hj hd => ?_, ?_, ?_, ?_⟩
  · rw [hlow]; omega
  · rw [hlow, hupp]; omega
  · rw [hupp]; omega
  · rcases hcase j hj with hj | rfl
    · rw [hold hj] at hd ⊢
      have := hl.inside j hj hd
      rw [hupp]
      omega
    · rw [hnew, hupp]
      simp only
      omega
  · rcases hcase i hi with hi | rfl <;> rcases hcase j hj with hj | rfl
    · rw [hold hi] at hd ⊢
      rw [hold hj] at hd' ⊢
      exact hl.disjoint i hi j hj hne hd hd'
    · rw [hold hi] at hd ⊢
      have := hbelow i hi hd
      rw [hnew]
      simp only
      omega
    · rw [hold hj] at hd' ⊢
      have := hbelow j hj hd'
      rw [hnew]
      simp only
      omega
    · exact absurd rfl hne
  · have := hbelow j hj hd
    unfold slot
    rw [hold hj, inserted_bytes (by omega) (.inr (by omega)) (.inr (by omega))]
  · rw [hnew]; rfl
  · unfold slot
    rw [hnew]
    exact slice_inserted_new hs lsn
  · rw [hnew]
    simp only [ItemId.size]
    omega

/-! ## Without room -/

/-- The ends of the free space are where the inserts from the start of the page put them. -/
def Even (page : Memory) : Prop := lower page % 4 = 0 ∧ upper page % 8 = 0

theorem even_init : Even (init page) := by
  unfold Even
  rw [lower_init, upper_init]
  exact ⟨rfl, rfl⟩

theorem even_inserted (hl : Layout page) (hr : Roomy page bytes.length) (he : Even page) (lsn : Nat) :
    Even (inserted page lsn bytes) := by
  obtain ⟨h4, h8⟩ := he
  unfold Even
  rw [lower_inserted (hr.spacious hl) lsn, upper_inserted (hr.spacious hl) lsn]
  unfold BitUtils.maxAlign
  omega

/-- With room for the size only, the tuple would start in front of the end of the items. -/
theorem unroomy_bounds (hl : Layout page) (he : Even page) {size : Nat}
    (hfit : size + ItemId.size ≤ getFreeSpace page)
    (hr : ¬ Roomy page size) : lower page + BitUtils.maxAlign size ≤ upper page ∧
      upper page < lower page + 4 + BitUtils.maxAlign size := by
  have hmax := BitUtils.maxAlign_lt size
  have hal : BitUtils.maxAlign size % 8 = 0 := by unfold BitUtils.maxAlign; omega
  have hfree := hl.free
  unfold Roomy at hr
  rw [getFreeSpace_eq hfree] at hfit hr
  simp only [ItemId.size] at hfit hr
  obtain ⟨h4, h8⟩ := he
  omega

theorem insertLast_overlaps (hl : Layout page) (he : Even page)
    (hfit : bytes.length + ItemId.size ≤ getFreeSpace page) (hr : ¬ Roomy page bytes.length)
    (h : insertLast dbg page lsn bytes = .ok page') : ¬ Layout page' := by
  obtain ⟨hle, hlt⟩ := unroomy_bounds hl he hfit hr
  have hhd := hl.header
  have hlow' := Nat.le_trans hl.free hl.bound
  obtain ⟨hlow, hupp⟩ := insertLast_ok hlow' hl.bound (by omega) h
  intro hl'
  have hfree := hl'.free
  rw [hlow, hupp] at hfree
  simp only [ItemId.size] at hfree
  omega

/-- A build without assertions puts the tuple there. -/
theorem insertLast_release (hl : Layout page) (he : Even page)
    (hfit : bytes.length + ItemId.size ≤ getFreeSpace page) (lsn : Nat) :
    ∃ page', insertLast false page lsn bytes = .ok page' := by
  refine insertLast_returns hl hfit ?_ rfl lsn
  by_cases hr : Roomy page bytes.length
  · have := (hr.spacious hl).fits
    omega
  · exact (unroomy_bounds hl he hfit hr).1

end HeapPage

end Mimidb
