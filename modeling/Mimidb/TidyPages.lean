import Mimidb.PageInsert
import Mimidb.RowSlots

/-!
# Tidy pages

The tuples of a tidy page lie behind its items and apart from each other. A
write to a slot keeps the page tidy, and so does a new slot in a place that no
tuple has.
-/

namespace Mimidb

namespace HeapPage

variable {page page' page'' : Memory} {i j lsn offset n : Nat} {bs bytes : List UInt8} {dbg : Bool}

structure Tidy (page : Memory) : Prop where
  bound : upper page ≤ Config.PageSize
  header : lower page < upper page → SizeOfHeapPageHeader ≤ lower page
  placed : ∀ i < itemsCount page, (itemAt page i).isNormal = true → Placed page i
  apart : ∀ i j, i ≠ j → Placed page i → Placed page j → Apart page i j

/-- A place for a new tuple between the items and the tuples, with one more item. -/
def Vacant (page : Memory) (offset size : Nat) : Prop :=
  lower page + ItemId.size ≤ offset ∧ sizeofHeapPageHeader < offset ∧ offset + size ≤ Config.PageSize ∧
    ∀ i < itemsCount page, (itemAt page i).isNormal = true → lower page + ItemId.size ≤ (itemAt page i).offset ∧
      (offset + size ≤ (itemAt page i).offset ∨ (itemAt page i).offset + (itemAt page i).length ≤ offset)

instance (page : Memory) (offset size : Nat) : Decidable (Vacant page offset size) := by
  unfold Vacant
  infer_instance

/-- The page is tidy again, and a slot that changed has contents with `good`; only slots in `dead` may be gone. -/
structure Fills (dead : Nat → Prop) (good : List UInt8 → Prop) (page page' : Memory) : Prop where
  tidy : Tidy page'
  kept : ∀ j, ¬ dead j → Placed page j → Placed page' j ∧ itemAt page' j = itemAt page j
  slots : ∀ j, Placed page' j → (Placed page j ∧ slot page' j = slot page j) ∨ good (slot page' j)

variable {dead : Nat → Prop} {good : List UInt8 → Prop}

theorem Fills.trans (h : Fills dead good page page') (h' : Fills dead good page' page'') :
    Fills dead good page page'' := by
  refine ⟨h'.tidy, fun j hd hj => ?_, fun j hj => ?_⟩
  · obtain ⟨hj', he⟩ := h.kept j hd hj
    obtain ⟨hj'', he'⟩ := h'.kept j hd hj'
    exact ⟨hj'', he'.trans he⟩
  · rcases h'.slots j hj with ⟨hj', he'⟩ | hg
    · rcases h.slots j hj' with ⟨hj, he⟩ | hg
      · exact .inl ⟨hj, he'.trans he⟩
      · exact .inr (he' ▸ hg)
    · exact .inr hg

/-! ## Writes that leave the items -/

theorem Tidy.of_items (h : Tidy page) (hl : lower page' = lower page) (hu : upper page' = upper page)
    (hi : ∀ j < itemsCount page, (itemAt page' j).isNormal = true → itemAt page' j = itemAt page j) :
    Tidy page' := by
  have hcount := itemsCount_congr hl
  have hback : ∀ j, Placed page' j → Placed page j ∧ itemAt page' j = itemAt page j := by
    intro j hj
    have hlt := hj.lt
    rw [hcount] at hlt
    have he := hi j hlt hj.normal
    exact ⟨h.placed j hlt (he ▸ hj.normal), he⟩
  refine ⟨by rw [hu]; exact h.bound, by rw [hl, hu]; exact h.header, fun j hj hn => ?_, fun i j hne hpi hpj => ?_⟩
  · rw [hcount] at hj
    have he := hi j hj hn
    exact (h.placed j hj (he ▸ hn)).of_items hl he
  · obtain ⟨hpi', hei⟩ := hback i hpi
    obtain ⟨hpj', hej⟩ := hback j hpj
    have ha := h.apart i j hne hpi' hpj'
    unfold Apart at ha ⊢
    rw [hei, hej]
    exact ha

theorem fills_setLsn (h : Tidy page) : Fills dead good page (setLsn page lsn) := by
  have ht : Tidy (setLsn page lsn) := h.of_items lower_setLsn upper_setLsn fun j _ _ => itemAt_setLsn
  have hback : ∀ j, Placed (setLsn page lsn) j → Placed page j := fun j hj =>
    hj.of_items lower_setLsn.symm itemAt_setLsn.symm
  exact ⟨ht, fun j _ hj => ⟨hj.of_items lower_setLsn itemAt_setLsn, itemAt_setLsn⟩,
    fun j hj => .inl ⟨hback j hj, slot_setLsn (hback j hj)⟩⟩

theorem fills_slot (h : Tidy page) (hp : Placed page i) (hw : SlotWrite page page' i bytes)
    (hu : upper page' = upper page) (hg : good bytes) : Fills dead good page page' := by
  have hcount := itemsCount_congr hw.lower
  have ht : Tidy page' := h.of_items hw.lower hu fun j hj _ => hw.items j hj
  refine ⟨ht, fun j _ hj => ⟨hw.placed hj, hw.items j hj.lt⟩, fun j hj => ?_⟩
  have hlt := hj.lt
  rw [hcount] at hlt
  have hj' : Placed page j := h.placed j hlt (hw.items j hlt ▸ hj.normal)
  by_cases hij : j = i
  · subst hij
    exact .inr (hw.content ▸ hg)
  · exact .inl ⟨hj', hw.apart j hj' (h.apart i j (Ne.symm hij) hp hj')⟩

theorem upper_blit_slot (h : Placed page i) : upper (page.blit (itemAt page i).offset bs) = upper page := by
  have hpad := h.padding
  simp only [sizeofHeapPageHeader] at hpad
  exact upper_blit (.inl (by omega))

theorem fills_blit (h : Tidy page) (hp : Placed page i) (hb : bs.length ≤ (itemAt page i).length)
    (hg : good (bs ++ (slot page i).drop bs.length)) : Fills dead good page (page.blit (itemAt page i).offset bs) :=
  fills_slot h hp (.blit hp hb) (upper_blit_slot hp) hg

theorem slotWrite_within (hp : Placed page i)
    (hout : ∀ a, a < (itemAt page i).offset ∨ (itemAt page i).offset + (itemAt page i).length ≤ a →
      page' a = page a) :
    SlotWrite page page' i (slot page' i) ∧ upper page' = upper page := by
  have hbe := hp.behind
  have hpad := hp.padding
  simp only [sizeofHeapPageHeader] at hpad
  have hslice :
    ∀ addr n, addr + n ≤ (itemAt page i).offset ∨ (itemAt page i).offset + (itemAt page i).length ≤ addr →
      page'.slice addr n = page.slice addr n := fun addr n h =>
    Memory.slice_congr fun a _ _ => hout a (by omega)
  have hitems : ∀ j < itemsCount page, itemAt page' j = itemAt page j := by
    intro j hj
    have := itemAddr_lt hp.header hj
    unfold itemAt Memory.readLE
    rw [hslice _ _ (.inl (by omega))]
  refine ⟨⟨?_, hitems, rfl, fun j hj hap => ?_⟩, ?_⟩
  · unfold lower Memory.readLE
    rw [hslice _ _ (.inl (by omega))]
  · unfold slot
    rw [hitems j hj.lt]
    apply hslice
    rcases hap with hap | hap
    · exact .inr hap
    · exact .inl hap
  · unfold upper Memory.readLE
    rw [hslice _ _ (.inl (by omega))]

theorem markUpdated_inv {xid : Nat} {usn : Int} (hp : Placed page i) (hu : -(2 ^ 63) ≤ usn ∧ usn < 2 ^ 63)
    (hm : markUpdated dbg page i xid usn = .ok page') :
    (∀ a, a < (itemAt page i).offset ∨ (itemAt page i).offset + (itemAt page i).length ≤ a → page' a = page a) ∧
      (HeapPageTupleHeader.ofBytes (slot page' i)).xid = xid % 2 ^ 64 ∧
      (HeapPageTupleHeader.ofBytes (slot page' i)).undo = usn := by
  obtain ⟨item, hi, hm⟩ := bind_eq_ok.1 hm
  obtain ⟨addr, ha, hm⟩ := bind_eq_ok.1 hm
  obtain ⟨_, _, hm⟩ := bind_eq_ok.1 hm
  obtain rfl := getItemId_ok hi
  obtain rfl := getTuple_ok ha
  obtain rfl := Except.ok.inj hm
  have hsize := hp.size
  simp only [HeapPageTupleHeader.size] at hsize
  have hsame : ∀ a, a < (itemAt page i).offset ∨ (itemAt page i).offset + (itemAt page i).length ≤ a →
      (((page.writeLE ((itemAt page i).offset + 16) 8 (page.readLE ((itemAt page i).offset + 16) 8 ||| 1)).writeLE
        (itemAt page i).offset 8 xid).writeLE ((itemAt page i).offset + 8) 8 (usn % 2 ^ 64).toNat) a = page a := by
    intro a ha
    unfold Memory.writeLE
    rw [Memory.blit_outside (by simp; omega), Memory.blit_outside (by simp; omega),
      Memory.blit_outside (by simp; omega)]
  have hitem := (slotWrite_within hp hsame).1.items i hp.lt
  refine ⟨hsame, ?_, ?_⟩
  all_goals
    unfold HeapPageTupleHeader.ofBytes slot
    simp only
    rw [hitem]
  · rw [Memory.slice_take (by omega)]
    show Memory.readLE _ _ _ = _
    rw [Memory.readLE_writeLE_disjoint (.inl (by omega)), Memory.readLE_writeLE_same]
    rfl
  · rw [Memory.slice_drop (by omega), Memory.slice_take (by omega)]
    show signed 64 (Memory.readLE _ _ _) = usn
    rw [Memory.readLE_writeLE_same, HeapPageTupleHeader.signed_undo hu]

theorem fills_markUpdated {xid : Nat} {usn : Int} (h : Tidy page) (hp : Placed page i)
    (hu : -(2 ^ 63) ≤ usn ∧ usn < 2 ^ 63) (hm : markUpdated dbg page i xid usn = .ok page')
    (hg : ∀ bytes, (HeapPageTupleHeader.ofBytes bytes).xid = xid % 2 ^ 64 →
      (HeapPageTupleHeader.ofBytes bytes).undo = usn →
      good bytes) : Fills dead good page page' := by
  obtain ⟨hsame, hxid, hundo⟩ := markUpdated_inv hp hu hm
  obtain ⟨hw, hup⟩ := slotWrite_within hp hsame
  exact fills_slot h hp hw hup (hg _ hxid hundo)

theorem fills_setDead (h : Tidy page) (hp : Placed page i) (hd : dead i) (item : ItemId) :
    Fills dead good page (setItem page i item.setDead) := by
  have hlow := itemAddr_lt hp.header hp.lt
  have hbe := hp.behind
  have hsame : itemAt (setItem page i item.setDead) i = item.setDead :=
    itemAt_setItem_same (by decide : ItemState.Dead < 4) (by decide : 0 < 2 ^ 15) (by decide : 0 < 2 ^ 15)
  have hother : ∀ j, j ≠ i → itemAt (setItem page i item.setDead) j = itemAt page j :=
    fun j hj => itemAt_setItem_ne hj
  have hnormal : ∀ j, (itemAt (setItem page i item.setDead) j).isNormal = true → j ≠ i := by
    intro j hn hji
    rw [hji, hsame] at hn
    cases hn
  have ht : Tidy (setItem page i item.setDead) :=
    h.of_items lower_setItem upper_setItem fun j _ hn => hother j (hnormal j hn)
  refine ⟨ht, fun j hdj hj => ?_, fun j hj => .inl ?_⟩
  · have hji : j ≠ i := fun e => hdj (e ▸ hd)
    exact ⟨hj.of_items lower_setItem (hother j hji), hother j hji⟩
  · have hji := hnormal j hj.normal
    have hj' : Placed page j := hj.of_items lower_setItem.symm (hother j hji).symm
    refine ⟨hj', ?_⟩
    have hbehind := hj'.behind
    unfold slot
    rw [hother j hji]
    exact Memory.slice_blit_disjoint (.inr (by rw [encodeLE_length]; omega))

/-! ## New slots -/

/-- The page has one more item, with a tuple at the offset; nothing else behind the header changed. -/
structure Lands (page page' : Memory) (offset : Nat) (bytes : List UInt8) : Prop where
  lower : lower page' = lower page + ItemId.size
  upper : upper page' ≤ upper page
  item : itemAt page' (itemsCount page) = ⟨ItemState.Normal, offset, bytes.length⟩
  content : page'.slice offset bytes.length = bytes
  outside : ∀ addr n, 12 ≤ addr → addr + n ≤ itemAddr (itemsCount page) ∨ itemAddr (itemsCount page) + 4 ≤ addr →
    addr + n ≤ offset ∨ offset + bytes.length ≤ addr → page'.slice addr n = page.slice addr n

theorem lands_count (hl : Lands page page' offset bytes) (hv : Vacant page offset bytes.length)
    (hlo : SizeOfHeapPageHeader ≤ lower page) :
    SizeOfHeapPageHeader ≤ lower page' ∧ itemsCount page' = itemsCount page + 1 := by
  have hlow := hv.1
  have hin := hv.2.2.1
  have hlow' := hl.lower
  have hlo' : SizeOfHeapPageHeader ≤ lower page' := by rw [hlow']; omega
  refine ⟨hlo', ?_⟩
  rw [itemsCount_eq hlo', itemsCount_eq hlo, hlow']
  simp only [SizeOfHeapPageHeader, ItemId.size, Config.PageSize] at *
  omega

theorem lands_placed (hl : Lands page page' offset bytes) (hv : Vacant page offset bytes.length)
    (hlo : SizeOfHeapPageHeader ≤ lower page) (hsize : HeapPageTupleHeader.size ≤ bytes.length) :
    Placed page' (itemsCount page) := by
  obtain ⟨hlo', hcount⟩ := lands_count hl hv hlo
  obtain ⟨hlow, hpad, hin, -⟩ := hv
  have hi := hl.item
  refine ⟨hlo', by rw [hcount]; exact Nat.lt_succ_self _, by rw [hi]; rfl, ?_, ?_, ?_, ?_⟩ <;> rw [hi]
  · rw [hl.lower]
    exact hlow
  · exact hpad
  · exact hsize
  · exact hin

theorem fills_lands (h : Tidy page) (hv : Vacant page offset bytes.length) (hlo : SizeOfHeapPageHeader ≤ lower page)
    (hsize : HeapPageTupleHeader.size ≤ bytes.length) (hl : Lands page page' offset bytes) (hg : good bytes) :
    Fills dead good page page' := by
  obtain ⟨hlo', hcount⟩ := lands_count hl hv hlo
  have hnew := lands_placed hl hv hlo hsize
  obtain ⟨hlow, hpad, hin, hfree⟩ := hv
  have haddr := itemAddr_itemsCount hlo
  have hlow' := hl.lower
  simp only [SizeOfHeapPageHeader, ItemId.size, Config.PageSize] at hlo hlow hin hfree hlow'
  -- an item is one of those before or the new one
  have hold : ∀ j < itemsCount page, itemAt page' j = itemAt page j := by
    intro j hj
    have hj' := itemAddr_mono hj
    have h0 := le_itemAddr j
    simp only [SizeOfHeapPageHeader] at h0
    unfold itemAt Memory.readLE
    rw [hl.outside _ _ h0 (.inl hj') (.inl (by omega))]
  have hkeep : ∀ j, Placed page j → Placed page' j := by
    intro j hj
    obtain ⟨hbe, -⟩ := hfree j hj.lt hj.normal
    have hi := hold j hj.lt
    refine ⟨hlo', by rw [hcount]; exact Nat.lt_succ_of_lt hj.lt, hi ▸ hj.normal, ?_, hi ▸ hj.padding, hi ▸ hj.size,
      hi ▸ hj.inside⟩
    rw [hi, hlow']
    exact hbe
  have hback : ∀ j, Placed page' j → Placed page j ∨ j = itemsCount page := by
    intro j hj
    have hlt := hj.lt
    rw [hcount] at hlt
    rcases Nat.lt_succ_iff_lt_or_eq.1 hlt with hlt | he
    · exact .inl (h.placed j hlt (hold j hlt ▸ hj.normal))
    · exact .inr he
  have hslot : ∀ j, Placed page j → slot page' j = slot page j := by
    intro j hj
    obtain ⟨hbe, hap⟩ := hfree j hj.lt hj.normal
    unfold slot
    rw [hold j hj.lt]
    exact hl.outside _ _ (by omega) (.inr (by omega)) (by omega)
  have hcontent : slot page' (itemsCount page) = bytes := by
    unfold slot
    rw [hl.item]
    exact hl.content
  refine ⟨⟨Nat.le_trans hl.upper h.bound, fun _ => hlo', fun j hj hn => ?_, fun i j hne hi hj => ?_⟩,
    fun j _ hj => ⟨hkeep j hj, hold j hj.lt⟩, fun j hj => ?_⟩
  · rw [hcount] at hj
    rcases Nat.lt_succ_iff_lt_or_eq.1 hj with hlt | rfl
    · exact hkeep j (h.placed j hlt (hold j hlt ▸ hn))
    · exact hnew
  · have hdisjoint : ∀ k, Placed page k → Apart page' (itemsCount page) k := by
      intro k hk
      obtain ⟨-, hap⟩ := hfree k hk.lt hk.normal
      unfold Apart
      rw [hl.item, hold k hk.lt]
      exact hap
    rcases hback i hi with hi' | rfl <;> rcases hback j hj with hj' | rfl
    · have ha := h.apart i j hne hi' hj'
      unfold Apart at ha ⊢
      rw [hold i hi'.lt, hold j hj'.lt]
      exact ha
    · exact (hdisjoint i hi').symm
    · exact hdisjoint j hj'
    · exact absurd rfl hne
  · rcases hback j hj with hj' | rfl
    · exact .inl ⟨hj', hslot j hj'⟩
    · exact .inr (hcontent ▸ hg)

theorem lands_inserted (hs : Spacious page bytes.length) :
    Lands page (inserted page lsn bytes) (upper page - BitUtils.maxAlign bytes.length) bytes where
  lower := lower_inserted hs lsn
  upper := by
    rw [upper_inserted hs lsn]
    exact Nat.sub_le _ _
  item := itemAt_inserted_new hs lsn
  content := slice_inserted_new hs lsn
  outside _ _ h hn hb := inserted_bytes h hn hb

theorem lands_insertLast (h : Tidy page)
    (hv : Vacant page (upper page - BitUtils.maxAlign bytes.length) bytes.length)
    (hi : insertLast dbg page lsn bytes = .ok page') : SizeOfHeapPageHeader ≤ lower page ∧
      Lands page page' (upper page - BitUtils.maxAlign bytes.length) bytes := by
  have hlow := hv.1
  have hpad := hv.2.1
  simp only [ItemId.size, sizeofHeapPageHeader] at hlow hpad
  have hlo := h.header (by omega)
  have hs : Spacious page bytes.length := ⟨by omega, h.bound, hlo⟩
  rw [insertLast_inserted hs hi]
  exact ⟨hlo, lands_inserted hs⟩

theorem lands_relocate (hlo : SizeOfHeapPageHeader ≤ lower page)
    (hroom : lower page + ItemId.size + bytes.length ≤ upper page) (hbound : upper page ≤ Config.PageSize)
    (hsize : HeapPageTupleHeader.size ≤ bytes.length) (hr : relocate dbg page (itemsCount page) bytes = .ok page') :
    Lands page page' (upper page - bytes.length) bytes := by
  simp only [ItemId.size, HeapPageTupleHeader.size, Config.PageSize, SizeOfHeapPageHeader] at hroom hsize hbound hlo
  have haddr := itemAddr_itemsCount hlo
  have hfree : getFreeSpace page = upper page - lower page := getFreeSpace_eq (by omega)
  have hp := relocate_ok (by omega) hbound (by omega) (by rw [hfree]; simp only [ItemId.size]; omega) hr
  subst hp
  refine ⟨?_, ?_, ?_, Memory.slice_blit_same, fun addr n h0 hn hb => ?_⟩
  · rw [lower_blit (.inl (by omega)), lower_setLower]
    simp only [ItemId.size]
    omega
  · rw [upper_blit (.inl (by omega)), upper_setLower, upper_setItem]
  · rw [itemAt_blit (.inl (by omega)), itemAt_setLower, itemAt_setItem_same]
    · exact (by decide : ItemState.Normal < 4)
    · simp only; omega
    · simp only; omega
  · unfold setLower setItem Memory.writeLE
    rw [Memory.slice_blit_disjoint hb, Memory.slice_blit_disjoint (.inr (by simp; omega)),
      Memory.slice_blit_disjoint (by simp; omega)]

theorem fills_relocate (h : Tidy page) (hv : Vacant page (upper page - bytes.length) bytes.length)
    (hsize : HeapPageTupleHeader.size ≤ bytes.length) (hr : relocate dbg page (itemsCount page) bytes = .ok page')
    (hg : good bytes) : Fills dead good page page' := by
  have hlow := hv.1
  have hpad := hv.2.1
  simp only [ItemId.size, sizeofHeapPageHeader] at hlow hpad
  have hlo := h.header (by omega)
  have hroom : lower page + ItemId.size + bytes.length ≤ upper page := by
    simp only [ItemId.size]
    omega
  exact fills_lands h hv hlo hsize (lands_relocate hlo hroom h.bound hsize hr) hg

/-! ## Pages without tuples -/

theorem itemAt_zero : itemAt (fun _ => 0) j = ⟨0, 0, 0⟩ := by
  simp [itemAt, Memory.readLE, Memory.slice, decodeLE, ItemId.ofWord]

theorem not_placed_zero : ¬ Placed (fun _ => 0) j := by
  intro hj
  have hn := hj.normal
  rw [itemAt_zero] at hn
  cases hn

theorem tidy_zero : Tidy fun _ => 0 := by
  refine ⟨Nat.zero_le _, fun h => ?_, fun j _ hn => ?_, fun i j _ hi => (not_placed_zero hi).elim⟩
  · exact absurd h (Nat.lt_irrefl 0)
  · rw [itemAt_zero] at hn
    cases hn

theorem not_placed_init : ¬ Placed (init page) j := by
  intro hj
  have hlt := hj.lt
  rw [itemsCount_eq hj.header, lower_init] at hlt
  simp [SizeOfHeapPageHeader] at hlt

theorem tidy_init : Tidy (init page) := by
  refine ⟨by rw [upper_init], fun _ => by rw [lower_init], fun j hj => ?_,
    fun i j _ hi => (not_placed_init hi).elim⟩
  rw [itemsCount_eq (by rw [lower_init]), lower_init] at hj
  simp [SizeOfHeapPageHeader] at hj

end HeapPage

/-! ## Tables -/

namespace HeapStore

/-- The pages are tidy again, and a slot that changed has contents with `good`; only slots in `dead` may be gone. -/
structure Fills (dead : TupleId → Prop) (good : List UInt8 → Prop) (s u : HeapStore) : Prop where
  tidy : ∀ p, HeapPage.Tidy (u.page p)
  kept : ∀ r, ¬ dead r → s.Placed r → u.Placed r ∧ u.item r = s.item r
  slots : ∀ r, u.Placed r → (s.Placed r ∧ u.content r = s.content r) ∨ good (u.content r)

variable {dead : TupleId → Prop} {good : List UInt8 → Prop} {s u v : HeapStore} {p : Nat} {page' : Memory}

theorem Fills.of_same (h : ∀ p, HeapPage.Tidy (s.page p)) (hp : u.page = s.page) : Fills dead good s u := by
  refine ⟨fun p => by rw [hp]; exact h p, fun r _ hr => ?_, fun r hr => .inl ?_⟩
  · unfold Placed item at *
    rw [hp]
    exact ⟨hr, rfl⟩
  · unfold Placed content at *
    rw [hp] at hr ⊢
    exact ⟨hr, rfl⟩

theorem Fills.trans (h : Fills dead good s u) (h' : Fills dead good u v) : Fills dead good s v := by
  refine ⟨h'.tidy, fun r hd hr => ?_, fun r hr => ?_⟩
  · obtain ⟨hr', he⟩ := h.kept r hd hr
    obtain ⟨hr'', he'⟩ := h'.kept r hd hr'
    exact ⟨hr'', he'.trans he⟩
  · rcases h'.slots r hr with ⟨hr', he'⟩ | hg
    · rcases h.slots r hr' with ⟨hr, he⟩ | hg
      · exact .inl ⟨hr, he'.trans he⟩
      · exact .inr (he' ▸ hg)
    · exact .inr hg

theorem Fills.of_page (h : ∀ p, HeapPage.Tidy (s.page p)) (hu : u.page = Function.update s.page p page')
    (hf : HeapPage.Fills (fun j => dead ⟨p, j⟩) good (s.page p) page') : Fills dead good s u := by
  have hsame : u.page p = page' := by rw [hu, Function.update_self]
  have hother : ∀ q, q ≠ p → u.page q = s.page q := fun q hq => by rw [hu, Function.update_of_ne hq]
  refine ⟨fun q => ?_, fun ⟨q, j⟩ hd hr => ?_, fun ⟨q, j⟩ hr => ?_⟩
  all_goals by_cases hq : q = p
  · rw [hq, hsame]
    exact hf.tidy
  · rw [hother q hq]
    exact h q
  · subst hq
    unfold Placed item at *
    rw [hsame]
    exact hf.kept j hd hr
  · unfold Placed item at *
    rw [hother q hq]
    exact ⟨hr, rfl⟩
  · subst hq
    unfold Placed content at *
    rw [hsame] at hr ⊢
    exact hf.slots j hr
  · unfold Placed content at *
    rw [hother q hq] at hr ⊢
    exact .inl ⟨hr, rfl⟩

end HeapStore

end Mimidb
