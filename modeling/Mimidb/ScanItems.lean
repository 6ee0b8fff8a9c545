import Mimidb.HeapLayout
import Mimidb.HeapWrites
import Mimidb.Run

/-!
# Item counts that scans read

A table from its creation on: workers extend it, initialise the new pages and
insert rows, and scans read how many items the pages have. A new page counts
for scans as soon as it is in the file, and until it is initialised its item
count is that of a header of zeros (`items_inside`).
-/

namespace Mimidb

namespace HeapStore

/-- `ExtendRelation` after it has read the page count. -/
def extendAt (s : HeapStore) (pageno : Nat) : HeapStore :=
  { s with
    size := max s.size (Config.PageSize * pageno % 2 ^ 32 + Config.PageSize)
    page := Function.update s.page pageno fun _ => 0 }

theorem extendRelation_eq {s : HeapStore} (h : s.pagesCount ≠ PageNumber.Invalid) :
    extendRelation s = (.ok s.pagesCount, s.extendAt s.pagesCount) := by
  unfold extendRelation
  simp only [if_neg h]
  rfl

theorem changePage_size {pageno : Nat} {f : Memory → Except Fault Memory} {s u : HeapStore}
    (h : changePage pageno f s = (.ok (), u)) : u.size = s.size := by
  obtain ⟨_, _, hp, h⟩ := Fallible.bind_eq_ok.1 h
  cases hp
  obtain ⟨_, _, hf, h⟩ := Fallible.bind_eq_ok.1 h
  obtain ⟨_, rfl⟩ := Fallible.ofExcept_eq_ok.1 hf
  cases h
  rfl

end HeapStore

/-! ## Inserts on a page -/

namespace HeapPage

variable {page page' : Memory} {lsn n : Nat} {bytes : List UInt8} {dbg : Bool}

@[simp] theorem upper_setUpper : upper (setUpper page n) = n % 2 ^ 16 := Memory.readLE_writeLE_same

@[simp] theorem lower_setUpper : lower (setUpper page n) = lower page := lower_blit (.inl (Nat.le_refl _))

@[simp] theorem lower_init : lower (init page) = SizeOfHeapPageHeader := by simp [init, SizeOfHeapPageHeader]

@[simp] theorem upper_init : upper (init page) = Config.PageSize := by simp [init, Config.PageSize]

theorem setLength_ok {i i' : ItemId} {length : Nat} (h : i.setLength dbg length = .ok i') :
    i' = { i with length := length % 2 ^ 15 } := by
  obtain ⟨_, _, h⟩ := bind_eq_ok.1 h
  exact (Except.ok.inj h).symm

theorem setOffset_ok {i i' : ItemId} {offset : Nat} (h : i.setOffset dbg offset = .ok i') :
    i' = { i with offset := offset % 2 ^ 15 } := by
  obtain ⟨_, _, h⟩ := bind_eq_ok.1 h
  exact (Except.ok.inj h).symm

theorem insertLast_ok (hl : lower page ≤ Config.PageSize) (hu : upper page ≤ Config.PageSize)
    (hroom : SizeOfHeapPageHeader + BitUtils.maxAlign bytes.length ≤ upper page)
    (h : insertLast dbg page lsn bytes = .ok page') :
    lower page' = lower page + ItemId.size ∧ upper page' = upper page - BitUtils.maxAlign bytes.length := by
  simp only [SizeOfHeapPageHeader, Config.PageSize] at hl hu hroom
  obtain ⟨_, _, h⟩ := bind_eq_ok.1 h
  obtain ⟨i, hi, h⟩ := bind_eq_ok.1 h
  obtain ⟨i', hi', h⟩ := bind_eq_ok.1 h
  obtain ⟨addr, ha, h⟩ := bind_eq_ok.1 h
  obtain ⟨page1, hp, h⟩ := bind_eq_ok.1 h
  obtain rfl := Except.ok.inj h
  obtain rfl := memcpy_ok hp
  have haddr : addr = upper page - BitUtils.maxAlign bytes.length := by
    rw [getTuple_ok ha, setOffset_ok hi', upper_setLsn]
    simp only
    omega
  have hlow :
      lower ((setItem (setLsn page lsn) (itemsCount (setLsn page lsn)) i').blit addr bytes) = lower page := by
    rw [lower_blit (.inl (by omega)), lower_setItem, lower_setLsn]
  have hupp :
      upper ((setItem (setLsn page lsn) (itemsCount (setLsn page lsn)) i').blit addr bytes) = upper page := by
    rw [upper_blit (.inl (by omega)), upper_setItem, upper_setLsn]
  refine ⟨?_, ?_⟩
  · rw [lower_setUpper, lower_setLower, hlow]
    simp only [ItemId.size]
    omega
  · rw [upper_setUpper, upper_setLower, hupp]
    omega

end HeapPage

/-! ## Runs -/

structure ItemRun where
  store : HeapStore
  /-- The page counts read by calls of `ExtendRelation` under way. -/
  counted : Nat → Option Nat
  /-- The pages returned by `ExtendRelation` and not yet looked at. -/
  added : Nat → Option Nat
  /-- The line pointers put on each page since it was added. -/
  present : Nat → Nat
  /-- For each time a scan worked on a page, the item count that it read and the line pointers there were. -/
  reads : List (Nat × Nat)

inductive ItemOp where
  | count (worker : Nat)
  | extend (worker : Nat)
  /-- The initialisation in `searchPageFreeSpace`. -/
  | init (worker : Nat)
  | insert (pageno : Nat) (heapTuple : List UInt8)
  /-- A call of `GetNextTuple`. -/
  | scan (pageno : Nat)

namespace ItemRun

variable {V : Type} (t : HeapTable V)

def start (s : HeapStore) : ItemRun := ⟨{ s with size := 0 }, fun _ => none, fun _ => none, fun _ => 0, []⟩

/-- A run ends at a fault. -/
def step (s : ItemRun) : ItemOp → Option ItemRun
  | .count w =>
    if s.counted w = none ∧ s.added w = none then
      some { s with counted := Function.update s.counted w (some s.store.pagesCount) }
    else none
  | .extend w => do
    let pageno ← s.counted w
    if pageno = PageNumber.Invalid then none
    else some { s with
      store := s.store.extendAt pageno
      counted := Function.update s.counted w none
      added := Function.update s.added w (some pageno)
      present := Function.update s.present pageno 0 }
  | .init w => do
    let pageno ← s.added w
    let page := s.store.page pageno
    some { s with
      store := { s.store with
        page := Function.update s.store.page pageno (if HeapPage.isNew page then HeapPage.init page else page) }
      added := Function.update s.added w none }
  | .insert pageno heapTuple =>
    if pageno < s.store.pagesCount ∧ heapTuple.length + ItemId.size ≤ HeapPage.getFreeSpace
      (s.store.page pageno) then
      match t.performInsert pageno heapTuple s.store with
      | (.ok (), store) =>
        some { s with store := store, present := Function.update s.present pageno (s.present pageno + 1) }
      | (.error _, _) => none
    else none
  | .scan pageno =>
    if pageno < s.store.pagesCount then
      some { s with reads := (HeapPage.itemsCount (s.store.page pageno), s.present pageno) :: s.reads }
    else none

/-- Every item count that a scan read is the number of line pointers, which are on the page. -/
def ItemsInside (s : ItemRun) : Prop :=
  ∀ read ∈ s.reads, read.1 = read.2 ∧ HeapPage.SizeOfHeapPageHeader + ItemId.size * read.1 ≤ Config.PageSize

/-- Nobody else added a page since the count, scans find initialised pages, and
there is room for the aligned tuple. -/
def Ready (s : ItemRun) : ItemOp → Prop
  | .count _ | .init _ => True
  | .extend w => ∀ pageno ∈ s.counted w, pageno = s.store.pagesCount ∧ Config.PageSize * pageno < 2 ^ 32
  | .insert pageno heapTuple =>
    BitUtils.maxAlign heapTuple.length + ItemId.size ≤ HeapPage.getFreeSpace (s.store.page pageno)
  | .scan pageno => HeapPage.isNew (s.store.page pageno) = false

/-! ## Pages -/

/-- A page of zeros, or an initialised one with `n` line pointers. -/
def HasItems (page : Memory) (n : Nat) : Prop :=
  (HeapPage.lower page = 0 ∧ HeapPage.upper page = 0 ∧ n = 0) ∨
    (HeapPage.lower page = HeapPage.SizeOfHeapPageHeader + ItemId.size * n ∧
      HeapPage.lower page ≤ HeapPage.upper page ∧ HeapPage.upper page ≤ Config.PageSize)

section
variable {t} {s u : ItemRun} {page : Memory} {n pageno : Nat}

theorem hasItems_zero : HasItems (fun _ => 0) 0 := .inl ⟨by decide, by decide, rfl⟩

theorem hasItems_init (page : Memory) : HasItems (HeapPage.init page) 0 := by
  refine .inr ⟨HeapPage.lower_init, ?_, ?_⟩
  · rw [HeapPage.lower_init, HeapPage.upper_init]
    decide
  · rw [HeapPage.upper_init]

/-- The item count of a page is right exactly when the page is initialised. -/
theorem HasItems.count_iff (h : HasItems page n) : (HeapPage.itemsCount page = n ∧
    HeapPage.SizeOfHeapPageHeader + ItemId.size * HeapPage.itemsCount page ≤ Config.PageSize) ↔
    HeapPage.isNew page = false := by
  rcases h with ⟨hl, -, rfl⟩ | ⟨hl, hu, hp⟩
  · have hc : HeapPage.itemsCount page = 65533 := by rw [HeapPage.itemsCount, hl]; rfl
    rw [HeapPage.isNew, hl, hc]
    exact iff_of_false (by omega) (by decide)
  · have hc : HeapPage.itemsCount page = _ := HeapPage.itemsCount_eq (by omega)
    simp only [HeapPage.SizeOfHeapPageHeader, ItemId.size] at hl hc ⊢
    refine iff_of_true ⟨by omega, by omega⟩ ?_
    rw [HeapPage.isNew, hl, beq_eq_false_iff_ne]
    omega

/-! ## The invariant -/

structure Sound (s : ItemRun) : Prop where
  inside : ItemsInside s
  pages : ∀ pageno < s.store.pagesCount, HasItems (s.store.page pageno) (s.present pageno)
  size : ∃ n ≤ 2 ^ 19, s.store.size = Config.PageSize * n

theorem pagesCount_eq {store : HeapStore} (hs : store.size = Config.PageSize * n) (hn : n ≤ 2 ^ 19) :
    store.pagesCount = n := by
  rw [HeapStore.pagesCount, hs]
  simp only [Config.PageSize]
  omega

theorem start_sound (store : HeapStore) : Sound (start store) := by
  refine ⟨nofun, fun pageno h => ?_, 0, by decide, rfl⟩
  rw [pagesCount_eq (n := 0) rfl (by decide)] at h
  cases h

theorem performInsert_page {heapTuple : List UInt8} {store store' : HeapStore}
    (h : t.performInsert pageno heapTuple store = (.ok (), store')) : store'.size = store.size ∧ ∃ lsn page',
      HeapPage.insertLast t.dbg (store.page pageno) lsn heapTuple = .ok page' ∧
      store'.page = Function.update store.page pageno page' := by
  obtain ⟨_, _, hp, h⟩ := Fallible.bind_eq_ok.1 h
  cases hp
  obtain ⟨_, _, hu, h⟩ := Fallible.bind_eq_ok.1 h
  cases hu
  obtain ⟨_, _, hw, h⟩ := Fallible.bind_eq_ok.1 h
  cases hw
  obtain ⟨page', hpage, hup⟩ := HeapStore.changePage_ok h
  have hsize := HeapStore.changePage_size h
  exact ⟨hsize, _, page', hpage, hup⟩

theorem Sound.update {store : HeapStore} {present : Nat → Nat} {counted added : Nat → Option Nat} {page : Memory}
    {n : Nat} (h : Sound s) (hsize : store.size = s.store.size)
    (hpage : store.page = Function.update s.store.page pageno page)
    (hpres : present = Function.update s.present pageno n) (hnew : pageno < s.store.pagesCount → HasItems page n) :
    Sound ⟨store, counted, added, present, s.reads⟩ := by
  have hcount : store.pagesCount = s.store.pagesCount := by rw [HeapStore.pagesCount, hsize, HeapStore.pagesCount]
  obtain ⟨k, hk, hsz⟩ := h.size
  refine ⟨h.inside, fun other ho => ?_, k, hk, hsize.trans hsz⟩
  simp only [hcount] at ho
  simp only [hpage, hpres]
  by_cases he : other = pageno
  · subst he
    simp only [Function.update_self]
    exact hnew ho
  · simp only [Function.update_of_ne he]
    exact h.pages other ho

theorem HasItems.insert {lsn : Nat} {heapTuple : List UInt8} {page' : Memory} {dbg : Bool} (h : HasItems page n)
    (hroom : BitUtils.maxAlign heapTuple.length + ItemId.size ≤ HeapPage.getFreeSpace page)
    (hi : HeapPage.insertLast dbg page lsn heapTuple = .ok page') : HasItems page' (n + 1) := by
  rcases h with ⟨hl, hu, -⟩ | ⟨hl, hlu, hu⟩
  · rw [HeapPage.getFreeSpace_eq (by omega), hl, hu] at hroom
    simp only [ItemId.size] at hroom
    omega
  · rw [HeapPage.getFreeSpace_eq hlu] at hroom
    simp only [ItemId.size, HeapPage.SizeOfHeapPageHeader] at hroom hl
    obtain ⟨hl', hu'⟩ :=
      HeapPage.insertLast_ok (by omega) hu (by simp only [HeapPage.SizeOfHeapPageHeader]; omega) hi
    simp only [ItemId.size] at hl'
    exact .inr ⟨by simp only [ItemId.size, HeapPage.SizeOfHeapPageHeader]; omega, by omega, by omega⟩

theorem Sound.extend {counted added : Nat → Option Nat} (h : Sound s) (hp : pageno = s.store.pagesCount)
    (hb : Config.PageSize * pageno < 2 ^ 32) :
    Sound ⟨s.store.extendAt pageno, counted, added, Function.update s.present pageno 0, s.reads⟩ := by
  obtain ⟨n, hn, hs⟩ := h.size
  have hcount := pagesCount_eq hs hn
  obtain rfl : pageno = n := hp.trans hcount
  have hsize : (s.store.extendAt pageno).size = Config.PageSize * (pageno + 1) := by
    simp only [HeapStore.extendAt, hs]
    simp only [Config.PageSize] at hb ⊢
    omega
  have hle : pageno + 1 ≤ 2 ^ 19 := by
    simp only [Config.PageSize] at hb
    omega
  refine ⟨h.inside, fun other ho => ?_, pageno + 1, hle, hsize⟩
  simp only [pagesCount_eq hsize hle] at ho
  simp only [HeapStore.extendAt]
  by_cases he : other = pageno
  · subst he
    simp only [Function.update_self]
    exact hasItems_zero
  · simp only [Function.update_of_ne he]
    exact h.pages other (by omega)

theorem Sound.scan_iff (h : Sound s) (hp : pageno < s.store.pagesCount) :
    ItemsInside { s with reads := (HeapPage.itemsCount (s.store.page pageno), s.present pageno) :: s.reads } ↔
      HeapPage.isNew (s.store.page pageno) = false := by
  rw [← (h.pages pageno hp).count_iff]
  refine ⟨fun hi => hi _ List.mem_cons_self, fun hc read hr => ?_⟩
  rcases List.mem_cons.1 hr with rfl | hr
  · exact hc
  · exact h.inside read hr

theorem Sound.step {op : ItemOp} (h : Sound s) (hr : Ready s op) (hs : step t s op = some u) : Sound u := by
  cases op with
  | count w =>
    simp only [ItemRun.step, Option.ite_none_right_eq_some, Option.some.injEq] at hs
    obtain ⟨-, rfl⟩ := hs
    exact ⟨h.inside, h.pages, h.size⟩
  | extend w =>
    obtain ⟨pageno, hc, hs⟩ := Option.bind_eq_some_iff.1 hs
    simp only [Option.ite_none_left_eq_some, Option.some.injEq] at hs
    obtain ⟨-, rfl⟩ := hs
    exact h.extend (hr pageno hc).1 (hr pageno hc).2
  | init w =>
    obtain ⟨pageno, -, hs⟩ := Option.bind_eq_some_iff.1 hs
    cases hs
    refine h.update rfl rfl (Function.update_eq_self pageno s.present).symm fun hp => ?_
    split_ifs with hnew
    · rcases h.pages pageno hp with ⟨-, -, hz⟩ | ⟨hl, -, -⟩
      · rw [hz]
        exact hasItems_init _
      · rw [HeapPage.isNew, hl, beq_iff_eq] at hnew
        simp only [HeapPage.SizeOfHeapPageHeader] at hnew
        omega
    · exact h.pages pageno hp
  | insert pageno heapTuple =>
    simp only [ItemRun.step, Option.ite_none_right_eq_some] at hs
    obtain ⟨⟨hp, -⟩, hs⟩ := hs
    split at hs
    · rename_i store' hi
      cases hs
      obtain ⟨hsize, lsn, page', hpage, hup⟩ := performInsert_page hi
      exact h.update hsize hup rfl fun _ => (h.pages pageno hp).insert hr hpage
    · cases hs
  | scan pageno =>
    simp only [ItemRun.step, Option.ite_none_right_eq_some, Option.some.injEq] at hs
    obtain ⟨hp, rfl⟩ := hs
    exact ⟨(h.scan_iff hp).2 hr, h.pages, h.size⟩

end

/-- While no page is added between a count of the pages and its use, and inserts find room for the
aligned tuple, the item counts that scans read are right exactly on the initialised pages. -/
theorem items_inside {store : HeapStore} {s : ItemRun} (h : Reach (step t) Ready (start store) s) :
    ItemsInside s ∧ ∀ pageno u, step t s (.scan pageno) = some u →
      (ItemsInside u ↔ HeapPage.isNew (s.store.page pageno) = false) := by
  have hs : Sound s := h.inv (fun _ _ _ hs hr ht => hs.step hr ht) (start_sound store)
  refine ⟨hs.inside, fun pageno u hu => ?_⟩
  simp only [step, Option.ite_none_right_eq_some, Option.some.injEq] at hu
  obtain ⟨hp, rfl⟩ := hu
  exact hs.scan_iff hp

instance (s : ItemRun) : ∀ op : ItemOp, Decidable (Ready s op)
  | .count _ | .init _ => inferInstanceAs (Decidable True)
  | .extend w => inferInstanceAs (Decidable (∀ pageno ∈ s.counted w, _))
  | .insert _ _ => inferInstanceAs (Decidable (_ ≤ _))
  | .scan _ => inferInstanceAs (Decidable (_ = _))

/-- A row of `n` bytes. -/
def row (n : Nat) : List UInt8 := ((byteTable false).newHeader []).toBytes ++ List.replicate n 0

theorem items_inside_one :
    ∃ s, Reach (step (byteTable false)) Ready (start oneRow) s ∧ s.reads = [(1, 1)] ∧ ItemsInside s := by
  have h : (exec (guarded Ready (step (byteTable false))) (start oneRow)
      [.count 0, .extend 0, .init 0, .insert 0 (row 1), .scan 0]).map (fun s => s.reads == [(1, 1)]) =
      some true := by
    decide +kernel
  obtain ⟨s, hr, hs⟩ := reach_of_test h
  exact ⟨s, hr.of_guarded, beq_iff_eq.1 hs, (items_inside (byteTable false) hr.of_guarded).1⟩

/-- A scan between the extension and the initialisation; and five inserts after which the free space,
as the last but one did not have room for its padding, has reached the header. -/
theorem counts_outside :
    (∃ s, Reach (step (byteTable true)) anyStep (start oneRow) s ∧ s.reads = [(65533, 0)] ∧ ¬ ItemsInside s) ∧
    ∃ s, Reach (step (byteTable false)) anyStep (start oneRow) s ∧ s.reads = [(65534, 5)] ∧ ¬ ItemsInside s := by
  have h : (exec (step (byteTable true)) (start oneRow) [.count 0, .extend 0, .scan 0]).map
      (fun s => s.reads == [(65533, 0)]) = some true := by decide +kernel
  have h' : (exec (step (byteTable false)) (start oneRow)
      [.count 0, .extend 0, .init 0, .insert 0 (row 0), .insert 0 (row 0), .insert 0 (row 0), .insert 0 (row 8068),
        .insert 0 (row 0), .scan 0]).map (fun s => s.reads == [(65534, 5)]) = some true := by decide +kernel
  obtain ⟨s, hr, hs⟩ := reach_of_test h
  obtain ⟨s', hr', hs'⟩ := reach_of_test h'
  rw [beq_iff_eq] at hs hs'
  refine ⟨⟨s, hr, hs, fun hi => ?_⟩, ⟨s', hr', hs', fun hi => ?_⟩⟩
  · have := hi (65533, 0) (by rw [hs]; exact List.mem_cons_self)
    exact absurd this.1 (by decide)
  · have := hi (65534, 5) (by rw [hs']; exact List.mem_cons_self)
    exact absurd this.1 (by decide)

end ItemRun

end Mimidb
