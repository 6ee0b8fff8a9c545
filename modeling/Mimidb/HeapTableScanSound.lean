import Mimidb.HeapTableScan

/-!
# Which tables a scan reads whole

`GetNextTuple` returns `nullptr` at the end of each page, so a scan that stops
there returns the tuples of the first page. `scan_complete_iff`: it is
complete exactly for tables with nothing visible on the other pages.
-/

namespace Mimidb

/-! ## Collecting results -/

section
variable {α : Type} {f : Nat → Except Fault (List α)} {n start : Nat}

theorem collect_succ {out : List α} : collect f (n + 1) start = .ok out ↔
    ∃ xs ys, f start = .ok xs ∧ collect f n (start + 1) = .ok ys ∧ out = xs ++ ys := by
  rw [collect, bind_eq_ok]
  constructor
  · rintro ⟨xs, hx, h⟩
    obtain ⟨ys, hy, h⟩ := bind_eq_ok.1 h
    exact ⟨xs, ys, hx, hy, (Except.ok.inj h).symm⟩
  · rintro ⟨xs, ys, hx, hy, rfl⟩
    exact ⟨xs, hx, bind_eq_ok.2 ⟨ys, hy, rfl⟩⟩

theorem collect_isOk : (∃ out, collect f n start = .ok out) ↔
    ∀ i, start ≤ i → i < start + n → ∃ xs, f i = .ok xs := by
  induction n generalizing start with
  | zero => exact ⟨fun _ i h1 h2 => absurd h2 (by omega), fun _ => ⟨[], rfl⟩⟩
  | succ n ih =>
    constructor
    · rintro ⟨out, h⟩ i h1 h2
      obtain ⟨xs, ys, hx, hy, rfl⟩ := collect_succ.1 h
      by_cases hi : i = start
      · exact hi ▸ ⟨xs, hx⟩
      · exact ih.1 ⟨ys, hy⟩ i (by omega) (by omega)
    · intro h
      obtain ⟨xs, hx⟩ := h start (by omega) (by omega)
      have hr : ∃ ys, collect f n (start + 1) = .ok ys := ih.2 fun i h1 h2 => h i (by omega) (by omega)
      obtain ⟨ys, hy⟩ := hr
      exact ⟨xs ++ ys, collect_succ.2 ⟨xs, ys, hx, hy, rfl⟩⟩

theorem collect_nil : collect f n start = .ok [] ↔
    ∀ i, start ≤ i → i < start + n → f i = .ok [] := by
  induction n generalizing start with
  | zero => exact ⟨fun _ i h1 h2 => absurd h2 (by omega), fun _ => rfl⟩
  | succ n ih =>
    constructor
    · intro h i h1 h2
      obtain ⟨xs, ys, hx, hy, he⟩ := collect_succ.1 h
      obtain ⟨rfl, rfl⟩ := List.append_eq_nil_iff.1 he.symm
      by_cases hi : i = start
      · exact hi ▸ hx
      · exact ih.1 hy i (by omega) (by omega)
    · intro h
      exact collect_succ.2 ⟨[], [], h start (by omega) (by omega),
        ih.2 fun i h1 h2 => h i (by omega) (by omega), rfl⟩

end

/-! ## One page -/

section
variable {V : Type} {c : HeapView V} {snapshot : Snapshot} {pageno n index : Nat}

namespace HeapView

theorem slotTuples_succ {out : List (HeapTuple V)} :
    c.slotTuples snapshot pageno (n + 1) index = .ok out ↔ ∃ t ts, c.itemTuple snapshot pageno index = .ok t ∧
      c.slotTuples snapshot pageno n (index + 1) = .ok ts ∧ out = t.toList ++ ts := by
  rw [slotTuples, collect_succ]
  constructor
  · rintro ⟨xs, ts, hx, hs, rfl⟩
    obtain ⟨t, ht, rfl⟩ := map_eq_ok.1 hx
    exact ⟨t, ts, ht, hs, rfl⟩
  · rintro ⟨t, ts, ht, hs, rfl⟩
    exact ⟨_, ts, map_eq_ok.2 ⟨t, ht, rfl⟩, hs, rfl⟩

/-- The loop stops at the first slot with a visible version. -/
theorem nextItem_spec {ts : List (HeapTuple V)} (h : c.slotTuples snapshot pageno n index = .ok ts) :
    (ts = [] ∧ c.nextItem snapshot pageno n index = .ok (none, index + n)) ∨
    ∃ t ts' k, k < n ∧ ts = t :: ts' ∧ c.nextItem snapshot pageno n index = .ok (some t, index + k) ∧
      c.slotTuples snapshot pageno (n - k - 1) (index + k + 1) = .ok ts' := by
  induction n generalizing index with
  | zero => exact .inl ⟨(Except.ok.inj h).symm, rfl⟩
  | succ n ih =>
    obtain ⟨t, ts, ht, hs, rfl⟩ := slotTuples_succ.1 h
    cases t with
    | some t => exact .inr ⟨t, ts, 0, by omega, rfl, by rw [nextItem, ht]; rfl, hs⟩
    | none =>
      have hn : c.nextItem snapshot pageno (n + 1) index = c.nextItem snapshot pageno n (index + 1) := by
        rw [nextItem, ht]; rfl
      rw [hn]
      rcases ih hs with ⟨rfl, he⟩ | ⟨t, ts', k, hk, rfl, he, hr⟩
      · exact .inl ⟨rfl, by rw [he, Nat.add_right_comm]; rfl⟩
      · refine .inr ⟨t, ts', k + 1, by omega, rfl, by rw [he]; congr 2; omega, ?_⟩
        rw [show n + 1 - (k + 1) - 1 = n - k - 1 by omega, show index + (k + 1) + 1 = index + 1 + k + 1 by omega]
        exact hr

end HeapView

namespace HeapTableScan

/-- The scan after a page without a further tuple. -/
def pageEnd (scan : HeapTableScan) : HeapTableScan :=
  let newPageno := (scan.tupleId.pageno + 1) % 2 ^ 32
  { scan with tupleId := ⟨newPageno, 0⟩, ended := scan.lastPageNumber ≤ newPageno }

/-- A call on a page at one of its items, or behind the last one. -/
theorem getNextTuple_page {scan : HeapTableScan} (he : scan.ended = false) {tuple : Option (HeapTuple V)}
    {index' : Nat} (h : c.nextItem scan.snapshot scan.tupleId.pageno
      (HeapPage.itemsCount (c.page scan.tupleId.pageno) - scan.tupleId.itemid) scan.tupleId.itemid =
      .ok (tuple, index')) :
    getNextTuple c scan = .ok (tuple,
      if HeapPage.itemsCount (c.page scan.tupleId.pageno) ≤ index' then pageEnd scan
      else { scan with tupleId := ⟨scan.tupleId.pageno, (index' + 1) % 2 ^ 16⟩ }) := by
  rw [getNextTuple, if_neg (by simp [he])]
  refine bind_eq_ok.2 ⟨_, h, ?_⟩
  simp only
  split <;> rfl

/-- A scan at a page returns the visible tuples of its rest and stops at its end. -/
theorem drives_page {scan : HeapTableScan} {ts : List (HeapTuple V)} (he : scan.ended = false)
    (hi : scan.tupleId.itemid ≤ HeapPage.itemsCount (c.page scan.tupleId.pageno))
    (h : c.slotTuples scan.snapshot scan.tupleId.pageno
      (HeapPage.itemsCount (c.page scan.tupleId.pageno) - scan.tupleId.itemid) scan.tupleId.itemid = .ok ts) :
    Drives c scan ts (pageEnd scan) := by
  have hmax : HeapPage.itemsCount (c.page scan.tupleId.pageno) < 2 ^ 16 := Nat.mod_lt _ (by decide)
  -- the induction is on the tuples that are left; each call steps behind one of them
  induction ts generalizing scan with
  | nil =>
    rcases HeapView.nextItem_spec h with ⟨_, hn⟩ | ⟨_, _, _, _, hc, _⟩
    · have := getNextTuple_page he hn
      rw [if_pos (by omega)] at this
      exact .finish this
    · cases hc
  | cons t ts ih =>
    rcases HeapView.nextItem_spec h with ⟨hc, _⟩ | ⟨t', ts', k, hk, hc, hn, hr⟩
    · cases hc
    · obtain ⟨rfl, rfl⟩ := List.cons.inj hc
      have hs := getNextTuple_page he hn
      rw [if_neg (by omega), Nat.mod_eq_of_lt (by omega)] at hs
      refine .tuple hs (ih he (by simp only; omega) ?_ hmax)
      simp only
      rw [show ∀ a, a - (scan.tupleId.itemid + k + 1) = a - scan.tupleId.itemid - k - 1 by omega]
      exact hr

theorem Drives.det {scan scan' scan'' : HeapTableScan} {ts ts' : List (HeapTuple V)}
    (h : Drives c scan ts scan') (h' : Drives c scan ts' scan'') : ts = ts' := by
  induction h generalizing ts' scan'' with
  | finish h =>
    cases h' with
    | finish h' => rfl
    | tuple h' _ => rw [h] at h'; cases h'
  | tuple h _ ih =>
    cases h' with
    | finish h' => rw [h] at h'; cases h'
    | tuple h' hr =>
      rw [h] at h'
      cases h'
      rw [ih hr]

end HeapTableScan

/-! ## The table -/

namespace HeapView

theorem beginScan_isOk : (∃ scan, HeapTableScan.beginScan c snapshot = .ok scan) ↔
    (c.dbg = true → c.getPageCount ≠ PageNumber.Invalid) := by
  unfold HeapTableScan.beginScan assert
  by_cases h : c.getPageCount = PageNumber.Invalid <;> cases c.dbg <;>
    simp [h, bind, Except.bind, pure, Except.pure]

theorem pageTuples_isOk : (∃ ts, c.pageTuples snapshot pageno = .ok ts) ↔
    ∀ i < HeapPage.itemsCount (c.page pageno), ∃ t, c.itemTuple snapshot pageno i = .ok t := by
  refine collect_isOk.trans ⟨fun h i hi => ?_, fun h i _ hi => ?_⟩
  · obtain ⟨_, ht⟩ := h i (by omega) (by omega)
    obtain ⟨t, ht, _⟩ := map_eq_ok.1 ht
    exact ⟨t, ht⟩
  · obtain ⟨t, ht⟩ := h i (by omega)
    exact ⟨_, map_eq_ok.2 ⟨t, ht, rfl⟩⟩

theorem pageTuples_nil : c.pageTuples snapshot pageno = .ok [] ↔
    ∀ i < HeapPage.itemsCount (c.page pageno), c.itemTuple snapshot pageno i = .ok none := by
  refine collect_nil.trans ⟨fun h i hi => ?_, fun h i _ hi => ?_⟩
  · obtain ⟨t, ht, hn⟩ := map_eq_ok.1 (h i (by omega) (by omega))
    cases t with
    | none => exact ht
    | some t => cases hn
  · exact map_eq_ok.2 ⟨none, h i (by omega), rfl⟩

theorem beginScan_eq {scan : HeapTableScan} (hb : HeapTableScan.beginScan c snapshot = .ok scan) :
    scan = ⟨⟨0, 0⟩, c.getPageCount, snapshot, c.getPageCount == 0⟩ := by
  obtain ⟨_, _, hb⟩ := bind_eq_ok.1 hb
  exact (Except.ok.inj hb).symm

theorem drives_empty {scan : HeapTableScan} (hb : HeapTableScan.beginScan c snapshot = .ok scan)
    (h0 : c.getPageCount = 0) : HeapTableScan.Drives c scan [] scan := by
  have he : scan.ended = true := by rw [beginScan_eq hb, h0]; rfl
  refine .finish ?_
  rw [HeapTableScan.getNextTuple, if_pos he]

theorem drives_begin {scan : HeapTableScan} (hb : HeapTableScan.beginScan c snapshot = .ok scan)
    (h0 : c.getPageCount ≠ 0) {ts : List (HeapTuple V)} (hts : c.pageTuples snapshot 0 = .ok ts) :
    HeapTableScan.Drives c scan ts scan.pageEnd := by
  have he := beginScan_eq hb
  have h1 : scan.ended = false := by rw [he]; exact beq_eq_false_iff_ne.2 h0
  have h2 : scan.tupleId = ⟨0, 0⟩ := by rw [he]
  have h3 : scan.snapshot = snapshot := by rw [he]
  refine HeapTableScan.drives_page h1 ?_ ?_
  · rw [h2]; exact Nat.zero_le _
  · rw [h2, h3, Nat.sub_zero]; exact hts

end HeapView
end

/-- A scan is complete iff its table can be read and nothing is visible behind the first page. -/
theorem scan_complete_iff {V : Type} (c : HeapView V) (snapshot : Snapshot) :
    c.ScanComplete snapshot ↔ (c.dbg = true → c.getPageCount ≠ PageNumber.Invalid) ∧
      (∀ p < c.getPageCount, ∀ i < HeapPage.itemsCount (c.page p), ∃ t, c.itemTuple snapshot p i = .ok t) ∧
      ∀ p, 0 < p → p < c.getPageCount → ∀ i < HeapPage.itemsCount (c.page p),
        c.itemTuple snapshot p i = .ok none := by
  constructor
  · rintro ⟨scan, scan', out, hb, hd, ho⟩
    have hok := collect_isOk.1 ⟨out, ho⟩
    refine ⟨HeapView.beginScan_isOk.1 ⟨scan, hb⟩, fun p hp => HeapView.pageTuples_isOk.1 (hok p (by omega)
      (by omega)), fun p h0 hp => HeapView.pageTuples_nil.1 ?_⟩
    unfold HeapView.visibleTuples at ho
    obtain ⟨n, hn⟩ : ∃ n, c.getPageCount = n + 1 := ⟨c.getPageCount - 1, by omega⟩
    rw [hn] at ho
    obtain ⟨ts, rest, hts, hrest, rfl⟩ := collect_succ.1 ho
    -- the scan returned the first page only, so the others gave nothing
    have hdet := hd.det (HeapView.drives_begin hb (by omega) hts)
    obtain rfl := List.append_right_eq_self.1 hdet
    exact collect_nil.1 hrest p (by omega) (by omega)
  · rintro ⟨hdbg, hread, hnil⟩
    obtain ⟨scan, hb⟩ := HeapView.beginScan_isOk.2 hdbg
    rcases Nat.eq_zero_or_pos c.getPageCount with h0 | hpos
    · refine ⟨scan, scan, [], hb, HeapView.drives_empty hb h0, ?_⟩
      rw [HeapView.visibleTuples, h0]; rfl
    · obtain ⟨ts, hts⟩ := HeapView.pageTuples_isOk.2 (hread 0 hpos)
      refine ⟨scan, _, ts, hb, HeapView.drives_begin hb (by omega) hts, ?_⟩
      obtain ⟨n, hn⟩ : ∃ n, c.getPageCount = n + 1 := ⟨c.getPageCount - 1, by omega⟩
      have hrest : collect (c.pageTuples snapshot) n (0 + 1) = .ok [] :=
        collect_nil.2 fun p h1 h2 => HeapView.pageTuples_nil.2 (hnil p (by omega) (by omega))
      rw [HeapView.visibleTuples, hn]
      exact collect_succ.2 ⟨ts, [], hts, hrest, (List.append_nil _).symm⟩

/-- A page with one tuple that a frozen transaction wrote. -/
def frozenPage (payload : UInt8) : Memory :=
  let tuple := HeapPageTupleHeader.toBytes ⟨TransactionId.Min, UndoSeqNumber.Invalid, ⟨false, false⟩⟩ ++ [payload]
  let page : Memory := fun _ => 0
  (HeapPage.setItem (HeapPage.setUpper (HeapPage.setLower page 16) 8160) 0
    ⟨ItemState.Normal, 8160, 25⟩).blit 8160 tuple

/-- Two pages with one tuple each. -/
def twoPages : HeapView (List UInt8) where
  dbg := true
  size := 2 * Config.PageSize
  page p := frozenPage (UInt8.ofNat p)
  history _ := CommitSeqNumber.Frozen
  myXid := 2
  undoSize := 0
  getRecord _ := .error (.runtimeError "could not read UndoLogRecordHeader")
  deserialize bytes _ size := .ok (bytes.take size)

theorem scan_misses_second_page : ¬ twoPages.ScanComplete ⟨CommitSeqNumber.Min, 0⟩ := by
  rintro ⟨scan, scan', out, hb, hd, ho⟩
  have hv : (twoPages.visibleTuples ⟨CommitSeqNumber.Min, 0⟩).toOption.map List.length = some 2 := by
    decide +kernel
  have h1 : (twoPages.pageTuples ⟨CommitSeqNumber.Min, 0⟩ 0).toOption.map List.length = some 1 := by
    decide +kernel
  cases hts : twoPages.pageTuples ⟨CommitSeqNumber.Min, 0⟩ 0 with
  | error e => rw [hts] at h1; cases h1
  | ok ts =>
    have hdet := hd.det (HeapView.drives_begin hb (by decide +kernel) hts)
    subst hdet
    rw [ho] at hv
    rw [hts] at h1
    simp only [Except.toOption, Option.map_some, Option.some.injEq] at hv h1
    omega

end Mimidb
