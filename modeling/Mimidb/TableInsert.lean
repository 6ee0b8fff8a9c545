import Mimidb.PageInsert

/-!
# Inserts into a table

`InsertTuple` with nobody else at work: which page the search finds, what the
relation looks like after an extension, and what one round of the loop does. A
page keeps its layout over every run whose tuples have room when aligned
(`inserts_keep`).
-/

namespace Mimidb

namespace HeapStore

variable {s : HeapStore} {need p : Nat}

/-- The page that the search returns. -/
structure FirstFit (s : HeapStore) (need p : Nat) : Prop where
  lt : p < s.pagesCount
  fits : need ≤ HeapPage.getFreeSpace (s.page p)
  first : ∀ q < p, HeapPage.getFreeSpace (s.page q) < need

def NoFit (s : HeapStore) (need : Nat) : Prop := ∀ q < s.pagesCount, HeapPage.getFreeSpace (s.page q) < need

theorem FirstFit.not_noFit (h : FirstFit s need p) : ¬ NoFit s need :=
  fun hno => absurd (hno p h.lt) (Nat.not_lt.2 h.fits)

theorem FirstFit.unique {q : Nat} (h : FirstFit s need p) (h' : FirstFit s need q) : p = q := by
  rcases Nat.lt_trichotomy p q with hlt | heq | hgt
  · exact absurd (h'.first p hlt) (Nat.not_lt.2 h.fits)
  · exact heq
  · exact absurd (h.first q hgt) (Nat.not_lt.2 h'.fits)

/-- One more page, with an initialised header. -/
def grown (s : HeapStore) : HeapStore :=
  { s with
    size := max s.size (Config.PageSize * s.pagesCount % 2 ^ 32 + Config.PageSize)
    page := Function.update s.page s.pagesCount (HeapPage.init fun _ => 0) }

/-- The free space of an initialised page. -/
def emptySpace : Nat := Config.PageSize - HeapPage.SizeOfHeapPageHeader

theorem getFreeSpace_init (page : Memory) : HeapPage.getFreeSpace (HeapPage.init page) = emptySpace := by
  unfold HeapPage.getFreeSpace
  rw [HeapPage.lower_init, HeapPage.upper_init]
  rfl

@[simp] theorem grown_page : s.grown.page s.pagesCount = HeapPage.init fun _ => 0 := Function.update_self _ _ _

theorem grown_page_ne (h : p ≠ s.pagesCount) : s.grown.page p = s.page p := Function.update_of_ne h _ _

/-- The page count is exact up to 4 GiB, and then stays. -/
theorem grown_pagesCount :
    s.grown.pagesCount = s.pagesCount ∨ s.grown.pagesCount = s.pagesCount + 1 ∧ s.pagesCount < 2 ^ 19 := by
  unfold grown pagesCount
  simp only [Config.PageSize]
  omega

theorem le_grown_pagesCount : s.pagesCount ≤ s.grown.pagesCount := by
  rcases grown_pagesCount (s := s) with h | h <;> omega

end HeapStore

namespace HeapTable

open HeapStore

variable {V : Type} {t : HeapTable V} {s : HeapStore} {need p fuel : Nat} {values : V} {bytes : List UInt8}

/-! ## One round -/

theorem searchPages_eq (need : Nat) (s : HeapStore) : ∀ n k,
    (∃ p, searchPages none need n k s = (.ok (some p), s) ∧ k ≤ p ∧ p < k + n ∧
      need ≤ HeapPage.getFreeSpace (s.page p) ∧
      ∀ q, k ≤ q → q < p → HeapPage.getFreeSpace (s.page q) < need) ∨
    searchPages none need n k s = (.ok none, s) ∧ ∀ q, k ≤ q → q < k + n → HeapPage.getFreeSpace (s.page q) < need
  | 0, k => .inr ⟨rfl, fun q h1 h2 => by omega⟩
  | n + 1, k => by
    have hstep : searchPages none need (n + 1) k s =
        if HeapPage.getFreeSpace (s.page k) < need then searchPages none need n (k + 1) s
          else (.ok (some k), s) := by
      rw [searchPages]
      simp only [reduceCtorEq, if_false, Fallible.bind_apply, getPage]
      split_ifs <;> rfl
    rw [hstep]
    split_ifs with hk
    · rcases searchPages_eq need s n (k + 1) with ⟨p, e, h1, h2, h3, h4⟩ | ⟨e, h⟩
      · refine .inl ⟨p, e, by omega, by omega, h3, fun q hq hqp => ?_⟩
        rcases Nat.eq_or_lt_of_le hq with rfl | hq
        · exact hk
        · exact h4 q hq hqp
      · refine .inr ⟨e, fun q hq hqn => ?_⟩
        rcases Nat.eq_or_lt_of_le hq with rfl | hq
        · exact hk
        · exact h q hq (by omega)
    · exact .inl ⟨k, rfl, Nat.le_refl k, by omega, Nat.le_of_not_lt hk, fun q h1 h2 => by omega⟩

theorem searchPageFreeSpace_firstFit (h : FirstFit s need p) : t.searchPageFreeSpace none need s = (.ok p, s) := by
  unfold searchPageFreeSpace
  rw [Fallible.bind_ok (Fallible.get_apply s)]
  rcases searchPages_eq need s s.pagesCount 0 with ⟨p', e, h1, h2, h3, h4⟩ | ⟨e, hno⟩
  · have hp : p' = p := FirstFit.unique ⟨by omega, h3, fun q hq => h4 q (Nat.zero_le q) hq⟩ h
    rw [Fallible.bind_ok e, hp]
    rfl
  · have := hno p (Nat.zero_le p) (by rw [Nat.zero_add]; exact h.lt)
    have := h.fits
    omega

theorem searchPages_noFit (h : NoFit s need) : searchPages none need s.pagesCount 0 s = (.ok none, s) := by
  rcases searchPages_eq need s s.pagesCount 0 with ⟨p, e, h1, h2, h3, h4⟩ | ⟨e, hno⟩
  · have := h p (by omega)
    omega
  · exact e

theorem fits_or_not (s : HeapStore) (need : Nat) : (∃ p, FirstFit s need p) ∨ NoFit s need := by
  rcases searchPages_eq need s s.pagesCount 0 with ⟨p, e, h1, h2, h3, h4⟩ | ⟨e, hno⟩
  · exact .inl ⟨p, by omega, h3, fun q hq => h4 q (Nat.zero_le q) hq⟩
  · exact .inr fun q hq => hno q (Nat.zero_le q) (by omega)

theorem changePage_new :
    changePage s.pagesCount (fun page => .ok (if HeapPage.isNew page then HeapPage.init page else page))
    (s.extendAt s.pagesCount) = (.ok (), s.grown) := by
  have hzero : (s.extendAt s.pagesCount).page s.pagesCount = fun _ => 0 := Function.update_self _ _ _
  have hpage :
      s.grown.page = Function.update (s.extendAt s.pagesCount).page s.pagesCount (HeapPage.init fun _ => 0) := by
    unfold extendAt grown
    simp only [Function.update_idem]
  have hs : s.grown = { s.extendAt s.pagesCount with page := s.grown.page } := rfl
  rw [hs, hpage]
  exact changePage_eq (by rw [hzero]; rfl)

/-- When no page has room the relation grows, and a build with assertions stops if the new page has. -/
theorem searchPageFreeSpace_noFit (h : NoFit s need) : t.searchPageFreeSpace none need s =
    if s.pagesCount = PageNumber.Invalid then (.error (.runtimeError "could not write page: pageno is invalid"), s)
    else if t.dbg = true ∧ need ≤ emptySpace then (.error .assertion, s.grown)
      else (.ok s.pagesCount, s.grown) := by
  unfold searchPageFreeSpace
  rw [Fallible.bind_ok (Fallible.get_apply s), Fallible.bind_ok (searchPages_noFit h)]
  simp only
  split_ifs with hinv hdbg
  · have he : extendRelation s = (.error (.runtimeError "could not write page: pageno is invalid"), s) :=
      if_pos hinv
    rw [Fallible.bind_error he]
  all_goals
    rw [Fallible.bind_ok (extendRelation_eq hinv), Fallible.bind_ok changePage_new]
    simp only [Fallible.bind_apply, getPage, grown_page, getFreeSpace_init, Fallible.ofExcept]
  · rw [hdbg.1, decide_eq_false (Nat.not_lt.2 hdbg.2)]
    rfl
  · rw [HeapPage.assert_true]
    · rfl
    · intro hd
      exact decide_eq_true (Nat.lt_of_not_le fun hle => hdbg ⟨hd, hle⟩)

theorem performInsert_eq (t : HeapTable V) (p : Nat) (bytes : List UInt8) (s : HeapStore) :
    ∃ s1 lsn, s1.page = s.page ∧
    s1.size = s.size ∧ t.performInsert p bytes s = changePage p (HeapPage.insertLast t.dbg · lsn bytes) s1 := by
  let record : HeapUndoRecord := .Delete t.tableId ⟨p, HeapPage.itemsCount (s.page p)⟩
  let walRecord : HeapWALRecord := .Insert ⟨p, HeapPage.itemsCount (s.page p)⟩ bytes
  refine ⟨(writeLogRecord walRecord (insertUndoRecord record s).2).2, s.walEnd + 24 + walRecord.calculateSize + 1,
    rfl, rfl, ?_⟩
  simp only [performInsert, Fallible.bind_apply, getPage, insertUndoRecord, writeLogRecord, record, walRecord]

theorem changePage_cases (p : Nat) (f : Memory → Except Fault Memory) (s : HeapStore) :
    (∃ page', f (s.page p) = .ok page' ∧ changePage p f s =
      (.ok (), { s with page := Function.update s.page p page' })) ∨
      ∃ e, f (s.page p) = .error e ∧ changePage p f s = (.error e, s) := by
  cases h : f (s.page p) with
  | ok page' => exact .inl ⟨page', rfl, changePage_eq h⟩
  | error e =>
    refine .inr ⟨e, rfl, ?_⟩
    unfold changePage
    simp only [Fallible.bind_apply, getPage, Fallible.ofExcept, h]

/-- The change of a page by an insert, if there is one. -/
theorem performInsert_cases (t : HeapTable V) (p : Nat) (bytes : List UInt8) (s : HeapStore) :
    ∃ u, u.size = s.size ∧
    ((∃ lsn page', HeapPage.insertLast t.dbg (s.page p) lsn bytes = .ok page' ∧
      u.page = Function.update s.page p page' ∧
        t.performInsert p bytes s = (.ok (), u)) ∨
      ∃ lsn e, HeapPage.insertLast t.dbg (s.page p) lsn bytes = .error e ∧ u.page = s.page ∧
        t.performInsert p bytes s = (.error e, u)) := by
  obtain ⟨s1, lsn, hp, hs, e⟩ := performInsert_eq t p bytes s
  rw [e]
  rcases changePage_cases p (HeapPage.insertLast t.dbg · lsn bytes) s1 with ⟨page', h, e⟩ | ⟨e', h, e⟩
  · exact ⟨{ s1 with page := Function.update s1.page p page' }, hs, .inl ⟨lsn, page', hp ▸ h, by rw [hp], e⟩⟩
  · exact ⟨_, hs, .inr ⟨lsn, e', hp ▸ h, hp, e⟩⟩

theorem insertTuple_unserialized {e : Fault} (h : t.serialize (t.newHeader values) values = .error e) :
    t.insertTuple values (fuel + 1) s = (.error e, s) := by
  rw [insertTuple_succ]
  simp only [Fallible.bind_apply, Fallible.ofExcept, h]

theorem insertTuple_firstFit (hser : t.serialize (t.newHeader values) values = .ok bytes)
    (h : FirstFit s (bytes.length + ItemId.size) p) :
    t.insertTuple values (fuel + 1) s = t.performInsert p bytes s := by
  rw [insertTuple_succ]
  simp only [Fallible.bind_apply, Fallible.ofExcept, hser, searchPageFreeSpace_firstFit h, getPage]
  rw [if_neg (Nat.not_lt.2 h.fits)]

/-- No page has room: the relation grows, for a tuple that is too large again in every round. -/
theorem insertTuple_noFit (hser : t.serialize (t.newHeader values) values = .ok bytes)
    (h : NoFit s (bytes.length + ItemId.size)) : t.insertTuple values (fuel + 1) s =
      if s.pagesCount = PageNumber.Invalid then (.error (.runtimeError "could not write page: pageno is invalid"),
        s)
      else if t.dbg = true ∧ bytes.length + ItemId.size ≤ emptySpace then (.error .assertion, s.grown)
      else if bytes.length + ItemId.size ≤ emptySpace then t.performInsert s.pagesCount bytes s.grown
      else t.insertTuple values fuel s.grown := by
  rw [insertTuple_succ]
  simp only [Fallible.bind_apply, Fallible.ofExcept, hser, searchPageFreeSpace_noFit h]
  by_cases hinv : s.pagesCount = PageNumber.Invalid
  · simp only [if_pos hinv]
  by_cases hdbg : t.dbg = true ∧ bytes.length + ItemId.size ≤ emptySpace
  · simp only [if_neg hinv, if_pos hdbg]
  simp only [if_neg hinv, if_neg hdbg, getPage, grown_page, getFreeSpace_init]
  by_cases hfit : bytes.length + ItemId.size ≤ emptySpace
  · rw [if_pos hfit, if_neg (Nat.not_lt.2 hfit)]
  · rw [if_neg hfit, if_pos (Nat.lt_of_not_le hfit)]

/-! ## One page over a run of inserts -/

/-- A page of the relation is as it was, or the tuple was put on it. -/
theorem insertTuple_page (t : HeapTable V) (values : V) (fuel : Nat) {s : HeapStore} (hp : p < s.pagesCount) :
    p < ((t.insertTuple values fuel).exec s).pagesCount ∧ (((t.insertTuple values fuel).exec s).page p = s.page p ∨
      ∃ bytes lsn, t.serialize (t.newHeader values) values = .ok bytes ∧
        bytes.length + ItemId.size ≤ HeapPage.getFreeSpace (s.page p) ∧
        HeapPage.insertLast t.dbg (s.page p) lsn bytes = .ok (((t.insertTuple values fuel).exec s).page p)) := by
  have hcount : ∀ u : HeapStore, u.size = s.size → p < u.pagesCount := fun u hu => by
    unfold pagesCount at *
    rwa [hu]
  unfold Fallible.exec
  induction fuel generalizing s with
  | zero => exact ⟨hp, .inl rfl⟩
  | succ fuel ih =>
    cases hser : t.serialize (t.newHeader values) values with
    | error e =>
      rw [insertTuple_unserialized hser]
      exact ⟨hp, .inl rfl⟩
    | ok bytes =>
      rcases fits_or_not s (bytes.length + ItemId.size) with ⟨q, hq⟩ | hno
      · rw [insertTuple_firstFit hser hq]
        obtain ⟨u, hu, ⟨lsn, page', hi, hpage, e⟩ | ⟨lsn, e', hi, hpage, e⟩⟩ := performInsert_cases t q bytes s
        · rw [e]
          refine ⟨hcount u hu, ?_⟩
          by_cases hqp : p = q
          · subst hqp
            refine .inr ⟨bytes, lsn, rfl, hq.fits, ?_⟩
            rw [hi, hpage, Function.update_self]
          · exact .inl (by rw [hpage, Function.update_of_ne hqp])
        · rw [e]
          exact ⟨hcount u hu, .inl (by rw [hpage])⟩
      · have hne : p ≠ s.pagesCount := Nat.ne_of_lt hp
        have hgrown : p < s.grown.pagesCount := Nat.lt_of_lt_of_le hp le_grown_pagesCount
        rw [insertTuple_noFit hser hno]
        split_ifs
        · exact ⟨hp, .inl rfl⟩
        · exact ⟨hgrown, .inl (grown_page_ne hne)⟩
        · obtain ⟨u, hu, ⟨lsn, page', hi, hpage, e⟩ | ⟨lsn, e', hi, hpage, e⟩⟩ :=
            performInsert_cases t s.pagesCount bytes s.grown
          · rw [e]
            refine ⟨by unfold pagesCount at *; rwa [hu], .inl ?_⟩
            rw [hpage, Function.update_of_ne hne, grown_page_ne hne]
          · rw [e]
            refine ⟨by unfold pagesCount at *; rwa [hu], .inl ?_⟩
            rw [hpage, grown_page_ne hne]
        · have := ih hgrown fun u hu => by unfold pagesCount at *; rwa [hu]
          rwa [grown_page_ne hne, hser] at this

end HeapTable

/-- A page with the layout whose items all have a tuple. -/
structure HeapPage.Clean (page : Memory) : Prop where
  layout : HeapPage.Layout page
  normal : ∀ i < HeapPage.itemsCount page, (HeapPage.itemAt page i).isNormal = true

/-- The page is clean, with the items and the tuples that it had before. -/
structure HeapPage.Keeps (page page' : Memory) : Prop where
  clean : HeapPage.Clean page'
  count : HeapPage.itemsCount page ≤ HeapPage.itemsCount page'
  items : ∀ i < HeapPage.itemsCount page, HeapPage.itemAt page' i = HeapPage.itemAt page i
  slots : ∀ i < HeapPage.itemsCount page, HeapPage.slot page' i = HeapPage.slot page i

namespace HeapPage

variable {page page' page'' : Memory} {bytes : List UInt8}

/-- A tuple that is let on an initialised page has room there when it is aligned, too. -/
theorem roomy_init {size : Nat} (page : Memory) (h : size + ItemId.size ≤ getFreeSpace (init page)) :
    Roomy (init page) size := by
  unfold Roomy BitUtils.maxAlign
  rw [HeapStore.getFreeSpace_init, HeapStore.emptySpace] at *
  simp only [ItemId.size, Config.PageSize, SizeOfHeapPageHeader] at *
  omega

theorem clean_init (page : Memory) : Clean (init page) := by
  have hcount : itemsCount (init page) = 0 := by
    rw [itemsCount_eq (by rw [lower_init]), lower_init]
    rfl
  have hnone : ∀ i, ¬ i < itemsCount (init page) := fun i hi => by omega
  refine ⟨⟨by rw [lower_init], ?_, by rw [upper_init], fun i hi => (hnone i hi).elim,
    fun i hi => (hnone i hi).elim⟩, fun i hi => (hnone i hi).elim⟩
  rw [lower_init, upper_init]
  decide

theorem Keeps.refl (h : Clean page) : Keeps page page := ⟨h, Nat.le_refl _, fun _ _ => rfl, fun _ _ => rfl⟩

theorem Keeps.trans (h : Keeps page page') (h' : Keeps page' page'') : Keeps page page'' :=
  ⟨h'.clean, Nat.le_trans h.count h'.count, fun i hi => (h'.items i (Nat.lt_of_lt_of_le hi h.count)).trans
    (h.items i hi), fun i hi => (h'.slots i (Nat.lt_of_lt_of_le hi h.count)).trans (h.slots i hi)⟩

theorem not_dead {i : ItemId} (h : i.isNormal = true) : i.isDead = false := by
  unfold ItemId.isNormal at h
  unfold ItemId.isDead
  rw [beq_iff_eq] at h
  rw [h]
  rfl

theorem Appended.keeps (h : Appended page page' bytes) (hc : Clean page) : Keeps page page' := by
  refine ⟨⟨h.layout,
    fun i hi => ?_⟩, by rw [h.count]; omega, h.items, fun i hi => h.slots i hi (not_dead (hc.normal i hi))⟩
  rw [h.count] at hi
  rcases Nat.lt_succ_iff_lt_or_eq.1 hi with hi | rfl
  · rw [h.items i hi]
    exact hc.normal i hi
  · exact h.new

end HeapPage

namespace HeapTable

open HeapStore

structure InsertCall (V : Type) where
  table : HeapTable V
  values : V
  fuel : Nat

variable {V : Type}

def InsertCall.run (c : InsertCall V) : HeapM Unit := c.table.insertTuple c.values c.fuel

/-- The table after calls that return or fail one after the other. -/
def afterInserts (s : HeapStore) (calls : List (InsertCall V)) : HeapStore :=
  calls.foldl (fun s c => c.run.exec s) s

/-- If the test lets the tuple on the page, there is room for it when it is aligned. -/
def InsertCall.Aligned (c : InsertCall V) (page : Memory) : Prop :=
  ∀ bytes, c.table.serialize (c.table.newHeader c.values) c.values = .ok bytes →
    bytes.length + ItemId.size ≤ HeapPage.getFreeSpace page → HeapPage.Roomy page bytes.length

theorem afterInserts_append (s : HeapStore) (calls calls' : List (InsertCall V)) :
    afterInserts s (calls ++ calls') = afterInserts (afterInserts s calls) calls' := List.foldl_append ..

theorem InsertCall.keeps (c : InsertCall V) {s : HeapStore} {p : Nat} (hp : p < s.pagesCount)
    (hc : HeapPage.Clean (s.page p)) (ha : c.Aligned (s.page p)) :
    p < (c.run.exec s).pagesCount ∧ HeapPage.Keeps (s.page p) ((c.run.exec s).page p) := by
  obtain ⟨hp', hpage⟩ := insertTuple_page c.table c.values c.fuel hp
  refine ⟨hp', ?_⟩
  unfold InsertCall.run
  rcases hpage with e | ⟨bytes, lsn, hser, hfit, hi⟩
  · rw [e]
    exact .refl hc
  · have hr := ha bytes hser hfit
    rw [HeapPage.insertLast_inserted (hr.spacious hc.layout) hi]
    exact (HeapPage.appended_inserted hc.layout hr lsn).keeps hc

/-- Inserts from an initialised page on keep it clean, with every item and tuple that was put on it. -/
theorem inserts_keep {calls : List (InsertCall V)} {s : HeapStore} {p : Nat} (hp : p < s.pagesCount)
    (hinit : ∃ page, s.page p = HeapPage.init page)
    (ha : ∀ before c after, calls = before ++ c :: after → c.Aligned ((afterInserts s before).page p)) :
    ∀ before between after, calls = before ++ between ++ after →
      HeapPage.Keeps ((afterInserts s before).page p) ((afterInserts s (before ++ between)).page p) := by
  obtain ⟨page, hpage⟩ := hinit
  have hreach : ∀ (between before after : List (InsertCall V)), calls = before ++ between ++ after →
      p < (afterInserts s before).pagesCount → HeapPage.Clean ((afterInserts s before).page p) →
      p < (afterInserts s (before ++ between)).pagesCount ∧
        HeapPage.Keeps ((afterInserts s before).page p) ((afterInserts s (before ++ between)).page p) := by
    intro between
    induction between with
    | nil =>
      intro before after _ hp hc
      rw [List.append_nil]
      exact ⟨hp, .refl hc⟩
    | cons c between ih =>
      intro before after e hp hc
      have hstep := c.keeps hp hc (ha before c (between ++ after) (by rw [e]; simp))
      have hsnoc : afterInserts s (before ++ [c]) = c.run.exec (afterInserts s before) := by
        rw [afterInserts_append]
        rfl
      rw [← hsnoc] at hstep
      have hrest := ih (before ++ [c]) after (by rw [e]; simp) hstep.1 hstep.2.clean
      rw [List.append_assoc] at hrest
      exact ⟨hrest.1, hstep.2.trans hrest.2⟩
  intro before between after e
  have hbefore := hreach before [] (between ++ after) (by rw [e]; simp) hp (by
    show HeapPage.Clean (s.page p)
    rw [hpage]
    exact HeapPage.clean_init page)
  exact (hreach between before after e hbefore.1 hbefore.2.clean).2

/-- A table of byte strings. -/
def rawTable (dbg : Bool) : HeapTable (List UInt8) := ⟨dbg, 1, 2, .ok, fun _ => false⟩

/-- A relation of `n` initialised pages. -/
def initialised (n : Nat) : HeapStore :=
  ⟨Config.PageSize * n, fun _ => HeapPage.init fun _ => 0, fun _ => false, 0, fun _ => none, 0, []⟩

/-- Two tuples of 25 and 28 bytes. -/
theorem inserts_keep_two : HeapPage.Keeps ((initialised 1).page 0)
    ((afterInserts (initialised 1) [⟨rawTable true, [7], 1⟩, ⟨rawTable true, [1, 2, 3, 4], 1⟩]).page 0) := by
  refine inserts_keep (p := 0) (by decide) ⟨_, rfl⟩ (fun before c after e => ?_) [] [_, _] [] rfl
  rcases before with _ | ⟨c₁, _ | ⟨c₂, before⟩⟩
  · injection e with e _
    subst e
    intro bytes hser _
    cases hser
    decide +kernel
  · injection e with e₁ e
    injection e with e _
    subst e₁ e
    intro bytes hser _
    cases hser
    decide +kernel
  · have := congrArg List.length e
    simp at this

theorem InsertCall.run_firstFit (c : InsertCall V) {s : HeapStore} {p : Nat} (bytes : List UInt8) {fuel : Nat}
    (hf : c.fuel = fuel + 1) (hser : c.table.serialize (c.table.newHeader c.values) c.values = .ok bytes)
    (h : FirstFit s (bytes.length + ItemId.size) p) :
    ∃ lsn, ∀ page', HeapPage.insertLast c.table.dbg (s.page p) lsn bytes = .ok page' →
    (c.run.exec s).page p = page' := by
  obtain ⟨u, -, ⟨lsn, page', hi, hpage, e⟩ | ⟨lsn, e', hi, hpage, e⟩⟩ := performInsert_cases c.table p bytes s
  all_goals
    refine ⟨lsn, fun page hp => ?_⟩
    unfold Fallible.exec InsertCall.run
    rw [hf, insertTuple_firstFit hser h, e]
    rw [hi] at hp
    cases hp
  rw [hpage, Function.update_self]

/-- A tuple that has room only as it is breaks the layout of the page. -/
theorem InsertCall.overlaps (c : InsertCall V) {s : HeapStore} {p : Nat} (bytes : List UInt8) {fuel : Nat}
    (hf : c.fuel = fuel + 1) (hser : c.table.serialize (c.table.newHeader c.values) c.values = .ok bytes)
    (h : FirstFit s (bytes.length + ItemId.size) p)
    (hd : c.table.dbg = false) (hl : HeapPage.Layout (s.page p)) (he : HeapPage.Even (s.page p))
    (hr : ¬ HeapPage.Roomy (s.page p) bytes.length) : ¬ HeapPage.Layout ((c.run.exec s).page p) := by
  obtain ⟨lsn, hrun⟩ := c.run_firstFit bytes hf hser h
  obtain ⟨page', hi⟩ := HeapPage.insertLast_release hl he h.fits lsn
  rw [hrun page' (hd ▸ hi)]
  exact HeapPage.insertLast_overlaps hl he h.fits hr hi

theorem afterInserts_pair (s : HeapStore) (c c' : InsertCall V) :
    afterInserts s [c, c'] = c'.run.exec (c.run.exec s) := rfl

/-- A tuple of 32 bytes, and one of 8140 for which 8144 are left: the second one is written over its own item. -/
theorem inserts_overlap : ¬ HeapPage.Layout ((afterInserts (initialised 1)
    [⟨rawTable false, List.replicate 8 0, 1⟩, ⟨rawTable false, List.replicate 8116 0, 1⟩]).page 0) := by
  let tuple (n : Nat) :=
    HeapPageTupleHeader.toBytes ⟨2, UndoSeqNumber.Invalid, ⟨false, false⟩⟩ ++ List.replicate n (0 : UInt8)
  have hlen : ∀ n, (tuple n).length = 24 + n := fun n => by
    rw [List.length_append, HeapPageTupleHeader.toBytes_length, List.length_replicate]
    rfl
  let page := HeapPage.init fun _ => 0
  obtain ⟨s1, hs1⟩ : ∃ s1, s1 = (InsertCall.run ⟨rawTable false, List.replicate 8 0, 1⟩).exec (initialised 1) :=
    ⟨_, rfl⟩
  have hfirst :
    ∀ u : HeapStore, 0 < u.pagesCount → ∀ need, need ≤ HeapPage.getFreeSpace (u.page 0) → FirstFit u need 0 :=
    fun u hu need hn => ⟨hu, hn, fun q hq => by omega⟩
  -- the first tuple fills four words of eight bytes
  have hl : HeapPage.Layout page := (HeapPage.clean_init _).layout
  have hr : HeapPage.Roomy page (tuple 8).length := by
    rw [hlen, HeapPage.Roomy, getFreeSpace_init]
    decide
  obtain ⟨lsn, hrun⟩ := InsertCall.run_firstFit ⟨rawTable false, List.replicate 8 0, 1⟩ (tuple 8) rfl rfl
    (hfirst (initialised 1) (by decide) _ (by rw [hlen]; exact (getFreeSpace_init _).symm ▸ (by decide)))
  have hpage : s1.page 0 = HeapPage.inserted page lsn (tuple 8) :=
    hs1 ▸ hrun _ (HeapPage.insertLast_eq hl hr (by simp [tuple, HeapPageTupleHeader.toBytes, encodeLE]) nofun)
  have hl1 := (HeapPage.appended_inserted hl hr lsn).layout
  have he1 := HeapPage.even_inserted hl hr HeapPage.even_init lsn
  have hfree : HeapPage.getFreeSpace (s1.page 0) = 8144 := by
    rw [hpage, HeapPage.getFreeSpace_eq hl1.free, HeapPage.lower_inserted (hr.spacious hl),
      HeapPage.upper_inserted (hr.spacious hl), hlen, HeapPage.lower_init, HeapPage.upper_init]
    rfl
  -- the second one starts where its item ends up
  have hfit : (tuple 8116).length + ItemId.size ≤ HeapPage.getFreeSpace (s1.page 0) := by
    rw [hlen, hfree]
    decide
  have hr1 : ¬ HeapPage.Roomy (s1.page 0) (tuple 8116).length := by
    rw [hlen, HeapPage.Roomy, hfree]
    decide
  have hp1 : 0 < s1.pagesCount :=
    hs1 ▸ (insertTuple_page (rawTable false) _ 1 (p := 0) (s := initialised 1) (by decide)).1
  rw [← hpage] at hl1 he1
  have hoverlap :=
    InsertCall.overlaps ⟨rawTable false, List.replicate 8116 0, 1⟩ (tuple 8116) rfl rfl (hfirst s1 hp1 _ hfit) rfl
    hl1 he1 hr1
  rw [afterInserts_pair]
  subst hs1
  exact hoverlap

end HeapTable

end Mimidb
