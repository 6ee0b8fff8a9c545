import Mimidb.HeapTable
import Mimidb.TransactionSound

/-!
# Pages added during a scan

A table among the transactions that read and change it: scans with the page
count of `BeginScan`, extensions of the relation in their two steps, and every
header that was ever written to a page. The writer of a page that was not
counted yet takes its number after the snapshot, or writes behind the
command id.
-/

namespace Mimidb

structure TableRun (W : Type) where
  tm : TransManager W
  /-- Bytes of the relation file. -/
  size : Nat
  /-- The page count that the `ExtendRelation` of a worker has read. -/
  extending : W → Option Nat
  /-- The pages that were added. -/
  pages : List Nat
  /-- Every header that was written, with its page; an undo writes back what the page had. -/
  placed : List (Nat × HeapPageTupleHeader)
  /-- The scans of the statements that run. -/
  scans : W → Option HeapTableScan

inductive TableOp where
  | trans (op : TransOp)
  | beginScan
  | endScan
  -- `ExtendRelation`: `GetPagesCount`, then `Extend` with the bytes that were written
  | readCount
  | extend (written : Nat)
  | insert (pageno : Nat) (usn : Int) (flags : HeapTupleFlags)
  /-- An update or a delete; an update to a new slot also changes the header in the old one. -/
  | change (pageno : Nat) (usn : Int) (flags : HeapTupleFlags) (old : Option (Nat × HeapTupleFlags))
  deriving DecidableEq

namespace TableRun

variable {W : Type} [DecidableEq W]

def start (size : Nat) : TableRun W := ⟨.init, size, fun _ => none, [], [], fun _ => none⟩

def pagesCount (s : TableRun W) : Nat := s.size / Config.PageSize % 2 ^ 32

/-- A page that a search or an extension can have found. -/
def isPage (s : TableRun W) (pageno : Nat) : Bool := decide (pageno < s.pagesCount) || decide (pageno ∈ s.pages)

def idle (s : TableRun W) (w : W) : Option Transaction := if s.tm.pc w = .idle then s.tm.transactions w else none

/-- What a statement may do while its scan is open. -/
def duringScan : TransOp → Bool
  | .visible _ | .wait _ | .run => true
  | _ => false

/-- A change with its undo record and the headers that it writes. -/
def write (s : TableRun W) (w : W) (usn undo : Int) (places : List (Nat × HeapTupleFlags)) : Option (TableRun W) :=
  match s.idle w, places with
  | some tr, (pageno, flags) :: _ =>
    if s.isPage pageno && places.all fun place => s.isPage place.1 then
      (s.tm.step (w, .write usn undo flags)).map fun tm =>
        { s with tm := tm, placed := places.map (fun place => (place.1, ⟨tr.xid, undo, place.2⟩)) ++ s.placed }
    else none
  | _, _ => none

def step (s : TableRun W) : W × TableOp → Option (TableRun W)
  | (_, .trans (.write _ _ _)) => none
  | (w, .trans op) =>
    if s.scans w = none ∨ duringScan op = true then (s.tm.step (w, op)).map fun tm => { s with tm := tm } else none
  | (w, .beginScan) =>
    match s.scans w, (s.idle w).bind Transaction.snapshot with
    | none, some snapshot =>
      some { s with scans := Function.update s.scans w (some ⟨⟨0, 0⟩, s.pagesCount, snapshot, s.pagesCount == 0⟩) }
    | _, _ => none
  | (w, .endScan) => some { s with scans := Function.update s.scans w none }
  | (w, .readCount) => (s.idle w).map fun _ =>
    { s with extending := Function.update s.extending w (some s.pagesCount) }
  | (w, .extend written) =>
    match s.extending w with
    | none => none
    | some nblocks =>
      if nblocks = PageNumber.Invalid then some { s with extending := Function.update s.extending w none }
      else some { s with
        size := max s.size (Config.PageSize * nblocks % 2 ^ 32 + written)
        extending := Function.update s.extending w none
        pages := nblocks :: s.pages }
  | (w, .insert pageno usn flags) => s.write w usn UndoSeqNumber.Invalid [(pageno, flags)]
  | (w, .change pageno usn flags old) => s.write w usn usn ((pageno, flags) :: old.toList)

/-- `tuple_is_visible` returns true. -/
def Visible (s : TableRun W) (reader : Nat) (snapshot : Snapshot) (header : HeapPageTupleHeader) : Prop :=
  if header.xid = reader then ownIsVisible snapshot header = true
  else s.tm.history header.xid ≠ CommitSeqNumber.Committing ∧ csnIsVisible snapshot (s.tm.history header.xid) = true

/-- No tuple that an open scan would see was ever on a page that the scan does not count. -/
def NothingLost (s : TableRun W) : Prop :=
  ∀ w scan tr, s.scans w = some scan → s.tm.transactions w = some tr → ∀ place ∈ s.placed,
    scan.lastPageNumber ≤ place.1 → ¬ s.Visible tr.xid scan.snapshot place.2

/-- A page that is added is written where it belongs and as a whole, and a statement does not insert
after earlier changes while its own scan is open. -/
def Counted (s : TableRun W) (a : W × TableOp) : Prop :=
  match a.2 with
  | .extend written => ∀ nblocks ∈ s.extending a.1, nblocks < 2 ^ 19 ∧ written = Config.PageSize
  | .insert _ _ _ => ∀ scan ∈ s.scans a.1, scan.snapshot.cid = UndoSeqNumber.Invalid
  | _ => True

/-- The 64 bit counters do not wrap. -/
def noWrap (s : TableRun W) (_ : W × TableOp) : Prop :=
  s.tm.csn + 1 < TransManager.counter ∧ s.tm.xid + 1 < TransManager.counter

instance (s : TableRun W) (a : W × TableOp) : Decidable (s.noWrap a) := inferInstanceAs (Decidable (_ ∧ _))

end TableRun

/-! ## Undo numbers -/

namespace TransManager

variable {W : Type} [DecidableEq W] {s t : TransManager W} {w : W}

/-- The undo records of the transactions are in the log, and no command id is past its end. -/
structure Logged (s : TransManager W) : Prop where
  nonneg : 0 ≤ s.usn
  last : ∀ w tr, s.transactions w = some tr → tr.lastUsn ≤ s.usn
  cid : ∀ w tr S, s.transactions w = some tr → tr.snapshot = some S → S.cid ≤ s.usn + 1

theorem transaction_step {op : TransOp} {tr' : Transaction} (h : s.step (w, op) = some t)
    (ht : t.transactions w = some tr') :
    (t.usn = s.usn ∧ ∃ x, tr' = .new x) ∨ ∃ tr, s.transactions w = some tr ∧
      ((t.usn = s.usn ∧ (tr' = tr ∨ tr' = tr.beginNewStatement s.csn ∨
        tr' = { tr with undoLog := tr.undoLog.map fun _ => [] })) ∨
        ∃ usn, s.usn < usn ∧ t.usn = usn ∧ tr' = tr.log usn) := by
  cases op with
  | run =>
    simp only [TransManager.step, Option.bind_eq_some_iff] at h
    obtain ⟨tr, hs, h⟩ := h
    refine .inr ⟨tr, hs, .inl ?_⟩
    cases hp : s.pc w <;> rw [hp] at h <;> simp only [runPc, locked, eraseWorker] at h
    all_goals
      repeat' split at h
      all_goals cases h
      all_goals simp [hs] at ht
      all_goals exact ⟨rfl, .inl ht.symm⟩
  | beginNewTransaction =>
    simp only [TransManager.step] at h
    split_ifs at h
    cases h
    simp only [setTransaction, goto, Function.update_self, Option.some.injEq] at ht
    exact .inl ⟨rfl, _, ht.symm⟩
  | write usn undo flags =>
    cases hs : s.transactions w with
    | none => simp [TransManager.step, hs] at h
    | some tr =>
      simp only [TransManager.step, hs] at h
      split_ifs at h with hidle hw
      cases h
      simp only [setTransaction, Function.update_self, Option.some.injEq] at ht
      exact .inr ⟨tr, rfl, .inr ⟨usn, hw.1, rfl, ht.symm⟩⟩
  | _ =>
    cases hs : s.transactions w with
    | none => simp [TransManager.step, hs] at h
    | some tr =>
      refine .inr ⟨tr, rfl, .inl ?_⟩
      simp only [TransManager.step, hs] at h
      repeat' split at h
      all_goals cases h
      all_goals simp [hs] at ht
      all_goals simp [← ht]

theorem lastUsn_beginNewStatement (tr : Transaction) (csn : Nat) :
    (tr.beginNewStatement csn).lastUsn = tr.lastUsn := by
  unfold Transaction.beginNewStatement
  split
  · rfl
  · split <;> rfl

theorem cid_beginNewStatement {tr : Transaction} {csn : Nat} {S : Snapshot}
    (h : (tr.beginNewStatement csn).snapshot = some S) :
    S.cid = UndoSeqNumber.Invalid ∨ tr.snapshot = some S ∨ S.cid = tr.lastUsn + 1 := by
  unfold Transaction.beginNewStatement at h
  split at h
  · cases h
    exact .inl rfl
  · split at h
    · cases h
      exact .inr (.inr rfl)
    · exact .inr (.inl h)

omit [DecidableEq W] in
theorem Logged.init : Logged (init : TransManager W) := ⟨Int.le_refl _, nofun, nofun⟩

theorem usn_step {op : TransOp} (h : s.step (w, op) = some t) : s.usn ≤ t.usn := by
  cases op with
  | run =>
    simp only [TransManager.step, Option.bind_eq_some_iff] at h
    obtain ⟨tr, hs, h⟩ := h
    cases hp : s.pc w <;> rw [hp] at h <;> simp only [runPc, locked, eraseWorker] at h
    all_goals
      repeat' split at h
      all_goals cases h
      all_goals exact Int.le_refl _
  | write usn undo flags =>
    cases hs : s.transactions w with
    | none => simp [TransManager.step, hs] at h
    | some tr =>
      simp only [TransManager.step, hs] at h
      split_ifs at h with hidle hw
      cases h
      exact Int.le_of_lt hw.1
  | beginNewTransaction =>
    simp only [TransManager.step] at h
    split_ifs at h
    cases h
    exact Int.le_refl _
  | _ =>
    cases hs : s.transactions w with
    | none => simp [TransManager.step, hs] at h
    | some tr =>
      simp only [TransManager.step, hs] at h
      repeat' split at h
      all_goals cases h
      all_goals exact Int.le_refl _

theorem Logged.step {op : TransOp} (hl : Logged s) (h : s.step (w, op) = some t) : Logged t := by
  have hle := usn_step h
  have hnonneg := hl.nonneg
  refine ⟨by omega, fun v tr' hv => ?_, fun v tr' S hv hS => ?_⟩
  · by_cases e : v = w
    · subst e
      rcases transaction_step h hv with ⟨-, x, rfl⟩ | ⟨tr, hs, ⟨hu, rfl | rfl | rfl⟩ | ⟨usn, -, hu, rfl⟩⟩
      · show (0 : Int) ≤ t.usn
        omega
      · rw [hu]
        exact hl.last v _ hs
      · rw [hu, lastUsn_beginNewStatement]
        exact hl.last v tr hs
      · have hzero : ({ tr with undoLog := tr.undoLog.map fun _ => [] } : Transaction).lastUsn = 0 := by
          cases tr.undoLog <;> rfl
        rw [hzero]
        omega
      · rw [hu]
        exact Int.le_refl _
    · rw [(step_ne h e).2] at hv
      have := hl.last v tr' hv
      omega
  · by_cases e : v = w
    · subst e
      rcases transaction_step h hv with ⟨-, x, rfl⟩ | ⟨tr, hs, ⟨hu, rfl | rfl | rfl⟩ | ⟨usn, -, hu, rfl⟩⟩
      · cases hS
      · rw [hu]
        exact hl.cid v _ S hs hS
      · have hlast := hl.last v tr hs
        rcases cid_beginNewStatement hS with hc | hc | hc
        · simp only [hc, UndoSeqNumber.Invalid]
          omega
        · have := hl.cid v tr S hs hc
          omega
        · omega
      · have := hl.cid v tr S hs hS
        omega
      · have := hl.cid v tr S hs hS
        omega
    · rw [(step_ne h e).2] at hv
      have := hl.cid v tr' S hv hS
      omega

/-- Inside a call that a statement makes while it scans, or between two. -/
def calling : TransPc W → Prop
  | .idle | .readCsn _ | .waitFind _ | .waitCheck _ _ | .waitLatch _ => True
  | _ => False

theorem calling_step {op : TransOp} {tr : Transaction} (hop : TableRun.duringScan op = true)
    (h : s.step (w, op) = some t) (hp : calling (s.pc w))
    (hs : s.transactions w = some tr) : t.transactions w = some tr ∧ calling (t.pc w) := by
  cases op with
  | run =>
    simp only [TransManager.step, hs, Option.bind_some] at h
    cases hpc : s.pc w <;> rw [hpc] at h hp <;> simp only [runPc, locked] at h
    all_goals
      repeat' split at h
      all_goals cases h
      all_goals simp [hs, hpc, calling] at hp ⊢
  | visible header =>
    simp only [TransManager.step, hs] at h
    repeat' split at h
    all_goals cases h
    all_goals simp_all [calling]
  | wait x =>
    simp only [TransManager.step, hs] at h
    split_ifs at h
    cases h
    exact ⟨by simpa using hs, by simp [calling]⟩
  | _ => cases hop

theorem write_step {usn undo : Int} {flags : HeapTupleFlags} {tr : Transaction} (hs : s.transactions w = some tr)
    (h : s.step (w, .write usn undo flags) = some t) :
    s.pc w = .idle ∧ s.usn < usn ∧ t.transactions w = some (tr.log usn) ∧ t.pc w = .idle := by
  simp only [TransManager.step, hs] at h
  split_ifs at h with hidle hw
  cases h
  refine ⟨hidle, hw.1, ?_, hidle⟩
  simp

omit [DecidableEq W] in
theorem not_commits {tr : Transaction} (hi : TransInv s) (hs : s.transactions w = some tr) (hp : s.pc w = .idle)
    (c : Nat) :
    ¬ s.Commits tr.xid c := by
  have hphase := hi.phase w tr hs
  rw [hp] at hphase
  rintro (⟨hmin, hc⟩ | ⟨u, r, hr, hx, hpub⟩)
  · rw [hphase.1] at hc
    rw [← hc] at hmin
    exact absurd hmin (by decide)
  · rw [hi.one u w r tr hr hs hx, hp] at hpub
    cases hpub

omit [DecidableEq W] in
theorem commits_of_visible {snapshot : Snapshot} {x : Nat} (hi : TransInv s)
    (h0 : s.history x ≠ CommitSeqNumber.Invalid) (hc : s.history x ≠ CommitSeqNumber.Committing)
    (hv : csnIsVisible snapshot (s.history x) = true) :
    s.Commits x (s.history x) ∧ s.history x < snapshot.csn := by
  by_cases hm : CommitSeqNumber.Min ≤ s.history x
  · rw [csnIsVisible_normal hm] at hv
    exact ⟨.inl ⟨hm, rfl⟩, of_decide_eq_true hv⟩
  · have hf := (hi.history x).2
    simp only [CommitSeqNumber.Min, CommitSeqNumber.Invalid, CommitSeqNumber.Frozen,
      CommitSeqNumber.Committing] at hm h0 hc hf
    have hcases : s.history x = CommitSeqNumber.InProgress ∨ s.history x = CommitSeqNumber.Aborted := by
      simp only [CommitSeqNumber.InProgress, CommitSeqNumber.Aborted]
      omega
    rcases hcases with he | he <;> rw [he] at hv <;> simp at hv

end TransManager

/-! ## The invariant -/

namespace TableRun

variable {W : Type} [DecidableEq W] {s t : TableRun W} {w : W} {tm : TransManager W}

/-- A header on a page that an open scan does not count: an own one is behind the command id, and
who wrote another one takes its number after the snapshot. -/
def Unseen (s : TableRun W) (scan : HeapTableScan) (tr : Transaction) (place : Nat × HeapPageTupleHeader) : Prop :=
  scan.lastPageNumber ≤ place.1 →
    (place.2.xid = tr.xid → scan.snapshot.cid ≤ place.2.undo) ∧
    (place.2.xid ≠ tr.xid → ∀ c, s.tm.Commits place.2.xid c → scan.snapshot.csn ≤ c)

structure TableInv (s : TableRun W) : Prop where
  trans : TransManager.TransInv s.tm
  logged : s.tm.Logged
  size : s.size / Config.PageSize < 2 ^ 32
  pages : ∀ p ∈ s.pages, p < s.size / Config.PageSize
  placed :
    ∀ place ∈ s.placed, place.1 < s.size / Config.PageSize ∧ s.tm.history place.2.xid ≠ CommitSeqNumber.Invalid
  scanning : ∀ w scan, s.scans w = some scan →
    TransManager.calling (s.tm.pc w) ∧ ∃ tr, s.tm.transactions w = some tr ∧ tr.snapshot = some scan.snapshot
  unseen :
    ∀ w scan tr, s.scans w = some scan → s.tm.transactions w = some tr → ∀ place ∈ s.placed, s.Unseen scan tr place

omit [DecidableEq W] in
theorem TableInv.pagesCount_eq (h : TableInv s) : s.pagesCount = s.size / Config.PageSize := Nat.mod_eq_of_lt h.size

omit [DecidableEq W] in
theorem TableInv.isPage_lt (h : TableInv s) {p : Nat} (hp : s.isPage p = true) : p < s.size / Config.PageSize := by
  rw [isPage, Bool.or_eq_true, decide_eq_true_eq, decide_eq_true_eq] at hp
  rcases hp with hp | hp
  · rw [← h.pagesCount_eq]
    exact hp
  · exact h.pages p hp

omit [DecidableEq W] in
theorem TableInv.start {size : Nat} (h : size / Config.PageSize < 2 ^ 32) : TableInv (start size : TableRun W) :=
  ⟨.init, .init, h, nofun, nofun, nofun, nofun⟩

omit [DecidableEq W] in
theorem TableInv.nothingLost (h : TableInv s) : s.NothingLost := by
  intro w scan tr hscan htr place hplace hle hvis
  obtain ⟨hown, hother⟩ := h.unseen w scan tr hscan htr place hplace hle
  unfold Visible at hvis
  by_cases hx : place.2.xid = tr.xid
  · rw [if_pos hx, ownIsVisible, Bool.not_eq_true', decide_eq_false_iff_not] at hvis
    exact hvis (hown hx)
  · rw [if_neg hx] at hvis
    obtain ⟨hc, hlt⟩ := TransManager.commits_of_visible h.trans (h.placed place hplace).2 hvis.1 hvis.2
    exact absurd (hother hx _ hc) (by omega)

theorem TableInv.manager {op : TransOp} (h : TableInv s)
    (hw : s.tm.csn + 1 < TransManager.counter ∧ s.tm.xid + 1 < TransManager.counter)
    (ht : s.tm.step (w, op) = some tm)
    (hscan : ∀ scan tr, s.scans w = some scan → s.tm.transactions w = some tr → TransManager.calling (s.tm.pc w) →
      TransManager.calling (tm.pc w) ∧ ∃ tr', tm.transactions w = some tr' ∧ tr'.xid = tr.xid ∧
      tr'.snapshot = tr.snapshot) :
    TableInv { s with tm := tm } := by
  have hback :
    ∀ v scan, s.scans v = some scan → TransManager.calling (tm.pc v) ∧ ∃ tr tr', s.tm.transactions v = some tr ∧
      tr.snapshot = some scan.snapshot ∧ tm.transactions v = some tr' ∧ tr'.xid = tr.xid ∧
      tr'.snapshot = tr.snapshot := by
    intro v scan hv
    obtain ⟨hcall, tr, htr, hsn⟩ := h.scanning v scan hv
    by_cases e : v = w
    · subst e
      obtain ⟨hcall', tr', htr', hx, hsn'⟩ := hscan scan tr hv htr hcall
      exact ⟨hcall', tr, tr', htr, hsn, htr', hx, hsn'⟩
    · obtain ⟨hpc, htrans⟩ := TransManager.step_ne ht e
      exact ⟨by rw [hpc]; exact hcall, tr, tr, htr, hsn, by rw [htrans]; exact htr, rfl, rfl⟩
  refine ⟨h.trans.step hw ht, h.logged.step ht, h.size, h.pages, fun place hp => ?_, fun v scan hv => ?_,
    fun v scan tr' hv htr' place hp hle => ?_⟩
  · exact ⟨(h.placed place hp).1, TransManager.history_step h.trans hw ht (h.placed place hp).2⟩
  · obtain ⟨hcall, tr, tr', -, hsn, htr', -, hsn'⟩ := hback v scan hv
    exact ⟨hcall, tr', htr', hsn'.trans hsn⟩
  · obtain ⟨-, tr, r, htr, hsn, hr, hx, -⟩ := hback v scan hv
    rw [htr'] at hr
    obtain rfl := Option.some.inj hr
    obtain ⟨hown, hother⟩ := h.unseen v scan tr hv htr place hp hle
    refine ⟨fun he => hown (he.trans hx), fun hne c hc => ?_⟩
    rcases TransManager.commits_step h.trans hw ht hc with hc | ⟨rfl, -⟩
    · exact hother (fun he => hne (he.trans hx.symm)) c hc
    · exact h.trans.snapshots v tr scan.snapshot htr hsn

omit [DecidableEq W] in
theorem TableInv.place {tr : Transaction} {undo : Int} {places : List (Nat × HeapTupleFlags)} (h : TableInv s)
    (htr : s.tm.transactions w = some tr) (hpc : s.tm.pc w = .idle)
    (hpages : ∀ place ∈ places, place.1 < s.size / Config.PageSize)
    (hundo : ∀ scan, s.scans w = some scan → scan.snapshot.cid ≤ undo) :
    TableInv { s with placed := places.map (fun place => (place.1, ⟨tr.xid, undo, place.2⟩)) ++ s.placed } := by
  have hphase := h.trans.phase w tr htr
  rw [hpc] at hphase
  refine ⟨h.trans, h.logged, h.size, h.pages, fun place hp => ?_, h.scanning, fun v scan tr' hv htr' place hp => ?_⟩
  · rcases List.mem_append.1 hp with hp | hp
    · obtain ⟨old, hold, rfl⟩ := List.mem_map.1 hp
      refine ⟨hpages old hold, fun he => ?_⟩
      exact absurd (hphase.1.symm.trans he) (by decide)
    · exact h.placed place hp
  · rcases List.mem_append.1 hp with hp | hp
    · obtain ⟨old, hold, rfl⟩ := List.mem_map.1 hp
      refine fun _ => ⟨fun he => ?_, fun _ c hc => absurd hc (TransManager.not_commits h.trans htr hpc c)⟩
      have hvw : w = v := h.trans.one w v tr tr' htr htr' he
      exact hundo scan (hvw ▸ hv)
    · exact h.unseen v scan tr' hv htr' place hp

theorem write_cases {usn undo : Int} {places : List (Nat × HeapTupleFlags)}
    (h : s.write w usn undo places = some t) :
    ∃ tr flags tm, s.tm.pc w = .idle ∧ s.tm.transactions w = some tr ∧
    s.tm.step (w, .write usn undo flags) = some tm ∧
      (∀ place ∈ places, s.isPage place.1 = true) ∧
      t = { s with tm := tm, placed := places.map (fun place => (place.1, ⟨tr.xid, undo, place.2⟩)) ++
      s.placed } := by
  unfold write idle at h
  cases places with
  | nil => split at h <;> simp_all
  | cons place places =>
    by_cases hp : s.tm.pc w = .idle
    · cases htr : s.tm.transactions w with
      | none => simp [hp, htr] at h
      | some tr =>
        simp only [hp, htr, if_true] at h
        split_ifs at h with hpages
        obtain ⟨tm, htm, rfl⟩ := Option.map_eq_some_iff.1 h
        rw [Bool.and_eq_true, List.all_eq_true] at hpages
        exact ⟨tr, place.2, tm, hp, rfl, htm, hpages.2, rfl⟩
    · simp [hp] at h

theorem TableInv.write {usn undo : Int} {places : List (Nat × HeapTupleFlags)} (h : TableInv s)
    (hw : s.tm.csn + 1 < TransManager.counter ∧ s.tm.xid + 1 < TransManager.counter)
    (ht : s.write w usn undo places = some t)
    (hundo : undo = usn ∨ ∀ scan, s.scans w = some scan → scan.snapshot.cid ≤ undo) : TableInv t := by
  obtain ⟨tr, flags, tm, hpc, htr, hstep, hpages, rfl⟩ := write_cases ht
  obtain ⟨-, husn, htr', hpc'⟩ := TransManager.write_step htr hstep
  have hmoved : TableInv { s with tm := tm } := h.manager hw hstep fun scan old hscan hold _ => by
    rw [htr] at hold
    obtain rfl := Option.some.inj hold
    exact ⟨by rw [hpc']; trivial, tr.log usn, htr', rfl, rfl⟩
  have hx : (tr.log usn).xid = tr.xid := rfl
  rw [← hx]
  refine hmoved.place htr' hpc' (fun place hp => h.isPage_lt (hpages place hp)) fun scan hscan => ?_
  rcases hundo with rfl | hundo
  · obtain ⟨-, old, hold, hsn⟩ := h.scanning w scan hscan
    have := h.logged.cid w old scan.snapshot hold hsn
    omega
  · exact hundo scan hscan

omit [DecidableEq W] in
theorem TableInv.extend {nblocks : Nat} {extending : W → Option Nat} (h : TableInv s) (hn : nblocks < 2 ^ 19) :
    TableInv { s with
      size := max s.size (Config.PageSize * nblocks % 2 ^ 32 + Config.PageSize), extending := extending,
      pages := nblocks :: s.pages } := by
  have hsize := h.size
  have hpages := h.pages
  have hplaced := h.placed
  simp only [Config.PageSize] at hsize hpages hplaced ⊢
  have hoffset : 8192 * nblocks % 2 ^ 32 = 8192 * nblocks := Nat.mod_eq_of_lt (by omega)
  rw [hoffset]
  have hgrow : s.size / 8192 ≤ max s.size (8192 * nblocks + 8192) / 8192 :=
    Nat.div_le_div_right (Nat.le_max_left _ _)
  refine ⟨h.trans, h.logged, ?_, fun p hp => ?_, fun place hp => ?_, h.scanning, h.unseen⟩
  · show max s.size (8192 * nblocks + 8192) / 8192 < 2 ^ 32
    omega
  · show p < max s.size (8192 * nblocks + 8192) / 8192
    rcases List.mem_cons.1 hp with rfl | hp
    · omega
    · have := hpages p hp
      omega
  · exact ⟨Nat.lt_of_lt_of_le (hplaced place hp).1 hgrow, (hplaced place hp).2⟩

theorem scan_of_update {new : Option HeapTableScan} {v : W} {scan : HeapTableScan}
    (h : Function.update s.scans w new v = some scan) : v = w ∧ new = some scan ∨ s.scans v = some scan := by
  by_cases e : v = w
  · subst e
    exact .inl ⟨rfl, by rwa [Function.update_self] at h⟩
  · exact .inr (by rwa [Function.update_of_ne e] at h)

theorem TableInv.step {a : W × TableOp} (h : TableInv s) (ha : s.Counted a ∧ s.noWrap a) (ht : s.step a = some t) :
    TableInv t := by
  obtain ⟨w, op⟩ := a
  obtain ⟨hcounted, hwrap⟩ := ha
  cases op with
  | trans op =>
    have hguard : (s.scans w = none ∨ duringScan op = true) ∧ ∃ tm, s.tm.step (w, op) = some tm ∧
        t = { s with tm := tm } := by
      cases op <;> simp only [TableRun.step] at ht
      case write => cases ht
      all_goals
        split_ifs at ht with hg
        obtain ⟨tm, htm, rfl⟩ := Option.map_eq_some_iff.1 ht
        exact ⟨hg, tm, htm, rfl⟩
    obtain ⟨hg, tm, htm, rfl⟩ := hguard
    refine h.manager hwrap htm fun scan tr hscan htr hcall => ?_
    have hduring : duringScan op = true := by
      rcases hg with hg | hg
      · rw [hg] at hscan
        cases hscan
      · exact hg
    obtain ⟨htr', hcall'⟩ := TransManager.calling_step hduring htm hcall htr
    exact ⟨hcall', tr, htr', rfl, rfl⟩
  | beginScan =>
    simp only [TableRun.step, idle] at ht
    split at ht
    · rename_i snapshot hnone hsn
      cases ht
      split_ifs at hsn with hpc
      · obtain ⟨tr, htr, hS⟩ := Option.bind_eq_some_iff.1 hsn
        refine ⟨h.trans, h.logged, h.size, h.pages, h.placed, fun v scan hv => ?_,
          fun v scan tr' hv htr' place hp hle => ?_⟩
        · rcases scan_of_update hv with ⟨rfl, hnew⟩ | hv
          · cases hnew
            exact ⟨by rw [hpc]; trivial, tr, htr, hS⟩
          · exact h.scanning v scan hv
        · rcases scan_of_update hv with ⟨rfl, hnew⟩ | hv
          · cases hnew
            -- every page that has a tuple is counted
            have hplace := (h.placed place hp).1
            have hcount : s.pagesCount ≤ place.1 := hle
            rw [h.pagesCount_eq] at hcount
            omega
          · exact h.unseen v scan tr' hv htr' place hp hle
      · cases hsn
    · cases ht
  | endScan =>
    cases ht
    have hopen : ∀ v scan, Function.update s.scans w none v = some scan → s.scans v = some scan := fun v scan hv =>
      (scan_of_update hv).elim (fun hnew => nomatch hnew.2) id
    exact ⟨h.trans, h.logged, h.size, h.pages, h.placed, fun v scan hv => h.scanning v scan (hopen v scan hv),
      fun v scan tr hv => h.unseen v scan tr (hopen v scan hv)⟩
  | readCount =>
    simp only [TableRun.step] at ht
    obtain ⟨tr, -, rfl⟩ := Option.map_eq_some_iff.1 ht
    exact ⟨h.trans, h.logged, h.size, h.pages, h.placed, h.scanning, h.unseen⟩
  | extend written =>
    simp only [TableRun.step] at ht
    cases he : s.extending w with
    | none => simp [he] at ht
    | some nblocks =>
      rw [he] at ht
      simp only at ht
      split_ifs at ht with hinvalid
      · cases ht
        exact ⟨h.trans, h.logged, h.size, h.pages, h.placed, h.scanning, h.unseen⟩
      · obtain ⟨hlt, rfl⟩ := hcounted nblocks he
        cases ht
        exact h.extend hlt
  | insert pageno usn flags =>
    refine h.write hwrap ht (.inr fun scan hscan => ?_)
    rw [hcounted scan hscan]
  | change pageno usn flags old => exact h.write hwrap ht (.inl rfl)

/-- Stopping at the page count of `BeginScan` loses nothing. -/
theorem nothing_lost {size : Nat} (hsize : size / Config.PageSize < 2 ^ 32)
    (hr : Reach TableRun.step (fun s a => s.Counted a ∧ s.noWrap a) (start size : TableRun W) s) :
    s.NothingLost := by
  have hinv : TableInv s := hr.inv (fun _ _ _ hi ha ht => TableInv.step hi ha ht) (TableInv.start hsize)
  exact hinv.nothingLost

/-! ## Runs -/

instance (s : TableRun W) (reader : Nat) (snapshot : Snapshot) (header : HeapPageTupleHeader) :
    Decidable (s.Visible reader snapshot header) := inferInstanceAs (Decidable
    (if header.xid = reader then ownIsVisible snapshot header = true
      else s.tm.history header.xid ≠ CommitSeqNumber.Committing ∧
        csnIsVisible snapshot (s.tm.history header.xid) = true))

instance (s : TableRun W) : (a : W × TableOp) → Decidable (s.Counted a)
  | (w, .extend _) => inferInstanceAs (Decidable (∀ nblocks ∈ s.extending w, _))
  | (w, .insert _ _ _) => inferInstanceAs (Decidable (∀ scan ∈ s.scans w, _))
  | (_, .trans _) | (_, .beginScan) | (_, .endScan) | (_, .readCount) | (_, .change _ _ _ _) => .isTrue trivial

/-- A tuple on a page that the scan of `w` does not count, which it would see. -/
def lost (s : TableRun W) (w : W) : Bool :=
  match s.scans w, s.tm.transactions w with
  | some scan, some tr =>
    s.placed.any fun place => decide (scan.lastPageNumber ≤ place.1 ∧ s.Visible tr.xid scan.snapshot place.2)
  | _, _ => false

omit [DecidableEq W] in
theorem not_nothingLost (h : s.lost w = true) : ¬ s.NothingLost := by
  intro hn
  unfold lost at h
  split at h
  · rename_i scan tr hscan htr
    obtain ⟨place, hplace, hp⟩ := List.any_eq_true.1 h
    obtain ⟨hle, hvis⟩ := of_decide_eq_true hp
    exact hn w scan tr hscan htr place hplace hle hvis
  · cases h

def flags : HeapTupleFlags := ⟨false, false⟩

/-- `BEGIN`, and the snapshot of a statement. -/
def begins (w : W) : List (W × TableOp) :=
  [(w, .trans .beginNewTransaction), (w, .trans .run), (w, .trans .beginNewStatement)]

def commits (w : W) : List (W × TableOp) :=
  [(w, .trans .commit), (w, .trans .run), (w, .trans .run), (w, .trans .run), (w, .trans .run)]

def adds (w : W) (pageno : Nat) (usn : Int) : List (W × TableOp) :=
  [(w, .readCount), (w, .extend Config.PageSize), (w, .insert pageno usn flags)]

/-- Worker 1 adds a page during the scan of worker 0 and commits. -/
theorem nothing_lost_concurrent : ∃ s : TableRun (Fin 2),
    (Reach TableRun.step anyStep (start Config.PageSize) s ∧ s.NothingLost) ∧
      ∃ scan ∈ s.scans 0, ∃ place ∈ s.placed, scan.lastPageNumber ≤ place.1 ∧
      CommitSeqNumber.Min ≤ s.tm.history place.2.xid := by
  have h :
    (exec (guarded (fun (s : TableRun (Fin 2)) a => s.Counted a ∧ s.noWrap a) TableRun.step) (start Config.PageSize)
      (begins 1 ++ begins 0 ++ [(0, .beginScan)] ++ adds 1 1 1 ++ commits 1)).map
      (fun s => decide (∃ scan ∈ s.scans 0, ∃ place ∈ s.placed,
        scan.lastPageNumber ≤ place.1 ∧ CommitSeqNumber.Min ≤ s.tm.history place.2.xid)) =
        some true := by decide +kernel
  obtain ⟨s, hr, hs⟩ := reach_of_test h
  exact ⟨s, ⟨hr.of_guarded.any, nothing_lost (by decide) hr.of_guarded⟩, of_decide_eq_true hs⟩

/-- A statement sees what it inserts itself on the page that it adds during its scan; and the page
with number 2^19 is written at the start of the file, so that no scan counts it. -/
theorem later_page_seen :
    (∃ s : TableRun (Fin 2), Reach TableRun.step anyStep (start Config.PageSize) s ∧ ¬ s.NothingLost) ∧
      ∃ s : TableRun (Fin 2), Reach TableRun.step anyStep (start (2 ^ 19 * Config.PageSize)) s ∧
      ¬ s.NothingLost := by
  have h : (exec TableRun.step (start Config.PageSize : TableRun (Fin 2))
      (begins 0 ++ [(0, .insert 0 1 flags), (0, .trans .beginNewStatement), (0, .beginScan)] ++ adds 0 1 2)).map
      (fun s => s.lost 0) = some true := by decide +kernel
  have h' : (exec TableRun.step (start (2 ^ 19 * Config.PageSize) : TableRun (Fin 2))
      (begins 0 ++ adds 0 (2 ^ 19) 1 ++ commits 0 ++ begins 1 ++ [(1, .beginScan)])).map (fun s => s.lost 1) =
      some true := by
    decide +kernel
  obtain ⟨s, hr, hs⟩ := reach_of_test h
  obtain ⟨s', hr', hs'⟩ := reach_of_test h'
  exact ⟨⟨s, hr, not_nothingLost hs⟩, s', hr', not_nothingLost hs'⟩

end TableRun

end Mimidb
