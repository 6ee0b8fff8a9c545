import Mimidb.RowWrites

/-!
# Runs of changed rows

`RowInv` holds of the stacks that go with a state. It is kept by all steps of
a run in which a call that has waited writes over a tuple only if its writer
is the one that the scan returned, which `UpdateTuple` and `DeleteTuple`
compare before they wait and not after it.
-/

namespace Mimidb

namespace RowRun

open TransManager

variable {W V : Type} {s t : RowRun W V} {st : Stacks V} {w : W} {tm : TransManager W}

structure RowInv (s : RowRun W V) (st : Stacks V) : Prop where
  trans : s.tm.TransInv
  logged : s.tm.Logged
  max : s.tm.usn ≤ UndoSeqNumber.Max
  slots : SlotsInv s st
  logs : ∀ w tr, s.tm.transactions w = some tr → LogInv s st w tr
  scans : ∀ w tr, s.tm.transactions w = some tr → ScanInv s st w tr
  aborting : ∀ x, s.aborting x = true → x < s.tm.xid ∧ ∀ c, ¬ s.tm.Commits x c
  deciding : ∀ w tr, s.tm.transactions w = some tr → s.aborting tr.xid = true → committing (s.tm.pc w) = false
  current : ∀ wr ∈ s.writes, wr.replaced = wr.base
  /-- A change that was not taken back is on the stack, over the version that it is based on. -/
  written : ∀ wr ∈ s.writes, s.aborting wr.xid = false →
    ∃ newer v rest, st wr.tid = newer ++ v :: wr.base :: rest ∧ v.undo = wr.usn ∧ v.xid = wr.xid

/-- The counters do not wrap, and the undo log does not reach its last number. -/
def noWrap (s : RowRun W V) (a : W × RowOp V) : Prop :=
  (s.tm.csn + 1 < counter ∧ s.tm.xid + 1 < counter) ∧
    match a.2 with
    | .insert _ _ usn | .change _ _ usn | .resume usn => usn ≤ UndoSeqNumber.Max
    | _ => True

/-- A call that has waited finds the writer again that its tuple has. -/
def Unovertaken (s : RowRun W V) (a : W × RowOp V) : Prop :=
  match a.2 with
  | .resume _ => ∀ call ∈ s.calls a.1, ∀ page ∈ s.slots call.tuple.tid, page.xid = call.tuple.version.xid
  | _ => True

instance (s : RowRun W V) : (a : W × RowOp V) → Decidable (s.noWrap a)
  | (_, .insert _ _ usn) | (_, .change _ _ usn) | (_, .resume usn) =>
    inferInstanceAs (Decidable (_ ∧ usn ≤ UndoSeqNumber.Max))
  | (_, .trans _) | (_, .scan _) | (_, .lookup) | (_, .decide) | (_, .undo) =>
    inferInstanceAs (Decidable (_ ∧ True))

instance (s : RowRun W V) : (a : W × RowOp V) → Decidable (s.Unovertaken a)
  | (w, .resume _) => inferInstanceAs
      (Decidable (∀ call ∈ s.calls w, ∀ page ∈ s.slots call.tuple.tid, page.xid = call.tuple.version.xid))
  | (_, .trans _) | (_, .insert _ _ _) | (_, .scan _) | (_, .change _ _ _) | (_, .lookup) | (_, .decide)
  | (_, .undo) => .isTrue trivial

theorem RowInv.init : RowInv (init : RowRun W V) fun _ => [] where
  trans := .init
  logged := .init
  max := (by decide : (0 : Int) ≤ UndoSeqNumber.Max)
  slots := ⟨fun _ => rfl, nofun, fun _ => .nil, nofun, nofun, nofun, nofun⟩
  logs := nofun
  scans := nofun
  aborting := nofun
  deciding := nofun
  current := nofun
  written := nofun

theorem tuples_congr {v : W} (hc : t.calls v = s.calls v) (hs : t.scanned v = s.scanned v) :
    t.tuples v = s.tuples v := by
  unfold tuples
  rw [hc, hs]

variable [DecidableEq W]

theorem RowInv.manager {op : TransOp} (h : RowInv s st) (hw : TransManager.noWrap s.tm (w, op))
    (hstep : s.tm.step (w, op) = some t.tm) (husn : t.tm.usn = s.tm.usn) (hslots : t.slots = s.slots)
    (hdead : t.dead = s.dead) (hundo : t.undo = s.undo) (hwrites : t.writes = s.writes)
    (hother : ∀ v, v ≠ w → t.log v = s.log v ∧ t.visited v = s.visited v ∧ t.tuples v = s.tuples v)
    (hkeep : ∀ x, s.aborting x = true → t.aborting x = true)
    (habort : ∀ x, t.aborting x = true → s.aborting x = true ∨ op = .abort ∧ s.tm.pc w = .idle ∧
      ∃ tr, s.tm.transactions w = some tr ∧ tr.xid = x)
    (hown : ∀ tr', t.tm.transactions w = some tr' → (LogInv t st w tr' ∧ ScanInv t st w tr') ∧
      (t.aborting tr'.xid = true → committing (t.tm.pc w) = false)) : RowInv t st := by
  have hl : s.tm.Later t.tm := later_step h.trans hw hstep
  have hne := fun v (hv : v ≠ w) => step_ne hstep hv
  have hfalse : ∀ x, t.aborting x = false → s.aborting x = false := fun x hx => by
    cases hs : s.aborting x with
    | false => rfl
    | true => rw [hkeep x hs] at hx; cases hx
  have hother' : ∀ v tr, v ≠ w → t.tm.transactions v = some tr → s.tm.transactions v = some tr :=
    fun v tr hv htr => (hne v hv).2 ▸ htr
  refine ⟨h.trans.step hw hstep, h.logged.step hstep, husn ▸ h.max, h.slots.later h.trans hl hslots hdead hundo,
    fun v tr htr => ?_,
    fun v tr htr => ?_, fun x hx => ?_, fun v tr htr hx => ?_, hwrites ▸ h.current, fun wr hwr ha => ?_⟩
  · by_cases e : v = w
    · subst e
      exact (hown tr htr).1.1
    · have htr' := hother' v tr e htr
      exact (h.logs v tr htr').frame (hother v e).1 hdead hundo rfl fun ha => ⟨hfalse _ ha, rfl⟩
  · by_cases e : v = w
    · subst e
      exact (hown tr htr).1.2
    · have htr' := hother' v tr e htr
      obtain ⟨-, hvisited, htuples⟩ := hother v e
      have hscan := h.scans v tr htr'
      exact hscan.later hl (fun S => h.trans.snapshots v tr S htr') hdead hvisited (fun tuple ht => htuples ▸ ht)
        (htuples ▸ hscan.once) rfl rfl
  · rcases habort x hx with hx | ⟨rfl, hidle, tr, htr, rfl⟩
    · obtain ⟨hlt, hno⟩ := h.aborting x hx
      refine ⟨Nat.lt_of_lt_of_le hlt hl.xid, fun c hc => ?_⟩
      rcases commits_step h.trans hw hstep hc with hc | ⟨-, htake, tr, htr, rfl⟩
      · exact hno c hc
      · have := h.deciding w tr htr hx
        rw [htake] at this
        cases this
    · refine ⟨Nat.lt_of_lt_of_le (h.trans.xids w tr htr) hl.xid, fun c hc => ?_⟩
      rcases commits_step h.trans hw hstep hc with hc | ⟨-, htake, -⟩
      · exact not_commits h.trans htr hidle c hc
      · rw [hidle] at htake
        cases htake
  · by_cases e : v = w
    · subst e
      exact (hown tr htr).2 hx
    · have htr' := hother' v tr e htr
      rw [(hne v e).1]
      rcases habort _ hx with hx | ⟨-, -, tr', htr'', hx⟩
      · exact h.deciding v tr htr' hx
      · exact absurd (h.trans.one v w tr tr' htr' htr'' hx.symm) e
  · rw [hwrites] at hwr
    exact h.written wr hwr (hfalse _ ha)

/-! ## The handler -/

variable {tr tr' : Transaction}

omit [DecidableEq W] in
theorem RowInv.same (h : RowInv s st) (hs : s.tm.transactions w = some tr) (hl : s.tm.Later t.tm)
    (hdead : t.dead = s.dead) (hundo : t.undo = s.undo) (hlog : t.log w = s.log w)
    (hvisited : t.visited w = s.visited w) (htuples : ∀ tuple ∈ t.tuples w, tuple ∈ s.tuples w)
    (honce : ((t.tuples w).map RowTuple.tid).Nodup)
    (hx : tr'.xid = tr.xid)
    (hsnap : tr'.snapshot = tr.snapshot)
    (hkept : t.aborting tr.xid = false → s.aborting tr.xid = false ∧ tr'.undoLog = tr.undoLog) :
    LogInv t st w tr' ∧ ScanInv t st w tr' :=
  ⟨(h.logs w tr hs).frame hlog hdead hundo hx hkept,
    (h.scans w tr hs).later hl (fun S => h.trans.snapshots w tr S hs) hdead hvisited htuples honce hx hsnap⟩

theorem RowInv.run (h : RowInv s st) (hw : TransManager.noWrap s.tm (w, .run))
    (ht : s.tm.step (w, .run) = some tm) :
    RowInv { s with tm := tm } st := by
  obtain ⟨htrans, husn, hpc⟩ := run_step ht
  refine h.manager (t := { s with tm := tm }) hw ht husn rfl rfl rfl rfl (fun _ _ => ⟨rfl, rfl, rfl⟩) (fun _ => id)
    (fun _ => .inl)
    fun tr htr => ?_
  rcases htrans with hsame | hnone
  · have htr' : s.tm.transactions w = some tr := hsame ▸ htr
    refine ⟨h.same htr' (later_step h.trans hw ht) rfl rfl rfl rfl (fun _ => id) (h.scans w tr htr').once rfl rfl
      fun ha => ⟨ha, rfl⟩, fun ha => ?_⟩
    have hd := h.deciding w tr htr' ha
    cases hc : committing (tm.pc w) with
    | false => rfl
    | true => rw [hpc hc] at hd; cases hd
  · have htr' : tm.transactions w = some tr := htr
    rw [hnone] at htr'
    cases htr'

omit [DecidableEq W] in
/-- What a running transaction has written over is in its log. -/
theorem RowInv.mem_log (h : RowInv s st) (hs : s.tm.transactions w = some tr) {tid : TupleId}
    {newer rest : List (RowVersion V)} {a b : RowVersion V} (hd : s.dead tid = false)
    (hst : st tid = newer ++ b :: rest) (ha : a ∈ newer)
    (hx : a.xid = tr.xid) :
    a.undo ∈ s.log w := by
  rcases (h.logs w tr hs).own tid hd a (by simp [hst, ha]) hx with h0 | hmem
  · obtain ⟨pre, post, rfl⟩ := List.append_of_mem ha
    have habove : ∃ c, s.Above tid a c := by
      cases post with
      | nil => exact ⟨b, h.slots.above (by rw [hst]; simp; rfl)⟩
      | cons c post => exact ⟨c, h.slots.above (by rw [hst]; simp; rfl)⟩
    obtain ⟨c, hc⟩ := habove
    obtain ⟨r, hr, -⟩ := hc.record
    exact absurd h0 (h.slots.not_invalid hr)
  · exact hmem

theorem csn_beginNewStatement {csn : Nat} {S : Snapshot} (h : tr.snapshot = some S) :
    ∃ S', (tr.beginNewStatement csn).snapshot = some S' ∧ S'.csn = S.csn := by
  unfold Transaction.beginNewStatement
  rw [h]
  simp only
  split_ifs
  · exact ⟨_, rfl, rfl⟩
  · exact ⟨S, h, rfl⟩

/-- The command id of a new statement is past the changes that were logged. -/
theorem cid_beyond {csn : Nat} {usn : Int} (hmem : usn ∈ tr.undoLog.getD [])
    (hfalls : (tr.undoLog.getD []).Pairwise (· > ·))
    (hvalid : ∀ u ∈ tr.undoLog.getD [], UndoSeqNumber.isValid u = true) (hsnap : tr.snapshot ≠ none) :
    ∃ S, (tr.beginNewStatement csn).snapshot = some S ∧ usn < S.cid := by
  cases hl : tr.undoLog with
  | none => simp [hl] at hmem
  | some log =>
    cases log with
    | nil => simp [hl] at hmem
    | cons u log =>
      simp only [hl, Option.getD_some] at hmem hfalls hvalid
      have hlast : tr.lastUsn = u := by simp [Transaction.lastUsn, hl]
      have hle : usn ≤ u := by
        rcases List.mem_cons.1 hmem with rfl | hmem
        · exact Int.le_refl _
        · exact Int.le_of_lt ((List.pairwise_cons.1 hfalls).1 _ hmem)
      cases hs : tr.snapshot with
      | none => exact absurd hs hsnap
      | some S =>
        refine ⟨⟨S.csn, u + 1⟩, ?_, Int.lt_add_one_of_le hle⟩
        simp [Transaction.beginNewStatement, hs, hlast, hvalid u List.mem_cons_self]

theorem RowInv.beginNewTransaction (h : RowInv s st) (hw : TransManager.noWrap s.tm (w, .beginNewTransaction))
    (ht : s.tm.step (w, .beginNewTransaction) = some tm) (hcalls : s.calls w = none) :
    RowInv { s with
      tm := tm, visited := Function.update s.visited w [], scanned := Function.update s.scanned w [],
      log := Function.update s.log w [] } st := by
  have hnew : tm.transactions w = some (.new s.tm.xid) ∧ tm.usn = s.tm.usn := by
    simp only [TransManager.step] at ht
    split_ifs at ht
    cases ht
    simp
  have hfresh : ∀ tid, ∀ v ∈ st tid, v.xid ≠ s.tm.xid := fun tid v hv e =>
    h.slots.begun tid v hv (by rw [e]; exact h.trans.fresh _ (Nat.le_refl _))
  refine h.manager (t := { s with
      tm := tm, visited := Function.update s.visited w [], scanned := Function.update s.scanned w [],
      log := Function.update s.log w [] }) hw ht hnew.2 rfl rfl rfl rfl (fun v hv => ?_) (fun _ => id)
        (fun _ => .inl) fun tr' htr => ?_
  · simp [hv, tuples]
  · have htr' : tm.transactions w = some tr' := htr
    rw [hnew.1] at htr'
    obtain rfl := Option.some.inj htr'
    refine ⟨⟨⟨?_, fun _ => ?_, fun tid _ v hv he => absurd he (hfresh tid v hv), ?_⟩, ⟨?_, ?_, ?_, ?_, ?_, ?_⟩⟩,
      fun ha => ?_⟩
    · simp
    · simp [Transaction.new]
    · simp
    · simp
    · simp [tuples, hcalls]
    · simp [tuples, hcalls]
    · simp [tuples, hcalls]
    · intro tid newer a b rest hst he
      exact absurd he (hfresh tid a (by simp [hst]))
    · intro tid _ _ newer b rest hst a ha he
      exact absurd he (hfresh tid a (by simp [hst, ha]))
    · exact absurd (h.aborting _ ha).1 (Nat.lt_irrefl _)

theorem RowInv.beginNewStatement (h : RowInv s st) (hw : TransManager.noWrap s.tm (w, .beginNewStatement))
    (ht : s.tm.step (w, .beginNewStatement) = some tm) (hcalls : s.calls w = none) (hrun : s.undoing w = false) :
    RowInv { s with
      tm := tm, visited := Function.update s.visited w [], scanned := Function.update s.scanned w [] } st := by
  obtain ⟨tr, hs, hidle, rfl⟩ : ∃ tr, s.tm.transactions w = some tr ∧ s.tm.pc w = .idle ∧
      tm = s.tm.setTransaction w (some (tr.beginNewStatement s.tm.csn)) := by
    cases hs : s.tm.transactions w with
    | none => simp [TransManager.step, hs] at ht
    | some tr =>
      simp only [TransManager.step, hs] at ht
      split_ifs at ht with hidle
      cases ht
      exact ⟨tr, rfl, hidle, rfl⟩
  have hab : s.aborting tr.xid = false := by simpa [undoing, hs] using hrun
  have hlog := (h.logs w tr hs).kept hab
  have hxid :
      (tr.beginNewStatement s.tm.csn).xid = tr.xid ∧ (tr.beginNewStatement s.tm.csn).undoLog = tr.undoLog := by
    unfold Transaction.beginNewStatement
    split
    · exact ⟨rfl, rfl⟩
    · split <;> exact ⟨rfl, rfl⟩
  refine h.manager (t := { s with
      tm := s.tm.setTransaction w (some (tr.beginNewStatement s.tm.csn)), visited := Function.update s.visited w [],
      scanned :=
        Function.update s.scanned w [] }) hw ht rfl rfl rfl rfl rfl (fun v hv => ?_) (fun _ => id) (fun _ => .inl)
    fun tr' htr => ?_
  · simp [hv, tuples]
  · obtain rfl : tr.beginNewStatement s.tm.csn = tr' := by simpa using htr
    refine ⟨⟨(h.logs w tr hs).frame rfl rfl rfl hxid.1 fun ha => ⟨ha, hxid.2⟩, ⟨?_, ?_, ?_, ?_, ?_, ?_⟩⟩,
      fun ha => ?_⟩
    · simp
    · simp [tuples, hcalls]
    · simp [tuples, hcalls]
    · simp [tuples, hcalls]
    · intro tid newer a b rest hst ha
      rcases (h.scans w tr hs).based tid newer a b rest hst (ha.trans hxid.1) with hb | ⟨S, hS, c, hc, hlt⟩
      · exact .inl (hb.trans hxid.1.symm)
      · obtain ⟨S', hS', he⟩ : ∃ S', (tr.beginNewStatement s.tm.csn).snapshot = some S' ∧ S'.csn = S.csn :=
          csn_beginNewStatement hS
        exact .inr ⟨S', hS', c, (later_step h.trans hw ht).keeps _ _ hc, he ▸ hlt⟩
    · intro tid _ hd newer b rest hst a ha he
      have hmem := h.mem_log hs hd hst ha (he.trans hxid.1)
      refine cid_beyond (hlog ▸ hmem) (hlog ▸ (h.logs w tr hs).falls) (fun u hu => ?_) fun hnone => ?_
      · obtain ⟨r, hr, -⟩ := (h.logs w tr hs).entry u (hlog ▸ hu)
        exact h.slots.isValid h.max hr
      · -- without a snapshot the transaction has not scanned, and has written over nothing
        have hvisited := (h.scans w tr hs).fresh hnone
        obtain ⟨S, hS, -⟩ :=
          (h.scans w tr hs).ahead tid (by simp [hvisited]) hd newer b rest hst a ha (he.trans hxid.1)
        rw [hnone] at hS
        cases hS
    · exact absurd (hab.symm.trans (hxid.1 ▸ ha)) (by decide)

theorem RowInv.commit (h : RowInv s st) (hw : TransManager.noWrap s.tm (w, .commit))
    (ht : s.tm.step (w, .commit) = some tm) (hrun : s.undoing w = false) : RowInv { s with tm := tm } st := by
  obtain ⟨tr, hs, rfl⟩ : ∃ tr, s.tm.transactions w = some tr ∧ tm = s.tm.goto w .commitMark := by
    cases hs : s.tm.transactions w with
    | none => simp [TransManager.step, hs] at ht
    | some tr =>
      simp only [TransManager.step, hs] at ht
      split_ifs at ht
      cases ht
      exact ⟨tr, rfl, rfl⟩
  have hab : s.aborting tr.xid = false := by simpa [undoing, hs] using hrun
  refine h.manager (t := { s with tm := s.tm.goto w .commitMark }) hw ht rfl rfl rfl rfl rfl
    (fun _ _ => ⟨rfl, rfl, rfl⟩) (fun _ => id) (fun _ => .inl) fun tr' htr => ?_
  obtain rfl : tr = tr' := Option.some.inj (hs.symm.trans htr)
  refine ⟨h.same hs (later_step h.trans hw ht) rfl rfl rfl rfl (fun _ => id) (h.scans w tr hs).once rfl rfl
    fun ha => ⟨ha, rfl⟩, fun ha => ?_⟩
  exact absurd (hab.symm.trans ha) (by decide)

theorem RowInv.abort (h : RowInv s st) (hw : TransManager.noWrap s.tm (w, .abort))
    (ht : s.tm.step (w, .abort) = some tm) (hs : s.tm.transactions w = some tr) :
    RowInv { s with tm := tm, aborting := Function.update s.aborting tr.xid true } st := by
  obtain ⟨hidle, rfl⟩ : s.tm.pc w = .idle ∧
      tm = (s.tm.setTransaction w (some { tr with undoLog := tr.undoLog.map fun _ => [] })).goto w .abortMark := by
    simp only [TransManager.step, hs] at ht
    split_ifs at ht with hidle
    cases ht
    exact ⟨hidle, rfl⟩
  refine h.manager (t := { s with
      tm := (s.tm.setTransaction w (some { tr with undoLog := tr.undoLog.map fun _ => [] })).goto w .abortMark,
      aborting := Function.update s.aborting tr.xid true }) hw ht rfl rfl rfl rfl rfl (fun _ _ => ⟨rfl, rfl, rfl⟩)
        (fun x hx => ?_)
    (fun x hx => ?_) fun tr' htr => ?_
  · by_cases e : x = tr.xid
    · simp [e]
    · simpa [e] using hx
  · by_cases e : x = tr.xid
    · exact .inr ⟨rfl, hidle, tr, hs, e.symm⟩
    · exact .inl (by simpa [e] using hx)
  · obtain rfl : { tr with undoLog := tr.undoLog.map fun _ => [] } = tr' := by simpa using htr
    refine ⟨h.same hs (later_step h.trans hw ht) rfl rfl rfl rfl (fun _ => id) (h.scans w tr hs).once rfl rfl
      fun ha => ?_, fun _ => ?_⟩
    · simp at ha
    · simp [committing]

/-! ## Scans and calls -/

variable {visited : W → List TupleId} {scanned : W → List (RowTuple V)} {calls : W → Option (RowCall V)}

omit [DecidableEq W] in
theorem RowInv.rescan (h : RowInv s st)
    (hother : ∀ v, v ≠ w → visited v = s.visited v ∧ scanned v = s.scanned v ∧ calls v = s.calls v)
    (hown : ∀ tr, s.tm.transactions w = some tr →
      ScanInv { s with visited := visited, scanned := scanned, calls := calls } st w tr) :
    RowInv { s with visited := visited, scanned := scanned, calls := calls } st := by
  refine ⟨h.trans, h.logged, h.max, h.slots.later h.trans .refl rfl rfl rfl,
    fun v tr htr => (h.logs v tr htr).frame rfl rfl rfl rfl fun ha => ⟨ha, rfl⟩, fun v tr htr => ?_, h.aborting,
    h.deciding, h.current, h.written⟩
  by_cases e : v = w
  · subst e
    exact hown tr htr
  · obtain ⟨hv, hs, hc⟩ := hother v e
    have hscan := h.scans v tr htr
    have htuples : tuples { s with visited := visited, scanned := scanned, calls := calls } v = s.tuples v :=
      tuples_congr hc hs
    exact hscan.later .refl (fun S => h.trans.snapshots v tr S htr) rfl hv (fun tuple ht => htuples ▸ ht)
      (htuples ▸ hscan.once) rfl rfl

omit [DecidableEq W] in
theorem RowInv.recall (h : RowInv s st) (hscanned : ∀ v, v ≠ w → scanned v = s.scanned v)
    (hcalls : ∀ v, v ≠ w → calls v = s.calls v)
    (htuples : ∀ tuple ∈ tuples { s with scanned := scanned, calls := calls } w, tuple ∈ s.tuples w)
    (honce : s.tm.transactions w ≠ none →
      ((tuples { s with scanned := scanned, calls := calls } w).map RowTuple.tid).Nodup) :
    RowInv { s with scanned := scanned, calls := calls } st :=
  h.rescan (fun v hv => ⟨rfl, hscanned v hv, hcalls v hv⟩) fun tr htr =>
    (h.scans w tr htr).later .refl (fun S => h.trans.snapshots w tr S htr) rfl rfl htuples
      (honce (by simp [htr])) rfl rfl

theorem RowInv.scan {snapshot : Snapshot} {tid : TupleId} {res : Option (RowTuple V)} (h : RowInv s st)
    (hs : s.tm.transactions w = some tr) (hsnap : tr.snapshot = some snapshot) (hcalls : s.calls w = none)
    (hnot : tid ∉ s.visited w)
    (hscan : s.scanSlot tr.xid snapshot tid = some res) :
    RowInv { s with
      visited := Function.update s.visited w (tid :: s.visited w)
      scanned := Function.update s.scanned w (res.toList ++ s.scanned w) } st := by
  have hw := h.scans w tr hs
  have htuples : s.tuples w = s.scanned w := by simp [tuples, hcalls]
  have hfound : ∀ tuple, res = some tuple → tuple.tid = tid ∧ s.Found st tr.xid snapshot tuple :=
    fun tuple hres => by
    subst hres
    have hdead : s.dead tid = false := by
      cases hd : s.dead tid with
      | false => rfl
      | true => cases hp : s.slots tid <;> simp [scanSlot, hd, hp] at hscan
    refine h.slots.found h.trans h.max (fun newer b rest hst a ha he => ?_) hdead hscan
    obtain ⟨S, hS, hlt⟩ := hw.ahead tid hnot hdead newer b rest hst a ha he
    rw [hsnap] at hS
    obtain rfl := Option.some.inj hS
    exact hlt
  refine h.rescan (w := w) (fun v hv => by simp [hv]) fun tr' htr => ?_
  obtain rfl : tr = tr' := Option.some.inj (hs.symm.trans htr)
  refine ⟨fun hnone => ?_, fun tuple ht => ?_, ?_, fun tuple ht => ?_, hw.based, fun r hr hd => ?_⟩
  · rw [hsnap] at hnone
    cases hnone
  · simp only [tuples, hcalls, Option.map_none, Option.toList_none, List.nil_append, Function.update_self,
      List.mem_append, Option.mem_toList] at ht ⊢
    rcases ht with ht | ht
    · exact (hfound tuple ht).1 ▸ List.mem_cons_self
    · exact List.mem_cons_of_mem _ (hw.visited tuple (htuples ▸ ht))
  · simp only [tuples, hcalls, Option.map_none, Option.toList_none, List.nil_append, Function.update_self]
    cases res with
    | none => simpa [htuples] using hw.once
    | some tuple =>
      obtain ⟨htid, -⟩ := hfound tuple rfl
      simp only [Option.toList_some, List.singleton_append, List.map_cons, List.nodup_cons]
      refine ⟨fun hmem => ?_, htuples ▸ hw.once⟩
      obtain ⟨other, hother, he⟩ := List.mem_map.1 hmem
      exact hnot (by rw [← htid, ← he]; exact hw.visited other (htuples ▸ hother))
  · simp only [tuples, hcalls, Option.map_none, Option.toList_none, List.nil_append, Function.update_self,
      List.mem_append, Option.mem_toList] at ht
    rcases ht with ht | ht
    · exact ⟨snapshot, hsnap, (hfound tuple ht).2⟩
    · exact hw.found tuple (htuples ▸ ht)
  · simp only [Function.update_self, List.mem_cons, not_or] at hr
    exact hw.ahead r hr.2 hd

/-! ## Writes -/

variable {usn : Int} {record : RowRecord V} {put : TupleId → Option (RowVersion V)} {writes : List (RowWrite V)}

/-- A change whose versions go where its transaction has nothing to write over any more. -/
theorem RowInv.puts {undo : Int} {flags : HeapTupleFlags} (h : RowInv s st)
    (hw : TransManager.noWrap s.tm (w, .write usn undo flags)) (hs : s.tm.transactions w = some tr)
    (hstep : s.tm.step (w, .write usn undo flags) = some tm)
    (hmax : usn ≤ UndoSeqNumber.Max)
    (hp : Puts s st tr usn record put) (hcalls : ∀ v, v ≠ w → calls v = s.calls v)
    (htuples : ∀ tuple ∈ tuples { s with calls := calls } w, tuple ∈ s.tuples w)
    (honce : ((tuples { s with calls := calls } w).map RowTuple.tid).Nodup)
    (hown : ∀ tid n, put tid = some n →
      (∀ tuple ∈ tuples { s with calls := calls } w, tuple.tid ≠ tid) ∧ (st tid ≠ [] → tid ∈ s.visited w))
    (hwrites : ∀ wr ∈ writes, wr ∈ s.writes ∨ wr.replaced = wr.base ∧
      ∃ newer v rest, push put st wr.tid = newer ++ v :: wr.base :: rest ∧ v.undo = wr.usn ∧ v.xid = wr.xid) :
    RowInv { s with
      tm := tm, slots := fun tid => put tid <|> s.slots tid, undo := Function.update s.undo usn (some record),
      log := Function.update s.log w (usn :: s.log w), calls := calls, writes := writes } (push put st) := by
  obtain ⟨hidle, husn, htr, hpc⟩ := write_step hs hstep
  have husn' : tm.usn = usn := by
    simp only [TransManager.step, hs] at hstep
    split_ifs at hstep
    cases hstep
    rfl
  have hne := fun v (hv : v ≠ w) => step_ne hstep hv
  have hwritten : Written s { s with
      tm := tm, slots := fun tid => put tid <|> s.slots tid, undo := Function.update s.undo usn (some record),
      log := Function.update s.log w (usn :: s.log w), calls := calls, writes := writes } w tr usn record put :=
    ⟨later_step h.trans hw hstep, hs, hidle, ⟨husn, husn'⟩, fun _ => rfl, rfl, rfl⟩
  have hcommits : ∀ x c, tm.Commits x c → s.tm.Commits x c := fun x c hc => by
    rcases commits_step h.trans hw hstep hc with hc | ⟨-, htake, -⟩
    · exact hc
    · rw [hidle] at htake
      cases htake
  refine ⟨h.trans.step hw hstep, h.logged.step hstep, husn'.trans_le hmax,
    h.slots.puts h.trans h.logged.nonneg hp hwritten,
    fun v r hr => ?_, fun v r hr => ?_, fun x hx => ?_, fun v r hr ha => ?_, fun wr hwr => ?_, fun wr hwr ha => ?_⟩
  · have hr' : tm.transactions v = some r := hr
    by_cases e : v = w
    · subst e
      rw [htr] at hr'
      obtain rfl := Option.some.inj hr'
      exact (h.logs v tr hs).puts h.slots hp hwritten (by simp) rfl
    · rw [(hne v e).2] at hr'
      exact (h.logs v r hr').puts_other h.slots hp hwritten (fun hx => e (h.trans.one v w r tr hr' hs hx))
        (by simp [e]) rfl
  · have hr' : tm.transactions v = some r := hr
    by_cases e : v = w
    · subst e
      rw [htr] at hr'
      obtain rfl := Option.some.inj hr'
      exact (h.scans v tr hs).puts h.trans hs hp hwritten rfl htuples honce rfl rfl fun tid n hn _ => hown tid n hn
    · rw [(hne v e).2] at hr'
      have hsame : tuples { s with
          tm := tm, slots := fun tid => put tid <|> s.slots tid, undo := Function.update s.undo usn (some record),
          log := Function.update s.log w (usn :: s.log w), calls := calls, writes := writes } v = s.tuples v :=
        tuples_congr (hcalls v e) rfl
      have hscan := h.scans v r hr'
      exact hscan.puts h.trans hr' hp hwritten rfl (fun tuple ht => hsame ▸ ht) (hsame ▸ hscan.once) rfl rfl
        fun _ _ _ hx =>
        absurd (h.trans.one v w r tr hr' hs hx) e
  · obtain ⟨hlt, hno⟩ := h.aborting x hx
    exact ⟨Nat.lt_of_lt_of_le hlt hwritten.later.xid, fun c hc => hno c (hcommits x c hc)⟩
  · have hr' : tm.transactions v = some r := hr
    by_cases e : v = w
    · subst e
      show committing (tm.pc v) = false
      rw [hpc]
      rfl
    · rw [(hne v e).2] at hr'
      show committing (tm.pc v) = false
      rw [(hne v e).1]
      exact h.deciding v r hr' ha
  · rcases hwrites wr hwr with hold | ⟨hnew, -⟩
    · exact h.current wr hold
    · exact hnew
  · rcases hwrites wr hwr with hold | ⟨-, hnew⟩
    · obtain ⟨newer, v, rest, hst, hv⟩ := h.written wr hold ha
      exact ⟨(put wr.tid).toList ++ newer, v, rest, by simp [push, hst], hv⟩
    · exact hnew

theorem RowInv.insert {tid : TupleId} {values : V} {flags : HeapTupleFlags} (h : RowInv s st)
    (hw : TransManager.noWrap s.tm (w, .write usn UndoSeqNumber.Invalid flags)) (hs : s.tm.transactions w = some tr)
    (hstep : s.tm.step (w, .write usn UndoSeqNumber.Invalid flags) = some tm) (hmax : usn ≤ UndoSeqNumber.Max)
    (hfree : s.slots tid = none) :
    ∃ st', RowInv { s with
      tm := tm
      slots := Function.update s.slots tid (some ⟨tr.xid, UndoSeqNumber.Invalid, false, values⟩)
      undo := Function.update s.undo usn (some (.Delete tid))
      log := Function.update s.log w (usn :: s.log w) } st' := by
  have hst : st tid = [] := by
    rw [h.slots.page] at hfree
    exact List.head?_eq_none_iff.1 hfree
  have hdead : s.dead tid = false := by
    cases hd : s.dead tid with
    | false => rfl
    | true =>
      obtain ⟨v, hv⟩ := h.slots.dead tid hd
      rw [hst] at hv
      cases hv
  have hscan := h.scans w tr hs
  rw [update_eq_single]
  refine ⟨_, h.puts hw hs hstep hmax ⟨fun r n hn => ?_, fun r n hn => ?_, fun r n hn => ?_,
    fun r n b rest hn hb => ?_,
    fun r n hn _ => ?_, nofun⟩ (fun _ _ => rfl) (fun _ => id) hscan.once (fun r n hn => ?_) fun _ => .inl⟩
  all_goals obtain ⟨rfl, rfl⟩ := single_eq_some.1 hn
  · rfl
  · exact .inr rfl
  · exact hdead
  · rw [hst] at hb
    cases hb
  · exact ⟨rfl, .inl rfl⟩
  · refine ⟨fun tuple ht he => ?_, fun hne => absurd hst hne⟩
    obtain ⟨S, -, newer, rest, hf, -⟩ := hscan.found tuple ht
    rw [he, hst] at hf
    simp at hf

section
variable {tuple : RowTuple V} {snapshot : Snapshot} {change : RowChange V} {page : RowVersion V}
  {rest : List (RowVersion V)}

theorem write_inv (h : s.write w tuple change usn = some t) :
    ∃ tr page tm, s.tm.transactions w = some tr ∧ s.slots tuple.tid = some page ∧
    s.tm.step (w, .write usn usn ⟨false, false⟩) = some tm ∧
    (∀ values new, change = .update values (some new) → s.slots new = none) ∧
    t = { s with
      tm := tm, slots := fun tid => putOf tr.xid usn tuple.tid page change tid <|> s.slots tid,
      undo := Function.update s.undo usn (some (recordOf tuple page change)),
      log := Function.update s.log w (usn :: s.log w),
      calls := Function.update s.calls w none,
      writes := ⟨tr.xid, usn, tuple.tid, tuple.version, page⟩ :: s.writes } := by
  unfold write at h
  split at h
  · rename_i tr page htr hpage
    obtain ⟨tm, htm, h⟩ := Option.bind_eq_some_iff.1 h
    refine ⟨tr, page, tm, htr, hpage, htm, ?_⟩
    cases change with
    | delete =>
      cases h
      exact ⟨nofun, by simp only [update_eq_single, putOf, recordOf]⟩
    | update values newSlot =>
      cases newSlot with
      | none =>
        cases h
        exact ⟨nofun, by simp only [update_eq_single, putOf, recordOf, Option.getD_none]⟩
      | some new =>
        simp only at h
        split_ifs at h with hnew
        cases h
        refine ⟨fun _ _ e => by cases e; exact hnew, ?_⟩
        simp only [update_eq_single, putOf, recordOf, Option.getD_some, Option.orElse_eq_orElse,
          Option.orElse_eq_or, Option.or_assoc]
  · cases h

omit [DecidableEq W] in
theorem Found.newer (hfound : s.Found st tr.xid snapshot tuple) (hS : tr.snapshot = some snapshot)
    (hst : st tuple.tid = tuple.version :: rest) {v b : RowVersion V} {below : List (RowVersion V)}
    (hb : st tuple.tid = b :: below) (hsaves : Saves tuple.tid v tuple.version record) :
    b.deleted = false ∧ s.Based tr b ∧ Saves tuple.tid v b record := by
  obtain ⟨-, -, -, -, hlive, hsees, -⟩ := hfound
  obtain ⟨rfl, -⟩ := List.cons.inj (hst.symm.trans hb)
  exact ⟨hlive, hsees.imp_right fun hc => ⟨snapshot, hS, hc⟩, hsaves⟩

omit [DecidableEq W] in
theorem Found.single (hfound : s.Found st tr.xid snapshot tuple) (hS : tr.snapshot = some snapshot)
    (hst : st tuple.tid = tuple.version :: rest) {v : RowVersion V} (hx : v.xid = tr.xid) (hu : v.undo = usn)
    (hsaves : Saves tuple.tid v tuple.version record)
    (hplaces : ∀ r ∈ record.places, r = tuple.tid) : Puts s st tr usn record (single tuple.tid v) := by
  have hdead : s.dead tuple.tid = false := hfound.choose_spec.choose_spec.2.1
  refine ⟨fun r n hn => ?_, fun r n hn => ?_, fun r n hn => ?_, fun r n b below hn hb => ?_, fun r n hn hnil => ?_,
    fun r hr => ?_⟩
  · obtain ⟨rfl, rfl⟩ := single_eq_some.1 hn
    exact hx
  · obtain ⟨rfl, rfl⟩ := single_eq_some.1 hn
    exact .inl hu
  · obtain ⟨rfl, rfl⟩ := single_eq_some.1 hn
    exact hdead
  · obtain ⟨rfl, rfl⟩ := single_eq_some.1 hn
    exact ⟨hu, hfound.newer hS hst hb hsaves⟩
  · obtain ⟨rfl, rfl⟩ := single_eq_some.1 hn
    rw [hst] at hnil
    cases hnil
  · obtain rfl := hplaces r hr
    exact ⟨v, single_self _ _, hu⟩

omit [DecidableEq W] in
/-- The new version in a new slot, and the mark in the old one. -/
theorem Found.move (hfound : s.Found st tr.xid snapshot tuple) (hS : tr.snapshot = some snapshot)
    (hst : st tuple.tid = tuple.version :: rest) {v mark : RowVersion V} {new : TupleId} (hnew : st new = [])
    (hdeadn : s.dead new = false) (hx : v.xid = tr.xid ∧ mark.xid = tr.xid)
    (hu : v.undo = usn ∧ mark.undo = usn) (hlive : v.deleted = false) (hmark : mark.deleted = true) :
    Puts s st tr usn (.Update tuple.tid new tuple.version) fun r => RowRun.single tuple.tid mark r <|> RowRun.single
      new v r := by
  have hne : new ≠ tuple.tid := fun e => by rw [e, hst] at hnew; cases hnew
  have hdead : s.dead tuple.tid = false := hfound.choose_spec.choose_spec.2.1
  have hput : ∀ r n, (RowRun.single tuple.tid mark r <|> RowRun.single new v r) = some n → r = tuple.tid ∧
      mark = n ∨ r = new ∧ v = n := by
    intro r n hn
    by_cases e : r = tuple.tid
    · subst e
      exact .inl ⟨rfl, by simpa using hn⟩
    · refine .inr (single_eq_some.1 ?_)
      simpa [RowRun.single, e] using hn
  refine ⟨fun r n hn => ?_, fun r n hn => ?_, fun r n hn => ?_, fun r n b below hn hb => ?_, fun r n hn hnil => ?_,
    fun r hr => ?_⟩
  · rcases hput r n hn with ⟨rfl, rfl⟩ | ⟨rfl, rfl⟩
    · exact hx.2
    · exact hx.1
  · rcases hput r n hn with ⟨rfl, rfl⟩ | ⟨rfl, rfl⟩
    · exact .inl hu.2
    · exact .inl hu.1
  · rcases hput r n hn with ⟨rfl, rfl⟩ | ⟨rfl, rfl⟩
    · exact hdead
    · exact hdeadn
  · rcases hput r n hn with ⟨rfl, rfl⟩ | ⟨rfl, rfl⟩
    · exact ⟨hu.2, hfound.newer hS hst hb (.move hne hmark)⟩
    · rw [hnew] at hb
      cases hb
  · rcases hput r n hn with ⟨rfl, rfl⟩ | ⟨rfl, rfl⟩
    · rw [hst] at hnil
      cases hnil
    · exact ⟨hlive, .inr ⟨hu.1, tuple.tid, tuple.version, mark, rest, rfl, hne.symm, by simp, hu.2, hst⟩⟩
  · simp only [RowRecord.places, List.mem_cons, List.not_mem_nil, or_false] at hr
    rcases hr with rfl | rfl
    · exact ⟨mark, by simp, hu.2⟩
    · exact ⟨v, by simp [RowRun.single, hne], hu.1⟩

omit [DecidableEq W] in
/-- What a call may put on the stacks, over the version that its scan returned. -/
theorem RowInv.putOf (h : RowInv s st) (hfound : s.Found st tr.xid snapshot tuple)
    (hS : tr.snapshot = some snapshot) (hst : st tuple.tid = tuple.version :: rest)
    (hnew : ∀ values new, change = .update values (some new) → s.slots new = none) :
    Puts s st tr usn (recordOf tuple tuple.version change) (putOf tr.xid usn tuple.tid tuple.version change) := by
  cases change with
  | delete => exact hfound.single hS hst rfl rfl (.delete rfl) (by simp [recordOf])
  | update values newSlot =>
    cases newSlot with
    | none => exact hfound.single hS hst rfl rfl (.update rfl) (by simp [recordOf])
    | some new =>
      have hfree := hnew values new rfl
      have hstn : st new = [] := by
        rw [h.slots.page] at hfree
        exact List.head?_eq_none_iff.1 hfree
      have hdeadn : s.dead new = false := by
        cases hd : s.dead new with
        | false => rfl
        | true =>
          obtain ⟨v, hv⟩ := h.slots.dead new hd
          rw [hstn] at hv
          cases hv
      exact hfound.move hS hst hstn hdeadn ⟨rfl, rfl⟩ ⟨rfl, rfl⟩ rfl rfl

/-- A call that goes on to write keeps the invariant if it finds the writer of its tuple on the page. -/
theorem RowInv.write (h : RowInv s st) (hw : s.tm.csn + 1 < counter ∧ s.tm.xid + 1 < counter)
    (hmax : usn ≤ UndoSeqNumber.Max)
    (hfound : ∀ tr, s.tm.transactions w = some tr → ∃ snapshot, tr.snapshot = some snapshot ∧
      s.Found st tr.xid snapshot tuple)
    (hvisited : s.tm.transactions w ≠ none → tuple.tid ∈ s.visited w)
    (hnot : ∀ other ∈ s.scanned w, other.tid ≠ tuple.tid)
    (hx : ∀ page ∈ s.slots tuple.tid, page.xid = tuple.version.xid) (ht : s.write w tuple change usn = some t) :
    ∃ st', RowInv t st' := by
  obtain ⟨tr, page, tm, htr, hpage, hstep, hnew, rfl⟩ := write_inv ht
  obtain ⟨snapshot, hS, hf⟩ := hfound tr htr
  have hscan := h.scans w tr htr
  obtain ⟨rest, hst⟩ : ∃ rest, st tuple.tid = page :: rest := by
    rw [h.slots.page] at hpage
    exact List.head?_eq_some_iff.1 hpage
  obtain rfl := hf.eq_top hst (hx page hpage)
  have htuples : tuples { s with calls := Function.update s.calls w none } w = s.scanned w := by simp [tuples]
  have hsub : (s.scanned w).Sublist (s.tuples w) := List.sublist_append_right _ _
  have hp : Puts s st tr usn _ _ := h.putOf hf hS hst hnew
  refine ⟨_, h.puts hw htr hstep hmax hp (fun v hv => by simp [hv]) (fun other ht => ?_) ?_ (fun r n hn => ?_)
    fun wr hwr => ?_⟩
  · exact hsub.subset (htuples ▸ ht)
  · rw [htuples]
    exact hscan.once.sublist (hsub.map _)
  · rw [htuples]
    have hr : r = tuple.tid ∨ st r = [] := by
      cases hb : st r with
      | nil => exact .inr rfl
      | cons b below =>
        have hmem := (hp.newer r n b below hn hb).2.2.2.mem_restores
        rw [restores_recordOf, List.mem_singleton] at hmem
        exact .inl hmem
    rcases hr with rfl | hnil
    · exact ⟨hnot, fun _ => hvisited (by simp [htr])⟩
    · refine ⟨fun other ho he => ?_, fun hne => absurd hnil hne⟩
      obtain ⟨S, -, newer, below, hf', -⟩ := hscan.found other (hsub.subset ho)
      rw [he, hnil] at hf'
      simp at hf'
  · rcases List.mem_cons.1 hwr with rfl | hold
    · have hplace : tuple.tid ∈ (recordOf tuple tuple.version change).places := by
        rw [mem_places, restores_recordOf]
        exact .inl (List.mem_singleton_self _)
      obtain ⟨v, hv, hvu⟩ := hp.places tuple.tid hplace
      exact .inr ⟨rfl, [], v, rest, by rw [push_some hv, hst]; rfl, hvu, hp.xid _ _ hv⟩
    · exact .inl hold

end

/-! ## Waiting calls -/

section
variable {call call' : RowCall V}

theorem RowInv.wait {x : Nat} (h : RowInv s st) (hw : TransManager.noWrap s.tm (w, .wait x))
    (ht : s.tm.step (w, .wait x) = some tm) (hcall : s.calls w = some call) (he : call'.tuple = call.tuple) :
    RowInv { s with tm := tm, calls := Function.update s.calls w (some call') } st := by
  obtain ⟨tr, hs, rfl⟩ : ∃ tr, s.tm.transactions w = some tr ∧ tm = s.tm.goto w (.waitFind x) := by
    cases hs : s.tm.transactions w with
    | none => simp [TransManager.step, hs] at ht
    | some tr =>
      simp only [TransManager.step, hs] at ht
      split_ifs at ht
      cases ht
      exact ⟨tr, rfl, rfl⟩
  have htuples : tuples { s with tm := s.tm.goto w (.waitFind x), calls := Function.update s.calls w (some call') }
      w = s.tuples w := by
    simp [tuples, hcall, he]
  refine h.manager hw ht rfl rfl rfl rfl rfl (fun v hv => ?_) (fun _ => id) (fun _ => .inl) fun tr' htr => ?_
  · exact ⟨rfl, rfl, tuples_congr (by simp [hv]) rfl⟩
  · obtain rfl : tr = tr' := Option.some.inj (hs.symm.trans htr)
    refine ⟨h.same hs (later_step h.trans hw ht) rfl rfl rfl rfl (fun tuple hmem => htuples ▸ hmem)
      (htuples ▸ (h.scans w tr hs).once)
      rfl rfl fun ha => ⟨ha, rfl⟩, fun _ => ?_⟩
    simp [committing]

omit [DecidableEq W] in
theorem once_of_calls (h : RowInv s st) (hcall : s.calls w = some call) (hs : s.tm.transactions w ≠ none) :
    (∀ other ∈ s.scanned w, other.tid ≠ call.tuple.tid) ∧ ((s.scanned w).map RowTuple.tid).Nodup := by
  obtain ⟨tr, htr⟩ := Option.ne_none_iff_exists'.1 hs
  have honce := (h.scans w tr htr).once
  simp only [tuples, hcall, Option.map_some, Option.toList_some, List.singleton_append, List.map_cons,
    List.nodup_cons] at honce
  exact ⟨fun other ho he => honce.1 (he ▸ List.mem_map_of_mem ho), honce.2⟩

theorem RowInv.decideCsn {csn : Nat} (h : RowInv s st) (hcall : s.calls w = some call)
    (he : call'.tuple = call.tuple) :
    RowInv (s.decideCsn w call' csn) st := by
  unfold RowRun.decideCsn
  split_ifs
  · have htuples : tuples { s with calls := Function.update s.calls w (some { call' with pc := .returned }) } w =
        s.tuples w := by
      simp [tuples, hcall, he]
    refine h.recall (fun _ _ => rfl) (fun v hv => Function.update_of_ne hv _ _) (fun tuple ht => htuples ▸ ht)
      fun hs => ?_
    obtain ⟨tr, htr⟩ := Option.ne_none_iff_exists'.1 hs
    exact htuples ▸ (h.scans w tr htr).once
  · refine h.recall (fun _ _ => rfl) (fun v hv => Function.update_of_ne hv _ _) (fun tuple ht => ?_) fun hs => ?_
    · simp only [tuples, Function.update_self, Option.map_none, Option.toList_none, List.nil_append] at ht
      exact List.mem_append_right _ ht
    · simpa [tuples] using (once_of_calls h hcall hs).2

end

section
variable [DecidableEq V] {tuple : RowTuple V}

theorem RowInv.erase (h : RowInv s st) (hcalls : s.calls w = none) (hmem : tuple ∈ s.scanned w) :
    RowInv { s with scanned := Function.update s.scanned w ((s.scanned w).erase tuple) } st ∧
      (s.tm.transactions w = some tr → ∀ other ∈ Function.update s.scanned w ((s.scanned w).erase tuple) w,
        other.tid ≠ tuple.tid) := by
  have htuples : s.tuples w = s.scanned w := by simp [tuples, hcalls]
  have hsub : ((s.scanned w).erase tuple).Sublist (s.scanned w) := List.erase_sublist
  constructor
  · refine h.recall (fun v hv => Function.update_of_ne hv _ _) (fun _ _ => rfl) (fun other ho => ?_) fun hs => ?_
    · rw [htuples]
      simp only [tuples, hcalls, Option.map_none, Option.toList_none, List.nil_append, Function.update_self] at ho
      exact hsub.subset ho
    · obtain ⟨tr, htr⟩ := Option.ne_none_iff_exists'.1 hs
      simp only [tuples, hcalls, Option.map_none, Option.toList_none, List.nil_append, Function.update_self]
      exact (htuples ▸ (h.scans w tr htr).once).sublist (hsub.map _)
  · intro hs other ho he
    rw [Function.update_self] at ho
    have honce := htuples ▸ (h.scans w tr hs).once
    have hperm := (List.perm_cons_erase hmem).map RowTuple.tid
    have hcons := (hperm.nodup_iff.1 honce)
    exact (List.nodup_cons.1 hcons).1 (he ▸ List.mem_map_of_mem ho)

theorem RowInv.call {pc : WaitPc} {change : RowChange V} (h : RowInv s st) (hcalls : s.calls w = none)
    (hmem : tuple ∈ s.scanned w) :
    RowInv { s with
      scanned := Function.update s.scanned w ((s.scanned w).erase tuple)
      calls := Function.update s.calls w (some ⟨tuple, change, pc⟩) } st := by
  have htuples : s.tuples w = s.scanned w := by simp [tuples, hcalls]
  have hperm : (s.scanned w).Perm (tuple :: (s.scanned w).erase tuple) := List.perm_cons_erase hmem
  have hnew : tuples { s with
      scanned := Function.update s.scanned w ((s.scanned w).erase tuple)
      calls := Function.update s.calls w (some ⟨tuple, change, pc⟩) } w = tuple :: (s.scanned w).erase tuple := by
    simp [tuples]
  refine h.recall (fun v hv => Function.update_of_ne hv _ _) (fun v hv => Function.update_of_ne hv _ _)
    (fun other ho => ?_) fun hs => ?_
  · rw [hnew] at ho
    rw [htuples]
    exact hperm.mem_iff.2 ho
  · obtain ⟨tr, htr⟩ := Option.ne_none_iff_exists'.1 hs
    rw [hnew]
    exact (hperm.map _).nodup_iff.1 (htuples ▸ (h.scans w tr htr).once)

end

/-! ## Undo -/

omit [DecidableEq W] in
/-- The visitor finds the versions of the record on top of the stacks. -/
theorem SlotsInv.visit (h : SlotsInv s st) (htop : Tops s st tr usn record) (hr : s.undo usn = some record)
    (hv : s.visit usn record = some t) :
    (∃ slots dead, t = { s with slots := slots, dead := dead }) ∧ Undone s t usn record := by
  have hpage : ∀ tid ∈ record.places, ∃ page, s.slots tid = some page ∧ page.undo = usn := fun tid htid => by
    obtain ⟨-, p, rest, hst, hp, -⟩ := htop tid htid
    exact ⟨p, by rw [h.page, hst, List.head?_cons], hp⟩
  cases record with
  | Delete location =>
    unfold RowRun.visit at hv
    cases hp : s.slots location with
    | none => simp [hp] at hv
    | some page =>
      have hne : page.undo ≠ usn := fun e => by
        rw [h.page] at hp
        have hmem : page ∈ st location := List.mem_of_mem_head? hp
        exact absurd (h.recorded hmem (e ▸ hr)) (by simp)
      simp only [hp, hne, ne_eq, not_false_eq_true, or_true, if_true, Option.some.injEq] at hv
      subst hv
      exact ⟨⟨s.slots, s.dead, rfl⟩, hr, rfl, rfl, fun tid => by simp, fun tid => by simp⟩
  | Insert location image =>
    obtain ⟨page, hp, hpu⟩ := hpage location (by simp)
    simp only [RowRun.visit, hp, hpu, ne_eq, not_true_eq_false, if_false, Option.some.injEq] at hv
    subst hv
    refine ⟨⟨_, s.dead, rfl⟩, hr, rfl, rfl, fun tid => ?_, fun tid => by simp⟩
    by_cases e : tid = location <;> simp [e]
  | Update old new image =>
    obtain ⟨page, hp, hpu⟩ := hpage old (by simp)
    obtain ⟨page', hp', hpu'⟩ := hpage new (by simp)
    simp only [RowRun.visit, hp, hp', hpu, hpu', ne_eq, not_true_eq_false, or_self, if_false,
      Option.some.injEq] at hv
    subst hv
    refine ⟨⟨_, _, rfl⟩, hr, rfl, rfl, fun tid => ?_, fun tid => ?_⟩
    · by_cases e : tid = old <;> simp [e]
    · by_cases e : new = old
      · simp [e]
      · by_cases e' : tid = new <;> simp [e, e']

theorem RowInv.undo {log : List Int} {slots : TupleId → Option (RowVersion V)} {dead : TupleId → Bool}
    (h : RowInv s st) (hs : s.tm.transactions w = some tr) (hidle : s.tm.pc w = .idle) (hcalls : s.calls w = none)
    (hlog : s.log w = usn :: log)
    (hr : s.undo usn = some record) (hv : s.visit usn record = some { s with slots := slots, dead := dead }) :
    RowInv { s with
      slots := slots, dead := dead, log := Function.update s.log w log,
      aborting := Function.update s.aborting tr.xid true,
      scanned := Function.update s.scanned w [] } (pop record st) := by
  have hrun := not_commits h.trans hs hidle
  have htop : Tops s st tr usn record := fun tid htid => (h.logs w tr hs).top h.slots hrun hlog hr htid
  obtain ⟨-, hu⟩ := h.slots.visit htop hr hv
  have hundone : Undone s { s with
      slots := slots, dead := dead, log := Function.update s.log w log,
      aborting := Function.update s.aborting tr.xid true,
      scanned := Function.update s.scanned w [] } usn record := ⟨hr, rfl, rfl, hu.slots, hu.dead⟩
  have hxid : ∀ v r, v ≠ w → s.tm.transactions v = some r → r.xid ≠ tr.xid :=
    fun v r hv hr e => hv (h.trans.one v w r tr hr hs e)
  refine ⟨h.trans, h.logged, h.max, h.slots.undone h.trans htop hundone, fun v r hr => ?_, fun v r hr => ?_,
    fun x hx => ?_, fun v r hr ha => ?_, h.current, fun wr hwr ha => ?_⟩
  · by_cases e : v = w
    · subst e
      obtain rfl : tr = r := Option.some.inj (hs.symm.trans hr)
      exact (h.logs v tr hs).undone h.slots htop hundone hlog (by simp) (by simp)
    · exact (h.logs v r hr).undone_other h.slots htop hundone (hxid v r e hr) (by simp [e])
        (by simp [hxid v r e hr])
  · have hscan := h.scans v r hr
    by_cases e : v = w
    · subst e
      exact hscan.undone hundone rfl (by simp [tuples, hcalls]) (by simp [tuples, hcalls])
        (by simp [tuples, hcalls])
    · have hsame : tuples { s with
          slots := slots, dead := dead, log := Function.update s.log w log,
          aborting := Function.update s.aborting tr.xid true,
          scanned := Function.update s.scanned w [] } v = s.tuples v := tuples_congr rfl (by simp [e])
      exact hscan.undone hundone rfl (fun tuple ht => hsame ▸ ht) (hsame ▸ hscan.once) fun tuple _ S hf =>
        hf.undone h.slots htop hundone (hxid v r e hr) hrun
  · by_cases e : x = tr.xid
    · subst e
      exact ⟨h.trans.xids w tr hs, hrun⟩
    · exact h.aborting x (by simpa [e] using hx)
  · by_cases e : v = w
    · subst e
      show committing (s.tm.pc v) = false
      rw [hidle]
      rfl
    · exact h.deciding v r hr (by simpa [hxid v r e hr] using ha)
  · have hne : wr.xid ≠ tr.xid := fun e => by simp [e] at ha
    obtain ⟨newer, v, rest, hst, hvu, hvx⟩ := h.written wr hwr (by simpa [hne] using ha)
    obtain ⟨newer', hpop, -⟩ := pop_append htop hst (.inl (hvx ▸ hne))
    exact ⟨newer', v, rest, hpop, hvu, hvx⟩

/-! ## All steps -/

section
variable [DecidableEq V]

theorem trans_inv {op : TransOp} (hop : op ≠ .run) (h : s.step (w, .trans op) = some t) :
    (s.calls w = none ∧ s.handles w op = true) ∧ ∃ tm, s.tm.step (w, op) = some tm ∧ t = s.handled w op tm := by
  cases op with
  | run => exact absurd rfl hop
  | _ =>
    simp only [RowRun.step] at h
    split_ifs at h with hg
    obtain ⟨tm, htm, rfl⟩ := Option.map_eq_some_iff.1 h
    exact ⟨hg, tm, htm, rfl⟩

theorem RowInv.handle {op : TransOp} (h : RowInv s st) (hw : s.tm.csn + 1 < counter ∧ s.tm.xid + 1 < counter)
    (ht : s.step (w, .trans op) = some t) : RowInv t st := by
  by_cases hop : op = .run
  · subst hop
    obtain ⟨tm, htm, rfl⟩ := Option.map_eq_some_iff.1 ht
    exact h.run hw htm
  · obtain ⟨⟨hcalls, hhandles⟩, tm, htm, rfl⟩ := trans_inv hop ht
    cases op with
    | run => exact absurd rfl hop
    | beginNewTransaction => exact h.beginNewTransaction hw htm hcalls
    | beginNewStatement => exact h.beginNewStatement hw htm hcalls (by simpa [handles] using hhandles)
    | commit => exact h.commit hw htm (by simpa [handles] using hhandles)
    | abort =>
      cases hs : s.tm.transactions w with
      | none => simp [TransManager.step, hs] at htm
      | some tr =>
        simp only [handled, hs]
        exact h.abort hw htm hs
    | _ => simp [handles] at hhandles

theorem RowInv.step {a : W × RowOp V} (h : RowInv s st) (hc : s.Unovertaken a ∧ s.noWrap a)
    (ht : s.step a = some t) :
    ∃ st', RowInv t st' := by
  obtain ⟨w, op⟩ := a
  obtain ⟨hwriter, hw, hmax⟩ := hc
  cases op with
  | trans op => exact ⟨st, h.handle hw ht⟩
  | insert tid values usn =>
    cases hs : s.tm.transactions w with
    | none => simp [RowRun.step, hs] at ht
    | some tr =>
      simp only [RowRun.step, hs] at ht
      split_ifs at ht with hg
      obtain ⟨tm, htm, rfl⟩ := Option.map_eq_some_iff.1 ht
      exact h.insert hw hs htm hmax hg.2.2
  | scan tid =>
    simp only [RowRun.step] at ht
    split at ht
    · rename_i tr snapshot hsn
      obtain ⟨tr, hs, hsn⟩ := Option.bind_eq_some_iff.1 hsn
      obtain ⟨snapshot, hS, hpair⟩ := Option.map_eq_some_iff.1 hsn
      cases hpair
      split_ifs at ht with hg
      obtain ⟨res, hres, rfl⟩ := Option.map_eq_some_iff.1 ht
      exact ⟨st, h.scan hs hS hg.1 hg.2.2.2 hres⟩
    · cases ht
  | change tuple change usn =>
    simp only [RowRun.step] at ht
    split at ht
    · rename_i tr page hs hpage
      split_ifs at ht with hg hx
      · obtain ⟨h', hnot⟩ := h.erase hg.1 hg.2.2.2
        have hmem : tuple ∈ s.tuples w := by simp [tuples, hg.2.2.2]
        have hfound := (h.scans w tr hs).found tuple hmem
        refine h'.write hw hmax (fun r hr => (h.scans w r hr).found tuple hmem)
          (fun _ => (h.scans w tr hs).visited tuple hmem) (hnot hs) (fun p hp => ?_) ht
        · obtain rfl : page = p := Option.some.inj (hpage.symm.trans hp)
          exact hx
      · cases ht
        exact ⟨st, h.call hg.1 hg.2.2.2⟩
    · cases ht
  | lookup =>
    simp only [RowRun.step] at ht
    split at ht
    · rename_i call page hcp
      obtain ⟨call, hcall, hpage⟩ := Option.bind_eq_some_iff.1 hcp
      obtain ⟨page, hpage, hpair⟩ := Option.map_eq_some_iff.1 hpage
      cases hpair
      split_ifs at ht
      · obtain ⟨tm, htm, rfl⟩ := Option.map_eq_some_iff.1 ht
        exact ⟨st, h.wait hw htm hcall rfl⟩
      · cases ht
        exact ⟨st, h.decideCsn hcall rfl⟩
    · cases ht
  | decide =>
    simp only [RowRun.step] at ht
    split at ht
    · rename_i tuple change x hcall
      split_ifs at ht
      cases ht
      exact ⟨st, h.decideCsn hcall rfl⟩
    · cases ht
  | resume usn =>
    simp only [RowRun.step] at ht
    split at ht
    · rename_i tuple change hcall
      have hmem : tuple ∈ s.tuples w := by simp [tuples, hcall]
      cases hs : s.tm.transactions w with
      | none => simp [RowRun.write, hs] at ht
      | some tr =>
        have hscan := h.scans w tr hs
        exact h.write hw hmax (fun r hr => (h.scans w r hr).found tuple hmem) (fun _ => hscan.visited tuple hmem)
          (once_of_calls h hcall (by simp [hs])).1 (hwriter _ hcall) ht
    · cases ht
  | undo =>
    simp only [RowRun.step] at ht
    split at ht
    · rename_i tr usn log hs hlog
      split_ifs at ht with hg
      obtain ⟨u, hu, rfl⟩ := Option.map_eq_some_iff.1 ht
      obtain ⟨record, hr, hv⟩ := Option.bind_eq_some_iff.1 hu
      have hrun := not_commits h.trans hs hg.2
      obtain ⟨⟨slots, dead, rfl⟩, -⟩ :=
        h.slots.visit (fun tid htid => (h.logs w tr hs).top h.slots hrun hlog hr htid) hr hv
      exact ⟨_, h.undo hs hg.2 hg.1 hlog hr hv⟩
    · cases ht

theorem rowInv_of_reach (h : Reach RowRun.step (fun s a => s.Unovertaken a ∧ s.noWrap a) (init : RowRun W V) s) :
    ∃ st, RowInv s st :=
  h.inv (I := fun s => ∃ st, RowInv s st) (fun _ _ _ ⟨_, hi⟩ ha ht => hi.step ha ht) ⟨_, .init⟩

end

end RowRun

end Mimidb
