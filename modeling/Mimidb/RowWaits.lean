import Mimidb.RowInvariant
import Mimidb.WaitCycle

/-!
# Statements that wait for one another

A statement goes through its table in order and changes each tuple right after
its scan returned it, so the slots that it wrote lie behind the one that it
waits at. `OrderInv` says so of all statements of a run in which every
transaction has one statement only: along a chain of workers that wait in
`WaitTransactionEnd` the slots go up.
-/

namespace Mimidb

/-- The order of a scan. -/
def TupleId.Before (a b : TupleId) : Prop := a.pageno < b.pageno ∨ a.pageno = b.pageno ∧ a.itemid < b.itemid

instance (a b : TupleId) : Decidable (a.Before b) := inferInstanceAs (Decidable (_ ∨ _))

instance : IsTrans TupleId TupleId.Before := ⟨fun _ _ _ hab hbc => by unfold TupleId.Before at *; omega⟩

instance : Std.Irrefl TupleId.Before := ⟨fun _ h => by unfold TupleId.Before at h; omega⟩

/-! ## Running transactions -/

namespace TransManager

variable {W : Type} {s t : TransManager W} {v w : W} {x : Nat}

def Running (s : TransManager W) (v : W) (x : Nat) : Prop :=
  s.history x = CommitSeqNumber.InProgress ∧ ∃ tr, s.transactions v = some tr ∧ tr.xid = x

/-- Between calls, or waiting for another transaction. -/
@[simp] def resting : TransPc W → Bool
  | .idle | .waitFind _ | .waitCheck .. | .waitLatch _ => true
  | _ => false

theorem running_of_resting {tr : Transaction} (hi : TransInv s) (hs : s.transactions w = some tr)
    (hp : resting (s.pc w) = true) :
    s.Running w tr.xid := by
  have hphase := hi.phase w tr hs
  refine ⟨?_, tr, hs, rfl⟩
  cases h : s.pc w <;> rw [h] at hp hphase <;> simp at hp
  all_goals exact hphase.1

theorem running_not_commits {c : Nat} (hi : TransInv s) (hr : s.Running v x) : ¬ s.Commits x c := by
  intro hc
  rcases hc with ⟨hmin, he⟩ | ⟨u, tr, hu, rfl, hp⟩
  · rw [hr.1] at he
    subst he
    exact absurd hmin (by decide)
  · have hphase := hi.phase u tr hu
    rw [hp] at hphase
    exact absurd (hphase.1.symm.trans hr.1) (by decide)

variable [DecidableEq W]

theorem history_eq {op : TransOp} (hop : op ≠ .run) (h : s.step (w, op) = some t) : t.history = s.history := by
  cases op with
  | run => exact absurd rfl hop
  | _ =>
    simp only [TransManager.step] at h
    repeat' split at h
    all_goals cases h
    all_goals simp

theorem begin_transaction (h : s.step (w, .beginNewTransaction) = some t) :
    t.transactions w = some (.new s.xid) := by
  simp only [TransManager.step] at h
  split_ifs at h
  cases h
  simp

theorem wait_eq (h : s.step (w, .wait x) = some t) : t = s.goto w (.waitFind x) := by
  cases hs : s.transactions w with
  | none => simp [TransManager.step, hs] at h
  | some tr =>
    simp only [TransManager.step, hs] at h
    split_ifs at h
    cases h
    rfl

theorem write_eq {usn undo : Int} {flags : HeapTupleFlags} (h : s.step (w, .write usn undo flags) = some t) :
    s.pc w = .idle ∧ s.usn < usn ∧ t.usn = usn ∧
      ∃ tr, s.transactions w = some tr ∧ t.transactions w = some (tr.log usn) ∧ t.pc = s.pc ∧
      t.history = s.history := by
  cases hs : s.transactions w with
  | none => simp [TransManager.step, hs] at h
  | some tr =>
    simp only [TransManager.step, hs] at h
    split_ifs at h with hidle hu
    cases h
    exact ⟨hidle, hu.1, rfl, tr, rfl, by simp, rfl, rfl⟩

theorem inProgress_step {tr : Transaction} (hi : TransInv s) (h : s.step (w, .run) = some t)
    (hs : s.transactions w = some tr) (hx : s.history tr.xid ≠ CommitSeqNumber.Invalid)
    (ht : t.history tr.xid = CommitSeqNumber.InProgress) :
    s.history tr.xid = CommitSeqNumber.InProgress := by
  have hphase := hi.phase w tr hs
  simp only [TransManager.step, hs, Option.bind_some] at h
  cases hp : s.pc w <;> rw [hp] at h hphase <;> simp only [runPc, locked, eraseWorker] at h
  case beginRegister => exact absurd hphase hx
  case commitPublish c =>
    split_ifs at h <;> cases h
    all_goals
      simp at ht
      exact absurd (ht ▸ hphase.2.2.1) (by decide)
  all_goals
    repeat' split at h
    all_goals cases h
    all_goals simp at ht
    all_goals first
      | exact ht
      | exact absurd ht (by decide)

theorem running_step {op : TransOp} (hi : TransInv s) (hw : noWrap s (w, op)) (h : s.step (w, op) = some t)
    (hx : s.history x ≠ CommitSeqNumber.Invalid) (hr : t.Running v x) : s.Running v x := by
  obtain ⟨hp, tr', htr', rfl⟩ := hr
  have hne := fun (hv : v ≠ w) => step_ne h hv
  cases trans_effect hi hw h with
  | begin ht _ _ _ hh =>
    by_cases hv : v = w
    · subst hv
      obtain rfl := Option.some.inj (ht.symm.trans htr')
      exact absurd (hi.fresh _ (Nat.le_refl _)) hx
    · exact ⟨hh ▸ hp, tr', (hne hv).2 ▸ htr', rfl⟩
  | run tr r hs ht hxid _ _ _ _ hh =>
    by_cases hv : v = w
    · subst hv
      obtain rfl := Option.some.inj (ht.symm.trans htr')
      exact ⟨hh ▸ hp, tr, hs, hxid.symm⟩
    · exact ⟨hh ▸ hp, tr', (hne hv).2 ▸ htr', rfl⟩
  | mark tr val hs ht _ hh =>
    by_cases hv : v = w
    · subst hv
      obtain rfl := Option.some.inj (ht.symm.trans htr')
      refine ⟨?_, tr, hs, rfl⟩
      by_cases hop : op = .run
      · subst hop
        exact inProgress_step hi h hs hx hp
      · rw [← history_eq hop h]
        exact hp
    · have htr := (hne hv).2 ▸ htr'
      refine ⟨?_, tr', htr, rfl⟩
      rw [hh, Function.update_of_ne fun e => hv (hi.one v w tr' tr htr hs e)] at hp
      exact hp
  | take _ _ _ htr hh =>
    by_cases hv : v = w
    · subst hv
      exact ⟨hh ▸ hp, tr', htr ▸ htr', rfl⟩
    · exact ⟨hh ▸ hp, tr', (hne hv).2 ▸ htr', rfl⟩
  | finish _ _ ht hh =>
    by_cases hv : v = w
    · subst hv
      rw [ht] at htr'
      cases htr'
    · exact ⟨hh ▸ hp, tr', (hne hv).2 ▸ htr', rfl⟩

theorem ended_step {op : TransOp} (h : s.step (w, op) = some t) :
    t.ended x = s.ended x ∨ ∃ tr, s.transactions w = some tr ∧ tr.xid = x := by
  cases op with
  | run =>
    simp only [TransManager.step, Option.bind_eq_some_iff] at h
    obtain ⟨tr, hs, h⟩ := h
    by_cases hx : tr.xid = x
    · exact .inr ⟨tr, hs, hx⟩
    · left
      cases hp : s.pc w <;> rw [hp] at h <;> simp only [runPc, locked, eraseWorker] at h
      all_goals
        repeat' split at h
        all_goals cases h
        all_goals simp [Ne.symm hx]
  | _ =>
    left
    simp only [TransManager.step] at h
    repeat' split at h
    all_goals cases h
    all_goals simp

theorem resting_run (h : s.step (w, .run) = some t) (hp : resting (s.pc w) = true) :
    resting (t.pc w) = true ∧ t.transactions w = s.transactions w := by
  simp only [TransManager.step, Option.bind_eq_some_iff] at h
  obtain ⟨tr, hs, h⟩ := h
  cases hpc : s.pc w <;> rw [hpc] at h hp <;> simp at hp <;> simp only [runPc, locked] at h
  all_goals
    repeat' split at h
    all_goals cases h
    all_goals simp

end TransManager

namespace RowRun

open TransManager

variable {W V : Type} {s t : RowRun W V} {v w : W} {x : Nat} {tid : TupleId} {page ver : RowVersion V}
  {tuple : RowTuple V}

/-- What the scans of the server do: they go up, and a change is of the last tuple that one returned. -/
def InOrder (s : RowRun W V) (a : W × RowOp V) : Prop :=
  match a.2 with
  | .scan tid => ∀ r ∈ s.visited a.1, r.Before tid
  | .change tuple _ _ => (s.visited a.1).head? = some tuple.tid
  | _ => True

def OneStatement (s : RowRun W V) (a : W × RowOp V) : Prop :=
  match a.2 with
  | .trans .beginNewStatement => ∀ tr ∈ s.tm.transactions a.1, tr.snapshot = none
  | _ => True

instance (s : RowRun W V) : (a : W × RowOp V) → Decidable (s.InOrder a)
  | (w, .scan tid) => inferInstanceAs (Decidable (∀ r ∈ s.visited w, r.Before tid))
  | (w, .change tuple _ _) => inferInstanceAs (Decidable ((s.visited w).head? = some tuple.tid))
  | (_, .trans _) | (_, .insert _ _ _) | (_, .lookup) | (_, .decide) | (_, .resume _) | (_, .undo) =>
    .isTrue trivial

instance (s : RowRun W V) : (a : W × RowOp V) → Decidable (s.OneStatement a)
  | (w, .trans .beginNewStatement) => inferInstanceAs (Decidable (∀ tr ∈ s.tm.transactions w, tr.snapshot = none))
  | (_, .trans .beginNewTransaction) | (_, .trans (.write _ _ _)) | (_, .trans .commit) | (_, .trans .abort)
  | (_, .trans (.visible _)) | (_, .trans (.wait _)) | (_, .trans .run)
  | (_, .scan _) | (_, .change _ _ _) | (_, .insert _ _ _) | (_, .lookup) | (_, .decide) | (_, .resume _)
  | (_, .undo) => .isTrue trivial

/-- `w` waits for the end of the transaction of `v`. -/
def WaitsOn (s : RowRun W V) (w v : W) : Prop :=
  ∃ call x tr, s.calls w = some call ∧ call.pc = .waiting x ∧ s.tm.transactions v = some tr ∧ tr.xid = x

/-! ## What waiting statements have behind them -/

/-- The statement of `v` is past the slot. -/
structure Wrote (s : RowRun W V) (v : W) (tid : TupleId) : Prop where
  seen : tid ∈ s.visited v
  past : ∀ tuple ∈ s.tuples v, tuple.tid ≠ tid

def Owned (s : RowRun W V) (x : Nat) (tid : TupleId) : Prop := ∀ v, s.tm.Running v x → s.Wrote v tid

/-- The first version of a slot. -/
def New (s : RowRun W V) (tid : TupleId) (page : RowVersion V) : Prop :=
  page.undo = UndoSeqNumber.Invalid ∨ ∃ old image, s.undo page.undo = some (.Update old tid image) ∧ old ≠ tid

def Unread (s : RowRun W V) (tid : TupleId) : Prop := ∀ w, ∀ tuple ∈ s.tuples w, tuple.tid ≠ tid

/-- A version that lies in the slot, or did. -/
structure Lies (s : RowRun W V) (tid : TupleId) (v : RowVersion V) : Prop where
  low : 0 ≤ v.undo
  le : v.undo ≤ s.tm.usn
  begun : s.tm.history v.xid ≠ CommitSeqNumber.Invalid
  located : ∀ r, s.undo v.undo = some r → tid ∈ r.places

structure Scanning (s : RowRun W V) (w : W) : Prop where
  sorted : (s.visited w).Pairwise fun a b => b.Before a
  once : ((s.tuples w).map RowTuple.tid).Nodup
  seen : ∀ tuple ∈ s.tuples w, tuple.tid ∈ s.visited w
  found : ∀ tuple ∈ s.tuples w, Lies s tuple.tid tuple.version ∧ (∃ c, s.tm.Commits tuple.version.xid c) ∧
    s.slots tuple.tid ≠ none
  calling : ∀ call, s.calls w = some call → (s.visited w).head? = some call.tuple.tid ∧ resting (s.tm.pc w) = true
  waiting : ∀ call x, s.calls w = some call → call.pc = .waiting x → s.tm.history x ≠ CommitSeqNumber.Invalid ∧
    s.Owned x call.tuple.tid
  blank : ∀ tr, s.tm.transactions w = some tr → tr.snapshot = none → s.visited w = []
  cid : ∀ tr S, s.tm.transactions w = some tr → tr.snapshot = some S → S.cid = UndoSeqNumber.Invalid

structure OrderInv (s : RowRun W V) : Prop where
  trans : s.tm.TransInv
  number : 0 ≤ s.tm.usn
  scans : ∀ w, Scanning s w
  records : ∀ usn r, s.undo usn = some r → (0 < usn ∧ usn ≤ s.tm.usn) ∧
    ∀ image, r.image = some image → ∀ tid ∈ r.restores, Lies s tid image ∧ s.Owned image.xid tid
  pages : ∀ tid page, s.slots tid = some page → Lies s tid page ∧
    (s.Owned page.xid tid ∨ s.New tid page ∧ s.Unread tid)

theorem OrderInv.init : OrderInv (init : RowRun W V) where
  trans := .init
  number := Int.le_refl _
  scans _ := ⟨.nil, .nil, nofun, nofun, nofun, nofun, nofun, nofun⟩
  records := nofun
  pages := nofun

/-- A page of a running transaction whose statement is not past it is the first
version of its slot, and nobody read it. -/
theorem OrderInv.owned (h : OrderInv s) (hpage : s.slots tuple.tid = some page) (hmem : tuple ∈ s.tuples w) :
    s.Owned page.xid tuple.tid :=
  (h.pages _ _ hpage).2.resolve_right fun hnew => hnew.2 w tuple hmem rfl

theorem waits_before {call call' : RowCall V} {tr : Transaction} (h : OrderInv s) (hcall : s.calls w = some call)
    (hx : call.pc = .waiting tr.xid) (htr : s.tm.transactions v = some tr) (hcall' : s.calls v = some call') :
    call.tuple.tid.Before call'.tuple.tid := by
  obtain ⟨hhead, hrest⟩ := (h.scans v).calling call' hcall'
  have hrun := running_of_resting h.trans htr hrest
  have hwrote := ((h.scans w).waiting call _ hcall hx).2 v hrun
  have hne : call.tuple.tid ≠ call'.tuple.tid := fun e => hwrote.past call'.tuple (by simp [tuples, hcall']) e.symm
  have hsorted := (h.scans v).sorted
  have hseen := hwrote.seen
  cases hv : s.visited v with
  | nil => simp [hv] at hhead
  | cons r rest =>
    rw [hv] at hhead hsorted hseen
    obtain rfl : r = call'.tuple.tid := by simpa using hhead
    exact (List.pairwise_cons.1 hsorted).1 _ ((List.mem_cons.1 hseen).resolve_left hne)

/-- The slot at which a worker waits. -/
def waitsAt (s : RowRun W V) (w : W) : Option TupleId := (s.calls w).map fun call => call.tuple.tid

theorem OrderInv.rank (h : OrderInv s) :
    ∀ w v b, s.WaitsOn w v → s.waitsAt v = some b → ∃ a, s.waitsAt w = some a ∧ a.Before b := by
  intro w v b hw hb
  obtain ⟨call, x, tr, hcall, hx, htr, rfl⟩ := hw
  obtain ⟨call', hcall', rfl⟩ := Option.map_eq_some_iff.1 hb
  exact ⟨call.tuple.tid, by simp [waitsAt, hcall], waits_before h hcall hx htr hcall'⟩

theorem OrderInv.acyclic (h : OrderInv s) : ∀ w, ¬ Relation.TransGen s.WaitsOn w w := by
  refine cycle_free h.rank fun w v hw => ?_
  obtain ⟨call, x, tr, hcall, -⟩ := hw
  simp [waitsAt, hcall]

/-! ## Frames -/

/-- What a step leaves of the statement of `v`. -/
structure Kept (s t : RowRun W V) (v : W) : Prop where
  visited : ∀ r ∈ s.visited v, r ∈ t.visited v
  tuples : ∀ tuple ∈ t.tuples v, tuple ∈ s.tuples v ∨ tuple.tid ∉ s.visited v

structure Onward (s t : RowRun W V) : Prop where
  later : s.tm.Later t.tm
  running : ∀ v x, s.tm.history x ≠ CommitSeqNumber.Invalid → t.tm.Running v x → s.tm.Running v x ∧ Kept s t v
  undo : ∀ usn, usn ≤ s.tm.usn → t.undo usn = s.undo usn
  slots : ∀ tid, s.slots tid ≠ none → t.slots tid ≠ none

theorem Kept.of_eq (hv : t.visited v = s.visited v) (ht : ∀ tuple ∈ t.tuples v, tuple ∈ s.tuples v) : Kept s t v :=
  ⟨fun _ hr => hv ▸ hr, fun tuple h => .inl (ht tuple h)⟩

theorem Wrote.kept (h : s.Wrote v tid) (hk : Kept s t v) : t.Wrote v tid := by
  refine ⟨hk.visited _ h.seen, fun tuple hmem he => ?_⟩
  rcases hk.tuples tuple hmem with hold | hnew
  · exact h.past tuple hold he
  · exact hnew (he ▸ h.seen)

theorem Owned.onward (h : s.Owned x tid) (ho : Onward s t) (hx : s.tm.history x ≠ CommitSeqNumber.Invalid) :
    t.Owned x tid := by
  intro v hr
  obtain ⟨hrun, hkept⟩ := ho.running v x hx hr
  exact (h v hrun).kept hkept

theorem Lies.onward (h : Lies s tid ver) (ho : Onward s t) : Lies t tid ver where
  low := h.low
  le := Int.le_trans h.le ho.later.usn
  begun := ho.later.begun _ h.begun
  located r hr := h.located r (by rw [← ho.undo _ h.le]; exact hr)

theorem Scanning.onward (h : Scanning s v) (ho : Onward s t) (hv : t.visited v = s.visited v)
    (hc : t.calls v = s.calls v) (hs : t.scanned v = s.scanned v) (hp : t.tm.pc v = s.tm.pc v)
    (htr : t.tm.transactions v = s.tm.transactions v) : Scanning t v := by
  have htuples := tuples_congr hc hs
  refine ⟨hv ▸ h.sorted, htuples ▸ h.once, fun tuple ht => ?_, fun tuple ht => ?_, fun call hcall => ?_,
    fun call x hcall hx => ?_, ?_, ?_⟩
  · rw [htuples] at ht
    rw [hv]
    exact h.seen tuple ht
  · rw [htuples] at ht
    obtain ⟨hlies, ⟨c, hcommits⟩, hslot⟩ := h.found tuple ht
    exact ⟨hlies.onward ho, ⟨c, ho.later.keeps _ _ hcommits⟩, ho.slots _ hslot⟩
  · rw [hv, hp]
    exact h.calling call (hc ▸ hcall)
  · obtain ⟨hbegun, howned⟩ := h.waiting call x (hc ▸ hcall) hx
    exact ⟨ho.later.begun _ hbegun, howned.onward ho hbegun⟩
  · rw [hv, htr]
    exact h.blank
  · rw [htr]
    exact h.cid

theorem OrderInv.frame (h : OrderInv s) (ht : t.tm.TransInv) (ho : Onward s t) (hslots : t.slots = s.slots)
    (hundo : t.undo = s.undo) (hscans : ∀ v, Scanning t v)
    (hunread : ∀ tid page, s.slots tid = some page → s.New tid page → s.Unread tid → t.Owned page.xid tid ∨
      t.Unread tid) : OrderInv t where
  trans := ht
  number := Int.le_trans h.number ho.later.usn
  scans := hscans
  records usn r hr := by
    obtain ⟨hle, himage⟩ := h.records usn r (hundo ▸ hr)
    refine ⟨hle.imp_right fun hle => Int.le_trans hle ho.later.usn, fun image hi tid htid => ?_⟩
    obtain ⟨hlies, howned⟩ := himage image hi tid htid
    exact ⟨hlies.onward ho, howned.onward ho hlies.begun⟩
  pages tid page hpage := by
    rw [hslots] at hpage
    obtain ⟨hlies, howned⟩ := h.pages tid page hpage
    refine ⟨hlies.onward ho, ?_⟩
    rcases howned with howned | ⟨hnew, hun⟩
    · exact .inl (howned.onward ho hlies.begun)
    · exact (hunread tid page hpage hnew hun).imp_right fun hun' =>
        ⟨by unfold New at hnew ⊢; rw [hundo]; exact hnew, hun'⟩

variable [DecidableEq W] {tm : TransManager W}

/-! ## The handler -/

theorem Onward.manager {op : TransOp} (hi : s.tm.TransInv) (hw : TransManager.noWrap s.tm (w, op))
    (hstep : s.tm.step (w, op) = some t.tm) (hundo : t.undo = s.undo) (hslots : t.slots = s.slots)
    (hkept : ∀ v, (v = w → op ≠ .beginNewTransaction) → Kept s t v) : Onward s t where
  later := later_step hi hw hstep
  running v x hx hr := by
    refine ⟨running_step hi hw hstep hx hr, hkept v fun e => ?_⟩
    subst e
    rintro rfl
    -- the number of the new transaction is fresh
    obtain ⟨-, tr, htr, rfl⟩ := hr
    obtain rfl := Option.some.inj ((begin_transaction hstep).symm.trans htr)
    exact hx (hi.fresh _ (Nat.le_refl _))
  undo usn _ := congrFun hundo usn
  slots tid h := by
    rw [hslots]
    exact h

theorem OrderInv.run (h : OrderInv s) (hw : TransManager.noWrap s.tm (w, .run))
    (ht : s.tm.step (w, .run) = some tm) :
    OrderInv { s with tm := tm } := by
  have ho : Onward s { s with tm := tm } := .manager h.trans hw ht rfl rfl fun v _ => .of_eq rfl fun _ => id
  refine h.frame (h.trans.step hw ht) ho rfl rfl (fun v => ?_) fun tid page _ _ hun => .inr hun
  by_cases hv : v = w
  · subst hv
    have hscan := h.scans v
    have htr : ∀ tr, tm.transactions v = some tr → s.tm.transactions v = some tr := fun tr htr => by
      rcases (run_step ht).1 with hsame | hnone
      · exact hsame ▸ htr
      · rw [hnone] at htr
        cases htr
    refine ⟨hscan.sorted, hscan.once, hscan.seen, fun tuple hmem => ?_, fun call hcall => ?_,
      fun call x hcall hx => ?_, fun tr hs => ?_, fun tr S hs => ?_⟩
    · obtain ⟨hlies, ⟨c, hc⟩, hslot⟩ := hscan.found tuple hmem
      exact ⟨hlies.onward ho, ⟨c, ho.later.keeps _ _ hc⟩, hslot⟩
    · obtain ⟨hhead, hrest⟩ := hscan.calling call hcall
      exact ⟨hhead, (resting_run ht hrest).1⟩
    · obtain ⟨hbegun, howned⟩ := hscan.waiting call x hcall hx
      exact ⟨ho.later.begun _ hbegun, howned.onward ho hbegun⟩
    · exact hscan.blank tr (htr tr hs)
    · exact hscan.cid tr S (htr tr hs)
  · obtain ⟨hpc, htrans⟩ := step_ne ht hv
    exact (h.scans v).onward ho rfl rfl rfl hpc htrans

omit [DecidableEq W] in
theorem Scanning.start (hv : t.visited w = []) (hs : t.scanned w = []) (hc : t.calls w = none)
    (hcid : ∀ tr S, t.tm.transactions w = some tr → tr.snapshot = some S → S.cid = UndoSeqNumber.Invalid) :
    Scanning t w := by
  have htuples : t.tuples w = [] := by simp [tuples, hs, hc]
  refine ⟨?_, ?_, ?_, ?_, ?_, ?_, fun _ _ _ => hv, hcid⟩
  · simp [hv]
  · simp [htuples]
  · simp [htuples]
  · simp [htuples]
  · simp [hc]
  · simp [hc]

theorem OrderInv.handled {op : TransOp} (h : OrderInv s) (hw : TransManager.noWrap s.tm (w, op))
    (ht : s.tm.step (w, op) = some tm) (hcalls : s.calls w = none)
    (hopens : opens op = true → s.visited w = [] ∨ op = .beginNewTransaction)
    (hsnap : ∀ tr', tm.transactions w = some tr' →
      (∃ tr, s.tm.transactions w = some tr ∧ tr.snapshot = tr'.snapshot) ∨
        opens op = true ∧ ∀ S, tr'.snapshot = some S → S.cid = UndoSeqNumber.Invalid) :
    OrderInv (s.handled w op tm) := by
  have hempty : s.visited w = [] → s.scanned w = [] := fun hv => by
    by_contra hs
    obtain ⟨tuple, rest, hs⟩ := List.exists_cons_of_ne_nil hs
    have := (h.scans w).seen tuple (by simp [tuples, hs])
    simp [hv] at this
  have hother : ∀ v, v ≠ w → (s.handled w op tm).visited v = s.visited v ∧
      (s.handled w op tm).scanned v = s.scanned v := fun v hv => by
    unfold RowRun.handled
    simp only
    constructor <;> split_ifs <;> simp [hv]
  have ho : Onward s (s.handled w op tm) := by
    refine .manager h.trans hw ht rfl rfl fun v hv => ?_
    by_cases e : v = w
    · subst e
      by_cases hop : opens op = true
      · have hblank := (hopens hop).resolve_right (hv rfl)
        refine .of_eq (by simp [RowRun.handled, hop, hblank]) fun tuple => ?_
        simp [tuples, RowRun.handled, hop, hcalls]
      · exact .of_eq (by simp [RowRun.handled, hop]) fun tuple => by simp [tuples, RowRun.handled, hop]
    · obtain ⟨hvisited, hscanned⟩ := hother v e
      refine .of_eq hvisited fun tuple => ?_
      rw [tuples_congr (s := s) (t := s.handled w op tm) rfl hscanned]
      exact id
  refine h.frame (h.trans.step hw ht) ho rfl rfl (fun v => ?_) fun tid page _ _ hun => .inr fun v tuple hmem => ?_
  · by_cases e : v = w
    · subst e
      by_cases hop : opens op = true
      · refine .start (by simp [RowRun.handled, hop]) (by simp [RowRun.handled, hop]) hcalls fun tr' S htr' hS => ?_
        rcases hsnap tr' htr' with ⟨tr, htr, hsame⟩ | ⟨-, hcid⟩
        · exact (h.scans v).cid tr S htr (hsame.trans hS)
        · exact hcid S hS
      · have hscan := h.scans v
        have hsame : (s.handled v op tm).tuples v = s.tuples v := tuples_congr rfl (by simp [RowRun.handled, hop])
        have hvisited : (s.handled v op tm).visited v = s.visited v := by simp [RowRun.handled, hop]
        refine ⟨hvisited ▸ hscan.sorted, hsame ▸ hscan.once, hsame ▸ hvisited ▸ hscan.seen, fun tuple hmem => ?_,
          fun call hcall => ?_, fun call x hcall => ?_, fun tr' htr' hS => ?_, fun tr' S htr' hS => ?_⟩
        · obtain ⟨hlies, ⟨c, hc⟩, hslot⟩ := hscan.found tuple (hsame ▸ hmem)
          exact ⟨hlies.onward ho, ⟨c, ho.later.keeps _ _ hc⟩, hslot⟩
        · exact absurd (hcalls.symm.trans hcall) (by simp)
        · exact absurd (hcalls.symm.trans hcall) (by simp)
        · obtain ⟨tr, htr, he⟩ := (hsnap tr' htr').resolve_right fun hno => hop hno.1
          rw [hvisited]
          exact hscan.blank tr htr (he.trans hS)
        · obtain ⟨tr, htr, he⟩ := (hsnap tr' htr').resolve_right fun hno => hop hno.1
          exact hscan.cid tr S htr (he.trans hS)
    · obtain ⟨hpc, htrans⟩ := step_ne ht e
      obtain ⟨hvisited, hscanned⟩ := hother v e
      exact (h.scans v).onward ho hvisited rfl hscanned hpc htrans
  · refine hun v tuple ?_
    by_cases e : v = w
    · subst e
      by_cases hop : opens op = true
      · simp [tuples, RowRun.handled, hop, hcalls] at hmem
      · simpa [tuples, RowRun.handled, hop] using hmem
    · rw [tuples_congr (s := s) (t := s.handled w op tm) rfl (hother v e).2] at hmem
      exact hmem

theorem OrderInv.handle {op : TransOp} (h : OrderInv s) [DecidableEq V] (hone : s.OneStatement (w, .trans op))
    (hw : s.tm.csn + 1 < counter ∧ s.tm.xid + 1 < counter) (ht : s.step (w, .trans op) = some t) : OrderInv t := by
  by_cases hop : op = .run
  · subst hop
    obtain ⟨tm, htm, rfl⟩ := Option.map_eq_some_iff.1 ht
    exact h.run hw htm
  · obtain ⟨⟨hcalls, hhandles⟩, tm, htm, rfl⟩ := trans_inv hop ht
    refine h.handled hw htm hcalls (fun hopens => ?_) fun tr' htr' => ?_
    · cases op with
      | beginNewTransaction => exact .inr rfl
      | beginNewStatement =>
        cases hs : s.tm.transactions w with
        | none => simp [TransManager.step, hs] at htm
        | some tr => exact .inl ((h.scans w).blank tr hs (hone tr hs))
      | _ => cases hopens
    · cases op with
      | run => exact absurd rfl hop
      | beginNewTransaction =>
        obtain rfl := Option.some.inj ((begin_transaction htm).symm.trans htr')
        exact .inr ⟨rfl, fun S hS => by cases hS⟩
      | beginNewStatement =>
        cases hs : s.tm.transactions w with
        | none => simp [TransManager.step, hs] at htm
        | some tr =>
          simp only [TransManager.step, hs] at htm
          split_ifs at htm
          cases htm
          obtain rfl : tr.beginNewStatement s.tm.csn = tr' := by simpa using htr'
          refine .inr ⟨rfl, fun S hS => ?_⟩
          have hnone : tr.snapshot = none := hone tr hs
          simp only [Transaction.beginNewStatement, hnone] at hS
          cases hS
          rfl
      | commit =>
        cases hs : s.tm.transactions w with
        | none => simp [TransManager.step, hs] at htm
        | some tr =>
          simp only [TransManager.step, hs] at htm
          split_ifs at htm
          cases htm
          obtain rfl : tr = tr' := Option.some.inj (hs.symm.trans htr')
          exact .inl ⟨tr, rfl, rfl⟩
      | abort =>
        cases hs : s.tm.transactions w with
        | none => simp [TransManager.step, hs] at htm
        | some tr =>
          simp only [TransManager.step, hs] at htm
          split_ifs at htm
          cases htm
          obtain rfl : { tr with undoLog := tr.undoLog.map fun _ => [] } = tr' := by simpa using htr'
          exact .inl ⟨tr, rfl, rfl⟩
      | _ => simp [handles] at hhandles

/-! ## Scans -/

omit [DecidableEq W] in
theorem seen_commits {S : Snapshot} (hi : s.tm.TransInv) (hv : Lies s tid ver)
    (hcid : S.cid = UndoSeqNumber.Invalid)
    (h : s.tupleIsVisible x S ver = some true) : ∃ c, s.tm.Commits ver.xid c := by
  obtain ⟨hsees, hown⟩ := sees_of_visible hi hv.begun h
  rcases hsees with hx | ⟨c, hc, -⟩
  · have hlt := hown hx
    have h0 : S.cid = 0 := hcid
    rw [h0] at hlt
    exact absurd hv.low (Int.not_le.2 hlt)
  · exact ⟨c, hc⟩

omit [DecidableEq W] in
/-- The walk through the undo log stays at the slot. -/
theorem OrderInv.findVisible {S : Snapshot} {fuel : Nat} {usn : Int} (h : OrderInv s)
    (hloc : ∀ r, s.undo usn = some r → tid ∈ r.places) (hf : s.findVisible x S fuel usn = some (some tuple)) :
    tuple.tid = tid ∧ Lies s tid tuple.version ∧ s.tupleIsVisible x S tuple.version = some true := by
  induction fuel generalizing usn with
  | zero => cases hf
  | succ fuel ih =>
    have hwalk : ∀ image, Lies s tid image →
        ((s.tupleIsVisible x S image).bind fun visible =>
          if visible = true then some (some ⟨tid, image⟩)
            else s.findVisible x S fuel image.undo) = some (some tuple) →
        tuple.tid = tid ∧ Lies s tid tuple.version ∧ s.tupleIsVisible x S tuple.version = some true := by
      intro image hlies hw
      obtain ⟨visible, hvis, hw⟩ := Option.bind_eq_some_iff.1 hw
      cases visible with
      | true =>
        cases hw
        exact ⟨rfl, hlies, hvis⟩
      | false => exact ih hlies.located hw
    rw [RowRun.findVisible] at hf
    split_ifs at hf
    · cases hr : s.undo usn with
      | none => simp [hr] at hf
      | some r =>
        have hplace := hloc r hr
        have himage := (h.records usn r hr).2
        cases r with
        | Delete location => simp [hr] at hf
        | Update old new image =>
          simp only [hr] at hf
          split_ifs at hf with hmove
          · cases hf
          · obtain rfl : new = old := not_not.1 hmove
            obtain rfl : tid = new := by simpa using hplace
            exact hwalk image (himage image rfl tid (by simp)).1 hf
        | Insert location image =>
          simp only [hr] at hf
          obtain rfl : tid = location := by simpa using hplace
          exact hwalk image (himage image rfl tid (by simp)).1 hf
    · cases hf

omit [DecidableEq W] in
/-- Behind a first version the walk finds nothing. -/
theorem not_findVisible_new {S : Snapshot} {fuel : Nat} (hnew : s.New tid page) :
    s.findVisible x S fuel page.undo ≠ some (some tuple) := by
  intro hf
  cases fuel with
  | zero => cases hf
  | succ fuel =>
    rw [RowRun.findVisible] at hf
    split_ifs at hf with hvalid
    · rcases hnew with hno | ⟨old, image, hr, hne⟩
      · rw [hno] at hvalid
        cases hvalid
      · simp only [hr, if_pos hne.symm] at hf
        cases hf
    · cases hf

omit [DecidableEq W] in
theorem OrderInv.scanSlot {S : Snapshot} (h : OrderInv s) (hcid : S.cid = UndoSeqNumber.Invalid)
    (hpage : s.slots tid = some page) (hf : s.scanSlot x S tid = some (some tuple)) :
    tuple.tid = tid ∧ Lies s tid tuple.version ∧ (∃ c, s.tm.Commits tuple.version.xid c) ∧
      (s.New tid page → ∃ c, s.tm.Commits page.xid c) := by
  have hlies := (h.pages tid page hpage).1
  unfold RowRun.scanSlot at hf
  cases hdead : s.dead tid with
  | true => simp [hpage, hdead] at hf
  | false =>
    simp only [hpage, hdead] at hf
    obtain ⟨visible, hvis, hf⟩ := Option.bind_eq_some_iff.1 hf
    cases visible with
    | true =>
      have hc := seen_commits h.trans hlies hcid hvis
      simp only [if_pos] at hf
      split_ifs at hf
      · cases hf
      · cases hf
        exact ⟨rfl, hlies, hc, fun _ => hc⟩
    | false =>
      have hfound := h.findVisible hlies.located hf
      exact ⟨hfound.1, hfound.2.1, seen_commits h.trans hfound.2.1 hcid hfound.2.2,
        fun hnew => absurd hf (not_findVisible_new hnew)⟩

theorem OrderInv.scan {tr : Transaction} {S : Snapshot} {res : Option (RowTuple V)} (h : OrderInv s)
    (hs : s.tm.transactions w = some tr) (hS : tr.snapshot = some S) (hcalls : s.calls w = none)
    (hsorted : ∀ r ∈ s.visited w, r.Before tid)
    (hnot : tid ∉ s.visited w)
    (hres : s.scanSlot tr.xid S tid = some res) :
    OrderInv { s with
      visited := Function.update s.visited w (tid :: s.visited w),
      scanned := Function.update s.scanned w (res.toList ++ s.scanned w) } := by
  have hscan := h.scans w
  have hfound :
    ∀ tuple ∈ res.toList, tuple.tid = tid ∧ Lies s tid tuple.version ∧ (∃ c, s.tm.Commits tuple.version.xid c) ∧
      ∃ page, s.slots tid = some page ∧ (s.New tid page → ∃ c, s.tm.Commits page.xid c) := fun tuple hmem => by
    obtain rfl : res = some tuple := by simpa using hmem
    cases hpage : s.slots tid with
    | none => simp [RowRun.scanSlot, hpage] at hres
    | some page =>
      have hf := h.scanSlot (hscan.cid tr S hs hS) hpage hres
      exact ⟨hf.1, hf.2.1, hf.2.2.1, page, rfl, hf.2.2.2⟩
  let t : RowRun W V := { s with
    visited := Function.update s.visited w (tid :: s.visited w),
    scanned := Function.update s.scanned w (res.toList ++ s.scanned w) }
  have hown : t.tuples w = res.toList ++ s.tuples w := by simp [t, tuples, hcalls]
  have hother : ∀ v, v ≠ w → t.tuples v = s.tuples v := fun v hv => by simp [t, tuples, hv]
  have ho : Onward s t := by
    refine ⟨.refl, fun v x _ hr => ⟨hr, ?_⟩, fun _ _ => rfl, fun _ => id⟩
    by_cases e : v = w
    · subst e
      refine ⟨fun r hr => by simp [t, hr], fun tuple hmem => ?_⟩
      rw [hown] at hmem
      rcases List.mem_append.1 hmem with hnew | hold
      · exact .inr ((hfound tuple hnew).1 ▸ hnot)
      · exact .inl hold
    · exact .of_eq (by simp [t, e]) fun tuple hmem => hother v e ▸ hmem
  refine h.frame (t := t) h.trans ho rfl rfl (fun v => ?_) fun r page hpage hnew hun => ?_
  · by_cases e : v = w
    · subst e
      have hvisited : t.visited v = tid :: s.visited v := by simp [t]
      refine ⟨?_, ?_, fun tuple hmem => ?_, fun tuple hmem => ?_, fun call hcall => ?_, fun call x hcall => ?_,
        fun r hr hno => ?_, ?_⟩
      · rw [hvisited]
        exact List.pairwise_cons.2 ⟨hsorted, hscan.sorted⟩
      · rw [hown, List.map_append]
        refine List.nodup_append.2 ⟨?_, hscan.once, fun a ha b hb => ?_⟩
        · cases res <;> simp
        · obtain ⟨tuple, hmem, rfl⟩ := List.mem_map.1 ha
          obtain ⟨tuple', hmem', rfl⟩ := List.mem_map.1 hb
          rw [(hfound tuple hmem).1]
          intro he
          exact hnot (he ▸ hscan.seen tuple' hmem')
      · rw [hown] at hmem
        rw [hvisited]
        rcases List.mem_append.1 hmem with hnew | hold
        · exact List.mem_cons.2 (.inl (hfound tuple hnew).1)
        · exact List.mem_cons_of_mem _ (hscan.seen tuple hold)
      · rw [hown] at hmem
        rcases List.mem_append.1 hmem with hnew | hold
        · obtain ⟨htid, hlies, hc, page, hpage, -⟩ := hfound tuple hnew
          exact ⟨htid ▸ hlies.onward ho, hc, by simp [t, htid, hpage]⟩
        · obtain ⟨hlies, hc, hslot⟩ := hscan.found tuple hold
          exact ⟨hlies.onward ho, hc, hslot⟩
      · exact absurd (hcalls.symm.trans hcall) (by simp)
      · exact absurd (hcalls.symm.trans hcall) (by simp)
      · obtain rfl : tr = r := Option.some.inj (hs.symm.trans hr)
        rw [hS] at hno
        cases hno
      · exact hscan.cid
    · exact (h.scans v).onward ho (by simp [t, e]) rfl (by simp [t, e]) rfl rfl
  · by_cases hread : ∃ tuple ∈ res.toList, tuple.tid = r
    · obtain ⟨tuple, hmem, rfl⟩ := hread
      obtain ⟨htid, -, -, page', hpage', hcommits⟩ := hfound tuple hmem
      rw [htid] at hpage hnew ⊢
      obtain rfl : page = page' := Option.some.inj (hpage.symm.trans hpage')
      obtain ⟨c, hc⟩ := hcommits hnew
      exact .inl fun v hr => absurd hc (running_not_commits h.trans hr)
    · refine .inr fun v tuple hmem => ?_
      by_cases e : v = w
      · subst e
        rw [hown] at hmem
        rcases List.mem_append.1 hmem with hnew | hold
        · exact fun he => hread ⟨tuple, hnew, he⟩
        · exact hun v tuple hold
      · rw [hother v e] at hmem
        exact hun v tuple hmem

/-! ## Calls -/

theorem OrderInv.recall (h : OrderInv s) (ht : t.tm.TransInv) (ho : Onward s t) (hslots : t.slots = s.slots)
    (hundo : t.undo = s.undo) (hvisited : t.visited = s.visited)
    (hother : ∀ v, v ≠ w → t.calls v = s.calls v ∧ t.scanned v = s.scanned v ∧ t.tm.pc v = s.tm.pc v ∧
      t.tm.transactions v = s.tm.transactions v)
    (htrans : t.tm.transactions w = s.tm.transactions w) (htuples : ∀ tuple ∈ t.tuples w, tuple ∈ s.tuples w)
    (honce : ((t.tuples w).map RowTuple.tid).Nodup)
    (hcalling : ∀ call, t.calls w = some call → (s.visited w).head? = some call.tuple.tid ∧
      resting (t.tm.pc w) = true)
    (hwaiting : ∀ call x, t.calls w = some call → call.pc = .waiting x →
      s.tm.history x ≠ CommitSeqNumber.Invalid ∧ s.Owned x call.tuple.tid) : OrderInv t := by
  have hscan := h.scans w
  refine h.frame ht ho hslots hundo (fun v => ?_) fun tid page _ _ hun => .inr fun v tuple hmem => ?_
  · by_cases e : v = w
    · subst e
      refine ⟨hvisited ▸ hscan.sorted, honce, fun tuple hmem => ?_, fun tuple hmem => ?_, fun call hcall => ?_,
        fun call x hcall hx => ?_, ?_, ?_⟩
      · rw [hvisited]
        exact hscan.seen tuple (htuples tuple hmem)
      · obtain ⟨hlies, ⟨c, hc⟩, hslot⟩ := hscan.found tuple (htuples tuple hmem)
        exact ⟨hlies.onward ho, ⟨c, ho.later.keeps _ _ hc⟩, ho.slots _ hslot⟩
      · rw [hvisited]
        exact hcalling call hcall
      · obtain ⟨hbegun, howned⟩ := hwaiting call x hcall hx
        exact ⟨ho.later.begun _ hbegun, howned.onward ho hbegun⟩
      · rw [htrans, hvisited]
        exact hscan.blank
      · rw [htrans]
        exact hscan.cid
    · obtain ⟨hcalls, hscanned, hpc, htr⟩ := hother v e
      exact (h.scans v).onward ho (congrFun hvisited v) hcalls hscanned hpc htr
  · by_cases e : v = w
    · subst e
      exact hun v tuple (htuples tuple hmem)
    · obtain ⟨hcalls, hscanned, -⟩ := hother v e
      exact hun v tuple (tuples_congr hcalls hscanned ▸ hmem)

theorem OrderInv.recall_self (h : OrderInv s) (w : W) (calls : W → Option (RowCall V))
    (scanned : W → List (RowTuple V)) (hother : ∀ v, v ≠ w → calls v = s.calls v ∧ scanned v = s.scanned v)
    (htuples : ∀ tuple ∈ ({ s with calls := calls, scanned := scanned } : RowRun W V).tuples w, tuple ∈ s.tuples w)
    (honce : ((({ s with calls := calls, scanned := scanned } : RowRun W V).tuples w).map RowTuple.tid).Nodup)
    (hcalling : ∀ call, calls w = some call → (s.visited w).head? = some call.tuple.tid ∧
      resting (s.tm.pc w) = true)
    (hwaiting : ∀ call x, calls w = some call → call.pc ≠ .waiting x) :
    OrderInv { s with calls := calls, scanned := scanned } := by
  refine h.recall h.trans ⟨.refl, fun v x _ hr => ⟨hr, ?_⟩, fun _ _ => rfl, fun _ => id⟩ rfl rfl rfl
    (fun v e => ⟨(hother v e).1, (hother v e).2, rfl, rfl⟩) rfl htuples honce hcalling fun call x hcall hx =>
    absurd hx (hwaiting call x hcall)
  refine .of_eq rfl fun tuple hmem => ?_
  by_cases e : v = w
  · subst e
    exact htuples tuple hmem
  · rw [tuples_congr (s := s) (t := { s with calls := calls, scanned := scanned }) (hother v e).1
      (hother v e).2] at hmem
    exact hmem

omit [DecidableEq W] in
theorem nodup_erase [DecidableEq V] (hn : ((s.scanned w).map RowTuple.tid).Nodup) (hmem : tuple ∈ s.scanned w) :
    ((tuple :: (s.scanned w).erase tuple).map RowTuple.tid).Nodup :=
  ((List.perm_cons_erase hmem).map RowTuple.tid).nodup_iff.1 hn

theorem OrderInv.erase [DecidableEq V] (h : OrderInv s) (hcalls : s.calls w = none) (hmem : tuple ∈ s.scanned w) :
    OrderInv { s with scanned := Function.update s.scanned w ((s.scanned w).erase tuple) } := by
  have honce := (h.scans w).once
  simp only [tuples, hcalls, Option.map_none, Option.toList_none, List.nil_append] at honce
  refine h.recall_self w s.calls _ (fun v hv => ⟨rfl, by simp [hv]⟩) (fun other ho => ?_) ?_ (fun call hcall => ?_)
    fun call x hcall => ?_
  · simp only [tuples, hcalls, Function.update_self, Option.map_none, Option.toList_none, List.nil_append] at ho ⊢
    exact List.mem_of_mem_erase ho
  · simp only [tuples, hcalls, Function.update_self, Option.map_none, Option.toList_none, List.nil_append]
    exact (List.nodup_cons.1 (nodup_erase honce hmem)).2
  · exact absurd (hcalls.symm.trans hcall) (by simp)
  · exact absurd (hcalls.symm.trans hcall) (by simp)

theorem OrderInv.call [DecidableEq V] {change : RowChange V} (h : OrderInv s) (hcalls : s.calls w = none)
    (hmem : tuple ∈ s.scanned w) (hidle : s.tm.pc w = .idle) (hhead : (s.visited w).head? = some tuple.tid) :
    OrderInv { s with
      calls := Function.update s.calls w (some ⟨tuple, change, .released⟩),
      scanned := Function.update s.scanned w ((s.scanned w).erase tuple) } := by
  have honce := (h.scans w).once
  simp only [tuples, hcalls, Option.map_none, Option.toList_none, List.nil_append] at honce
  refine h.recall_self w _ _ (fun v hv => ⟨by simp [hv], by simp [hv]⟩) (fun other ho => ?_) ?_
    (fun call hcall => ?_) fun call x hcall => ?_
  · simp only [tuples, Function.update_self, Option.map_some, Option.toList_some, List.cons_append, List.nil_append,
      hcalls] at ho ⊢
    rcases List.mem_cons.1 ho with rfl | ho
    · simpa using hmem
    · simpa using List.mem_of_mem_erase ho
  · simpa [tuples] using nodup_erase honce hmem
  · obtain rfl : ⟨tuple, change, .released⟩ = call := by simpa using hcall
    exact ⟨hhead, by simp [hidle]⟩
  · obtain rfl : ⟨tuple, change, .released⟩ = call := by simpa using hcall
    simp

theorem OrderInv.decideCsn {call call' : RowCall V} {csn : Nat} (h : OrderInv s) (hcall : s.calls w = some call)
    (he : call'.tuple = call.tuple) : OrderInv (s.decideCsn w call' csn) := by
  have honce := (h.scans w).once
  have htuples : s.tuples w = call.tuple :: s.scanned w := by simp [tuples, hcall]
  rw [htuples] at honce
  unfold RowRun.decideCsn
  refine h.recall_self w _ s.scanned (fun v hv => ⟨by simp [hv], rfl⟩) (fun other ho => ?_) ?_ (fun c hc => ?_)
    fun c x hc => ?_
  · rw [htuples]
    simp only [tuples, Function.update_self] at ho
    split_ifs at ho
    · simpa [he] using ho
    · exact List.mem_cons_of_mem _ (by simpa using ho)
  · simp only [tuples, Function.update_self]
    split_ifs
    · simpa [he] using honce
    · simpa using (List.nodup_cons.1 honce).2
  · simp only [Function.update_self] at hc
    split_ifs at hc
    cases hc
    obtain ⟨hhead, hrest⟩ := (h.scans w).calling call hcall
    exact ⟨he ▸ hhead, hrest⟩
  · simp only [Function.update_self] at hc
    split_ifs at hc
    cases hc
    simp

theorem OrderInv.wait {call : RowCall V} (h : OrderInv s) (hw : TransManager.noWrap s.tm (w, .wait page.xid))
    (ht : s.tm.step (w, .wait page.xid) = some tm) (hcall : s.calls w = some call)
    (hpage : s.slots call.tuple.tid = some page) :
    OrderInv { s with
      tm := tm, calls := Function.update s.calls w (some { call with pc := .waiting page.xid }) } := by
  have hmem : call.tuple ∈ s.tuples w := by simp [tuples, hcall]
  have htuples : ∀ v,
    ({ s with tm := tm, calls := Function.update s.calls w (some { call with pc := .waiting page.xid }) } : RowRun W
      V).tuples v
      = s.tuples v := fun v => by
    by_cases e : v = w
    · subst e
      simp [tuples, hcall]
    · simp [tuples, e]
  have htm := wait_eq ht
  have hlies := (h.pages _ _ hpage).1
  refine h.recall (w := w) (h.trans.step hw ht)
    (.manager h.trans hw ht rfl rfl fun v _ => .of_eq rfl fun tuple hm => htuples v ▸ hm)
    rfl rfl rfl (fun v hv => ⟨by simp [hv], rfl, step_ne ht hv⟩) (by simp [htm]) (fun tuple hm => htuples w ▸ hm)
    (by rw [htuples]; exact (h.scans w).once) (fun c hc => ?_) fun c x hc hx => ?_
  · obtain rfl : { call with pc := .waiting page.xid } = c := by simpa using hc
    exact ⟨((h.scans w).calling call hcall).1, by simp [htm]⟩
  · obtain rfl : { call with pc := .waiting page.xid } = c := by simpa using hc
    obtain rfl : page.xid = x := by simpa using hx
    exact ⟨hlies.begun, h.owned hpage hmem⟩

/-! ## Changes -/

theorem OrderInv.puts {tr : Transaction} {usn undo : Int} {flags : HeapTupleFlags} {record : RowRecord V}
    (h : OrderInv s) (put : TupleId → Option (RowVersion V))
    (hw : TransManager.noWrap s.tm (w, .write usn undo flags))
    (hstep : s.tm.step (w, .write usn undo flags) = some t.tm) (hs : s.tm.transactions w = some tr)
    (hslots : ∀ r, t.slots r = (put r <|> s.slots r)) (hundo : t.undo = Function.update s.undo usn (some record))
    (hvisited : t.visited = s.visited) (hother : ∀ v, v ≠ w → t.calls v = s.calls v ∧ t.scanned v = s.scanned v)
    (hcalls : t.calls w = none)
    (htuples : ∀ tuple ∈ t.tuples w, tuple ∈ s.tuples w) (honce : ((t.tuples w).map RowTuple.tid).Nodup)
    (himage : ∀ image, record.image = some image → ∀ r ∈ record.restores, Lies s r image ∧ s.Owned image.xid r)
    (hput : ∀ r ver, put r = some ver → ver.xid = tr.xid ∧
      (ver.undo = UndoSeqNumber.Invalid ∨ ver.undo = usn ∧ r ∈ record.places) ∧
      (t.Wrote w r ∨ t.New r ver ∧ s.slots r = none)) : OrderInv t := by
  obtain ⟨hidle, hlt, husn, tr', hs', htr, hpc, hhist⟩ := write_eq hstep
  obtain rfl : tr = tr' := Option.some.inj (hs.symm.trans hs')
  have hrun := running_of_resting h.trans hs (by simp [hidle])
  have hsame : ∀ u, u ≠ usn → t.undo u = s.undo u := fun u hu => by rw [hundo, Function.update_of_ne hu]
  have hsub : ∀ v, ∀ tuple ∈ t.tuples v, tuple ∈ s.tuples v := fun v tuple hmem => by
    by_cases e : v = w
    · subst e
      exact htuples tuple hmem
    · exact tuples_congr (hother v e).1 (hother v e).2 ▸ hmem
  have ho : Onward s t := by
    refine ⟨later_step h.trans hw hstep, fun v x hx hr =>
      ⟨running_step h.trans hw hstep hx hr, .of_eq (congrFun hvisited v) (hsub v)⟩,
      fun u hu => hsame u fun e => ?_, fun r hr => ?_⟩
    · subst e
      exact absurd hu (Int.not_le.2 hlt)
    · rw [hslots]
      cases put r <;> simp [hr]
  have hscan := h.scans w
  refine ⟨h.trans.step hw hstep, Int.le_trans h.number ho.later.usn, fun v => ?_, fun u r hr => ?_,
    fun r ver hver => ?_⟩
  · by_cases e : v = w
    · subst e
      refine ⟨hvisited ▸ hscan.sorted, honce, fun tuple hmem => ?_, fun tuple hmem => ?_, fun call hcall => ?_,
        fun call x hcall => ?_, fun r hr hno => ?_, fun r S hr hS => ?_⟩
      · rw [hvisited]
        exact hscan.seen tuple (htuples tuple hmem)
      · obtain ⟨hlies, ⟨c, hc⟩, hslot⟩ := hscan.found tuple (htuples tuple hmem)
        exact ⟨hlies.onward ho, ⟨c, ho.later.keeps _ _ hc⟩, ho.slots _ hslot⟩
      · exact absurd (hcalls.symm.trans hcall) (by simp)
      · exact absurd (hcalls.symm.trans hcall) (by simp)
      · obtain rfl := Option.some.inj (htr.symm.trans hr)
        rw [hvisited]
        exact hscan.blank tr hs hno
      · obtain rfl := Option.some.inj (htr.symm.trans hr)
        exact hscan.cid tr S hs hS
    · obtain ⟨hpcv, htrv⟩ := step_ne hstep e
      exact (h.scans v).onward ho (congrFun hvisited v) (hother v e).1 (hother v e).2 hpcv htrv
  · by_cases e : u = usn
    · subst e
      obtain rfl : record = r := by simpa [hundo] using hr
      refine ⟨⟨Int.lt_of_le_of_lt h.number hlt, Int.le_of_eq husn.symm⟩, fun image hi tid htid => ?_⟩
      obtain ⟨hlies, howned⟩ := himage image hi tid htid
      exact ⟨hlies.onward ho, howned.onward ho hlies.begun⟩
    · obtain ⟨⟨hpos, hle⟩, hrest⟩ := h.records u r (hsame u e ▸ hr)
      refine ⟨⟨hpos, Int.le_trans hle ho.later.usn⟩, fun image hi tid htid => ?_⟩
      obtain ⟨hlies, howned⟩ := hrest image hi tid htid
      exact ⟨hlies.onward ho, howned.onward ho hlies.begun⟩
  · rw [hslots] at hver
    cases hp : put r with
    | none =>
      have hpage : s.slots r = some ver := by simpa [hp] using hver
      obtain ⟨hlies, howned⟩ := h.pages r ver hpage
      refine ⟨hlies.onward ho, ?_⟩
      rcases howned with howned | ⟨hnew, hun⟩
      · exact .inl (howned.onward ho hlies.begun)
      · refine .inr ⟨?_, fun v tuple hmem => hun v tuple (hsub v tuple hmem)⟩
        unfold New at hnew ⊢
        rw [ho.undo _ hlies.le]
        exact hnew
    | some ver' =>
      obtain rfl : ver' = ver := by simpa [hp] using hver
      obtain ⟨hx, hplace, hwrote⟩ := hput r ver' hp
      refine ⟨⟨?_, ?_, ?_, fun rec hr => ?_⟩, ?_⟩
      · rcases hplace with he | ⟨he, -⟩
        · exact Int.le_of_eq he.symm
        · exact he ▸ Int.le_of_lt (Int.lt_of_le_of_lt h.number hlt)
      · rw [husn]
        rcases hplace with he | ⟨he, -⟩
        · exact he ▸ Int.le_of_lt (Int.lt_of_le_of_lt h.number hlt)
        · exact Int.le_of_eq he
      · rw [hhist, hx, hrun.1]
        decide
      · rcases hplace with he | ⟨he, hmem⟩
        · have h0 : (UndoSeqNumber.Invalid : Int) < usn := Int.lt_of_le_of_lt h.number hlt
          rw [he, hsame _ (Int.ne_of_lt h0)] at hr
          exact absurd (h.records _ _ hr).1.1 (Int.lt_irrefl _)
        · obtain rfl : record = rec := by simpa [he, hundo] using hr
          exact hmem
      · rcases hwrote with hwrote | ⟨hnew, hnone⟩
        · refine .inl fun v hr => ?_
          obtain ⟨-, tr', htr', he⟩ := running_step h.trans hw hstep (by rw [hx, hrun.1]; decide) hr
          obtain rfl : v = w := h.trans.one v w tr' tr htr' hs (he.trans hx)
          exact hwrote
        · exact .inr ⟨hnew, fun v tuple hmem he => ((h.scans v).found tuple (hsub v tuple hmem)).2.2 (he ▸ hnone)⟩

/-- What a call knows about its tuple when it comes to the write. -/
structure Ready (s : RowRun W V) (w : W) (tuple : RowTuple V) : Prop where
  seen : tuple.tid ∈ s.visited w
  once : (tuple.tid :: (s.scanned w).map RowTuple.tid).Nodup
  lies : Lies s tuple.tid tuple.version
  commits : ∃ c, s.tm.Commits tuple.version.xid c
  owned : ∀ page, s.slots tuple.tid = some page → s.Owned page.xid tuple.tid

theorem OrderInv.write {change : RowChange V} {usn : Int} (h : OrderInv s) (hready : Ready s w tuple)
    (hw : s.tm.csn + 1 < counter ∧ s.tm.xid + 1 < counter) (ht : s.write w tuple change usn = some t) :
    OrderInv t := by
  obtain ⟨tr, page, tm, htr, hpage, hstep, hfree, rfl⟩ := write_inv ht
  have hne : ∀ values new, change = .update values (some new) → new ≠ tuple.tid := fun values new hc e => by
    have := hfree values new hc
    rw [e, hpage] at this
    cases this
  have hpast : ∀ other ∈ s.scanned w, other.tid ≠ tuple.tid := fun other ho he =>
    (List.nodup_cons.1 hready.once).1 (he ▸ List.mem_map_of_mem ho)
  refine h.puts (putOf tr.xid usn tuple.tid page change) hw hstep htr (fun _ => rfl) rfl rfl
    (fun v hv => ⟨by simp [hv], rfl⟩) (by simp) (fun other ho => ?_)
    (by simpa [tuples] using (List.nodup_cons.1 hready.once).2)
      (fun image hi r hr => ?_) fun r ver hver => ?_
  · simp only [tuples, Function.update_self, Option.map_none, Option.toList_none, List.nil_append] at ho
    exact List.mem_append_right _ ho
  · rw [restores_recordOf] at hr
    obtain rfl := List.mem_singleton.1 hr
    cases change with
    | update values newSlot =>
      obtain rfl : tuple.version = image := by simpa [recordOf] using hi
      obtain ⟨c, hc⟩ := hready.commits
      exact ⟨hready.lies, fun v hrun => absurd hc (running_not_commits h.trans hrun)⟩
    | delete =>
      obtain rfl : page = image := by simpa [recordOf] using hi
      exact ⟨(h.pages _ _ hpage).1, hready.owned _ hpage⟩
  · have hwrote : Wrote { s with
        tm := tm, slots := fun tid => putOf tr.xid usn tuple.tid page change tid <|> s.slots tid,
        undo := Function.update s.undo usn (some (recordOf tuple page change)),
        log := Function.update s.log w (usn :: s.log w),
        calls := Function.update s.calls w none,
        writes := ⟨tr.xid, usn, tuple.tid, tuple.version, page⟩ :: s.writes } w tuple.tid :=
      ⟨hready.seen, fun other ho => hpast other (by simpa [tuples] using ho)⟩
    cases change with
    | delete =>
      obtain ⟨rfl, rfl⟩ := single_eq_some.1 hver
      exact ⟨rfl, .inr ⟨rfl, by simp [recordOf]⟩, .inl hwrote⟩
    | update values newSlot =>
      cases newSlot with
      | none =>
        obtain ⟨rfl, rfl⟩ := single_eq_some.1 hver
        exact ⟨rfl, .inr ⟨rfl, by simp [recordOf]⟩, .inl hwrote⟩
      | some new =>
        have hnew := hne values new rfl
        by_cases e : r = tuple.tid
        · subst e
          obtain rfl : { page with xid := tr.xid, undo := usn, deleted := true } = ver := by
            simpa [putOf] using hver
          exact ⟨rfl, .inr ⟨rfl, by simp [recordOf]⟩, .inl hwrote⟩
        · obtain ⟨rfl, rfl⟩ : r = new ∧ (⟨tr.xid, usn, false, values⟩ : RowVersion V) = ver := by
            simpa [putOf, single, e] using hver
          refine ⟨rfl, .inr ⟨rfl, by simp [recordOf]⟩,
            .inr ⟨.inr ⟨tuple.tid, tuple.version, ?_, Ne.symm e⟩, hfree values r rfl⟩⟩
          simp [recordOf]

theorem OrderInv.insert {tr : Transaction} {usn : Int} {values : V} {flags : HeapTupleFlags} (h : OrderInv s)
    (hw : TransManager.noWrap s.tm (w, .write usn UndoSeqNumber.Invalid flags))
    (hstep : s.tm.step (w, .write usn UndoSeqNumber.Invalid flags) = some tm) (hs : s.tm.transactions w = some tr)
    (hcalls : s.calls w = none) (hfree : s.slots tid = none) :
    OrderInv { s with
      tm := tm, slots := Function.update s.slots tid (some ⟨tr.xid, UndoSeqNumber.Invalid, false, values⟩),
      undo := Function.update s.undo usn (some (.Delete tid)),
      log := Function.update s.log w (usn :: s.log w) } := by
  refine h.puts (single tid ⟨tr.xid, UndoSeqNumber.Invalid, false, values⟩) hw hstep hs
    (fun r => by simp only [update_eq_single]) rfl rfl (fun _ _ => ⟨rfl, rfl⟩) hcalls (fun _ => id)
      (h.scans w).once nofun
    fun r ver hver => ?_
  obtain ⟨rfl, rfl⟩ := single_eq_some.1 hver
  exact ⟨rfl, .inl rfl, .inr ⟨.inl rfl, hfree⟩⟩

/-! ## Undo -/

omit [DecidableEq W] in
theorem visit_inv {usn : Int} {record : RowRecord V} (h : s.visit usn record = some t) :
    ∃ slots dead, t = { s with slots := slots, dead := dead } ∧
    (slots = s.slots ∨ ∃ r ∈ record.restores, ∃ image, record.image = some image ∧ s.slots r ≠ none ∧
      slots = Function.update s.slots r (some image)) := by
  cases record with
  | Delete location =>
    simp only [visit] at h
    split at h
    · cases h
    · split_ifs at h <;> cases h
      · exact ⟨_, _, rfl, .inl rfl⟩
      · exact ⟨_, _, rfl, .inl rfl⟩
  | Update old new image =>
    simp only [visit] at h
    split at h
    · rename_i hold _
      split_ifs at h <;> cases h
      all_goals exact ⟨_, _, rfl, .inr ⟨old, by simp, image, rfl, by simp [hold], rfl⟩⟩
    · cases h
  | Insert location image =>
    simp only [visit] at h
    split at h
    · cases h
    · rename_i hold
      split_ifs at h <;> cases h
      · exact ⟨_, _, rfl, .inl rfl⟩
      · exact ⟨_, _, rfl, .inr ⟨location, by simp, image, rfl, by simp [hold], rfl⟩⟩

theorem OrderInv.undo {usn : Int} {record : RowRecord V} {log : W → List Int} {aborting : Nat → Bool}
    (h : OrderInv s) (hr : s.undo usn = some record) (hv : s.visit usn record = some t)
    (hcalls : s.calls w = none) :
    OrderInv { t with log := log, aborting := aborting, scanned := Function.update s.scanned w [] } := by
  obtain ⟨slots, dead, rfl, hslots⟩ := visit_inv hv
  let u : RowRun W V := { s with
    slots := slots, dead := dead, log := log, aborting := aborting, scanned := Function.update s.scanned w [] }
  have hsub : ∀ v, ∀ tuple ∈ u.tuples v, tuple ∈ s.tuples v := fun v tuple hmem => by
    by_cases e : v = w
    · subst e
      simp [u, tuples, hcalls] at hmem
    · simpa [u, tuples, e] using hmem
  have ho : Onward s u := by
    refine ⟨.refl, fun v x _ hrun => ⟨hrun, .of_eq rfl (hsub v)⟩, fun _ _ => rfl, fun tid htid => ?_⟩
    rcases hslots with rfl | ⟨r, -, image, -, -, rfl⟩
    · exact htid
    · by_cases e : tid = r
      · subst e
        simp [u]
      · simpa [u, e] using htid
  have hscan := h.scans w
  change OrderInv u
  refine ⟨h.trans, h.number, fun v => ?_, fun usn r hrec => ?_, fun tid page hpage => ?_⟩
  · by_cases e : v = w
    · subst e
      have hnone : u.tuples v = [] := by simp [u, tuples, hcalls]
      refine ⟨hscan.sorted, by rw [hnone]; exact .nil, by simp [hnone], by simp [hnone], fun call hcall => ?_,
        fun call x hcall => ?_, hscan.blank, hscan.cid⟩
      · exact absurd (hcalls.symm.trans hcall) (by simp)
      · exact absurd (hcalls.symm.trans hcall) (by simp)
    · exact (h.scans v).onward ho rfl rfl (by simp [u, e]) rfl rfl
  · obtain ⟨hle, himage⟩ := h.records usn r hrec
    refine ⟨hle, fun image hi tid htid => ?_⟩
    obtain ⟨hlies, howned⟩ := himage image hi tid htid
    exact ⟨hlies.onward ho, howned.onward ho hlies.begun⟩
  · have hkeep : s.slots tid = some page → Lies u tid page ∧
        (u.Owned page.xid tid ∨ u.New tid page ∧ u.Unread tid) := fun hold => by
      obtain ⟨hlies, howned⟩ := h.pages tid page hold
      exact ⟨hlies.onward ho, howned.imp (fun howned => howned.onward ho hlies.begun)
        fun hnew => ⟨hnew.1, fun v tuple hmem => hnew.2 v tuple (hsub v tuple hmem)⟩⟩
    rcases hslots with rfl | ⟨r, hr', image, hi, -, rfl⟩
    · exact hkeep hpage
    · by_cases e : tid = r
      · subst e
        obtain rfl : image = page := by simpa [u] using hpage
        obtain ⟨hlies, howned⟩ := (h.records usn record hr).2 image hi tid hr'
        exact ⟨hlies.onward ho, .inl (howned.onward ho hlies.begun)⟩
      · exact hkeep (by simpa [u, e] using hpage)

/-! ## All steps -/

variable [DecidableEq V]

omit [DecidableEq V] in
theorem write_frame {change : RowChange V} {usn : Int} (h : s.write w tuple change usn = some t) :
    s.tm.step (w, .write usn usn ⟨false, false⟩) = some t.tm ∧ ∀ v, v ≠ w → t.calls v = s.calls v := by
  obtain ⟨tr, page, tm, -, -, htm, -, rfl⟩ := write_inv h
  exact ⟨htm, fun v hv => by simp [hv]⟩

/-- A step of the rows is one of the manager or leaves it alone, and leaves the calls of the others alone. -/
theorem step_frame {op : RowOp V} (h : s.step (w, op) = some t) :
    (t.tm = s.tm ∨ ∃ op', s.tm.step (w, op') = some t.tm) ∧ ∀ v, v ≠ w → t.calls v = s.calls v := by
  cases op with
  | trans op =>
    by_cases hop : op = .run
    · subst hop
      obtain ⟨tm, htm, rfl⟩ := Option.map_eq_some_iff.1 h
      exact ⟨.inr ⟨_, htm⟩, fun _ _ => rfl⟩
    · obtain ⟨-, tm, htm, rfl⟩ := trans_inv hop h
      exact ⟨.inr ⟨_, htm⟩, fun _ _ => rfl⟩
  | insert tid values usn =>
    simp only [RowRun.step] at h
    split at h
    · split_ifs at h
      obtain ⟨tm, htm, rfl⟩ := Option.map_eq_some_iff.1 h
      exact ⟨.inr ⟨_, htm⟩, fun _ _ => rfl⟩
    · cases h
  | scan tid =>
    simp only [RowRun.step] at h
    split at h
    · split_ifs at h
      obtain ⟨res, -, rfl⟩ := Option.map_eq_some_iff.1 h
      exact ⟨.inl rfl, fun _ _ => rfl⟩
    · cases h
  | change tuple change usn =>
    simp only [RowRun.step] at h
    split at h
    · split_ifs at h
      · obtain ⟨htm, hcalls⟩ := write_frame h
        exact ⟨.inr ⟨_, htm⟩, hcalls⟩
      · cases h
        exact ⟨.inl rfl, fun v hv => by simp [hv]⟩
    · cases h
  | lookup =>
    simp only [RowRun.step] at h
    split at h
    · split_ifs at h
      · obtain ⟨tm, htm, rfl⟩ := Option.map_eq_some_iff.1 h
        exact ⟨.inr ⟨_, htm⟩, fun v hv => by simp [hv]⟩
      · cases h
        exact ⟨.inl rfl, fun v hv => by simp [RowRun.decideCsn, hv]⟩
    · cases h
  | decide =>
    simp only [RowRun.step] at h
    split at h
    · split_ifs at h
      cases h
      exact ⟨.inl rfl, fun v hv => by simp [RowRun.decideCsn, hv]⟩
    · cases h
  | resume usn =>
    simp only [RowRun.step] at h
    split at h
    · obtain ⟨htm, hcalls⟩ := write_frame h
      exact ⟨.inr ⟨_, htm⟩, hcalls⟩
    · cases h
  | undo =>
    simp only [RowRun.step] at h
    split at h
    · split_ifs at h
      obtain ⟨u, hu, rfl⟩ := Option.map_eq_some_iff.1 h
      obtain ⟨record, -, hv⟩ := Option.bind_eq_some_iff.1 hu
      obtain ⟨slots, dead, rfl, -⟩ := visit_inv hv
      exact ⟨.inl rfl, fun _ _ => rfl⟩
    · cases h

theorem OrderInv.step {a : W × RowOp V} (h : OrderInv s) (hc : (s.InOrder a ∧ s.OneStatement a) ∧ s.noWrap a)
    (ht : s.step a = some t) :
    OrderInv t := by
  obtain ⟨w, op⟩ := a
  obtain ⟨⟨horder, hone⟩, hw, -⟩ := hc
  cases op with
  | trans op => exact h.handle hone hw ht
  | insert tid values usn =>
    cases hs : s.tm.transactions w with
    | none => simp [RowRun.step, hs] at ht
    | some tr =>
      simp only [RowRun.step, hs] at ht
      split_ifs at ht with hg
      obtain ⟨tm, htm, rfl⟩ := Option.map_eq_some_iff.1 ht
      exact h.insert hw htm hs hg.1 hg.2.2
  | scan tid =>
    simp only [RowRun.step] at ht
    split at ht
    · rename_i tr snapshot hsn
      obtain ⟨tr, hs, hsn⟩ := Option.bind_eq_some_iff.1 hsn
      obtain ⟨snapshot, hS, hpair⟩ := Option.map_eq_some_iff.1 hsn
      cases hpair
      split_ifs at ht with hg
      obtain ⟨res, hres, rfl⟩ := Option.map_eq_some_iff.1 ht
      exact h.scan hs hS hg.1 horder hg.2.2.2 hres
    · cases ht
  | change tuple change usn =>
    simp only [RowRun.step] at ht
    split at ht
    · rename_i tr page hs hpage
      split_ifs at ht with hg hx
      · have hmem : tuple ∈ s.tuples w := by simp [tuples, hg.2.2.2]
        have honce := (h.scans w).once
        simp only [tuples, hg.1, Option.map_none, Option.toList_none, List.nil_append] at honce
        obtain ⟨hlies, hcommits, -⟩ := (h.scans w).found tuple hmem
        have h' := h.erase hg.1 hg.2.2.2
        refine h'.write ⟨(h.scans w).seen tuple hmem, ?_, ⟨hlies.1, hlies.2, hlies.3, hlies.4⟩, hcommits,
          fun page hpage v hrun => ?_⟩ hw ht
        · simpa using nodup_erase honce hg.2.2.2
        · refine (h.owned hpage hmem v hrun).kept (.of_eq rfl fun other ho => ?_)
          by_cases e : v = w
          · subst e
            simp only [tuples, Function.update_self] at ho ⊢
            rcases List.mem_append.1 ho with hcall | ho
            · exact List.mem_append_left _ hcall
            · exact List.mem_append_right _ (List.mem_of_mem_erase ho)
          · simpa [tuples, e] using ho
      · cases ht
        exact h.call hg.1 hg.2.2.2 hg.2.1 horder
    · cases ht
  | lookup =>
    simp only [RowRun.step] at ht
    split at ht
    · rename_i call page hcp
      obtain ⟨call, hcall, hpage⟩ := Option.bind_eq_some_iff.1 hcp
      obtain ⟨page, hpage, hpair⟩ := Option.map_eq_some_iff.1 hpage
      cases hpair
      split_ifs at ht
      · obtain ⟨tm, htm, rfl⟩ := Option.map_eq_some_iff.1 ht
        exact h.wait hw htm hcall hpage
      · cases ht
        exact h.decideCsn hcall rfl
    · cases ht
  | decide =>
    simp only [RowRun.step] at ht
    split at ht
    · rename_i tuple change x hcall
      split_ifs at ht
      cases ht
      exact h.decideCsn hcall rfl
    · cases ht
  | resume usn =>
    simp only [RowRun.step] at ht
    split at ht
    · rename_i tuple change hcall
      have hmem : tuple ∈ s.tuples w := by simp [tuples, hcall]
      have honce := (h.scans w).once
      obtain ⟨hlies, hcommits, -⟩ := (h.scans w).found tuple hmem
      exact h.write
        ⟨(h.scans w).seen tuple
          hmem, by simpa [tuples, hcall] using honce, hlies, hcommits, fun page hpage => h.owned hpage hmem⟩
        hw ht
    · cases ht
  | undo =>
    simp only [RowRun.step] at ht
    split at ht
    · rename_i tr usn log hs hlog
      split_ifs at ht with hg
      obtain ⟨u, hu, rfl⟩ := Option.map_eq_some_iff.1 ht
      obtain ⟨record, hr, hv⟩ := Option.bind_eq_some_iff.1 hu
      exact h.undo hr hv hg.1
    · cases ht

end RowRun

end Mimidb
