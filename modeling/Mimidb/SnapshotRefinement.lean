import Mimidb.LostUpdates
import Mimidb.RowSnapshots
import Mimidb.Simulation

/-!
# Rows under snapshot isolation

Each step of a run of the rows is a step of the store or none, where rows are
inserted by statements and updated in place, and every call that has waited
finds the writer of its tuple again.
-/

namespace Mimidb

namespace RowRun

open TransManager

variable {W V : Type} {s t : RowRun W V} {st : Stacks V} {w : W} {tm : TransManager W} {tid : TupleId}
  {v : RowVersion V} {x : Nat}
  {σ : SnapshotStore Nat TupleId V} {S : Snapshot} {tr : Transaction}

/-! ## Steps that put nothing on a stack -/

/-- The transaction in `t` is the one in `s`. -/
structure SameTransaction (s : RowRun W V) (w : W) (tr tr' : Transaction) : Prop where
  transaction : s.tm.transactions w = some tr
  aborting : s.aborting tr.xid = false
  xid : tr.xid = tr'.xid
  snapshot : tr.snapshot = tr'.snapshot
  lastUsn : tr.lastUsn = tr'.lastUsn

theorem Sim.frame {st' : Stacks V} {σ' : SnapshotStore Nat TupleId V} (h : Sim s st σ)
    (hcommits : σ'.commits = σ.commits) (horder : t.tm.Ordered (σ.commits.map SnapshotStore.Entry.xid))
    (hback : ∀ x c, t.tm.Commits x c → s.tm.Commits x c)
    (hl : s.tm.Later t.tm) (hactive : ∀ x b, σ'.active x = some b → σ.active x = some b ∧ t.aborting x = false)
    (hrun : ∀ w tr', t.tm.transactions w = some tr' → t.aborting tr'.xid = false → (∀ c, ¬ t.tm.Commits tr'.xid c) →
      ∃ tr, SameTransaction s w tr tr' ∧ σ'.active tr.xid = σ.active tr.xid)
    (hsub : ∀ tid, ∀ v ∈ st' tid, v ∈ st tid)
    (hlast : ∀ x, (∃ c, s.tm.Commits x c) ∨ (∃ b, σ'.active x = some b) → ∀ tid,
      lastOf x (st' tid) = lastOf x (st tid))
    (hplain : t.Plain) (halive : ∀ tid, t.dead tid = false)
    (hcalls : t.Called) : Sim t st' σ' where
  order := hcommits ▸ horder
  log e he tid := by
    rw [hcommits] at he
    obtain ⟨i, hi⟩ := List.mem_iff_getElem?.1 he
    rw [hlast _ (.inl ⟨_, h.mem_commits hi⟩)]
    exact h.log e he tid
  active x b hb := by
    obtain ⟨hold, hno⟩ := hactive x b hb
    obtain ⟨hlt, -, hnum, hown⟩ := h.active x b hold
    refine ⟨Nat.lt_of_lt_of_le hlt hl.xid, hno, fun c hc => hnum c (hback x c hc), fun tid => ?_⟩
    rw [hlast x (.inr ⟨b, hb⟩)]
    exact hown tid
  running w tr' htr' hab hno := by
    obtain ⟨tr, hsame, hact⟩ := hrun w tr' htr' hab hno
    obtain ⟨b, hb, htracked⟩ :=
      h.running w tr hsame.transaction hsame.aborting fun c hc => hno c (hsame.xid ▸ hl.keeps _ _ hc)
    refine ⟨b, by rw [← hsame.xid, hact]; exact hb, ?_, fun tid hnow v hv hx => ?_, fun tid v hv hx => ?_⟩
    · rw [← hsame.snapshot]
      exact htracked.start
    · rw [← hsame.snapshot]
      exact htracked.seen tid hnow v (hsub tid v hv) (hx.trans hsame.xid.symm)
    · rw [← hsame.snapshot, ← hsame.lastUsn]
      exact htracked.wrote tid v (hsub tid v hv) (hx.trans hsame.xid.symm)
  plain := hplain
  alive := halive
  calls := hcalls

section
variable [DecidableEq W] {op : TransOp}

theorem commits_back (hi : s.tm.TransInv) (hw : TransManager.noWrap s.tm (w, op))
    (hstep : s.tm.step (w, op) = some t.tm)
    (hp : s.tm.pc w ≠ .commitTake) : t.tm.csn = s.tm.csn ∧ ∀ x c, t.tm.Commits x c → s.tm.Commits x c := by
  rcases take_step hi hw hstep with hkeep | ⟨-, -, -, htake, -⟩
  · exact hkeep
  · exact absurd htake hp

theorem order_keep {order : List Nat} (ho : s.tm.Ordered order) (hi : s.tm.TransInv)
    (hw : TransManager.noWrap s.tm (w, op)) (hstep : s.tm.step (w, op) = some t.tm)
    (hp : s.tm.pc w ≠ .commitTake) : t.tm.Ordered order := by
  obtain ⟨new, hnew, htake⟩ := ho.step hi hw hstep
  cases new with
  | nil => simpa using hnew
  | cons x new => exact absurd (htake x List.mem_cons_self).1 hp

theorem Sim.manager (h : Sim s st σ) (hi : s.tm.TransInv) (hw : TransManager.noWrap s.tm (w, op))
    (hstep : s.tm.step (w, op) = some t.tm) (hp : s.tm.pc w ≠ .commitTake) (hab : t.aborting = s.aborting)
    (hundo : t.undo = s.undo)
    (hdead : t.dead = s.dead)
    (hrun : ∀ tr', t.tm.transactions w = some tr' → s.tm.transactions w = some tr')
    (hcalls : t.Called) : Sim t st σ := by
  refine h.frame rfl (order_keep h.order hi hw hstep hp) (commits_back hi hw hstep hp).2 (later_step hi hw hstep)
    (fun x b hb => ⟨hb, hab ▸ (h.active x b hb).2.1⟩)
      (fun v tr' htr' hno _ => ⟨tr', ⟨?_, hab ▸ hno, rfl, rfl, rfl⟩, rfl⟩)
    (fun _ _ => id) (fun _ _ _ => rfl) (by unfold Plain; rw [hundo]; exact h.plain) (hdead ▸ h.alive) hcalls
  by_cases e : v = w
  · subst e
    exact hrun tr' htr'
  · exact (step_ne hstep e).2 ▸ htr'

omit [DecidableEq W] in
theorem Sim.quiet (h : Sim s st σ) (htm : t.tm = s.tm) (hab : t.aborting = s.aborting) (hundo : t.undo = s.undo)
    (hdead : t.dead = s.dead) (hcalls : t.Called) : Sim t st σ := by
  refine h.frame rfl (htm ▸ h.order) (fun x c hc => htm ▸ hc) (htm ▸ .refl)
    (fun x b hb => ⟨hb, hab ▸ (h.active x b hb).2.1⟩)
    (fun v tr' htr' hno _ => ⟨tr', ⟨htm ▸ htr', hab ▸ hno, rfl, rfl, rfl⟩, rfl⟩) (fun _ _ => id) (fun _ _ _ => rfl)
    (by unfold Plain; rw [hundo]; exact h.plain) (hdead ▸ h.alive) hcalls

/-! ## Begin, commit and abort -/

theorem Sim.commitTake (hinv : RowInv s st) (h : Sim s st σ) (hw : TransManager.noWrap s.tm (w, .run))
    (hstep : s.tm.step (w, .run) = some tm) (hp : s.tm.pc w = .commitTake) (hs : s.tm.transactions w = some tr) :
    ∃ b, σ.active tr.xid = some b ∧ Sim { s with tm := tm } st
      ⟨σ.commits ++ [⟨tr.xid, b.start.getD 0, b.own⟩], Function.update σ.active tr.xid none⟩ := by
  have hi := hinv.trans
  have hno : ∀ c, ¬ s.tm.Commits tr.xid c := fun c => not_commits_of_take hi hs hp
  have hab : s.aborting tr.xid = false := by
    cases hab : s.aborting tr.xid with
    | false => rfl
    | true =>
      have := hinv.deciding w tr hs hab
      rw [hp] at this
      cases this
  obtain ⟨b, hb, htracked⟩ := h.running w tr hs hab hno
  have hl := later_step hi hw hstep
  have htm : tm.transactions = s.tm.transactions ∧ tm.csn = s.tm.csn + 1 ∧ tm.Commits tr.xid s.tm.csn := by
    rcases take_step hi hw hstep with ⟨hcsn, -⟩ | ⟨hcsn, tr', htr', -, hc⟩
    · simp only [TransManager.step, hs, Option.bind_some, hp, runPc, Option.some.injEq] at hstep
      subst hstep
      have hmod : (s.tm.csn + 1) % counter = s.tm.csn + 1 := Nat.mod_eq_of_lt hw.1
      simp [hmod] at hcsn
    · obtain rfl := Option.some.inj (hs.symm.trans htr')
      refine ⟨?_, hcsn, hc⟩
      simp only [TransManager.step, hs, Option.bind_some, hp, runPc, Option.some.injEq] at hstep
      subst hstep
      rfl
  obtain ⟨htrans, hcsn, hnum⟩ := htm
  obtain ⟨new, hnew, hmem⟩ := h.order.step hi hw hstep
  have hone : new = [tr.xid] := by
    have hlen := hnew.length
    have hlen' := h.order.length
    have hmin := hi.min
    simp only [List.length_append] at hlen
    obtain ⟨x, rfl⟩ := List.length_eq_one_iff.1 (show new.length = 1 by omega)
    obtain ⟨-, tr', htr', rfl⟩ := hmem x List.mem_cons_self
    rw [Option.some.inj (hs.symm.trans htr')]
  subst hone
  have hback : ∀ x c, tm.Commits x c → x ≠ tr.xid → s.tm.Commits x c := fun x c hc hne => by
    rcases commits_step hi hw hstep hc with hold | ⟨-, -, tr', htr', rfl⟩
    · exact hold
    · exact absurd (congrArg Transaction.xid (Option.some.inj (hs.symm.trans htr'))).symm hne
  refine ⟨b, hb, ?_, fun e he tid => ?_, fun x c hc => ?_, fun v tr' htr' hab' hno' => ?_, h.plain, h.alive,
    fun u call hcall => (h.calls u call hcall).imp_right fun hno' tr' htr' => hno' tr' (htrans ▸ htr')⟩
  · simpa using hnew
  · rcases List.mem_append.1 he with he | he
    · exact h.log e he tid
    · obtain rfl := List.mem_singleton.1 he
      exact (h.active _ _ hb).2.2.2 tid
  · have hne : x ≠ tr.xid := fun e => by
      subst e
      simp at hc
    have hold : σ.active x = some c := by simpa [hne] using hc
    obtain ⟨hlt, hx, hnum', hown⟩ := h.active x c hold
    exact ⟨Nat.lt_of_lt_of_le hlt hl.xid, hx, fun d hd => hnum' d (hback x d hd hne), hown⟩
  · have htr := htrans ▸ htr'
    have hne : tr'.xid ≠ tr.xid := fun e => hno' _ (e ▸ hnum)
    obtain ⟨c, hc, htracked'⟩ := h.running v tr' htr hab' fun d hd => hno' d (hl.keeps _ _ hd)
    exact ⟨c, by simpa [hne] using hc, htracked'⟩

omit [DecidableEq W] in
theorem lt_xid_of_commits {c : Nat} (hi : s.tm.TransInv) (hc : s.tm.Commits x c) : x < s.tm.xid := by
  rcases hc with ⟨hmin, he⟩ | ⟨u, tr, hu, rfl, -⟩
  · by_contra hge
    rw [hi.fresh x (Nat.le_of_not_lt hge)] at he
    rw [← he] at hmin
    exact absurd hmin (by decide)
  · exact hi.xids u tr hu

theorem Sim.begin (hinv : RowInv s st) (h : Sim s st σ) (hw : TransManager.noWrap s.tm (w, .beginNewTransaction))
    (hstep : s.tm.step (w, .beginNewTransaction) = some t.tm) (hab : t.aborting = s.aborting)
    (hundo : t.undo = s.undo)
    (hdead : t.dead = s.dead) (hcalls : t.Called) :
    ∃ σ', σ.step (s.tm.xid, .begin) = some σ' ∧ Sim t st σ' := by
  have hi := hinv.trans
  have hfresh : ∀ tid, ∀ v ∈ st tid, v.xid ≠ s.tm.xid := fun tid v hv e =>
    hinv.slots.begun tid v hv (by rw [e]; exact hi.fresh _ (Nat.le_refl _))
  have hnone : σ.active s.tm.xid = none := by
    cases hb : σ.active s.tm.xid with
    | none => rfl
    | some b => exact absurd (h.active _ _ hb).1 (Nat.lt_irrefl _)
  have hcommits : ∀ e ∈ σ.commits, e.xid ≠ s.tm.xid := fun e he hx => by
    obtain ⟨i, hi'⟩ := List.mem_iff_getElem?.1 he
    have := lt_xid_of_commits hi (h.mem_commits hi')
    omega
  obtain ⟨hnew, hidle, hxid⟩ :
      t.tm.transactions w = some (.new s.tm.xid) ∧ s.tm.pc w = .idle ∧ t.tm.xid = s.tm.xid + 1 := by
    cases trans_effect hi hw hstep with
    | begin ht _ hp hx => exact ⟨ht, hp, hx⟩
    | _ =>
      simp only [TransManager.step] at hstep
      split_ifs at hstep with hidle
      injection hstep with hstep
      rw [← hstep]
      refine ⟨by simp, hidle, ?_⟩
      simp [Nat.mod_eq_of_lt hw.2]
  have hp : s.tm.pc w ≠ .commitTake := by simp [hidle]
  have hl := later_step hi hw hstep
  refine ⟨{ σ with active := Function.update σ.active s.tm.xid (some ⟨none, fun _ => none, fun _ => none⟩) },
    by rw [SnapshotStore.step, if_pos ⟨hnone, hcommits⟩], order_keep h.order hi hw hstep hp, h.log,
    fun x b hb => ?_,
    fun v tr' htr' hno hnum => ?_, by unfold Plain; rw [hundo]; exact h.plain, hdead ▸ h.alive, hcalls⟩
  · by_cases e : x = s.tm.xid
    · subst e
      obtain rfl : ⟨none, fun _ => none, fun _ => none⟩ = b := by simpa using hb
      refine ⟨by omega, ?_, fun c hc => ?_, fun tid => (lastOf_eq_none.2 (hfresh tid)).symm⟩
      · rw [hab]
        cases ha : s.aborting s.tm.xid with
        | false => rfl
        | true => exact absurd (hinv.aborting _ ha).1 (Nat.lt_irrefl _)
      · exact absurd (lt_xid_of_commits hi ((commits_back hi hw hstep hp).2 _ c hc)) (Nat.lt_irrefl _)
    · obtain ⟨hlt, hx, hnum, hown⟩ := h.active x b (by simpa [e] using hb)
      exact ⟨by omega, hab ▸ hx, fun c hc => hnum c ((commits_back hi hw hstep hp).2 x c hc), hown⟩
  · by_cases e : v = w
    · subst e
      obtain rfl := Option.some.inj (hnew.symm.trans htr')
      exact ⟨⟨none, fun _ => none,
        fun _ => none⟩, by simp [Transaction.new], rfl, fun tid _ v hv hx => absurd hx (hfresh tid v hv),
        fun tid v hv hx => absurd hx (hfresh tid v hv)⟩
    · have htr := (step_ne hstep e).2 ▸ htr'
      have hne : tr'.xid ≠ s.tm.xid := Nat.ne_of_lt (hi.xids v tr' htr)
      obtain ⟨b, hb, htracked⟩ := h.running v tr' htr (hab ▸ hno) fun c hc => hnum c (hl.keeps _ _ hc)
      exact ⟨b, by simpa [hne] using hb, htracked⟩

theorem Sim.statement (hinv : RowInv s st) (h : Sim s st σ) (hw : TransManager.noWrap s.tm (w, .beginNewStatement))
    (hstep : s.tm.step (w, .beginNewStatement) = some t.tm) (hs : s.tm.transactions w = some tr)
    (hno : s.aborting tr.xid = false)
    (hab : t.aborting = s.aborting) (hundo : t.undo = s.undo)
    (hdead : t.dead = s.dead) (hcalls : t.Called) :
    ∃ σ', σ.step (tr.xid, .statement) = some σ' ∧ Sim t st σ' := by
  have hi := hinv.trans
  obtain ⟨hidle, htm⟩ :
      s.tm.pc w = .idle ∧ t.tm = s.tm.setTransaction w (some (tr.beginNewStatement s.tm.csn)) := by
    simp only [TransManager.step, hs] at hstep
    split_ifs at hstep with hidle
    exact ⟨hidle, (Option.some.inj hstep).symm⟩
  have hp : s.tm.pc w ≠ .commitTake := by simp [hidle]
  obtain ⟨b, hb, htracked⟩ := h.running w tr hs hno (not_commits hi hs hidle)
  have hlog := hinv.logs w tr hs
  have hkept := hlog.kept hno
  have hsame :
      (tr.beginNewStatement s.tm.csn).xid = tr.xid ∧ (tr.beginNewStatement s.tm.csn).lastUsn = tr.lastUsn := by
    unfold Transaction.beginNewStatement
    split
    · exact ⟨rfl, rfl⟩
    · split <;> exact ⟨rfl, rfl⟩
  have hl := later_step hi hw hstep
  refine ⟨{ σ with
    active := Function.update σ.active tr.xid (some ⟨some (b.start.getD σ.commits.length), b.own, fun _ => none⟩) },
    by rw [SnapshotStore.step, hb, Option.map_some], order_keep h.order hi hw hstep hp, h.log, fun x c hc => ?_,
    fun v tr' htr' hno' hnum => ?_, by unfold Plain; rw [hundo]; exact h.plain, hdead ▸ h.alive, hcalls⟩
  · have hback := (commits_back hi hw hstep hp).2
    by_cases e : x = tr.xid
    · subst e
      obtain rfl : (⟨some (b.start.getD σ.commits.length), b.own, fun _ => none⟩ : SnapshotStore.Active TupleId V) =
        c := by simpa using hc
      obtain ⟨hlt, hx, hnum, hown⟩ := h.active _ b hb
      refine ⟨Nat.lt_of_lt_of_le hlt hl.xid, hab ▸ hx, fun c hc => hnum c (hback _ c hc), fun tid => ?_⟩
      simpa [SnapshotStore.Active.own] using hown tid
    · obtain ⟨hlt, hx, hnum, hown⟩ := h.active x c (by simpa [e] using hc)
      exact ⟨Nat.lt_of_lt_of_le hlt hl.xid, hab ▸ hx, fun c hc => hnum c (hback _ c hc), hown⟩
  · by_cases e : v = w
    · subst e
      obtain rfl : tr.beginNewStatement s.tm.csn = tr' := by simpa [htm] using htr'
      rw [hsame.1]
      refine ⟨_, Function.update_self .., ?_, fun tid _ v hv hx => ?_, fun tid v hv hx => ?_⟩
      · cases hS : tr.snapshot with
        | none =>
          have hlen := h.order.length
          rw [List.length_map] at hlen
          simp [htracked.start, hS, Transaction.beginNewStatement, hlen]
        | some S =>
          obtain ⟨S', hS', he⟩ : ∃ S', (tr.beginNewStatement s.tm.csn).snapshot = some S' ∧ S'.csn = S.csn :=
            csn_beginNewStatement hS
          simp [htracked.start, hS, hS', he]
      · rw [hsame.1] at hx
        obtain ⟨hsnap, hvalid⟩ := htracked.wrote tid v hv hx
        obtain ⟨u, log, hul⟩ : ∃ u log, tr.undoLog = some (u :: log) := by
          cases hu : tr.undoLog with
          | none => simp [Transaction.lastUsn, hu, UndoSeqNumber.isValid] at hvalid
          | some l =>
            cases l with
            | nil => simp [Transaction.lastUsn, hu, UndoSeqNumber.isValid] at hvalid
            | cons u log => exact ⟨u, log, rfl⟩
        have hvalids : ∀ u ∈ tr.undoLog.getD [], UndoSeqNumber.isValid u = true := fun u hu => by
          obtain ⟨r, hr, -⟩ := hlog.entry u (hkept ▸ hu)
          exact hinv.slots.isValid hinv.max hr
        have hbeyond : ∀ u ∈ tr.undoLog.getD [], ∃ S, (tr.beginNewStatement s.tm.csn).snapshot = some S ∧
          u < S.cid := fun u hu =>
          cid_beyond hu (hkept ▸ hlog.falls) hvalids hsnap
        rcases hlog.own tid (h.alive tid) v hv hx with h0 | hmem
        · -- an inserted version has no undo number, but its record has one
          have hu : u ∈ tr.undoLog.getD [] := by simp [hul]
          obtain ⟨S, hS, hlt⟩ := hbeyond u hu
          obtain ⟨r, hr, -⟩ := hlog.entry u (hkept ▸ hu)
          refine ⟨S, hS, ?_⟩
          rw [h0]
          exact Int.lt_trans (hinv.slots.record u r hr).1 hlt
        · exact hbeyond _ (hkept ▸ hmem)
      · rw [hsame.1] at hx
        obtain ⟨hsnap, hvalid⟩ := htracked.wrote tid v hv hx
        obtain ⟨S, hS⟩ := Option.ne_none_iff_exists'.1 hsnap
        obtain ⟨S', hS', -⟩ : ∃ S', (tr.beginNewStatement s.tm.csn).snapshot = some S' ∧ S'.csn = S.csn :=
          csn_beginNewStatement hS
        exact ⟨by simp [hS'], hsame.2 ▸ hvalid⟩
    · have htr := (step_ne hstep e).2 ▸ htr'
      have hne : tr'.xid ≠ tr.xid := fun he => e (hi.one v w tr' tr htr hs he)
      obtain ⟨c, hc, htracked'⟩ := h.running v tr' htr (hab ▸ hno') fun c hc => hnum c (hl.keeps _ _ hc)
      exact ⟨c, by simpa [hne] using hc, htracked'⟩

omit [DecidableEq W] in
theorem Sim.takeBack {st' : Stacks V} (hinv : RowInv s st) (h : Sim s st σ) (hs : s.tm.transactions w = some tr)
    (hidle : s.tm.pc w = .idle) (horder : t.tm.Ordered (σ.commits.map SnapshotStore.Entry.xid))
    (hback : ∀ x c, t.tm.Commits x c → s.tm.Commits x c)
    (hl : s.tm.Later t.tm) (hab : t.aborting = Function.update s.aborting tr.xid true)
    (hother : ∀ v, v ≠ w → t.tm.transactions v = s.tm.transactions v)
    (hown : ∀ tr', t.tm.transactions w = some tr' → tr'.xid = tr.xid)
    (hsub : ∀ tid, ∀ v ∈ st' tid, v ∈ st tid)
    (hlast : ∀ x, x ≠ tr.xid → ∀ tid, lastOf x (st' tid) = lastOf x (st tid))
    (hplain : t.Plain) (halive : ∀ tid, t.dead tid = false)
    (hcalls : t.Called) :
    ∃ σ', exec SnapshotStore.step σ (if s.undoing w = true then [] else s.ofWorker w .abort) = some σ' ∧
    Sim t st' σ' := by
  have hno := not_commits hinv.trans hs hidle
  have hundoing : s.undoing w = s.aborting tr.xid := by simp [undoing, hs]
  have hframe : ∀ σ' : SnapshotStore Nat TupleId V, σ'.commits = σ.commits →
      (∀ x b, σ'.active x = some b → σ.active x = some b ∧ x ≠ tr.xid) →
      (∀ x, x ≠ tr.xid → σ'.active x = σ.active x) → Sim t st' σ' := by
    intro σ' hcommits hactive hkeep
    refine h.frame hcommits horder hback hl (fun x b hb => ?_) (fun v tr' htr' hab' hnum => ?_) hsub
      (fun x hx => ?_) hplain halive hcalls
    · obtain ⟨hold, hne⟩ := hactive x b hb
      exact ⟨hold, by rw [hab, Function.update_of_ne hne]; exact (h.active x b hold).2.1⟩
    · have hne : tr'.xid ≠ tr.xid := fun e => by
        rw [hab, e, Function.update_self] at hab'
        cases hab'
      have hv : v ≠ w := fun e => by
        subst e
        exact hne (hown tr' htr')
      exact ⟨tr', ⟨hother v hv ▸ htr', by simpa [hab, hne] using hab', rfl, rfl, rfl⟩, hkeep _ hne⟩
    · refine hlast x ?_
      rintro rfl
      rcases hx with ⟨c, hc⟩ | ⟨b, hb⟩
      · exact hno c hc
      · exact (hactive _ b hb).2 rfl
  cases ha : s.aborting tr.xid with
  | true =>
    refine ⟨σ, by rw [hundoing, ha]; rfl, hframe σ rfl (fun x b hb => ⟨hb, fun e => ?_⟩) fun _ _ => rfl⟩
    rw [e] at hb
    have := (h.active _ b hb).2.1
    rw [ha] at this
    cases this
  | false =>
    obtain ⟨b, hb, -⟩ := h.running w tr hs ha hno
    refine ⟨{ σ with active := Function.update σ.active tr.xid none }, ?_,
      hframe _ rfl (fun x c hc => ?_) fun x hx => by simp [hx]⟩
    · simp [hundoing, ha, ofWorker, hs, exec, SnapshotStore.step, hb]
    · have hne : x ≠ tr.xid := fun e => by
        subst e
        simp at hc
      exact ⟨by simpa [hne] using hc, hne⟩

/-! ## Changes -/

omit [DecidableEq W] in
/-- Under a version that the snapshot sees, it sees all. -/
theorem RowInv.sees_all {page : RowVersion V} {rest : List (RowVersion V)} (hinv : RowInv s st)
    (hs : s.tm.transactions w = some tr) (hS : tr.snapshot = some S) (hst : st tid = page :: rest)
    (hpage : s.Sees tr.xid S page) : ∀ v ∈ st tid, s.Sees tr.xid S v := by
  have hbelow :
      ∀ newer rest v, st tid = newer ++ v :: rest → s.Sees tr.xid S v → ∀ b ∈ v :: rest, s.Sees tr.xid S b := by
    intro newer rest
    induction rest generalizing newer with
    | nil =>
      intro v _ hv b hb
      rw [List.mem_singleton.1 hb]
      exact hv
    | cons c rest ih =>
      intro v hst hv b hb
      rcases List.mem_cons.1 hb with rfl | hb
      · exact hv
      · refine ih (newer ++ [v]) c (by simp [hst]) ?_ b hb
        rcases hv with hx | ⟨d, hd, hlt⟩
        · rcases (hinv.scans w tr hs).based tid newer v c rest hst hx with hc | ⟨S', hS', d, hd, hlt⟩
          · exact .inl hc
          · obtain rfl := Option.some.inj (hS.symm.trans hS')
            exact .inr ⟨d, hd, hlt⟩
        · rcases (hinv.slots.above hst).follows with he | ⟨d', hd', hlt'⟩
          · exact .inr ⟨d, he ▸ hd, hlt⟩
          · exact .inr ⟨d', hd', Nat.lt_trans (hlt' d hd) hlt⟩
  rw [hst]
  exact hbelow [] rest page hst hpage

omit [DecidableEq W] in
theorem Sim.free (h : Sim s st σ) (hno : ∀ c, ¬ s.tm.Commits x c) (hall : ∀ v ∈ st tid, s.Sees x S v) :
    σ.Free x (S.csn - CommitSeqNumber.Min) tid := by
  refine ⟨fun y b hb hne => ?_, fun e he => ?_⟩
  · obtain ⟨-, -, hnum, hown⟩ := h.active y b hb
    rw [hown, lastOf_eq_none]
    intro v hv hy
    rcases hall v hv with hx | ⟨c, hc, -⟩
    · exact hne (hy.symm.trans hx)
    · exact hnum c (hy ▸ hc)
  · obtain ⟨i, hi⟩ := List.mem_iff_getElem?.1 he
    rw [List.getElem?_drop] at hi
    have hc := h.mem_commits hi
    rw [h.log e (List.mem_of_getElem? hi), lastOf_eq_none]
    intro v hv hy
    rcases hall v hv with hx | ⟨d, hd, hlt⟩
    · exact hno _ (hx ▸ hy.symm ▸ hc)
    · have := h.order.unique hd (hy ▸ hc)
      omega

/-- A change puts a version on the stack of a slot where the transaction sees all. -/
theorem Sim.put {st' : Stacks V} {usn undo : Int} {flags : HeapTupleFlags} (hinv : RowInv s st) (h : Sim s st σ)
    (hw : TransManager.noWrap s.tm (w, .write usn undo flags))
    (hstep : s.tm.step (w, .write usn undo flags) = some t.tm)
    (hs : s.tm.transactions w = some tr) (hno : s.aborting tr.xid = false) (hS : tr.snapshot = some S)
    (hmax : usn ≤ UndoSeqNumber.Max)
    (hx : v.xid = tr.xid) (hall : ∀ v ∈ st tid, s.Sees tr.xid S v)
    (hst' : st' = Function.update st tid (v :: st tid))
    (hab : t.aborting = s.aborting) (hplain : t.Plain) (halive : ∀ tid, t.dead tid = false)
    (hcalls : t.Called) :
    ∃ σ', exec SnapshotStore.step σ (s.ofWorker w (.write tid (shown v))) = some σ' ∧ Sim t st' σ' := by
  have hi := hinv.trans
  obtain ⟨hidle, hlt, htr, -⟩ := write_step hs hstep
  have hp : s.tm.pc w ≠ .commitTake := by simp [hidle]
  have hnum := not_commits hi hs hidle
  have hl := later_step hi hw hstep
  have hback := (commits_back hi hw hstep hp).2
  obtain ⟨⟨start, done, now⟩, hb, htracked⟩ := h.running w tr hs hno hnum
  obtain rfl : start = some (S.csn - CommitSeqNumber.Min) := by simpa [hS] using htracked.start
  have hvalid : UndoSeqNumber.isValid (tr.log usn).lastUsn = true := by
    have hpos : 0 < usn := Int.lt_of_le_of_lt hinv.logged.1 hlt
    have hne : usn ≠ UndoSeqNumber.Invalid := Int.ne_of_gt hpos
    simp [Transaction.log, Transaction.lastUsn, UndoSeqNumber.isValid, hne, hmax]
  have hother : ∀ y, y ≠ tr.xid → ∀ r, lastOf y (st' r) = lastOf y (st r) := fun y hy r => by
    rw [hst']
    by_cases e : r = tid
    · subst e
      rw [Function.update_self, lastOf_ne (by rw [hx]; exact hy.symm)]
    · rw [Function.update_of_ne e]
  have hown : ∀ r, (SnapshotStore.Active.mk (some (S.csn - CommitSeqNumber.Min)) done
    (Function.update now tid (some (shown v)))).own r =
      lastOf tr.xid (st' r) := fun r => by
    rw [SnapshotStore.own_update, hst']
    split_ifs with e
    · subst e
      rw [Function.update_self, lastOf_self hx]
    · rw [Function.update_of_ne e]
      exact (h.active _ _ hb).2.2.2 r
  refine ⟨⟨σ.commits, Function.update σ.active tr.xid
    (some ⟨some (S.csn - CommitSeqNumber.Min), done, Function.update now tid (some (shown v))⟩)⟩, ?_,
    order_keep h.order hi hw hstep hp, fun e he r => ?_, fun y c hc => ?_, fun u tr' htr' hno' hnum' => ?_, hplain,
    halive, hcalls⟩
  · simp only [ofWorker, hs, Option.map_some, Option.toList_some, exec, SnapshotStore.step, hb,
      if_pos (h.free hnum hall), Option.bind_some]
  · obtain ⟨i, hi'⟩ := List.mem_iff_getElem?.1 he
    rw [hother _ fun e' => hnum _ (e' ▸ h.mem_commits hi')]
    exact h.log e he r
  · by_cases e : y = tr.xid
    · subst e
      obtain ⟨hlt', hx', hnum', -⟩ := h.active _ _ hb
      obtain rfl : SnapshotStore.Active.mk (some (S.csn - CommitSeqNumber.Min)) done
          (Function.update now tid (some (shown v))) = c := by
        simpa using hc
      exact ⟨Nat.lt_of_lt_of_le hlt' hl.xid, hab ▸ hx', fun d hd => hnum' d (hback _ d hd), hown⟩
    · obtain ⟨hlt', hx', hnum', hown'⟩ := h.active y c (by simpa [e] using hc)
      exact ⟨Nat.lt_of_lt_of_le hlt' hl.xid, hab ▸ hx', fun d hd => hnum' d (hback _ d hd),
        fun r => (hown' r).trans (hother y e r).symm⟩
  · by_cases e : u = w
    · subst e
      obtain rfl := Option.some.inj (htr.symm.trans htr')
      refine ⟨_, Function.update_self .., htracked.start, fun r hnow a ha hax => ?_, fun r a _ _ => ⟨?_, hvalid⟩⟩
      · have e : r ≠ tid := fun e => by
          subst e
          simp at hnow
        rw [hst', Function.update_of_ne e] at ha
        exact htracked.seen r (by simpa [e] using hnow) a ha hax
      · intro hnone
        have hnone' : tr.snapshot = none := hnone
        rw [hS] at hnone'
        cases hnone'
    · have htr'' := (step_ne hstep e).2 ▸ htr'
      have hne : tr'.xid ≠ tr.xid := fun he => e (hi.one u w tr' tr htr'' hs he)
      obtain ⟨c, hc, htracked'⟩ := h.running u tr' htr'' (hab ▸ hno') fun d hd => hnum' d (hl.keeps _ _ hd)
      have hold : ∀ r, ∀ a ∈ st' r, a.xid = tr'.xid → a ∈ st r := fun r a ha hax => by
        rw [hst'] at ha
        by_cases e : r = tid
        · subst e
          rw [Function.update_self] at ha
          rcases List.mem_cons.1 ha with rfl | ha
          · exact absurd (hax.symm.trans hx) hne
          · exact ha
        · rwa [Function.update_of_ne e] at ha
      exact ⟨c, by simpa [hne] using hc, htracked'.start,
        fun r hnow a ha hax => htracked'.seen r hnow a (hold r a ha hax) hax,
        fun r a ha hax => htracked'.wrote r a (hold r a ha hax) hax⟩

/-- The call writes over the version that its scan returned. -/
theorem Sim.write {st' : Stacks V} {tuple : RowTuple V} {change : RowChange V} {usn : Int} (hinv : RowInv s st)
    (h : Sim s st σ) (hw : s.tm.csn + 1 < counter ∧ s.tm.xid + 1 < counter) (hmax : usn ≤ UndoSeqNumber.Max)
    (hno : ∀ tr, s.tm.transactions w = some tr → s.aborting tr.xid = false)
    (hfound : ∀ tr, s.tm.transactions w = some tr → ∃ snapshot, tr.snapshot = some snapshot ∧
      s.Found st tr.xid snapshot tuple)
    (hplace : ∀ values new, change ≠ .update values (some new)) (ht : s.write w tuple change usn = some t)
    (hinv' : RowInv t st')
    (hcalls : t.Called) :
    ∃ σ', exec SnapshotStore.step σ (s.ofWorker w (.write tuple.tid change.row)) = some σ' ∧ Sim t st' σ' := by
  obtain ⟨tr, page, tm, hs, hpage, hstep, -, rfl⟩ := write_inv ht
  obtain ⟨S, hS, newer, below, hst, -, -, hsees, -⟩ := hfound tr hs
  obtain rfl : page = tuple.version := hinv'.current _ List.mem_cons_self
  obtain ⟨hidle, hlt, -⟩ := write_step hs hstep
  have hundo : ∀ u, u ≤ s.tm.usn → Function.update s.undo usn (some (recordOf tuple tuple.version change)) u =
    s.undo u := fun u hu =>
    Function.update_of_ne (by omega) _ _
  have hput : ∃ v, v.xid = tr.xid ∧ v.undo = usn ∧ shown v = change.row ∧
      ∀ r, RowRun.putOf tr.xid usn tuple.tid tuple.version change r = single tuple.tid v r := by
    cases change with
    | delete =>
      exact ⟨{ tuple.version with xid := tr.xid, undo := usn, deleted := true }, rfl, rfl, rfl, fun _ => rfl⟩
    | update values newSlot =>
      cases newSlot with
      | none => exact ⟨⟨tr.xid, usn, false, values⟩, rfl, rfl, rfl, fun _ => rfl⟩
      | some new => exact absurd rfl (hplace values new)
  obtain ⟨v, hx, hu, hshown, hput⟩ := hput
  have hplain : Plain { s with
      tm := tm, slots := fun tid => RowRun.putOf tr.xid usn tuple.tid tuple.version change tid <|> s.slots tid,
      undo := Function.update s.undo usn (some (recordOf tuple tuple.version change)),
      log := Function.update s.log w (usn :: s.log w),
      calls := Function.update s.calls w none,
      writes := ⟨tr.xid, usn, tuple.tid, tuple.version, tuple.version⟩ :: s.writes } := by
    intro u old new image hr
    by_cases e : u = usn
    · subst e
      simp only [Function.update_self, Option.some.injEq] at hr
      cases change with
      | delete => cases hr
      | update values newSlot =>
        cases newSlot with
        | none =>
          cases hr
          rfl
        | some new' => exact absurd rfl (hplace values new')
    · exact h.plain u old new image (by simpa [e] using hr)
  have hstack : st' = Function.update st tuple.tid (v :: st tuple.tid) := by
    funext r
    by_cases e : r = tuple.tid
    · subst e
      rw [Function.update_self]
      refine hinv.slots.stack_write hinv'.slots h.plain hplain (by simp [hput]) hundo ?_
      rw [hpage]
      refine ⟨recordOf tuple tuple.version change, by simp [hu], ?_⟩
      cases change <;> rfl
    · rw [Function.update_of_ne e]
      exact hinv.slots.stack_same hinv'.slots h.plain hplain (by simp [hput, single, e]) hundo
  obtain ⟨rest, hst'⟩ : ∃ rest, st tuple.tid = tuple.version :: rest := by
    rw [hinv.slots.page] at hpage
    exact List.head?_eq_some_iff.1 hpage
  rw [← hshown]
  exact h.put hinv hw hstep hs (hno tr hs) hS hmax hx (hinv.sees_all hs hS hst' hsees) hstack rfl hplain h.alive
    hcalls

theorem Sim.insert {st' : Stacks V} {values : V} {usn : Int} {flags : HeapTupleFlags} (hinv : RowInv s st)
    (h : Sim s st σ) (hw : TransManager.noWrap s.tm (w, .write usn UndoSeqNumber.Invalid flags))
    (hmax : usn ≤ UndoSeqNumber.Max) (hstep : s.tm.step (w, .write usn UndoSeqNumber.Invalid flags) = some tm)
    (hs : s.tm.transactions w = some tr) (hno : s.aborting tr.xid = false) (hS : tr.snapshot ≠ none)
    (hfree : s.slots tid = none)
    (ht : t = { s with
      tm := tm, slots := Function.update s.slots tid (some ⟨tr.xid, UndoSeqNumber.Invalid, false, values⟩),
      undo := Function.update s.undo usn (some (.Delete tid)), log := Function.update s.log w (usn :: s.log w) })
    (hinv' : RowInv t st') (hcalls : t.Called) :
    ∃ σ', exec SnapshotStore.step σ (s.ofWorker w (.write tid (some values))) = some σ' ∧ Sim t st' σ' := by
  subst ht
  obtain ⟨S, hS⟩ := Option.ne_none_iff_exists'.1 hS
  obtain ⟨hidle, hlt, -⟩ := write_step hs hstep
  have hundo : ∀ u, u ≤ s.tm.usn → Function.update s.undo usn (some (RowRecord.Delete tid)) u = s.undo u :=
    fun u hu =>
    Function.update_of_ne (by omega) _ _
  have hplain : Plain { s with
      tm := tm, slots := Function.update s.slots tid (some ⟨tr.xid, UndoSeqNumber.Invalid, false, values⟩),
      undo := Function.update s.undo usn (some (.Delete tid)),
      log := Function.update s.log w (usn :: s.log w) } := by
    intro u old new image hr
    by_cases e : u = usn
    · subst e
      simp at hr
    · exact h.plain u old new image (by simpa [e] using hr)
  have hnone : st tid = [] := by
    have := hinv.slots.stack h.plain tid
    rwa [hfree] at this
  have hstack : st' = Function.update st tid (⟨tr.xid, UndoSeqNumber.Invalid, false, values⟩ :: st tid) := by
    funext r
    by_cases e : r = tid
    · subst e
      rw [Function.update_self]
      refine hinv.slots.stack_write hinv'.slots h.plain hplain (by simp) hundo ?_
      rw [hfree]
      have h0 : UndoSeqNumber.Invalid ≤ s.tm.usn := hinv.logged.1
      have hinvalid : s.undo UndoSeqNumber.Invalid = none :=
        Option.eq_none_iff_forall_ne_some.2 fun r hr => hinv.slots.not_invalid hr rfl
      exact (hundo _ h0).trans hinvalid
    · rw [Function.update_of_ne e]
      exact hinv.slots.stack_same hinv'.slots h.plain hplain (by simp [e]) hundo
  exact h.put (v := ⟨tr.xid, UndoSeqNumber.Invalid, false, values⟩) hinv hw hstep hs hno hS hmax rfl
    (by simp [hnone]) hstack rfl hplain
    h.alive hcalls

omit [DecidableEq W] in
theorem Sim.undo {usn : Int} {record : RowRecord V} {slots : TupleId → Option (RowVersion V)}
    {dead : TupleId → Bool} (hinv : RowInv s st) (h : Sim s st σ) (hs : s.tm.transactions w = some tr)
    (hidle : s.tm.pc w = .idle)
    (hcalls : t.Called)
    (htop : Tops s st tr usn record) (hr : s.undo usn = some record)
    (hu : Undone s { s with slots := slots, dead := dead } usn record) (htm : t.tm = s.tm)
    (hundo : t.undo = s.undo) (hdead : t.dead = dead) (hab : t.aborting = Function.update s.aborting tr.xid true) :
    ∃ σ', exec SnapshotStore.step σ (if s.undoing w = true then [] else s.ofWorker w .abort) = some σ' ∧
    Sim t (pop record st) σ' := by
  have hkills : record.kills = [] := by
    cases record with
    | Update old new image => simp [h.plain _ _ _ _ hr]
    | _ => rfl
  refine h.takeBack hinv hs hidle (htm ▸ h.order) (fun x c hc => htm ▸ hc) (htm ▸ .refl) hab
    (fun v _ => by rw [htm]) (fun tr' htr' => ?_) (fun r a ha => ?_) (fun x hx r => ?_)
    (by unfold Plain; rw [hundo]; exact h.plain)
      (fun r => ?_) hcalls
  · rw [htm, hs] at htr'
    rw [Option.some.inj htr']
  · unfold pop at ha
    split_ifs at ha
    · exact List.mem_of_mem_tail ha
    · exact ha
  · unfold pop
    split_ifs with hmem
    · obtain ⟨-, p, rest, hst, -, hp⟩ := htop r (mem_places.2 (.inl hmem))
      rw [hst, List.tail_cons, lastOf_ne (hp ▸ hx.symm)]
    · rfl
  · rw [hdead]
    have := (hu.dead r).not.2 (by rw [hkills]; simp [h.alive r])
    exact Bool.eq_false_iff.2 this

/-! ## All steps -/

variable [DecidableEq V]

omit [DecidableEq V] in
theorem Called.write {tuple : RowTuple V} {change : RowChange V} {usn : Int} (h : s.Called)
    (ht : s.write w tuple change usn = some t) : t.Called := by
  obtain ⟨tr, page, tm, -, -, htm, -, rfl⟩ := write_inv ht
  intro v call hcall
  have e : v ≠ w := fun e => by
    subst e
    simp at hcall
  obtain ⟨hplace, hno⟩ := h v call (by simpa [e] using hcall)
  exact ⟨hplace, fun tr' htr' => hno tr' ((step_ne htm e).2 ▸ htr')⟩

omit [DecidableEq V] in
theorem aborting_handled (op : TransOp) (tm : TransManager W) (x : Nat) :
    (s.handled w op tm).aborting x = s.aborting x ∨
    op = .abort ∧ ∃ tr, s.tm.transactions w = some tr ∧ tr.xid = x := by
  cases op with
  | abort =>
    cases hs : s.tm.transactions w with
    | none => simp [RowRun.handled, hs]
    | some tr =>
      by_cases e : x = tr.xid
      · exact .inr ⟨rfl, tr, rfl, e.symm⟩
      · simp [RowRun.handled, hs, e]
  | _ => exact .inl rfl

omit [DecidableEq V] in
theorem Called.decide {call call' : RowCall V} {csn : Nat} (h : s.Called) (hcall : s.calls w = some call)
    (he : call'.change = call.change) :
    (s.decideCsn w call' csn).Called := by
  intro v c hc
  by_cases e : v = w
  · subst e
    simp only [RowRun.decideCsn, Function.update_self] at hc
    split_ifs at hc
    obtain rfl := Option.some.inj hc
    obtain ⟨hplace, hno⟩ := h v call hcall
    exact ⟨fun values new => he ▸ hplace values new, hno⟩
  · exact h v c (by simpa [RowRun.decideCsn, e] using hc)

theorem Called.step {a : W × RowOp V} (h : s.Called) (hi : s.tm.TransInv) (hserved : s.Served a)
    (ht : s.step a = some t) : t.Called := by
  obtain ⟨w, op⟩ := a
  have hkeep :
    t.calls = s.calls → (∀ v, v ≠ w → t.tm.transactions v = s.tm.transactions v) → t.aborting = s.aborting →
      (∀ tr, s.calls w ≠ none → t.tm.transactions w = some tr → s.tm.transactions w = some tr) → t.Called := by
    intro hc hother hab hown v call hcall
    rw [hc] at hcall
    obtain ⟨hplace, hno⟩ := h v call hcall
    refine ⟨hplace, fun tr htr => hab ▸ hno tr ?_⟩
    by_cases e : v = w
    · subst e
      exact hown tr (by simp [hcall]) htr
    · exact hother v e ▸ htr
  cases op with
  | trans op =>
    by_cases hop : op = .run
    · subst hop
      obtain ⟨tm, htm, rfl⟩ := Option.map_eq_some_iff.1 ht
      refine hkeep rfl (fun v hv => (step_ne htm hv).2) rfl fun tr _ htr => ?_
      rcases (run_step htm).1 with hsame | hnone
      · exact hsame ▸ htr
      · have htr' : tm.transactions w = some tr := htr
        rw [hnone] at htr'
        cases htr'
    · obtain ⟨⟨hcalls, -⟩, tm, htm, rfl⟩ := trans_inv hop ht
      intro v call hcall
      have e : v ≠ w := fun e => by
        subst e
        exact absurd (hcalls.symm.trans hcall) (by simp)
      obtain ⟨hplace, hno⟩ := h v call hcall
      refine ⟨hplace, fun tr htr => ?_⟩
      have htr' := (step_ne htm e).2 ▸ htr
      have hab := hno tr htr'
      rcases aborting_handled op tm tr.xid with hsame | ⟨-, r, hr, he⟩
      · rw [hsame]
        exact hab
      · exact absurd (hi.one v w tr r htr' hr he.symm) e
  | insert tid values usn =>
    cases hs : s.tm.transactions w with
    | none => simp [RowRun.step, hs] at ht
    | some tr =>
      simp only [RowRun.step, hs] at ht
      split_ifs at ht with hg
      obtain ⟨tm, htm, rfl⟩ := Option.map_eq_some_iff.1 ht
      exact hkeep rfl (fun v hv => (step_ne htm hv).2) rfl fun _ hne => absurd hg.1 hne
  | scan tid =>
    simp only [RowRun.step] at ht
    split at ht
    · split_ifs at ht
      obtain ⟨res, -, rfl⟩ := Option.map_eq_some_iff.1 ht
      exact hkeep rfl (fun _ _ => rfl) rfl fun _ _ => id
    · cases ht
  | change tuple change usn =>
    simp only [RowRun.step] at ht
    split at ht
    · rename_i tr page hs hpage
      split_ifs at ht with hg hx
      · exact Called.write (s := { s with scanned := Function.update s.scanned w ((s.scanned w).erase tuple) }) h ht
      · cases ht
        intro v call hcall
        by_cases e : v = w
        · subst e
          obtain rfl : ⟨tuple, change, .released⟩ = call := by simpa using hcall
          refine ⟨fun values new he => ?_, fun tr' htr' => ?_⟩
          · simp only at he
            subst he
            cases hserved
          · obtain rfl := Option.some.inj (hs.symm.trans htr')
            exact hg.2.2.1
        · exact h v call (by simpa [e] using hcall)
    · cases ht
  | lookup =>
    simp only [RowRun.step] at ht
    split at ht
    · rename_i call page hcp
      obtain ⟨call, hcall, hpage⟩ := Option.bind_eq_some_iff.1 hcp
      obtain ⟨page, hpage, hpair⟩ := Option.map_eq_some_iff.1 hpage
      cases hpair
      split_ifs at ht
      · obtain ⟨tm, htm, rfl⟩ := Option.map_eq_some_iff.1 ht
        obtain rfl := wait_eq htm
        intro v call' hcall'
        by_cases e : v = w
        · subst e
          obtain rfl : { call with pc := .waiting page.xid } = call' := by simpa using hcall'
          exact h v call hcall
        · exact h v call' (by simpa [e] using hcall')
      · cases ht
        exact h.decide hcall rfl
    · cases ht
  | decide =>
    simp only [RowRun.step] at ht
    split at ht
    · rename_i tuple change x hcall
      split_ifs at ht
      cases ht
      exact h.decide hcall rfl
    · cases ht
  | resume usn =>
    simp only [RowRun.step] at ht
    split at ht
    · exact h.write ht
    · cases ht
  | undo =>
    simp only [RowRun.step] at ht
    split at ht
    · rename_i tr usn log hs hlog
      split_ifs at ht with hg
      obtain ⟨u, hu, rfl⟩ := Option.map_eq_some_iff.1 ht
      obtain ⟨record, -, hv⟩ := Option.bind_eq_some_iff.1 hu
      obtain ⟨slots, dead, rfl, -⟩ := visit_inv hv
      intro v call hcall
      have e : v ≠ w := fun e => by
        subst e
        exact absurd (hg.1.symm.trans hcall) (by simp)
      obtain ⟨hplace, hno⟩ := h v call hcall
      refine ⟨hplace, fun tr' htr' => ?_⟩
      have hne : tr'.xid ≠ tr.xid := fun he => e (hi.one v w tr' tr htr' hs he)
      simpa [hne] using hno tr' htr'
    · cases ht

omit [DecidableEq W] [DecidableEq V] in
theorem stacks_eq {st' : Stacks V} (hinv : RowInv s st) (hinv' : RowInv t st') (hp : s.Plain)
    (hslots : t.slots = s.slots) (hundo : t.undo = s.undo) : st' = st :=
  funext fun tid => hinv.slots.stack_same hinv'.slots hp (by unfold Plain; rw [hundo]; exact hp)
    (congrFun hslots tid)
    fun u _ => congrFun hundo u

omit [DecidableEq W] [DecidableEq V] in
theorem exec_ofWorker {op : SnapshotStore.Op TupleId V} (hs : s.tm.transactions w = some tr) :
    exec SnapshotStore.step σ (s.ofWorker w op) = σ.step (tr.xid, op) := by
  simp only [ofWorker, hs, Option.map_some, Option.toList_some, exec]
  cases σ.step (tr.xid, op) <;> rfl

theorem Sim.handle (hinv : RowInv s st) (h : Sim s st σ) (hw : s.tm.csn + 1 < counter ∧ s.tm.xid + 1 < counter)
    (ht : s.step (w, .trans op) = some t) (hcalls : t.Called) :
    ∃ σ', exec SnapshotStore.step σ (s.storeOps (w, .trans op)) = some σ' ∧ Sim t st σ' := by
  by_cases hop : op = .run
  · subst hop
    obtain ⟨tm, htm, rfl⟩ := Option.map_eq_some_iff.1 ht
    by_cases hp : s.tm.pc w = .commitTake
    · cases hs : s.tm.transactions w with
      | none => simp [TransManager.step, hs] at htm
      | some tr =>
        obtain ⟨b, hb, hsim⟩ := h.commitTake hinv hw htm hp hs
        refine ⟨_, ?_, hsim⟩
        simp only [storeOps, hp]
        rw [exec_ofWorker hs, SnapshotStore.step, hb, Option.map_some]
    · refine ⟨σ, ?_, h.manager (t := { s with tm := tm }) hinv.trans hw htm hp rfl rfl rfl
        (fun tr' htr' => ?_) hcalls⟩
      · cases hpc : s.tm.pc w
        case commitTake => exact absurd hpc hp
        all_goals simp [storeOps, hpc, exec]
      · rcases (run_step htm).1 with hsame | hnone
        · exact hsame ▸ htr'
        · have htr : tm.transactions w = some tr' := htr'
          rw [hnone] at htr
          cases htr
  · obtain ⟨⟨-, hhandles⟩, tm, htm, rfl⟩ := trans_inv hop ht
    cases op with
    | run => exact absurd rfl hop
    | beginNewTransaction =>
      obtain ⟨σ', hσ, hsim⟩ := h.begin (t := s.handled w .beginNewTransaction tm) hinv hw htm rfl rfl rfl hcalls
      exact ⟨σ', by simp [storeOps, exec, hσ], hsim⟩
    | beginNewStatement =>
      cases hs : s.tm.transactions w with
      | none => simp [TransManager.step, hs] at htm
      | some tr =>
        have hno : s.aborting tr.xid = false := by simpa [handles, undoing, hs] using hhandles
        obtain ⟨σ', hσ, hsim⟩ :=
          h.statement (t := s.handled w .beginNewStatement tm) hinv hw htm hs hno rfl rfl rfl hcalls
        exact ⟨σ', by rw [storeOps, exec_ofWorker hs, hσ], hsim⟩
    | commit =>
      cases hs : s.tm.transactions w with
      | none => simp [TransManager.step, hs] at htm
      | some tr =>
        have htm' := htm
        simp only [TransManager.step, hs] at htm'
        split_ifs at htm' with hidle
        cases htm'
        exact ⟨σ, rfl, h.manager (t := s.handled w .commit (s.tm.goto w .commitMark)) hinv.trans hw htm
          (by simp [hidle]) rfl rfl rfl
          (fun _ => id) hcalls⟩
    | abort =>
      cases hs : s.tm.transactions w with
      | none => simp [TransManager.step, hs] at htm
      | some tr =>
        have htm' := htm
        simp only [TransManager.step, hs] at htm'
        split_ifs at htm' with hidle
        have hp : s.tm.pc w ≠ .commitTake := by simp [hidle]
        refine h.takeBack (t := s.handled w .abort tm) hinv hs hidle
          (order_keep (t := s.handled w .abort tm) h.order hinv.trans hw htm hp)
          (commits_back (t := s.handled w .abort tm) hinv.trans hw htm hp).2 (later_step hinv.trans hw htm)
          (by simp [RowRun.handled, hs]) (fun v hv => (step_ne htm hv).2) (fun tr' htr' => ?_) (fun _ _ => id)
            (fun _ _ _ => rfl) h.plain
          h.alive hcalls
        cases htm'
        obtain rfl : { tr with undoLog := tr.undoLog.map fun _ => [] } = tr' := by simpa [RowRun.handled] using htr'
        rfl
    | _ => simp [handles] at hhandles

theorem Sim.step {a : W × RowOp V} (hinv : RowInv s st) (h : Sim s st σ)
    (hc : (s.Served a ∧ s.Unovertaken a) ∧ s.noWrap a) (ht : s.step a = some t) :
    ∃ st' σ', exec SnapshotStore.step σ (s.storeOps a) = some σ' ∧ RowInv t st' ∧ Sim t st' σ' := by
  obtain ⟨st', hinv'⟩ := hinv.step ⟨hc.1.2, hc.2⟩ ht
  have hcalls := h.calls.step hinv.trans hc.1.1 ht
  obtain ⟨w, op⟩ := a
  obtain ⟨⟨hserved, -⟩, hw, hmax⟩ := hc
  have hquiet : t.slots = s.slots → t.undo = s.undo → s.storeOps (w, op) = [] → Sim t st σ →
      ∃ st' σ', exec SnapshotStore.step σ (s.storeOps (w, op)) = some σ' ∧ RowInv t st' ∧ Sim t st' σ' := by
    intro hslots hundo hops hsim
    refine ⟨st, σ, by rw [hops]; rfl, ?_, hsim⟩
    rw [← stacks_eq hinv hinv' h.plain hslots hundo]
    exact hinv'
  cases op with
  | trans op =>
    obtain ⟨σ', hσ, hsim⟩ := h.handle hinv hw ht hcalls
    exact ⟨st, σ', hσ, hinv.handle hw ht, hsim⟩
  | insert tid values usn =>
    cases hs : s.tm.transactions w with
    | none => simp [RowRun.step, hs] at ht
    | some tr =>
      simp only [RowRun.step, hs] at ht
      split_ifs at ht with hg
      obtain ⟨tm, htm, rfl⟩ := Option.map_eq_some_iff.1 ht
      obtain ⟨σ', hσ, hsim⟩ := h.insert hinv hw hmax htm hs hg.2.1 (hserved tr hs) hg.2.2 rfl hinv' hcalls
      exact ⟨st', σ', hσ, hinv', hsim⟩
  | scan tid =>
    simp only [RowRun.step] at ht
    split at ht
    · split_ifs at ht
      obtain ⟨res, -, rfl⟩ := Option.map_eq_some_iff.1 ht
      exact hquiet rfl rfl rfl (h.quiet rfl rfl rfl rfl hcalls)
    · cases ht
  | change tuple change usn =>
    simp only [RowRun.step] at ht
    split at ht
    · rename_i tr page hs hpage
      split_ifs at ht with hg hx
      · have hmem : tuple ∈ s.tuples w := by simp [tuples, hg.2.2.2]
        obtain ⟨herase, -⟩ : _ ∧ (s.tm.transactions w = some tr → _) := hinv.erase hg.1 hg.2.2.2
        have hsim : Sim { s with scanned := Function.update s.scanned w ((s.scanned w).erase tuple) } st σ :=
          h.quiet rfl rfl rfl rfl h.calls
        have hplace : ∀ values new, change ≠ .update values (some new) := fun values new he => by
          subst he
          cases hserved
        have hops : s.storeOps (w, .change tuple change usn) = s.ofWorker w (.write tuple.tid change.row) := by
          simp [storeOps, hpage, hx]
        obtain ⟨σ', hσ, hsim'⟩ :=
          hsim.write herase hw hmax (fun r hr => (Option.some.inj (hs.symm.trans hr)) ▸ hg.2.2.1)
          (fun r hr => (hinv.scans w r hr).found tuple hmem) hplace ht hinv' hcalls
        exact ⟨st', σ', hops ▸ hσ, hinv', hsim'⟩
      · cases ht
        exact hquiet rfl rfl (by simp [storeOps, hpage, hx]) (h.quiet rfl rfl rfl rfl hcalls)
    · cases ht
  | lookup =>
    simp only [RowRun.step] at ht
    split at ht
    · rename_i call page hcp
      split_ifs at ht
      · obtain ⟨tm, htm, rfl⟩ := Option.map_eq_some_iff.1 ht
        have hidle : s.tm.pc w = .idle := by
          simp only [TransManager.step] at htm
          split_ifs at htm with hidle
          exact hidle
        have hsame := wait_eq htm
        refine hquiet rfl rfl rfl (h.manager hinv.trans hw htm (by simp [hidle]) rfl rfl rfl
          (fun tr' htr' => ?_) hcalls)
        rw [hsame] at htr'
        exact htr'
      · cases ht
        exact hquiet rfl rfl rfl (h.quiet rfl rfl rfl rfl hcalls)
    · cases ht
  | decide =>
    simp only [RowRun.step] at ht
    split at ht
    · split_ifs at ht
      cases ht
      exact hquiet rfl rfl rfl (h.quiet rfl rfl rfl rfl hcalls)
    · cases ht
  | resume usn =>
    simp only [RowRun.step] at ht
    split at ht
    · rename_i tuple change hcall
      have hmem : tuple ∈ s.tuples w := by simp [tuples, hcall]
      obtain ⟨hplace, hno⟩ := h.calls w _ hcall
      obtain ⟨σ', hσ, hsim⟩ :=
        h.write hinv hw hmax hno (fun r hr => (hinv.scans w r hr).found tuple hmem) hplace ht hinv' hcalls
      exact ⟨st', σ', by simpa [storeOps, hcall] using hσ, hinv', hsim⟩
    · cases ht
  | undo =>
    simp only [RowRun.step] at ht
    split at ht
    · rename_i tr usn log hs hlog
      split_ifs at ht with hg
      obtain ⟨u, hu, rfl⟩ := Option.map_eq_some_iff.1 ht
      obtain ⟨record, hr, hv⟩ := Option.bind_eq_some_iff.1 hu
      have hrun := not_commits hinv.trans hs hg.2
      have htop : Tops s st tr usn record := fun tid htid => (hinv.logs w tr hs).top hinv.slots hrun hlog hr htid
      obtain ⟨⟨slots, dead, rfl⟩, hundone⟩ := hinv.slots.visit htop hr hv
      obtain ⟨σ', hσ, hsim⟩ := h.undo hinv hs hg.2 hcalls htop hr hundone rfl rfl rfl rfl
      exact ⟨_, σ', hσ, hinv.undo hs hg.2 hg.1 hlog hr hv, hsim⟩
    · cases ht

/-! ## Runs -/

/-- What a run is for the store. -/
def storeTrace (s : RowRun W V) (as : List (W × RowOp V)) : List (Nat × SnapshotStore.Op TupleId V) :=
  traceOf RowRun.step storeOps s as

theorem Sim.run {as : List (W × RowOp V)} (hinv : RowInv s st) (h : Sim s st σ)
    (hrun : exec (guarded (fun s a => (s.Served a ∧ s.Unovertaken a) ∧ s.noWrap a) RowRun.step) s as = some t) :
    ∃ st' σ', exec SnapshotStore.step σ (storeTrace s as) = some σ' ∧ RowInv t st' ∧ Sim t st' σ' := by
  have hstep : ∀ (s : RowRun W V) (σ : SnapshotStore Nat TupleId V) a t, (∃ st, RowInv s st ∧ Sim s st σ) →
      (s.Served a ∧ s.Unovertaken a) ∧ s.noWrap a → s.step a = some t →
      ∃ σ', Steps SnapshotStore.step anyStep σ (s.storeOps a) σ' ∧ ∃ st', RowInv t st' ∧ Sim t st' σ' := by
    rintro s σ a t ⟨st, hinv, h⟩ hc ht
    obtain ⟨st', σ', hσ, hinv', h'⟩ := h.step hinv hc ht
    exact ⟨σ', .of_exec hσ, st', hinv', h'⟩
  obtain ⟨σ', hσ, st', hinv', h'⟩ := Steps.simulates hstep (.of_guarded hrun) ⟨st, hinv, h⟩
  exact ⟨st', σ', hσ.exec_eq, hinv', h'⟩

/-- A run of the rows is a run of a store under snapshot isolation. The commits of the store are in the order of
their numbers, and a scan of a slot that its statement did not write returns the row that the store has there. -/
theorem refines_snapshot_store {as : List (W × RowOp V)}
    (h : exec (guarded (fun s a => (s.Served a ∧ s.Unovertaken a) ∧ s.noWrap a) RowRun.step) init as = some s) :
    ∃ σ, exec SnapshotStore.step SnapshotStore.init (storeTrace init as) = some σ ∧ σ.Isolated ∧
      s.tm.Ordered (σ.commits.map SnapshotStore.Entry.xid) ∧
      ∀ w tr S, s.tm.transactions w = some tr → s.tm.pc w = .idle → s.aborting tr.xid = false →
      tr.snapshot = some S →
        ∃ b, σ.active tr.xid = some b ∧ ∀ tid res, b.now tid = none → s.scanSlot tr.xid S tid = some res →
          res.map (fun tuple => tuple.version.values) = b.read σ.commits tid := by
  obtain ⟨st, σ, hσ, hinv, hsim⟩ := Sim.run .init .init h
  refine ⟨σ, hσ, SnapshotStore.isolated_of_reach (reach_of_exec hσ), hsim.order, fun w tr S hs hidle hab hS => ?_⟩
  obtain ⟨b, hb, -⟩ := hsim.running w tr hs hab (not_commits hinv.trans hs hidle)
  exact ⟨b, hb, fun tid res hnow hscan => hsim.reads hinv hs hidle hab hS hb hnow hscan⟩

end

/-- Worker 1 changes the row of worker 0 and commits, and worker 2 has its snapshot from before. -/
def snapshotTrace : List (Fin 4 × RowOp Nat) :=
  beginBoth 0 ++ [(0, .insert firstSlot 10 1)] ++ commitAll 0 ++ beginBoth 1 ++ beginBoth 2 ++
    [(1, .scan firstSlot), (1, .change firstTuple (.update 20 none) 2)] ++ commitAll 1

theorem refines_snapshot_store_two : ∃ (s : RowRun (Fin 4) Nat) (σ : SnapshotStore Nat TupleId Nat),
    exec (guarded (fun s a => (s.Served a ∧ s.Unovertaken a) ∧ s.noWrap a) RowRun.step) init snapshotTrace =
    some s ∧
    exec SnapshotStore.step SnapshotStore.init (storeTrace init snapshotTrace) = some σ ∧
    s.slots firstSlot = some ⟨2, 2, false, 20⟩ ∧ s.scanSlot 3 ⟨6, 0⟩ firstSlot = some (some firstTuple) ∧
    ∃ b, σ.active 3 = some b ∧ (b.now firstSlot = none → some 10 = b.read σ.commits firstSlot) := by
  have h : (exec (guarded (fun s a => (s.Served a ∧ s.Unovertaken a) ∧ s.noWrap a) RowRun.step) init
    snapshotTrace).map (fun s => decide
      ((s.slots firstSlot = some ⟨2, 2, false, 20⟩ ∧ s.scanSlot 3 ⟨6, 0⟩ firstSlot = some (some firstTuple)) ∧
        s.tm.transactions 2 = some ⟨3, .RUNNING, some ⟨6, 0⟩, none⟩ ∧ s.tm.pc 2 = .idle ∧ s.aborting 3 = false)) =
        some true := by
    decide +kernel
  obtain ⟨s, hs, htest⟩ := Option.map_eq_some_iff.1 h
  obtain ⟨⟨hpage, hscan⟩, htr, hidle, hab⟩ := of_decide_eq_true htest
  obtain ⟨σ, hσ, -, -, hreads⟩ := refines_snapshot_store hs
  obtain ⟨b, hb, hread⟩ := hreads 2 _ _ htr hidle hab rfl
  exact ⟨s, σ, hs, hσ, hpage, hscan, b, hb, fun hnow => hread firstSlot _ hnow hscan⟩

end RowRun

end Mimidb
