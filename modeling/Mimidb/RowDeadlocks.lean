import Mimidb.LostUpdates
import Mimidb.RowWaits

/-!
# Deadlocks

Where every transaction has one statement only, no cycle of workers waits in
`WaitTransactionEnd` (`no_cycle_of_waits`). Transactions of several statements
do come to wait for one another, and nothing ends that (`deadlocked_forever`).
-/

namespace Mimidb

namespace RowRun

open TransManager

variable {W V : Type} {s t : RowRun W V} {w : W} {x : Nat} {tuple : RowTuple V} [DecidableEq W] [DecidableEq V]

/-- Statements of their own transactions do not wait in a circle: somebody at the end of
each chain of waiting workers can go on. -/
theorem no_cycle_of_waits [Finite W]
    (h : Reach step (fun s a => (s.InOrder a ∧ s.OneStatement a) ∧ s.noWrap a) (init : RowRun W V) s) :
    (∀ w, ¬ Relation.TransGen s.WaitsOn w w) ∧ ∀ w, ∃ v, Relation.ReflTransGen s.WaitsOn w v ∧
    ∀ u, ¬ s.WaitsOn v u := by
  have hinv : OrderInv s := h.inv (fun _ _ _ hi hc ht => hi.step hc ht) .init
  exact ⟨hinv.acyclic, chain_ends hinv.acyclic⟩

/-! ## Traces -/

/-- Worker 0 has committed a tuple in each of two slots, and workers 1 and 2 have begun. -/
def twoTuples : List (Fin 4 × RowOp Nat) :=
  beginBoth 0 ++ [(0, .insert firstSlot 10 1), (0, .insert ⟨0, 1⟩ 11 2)] ++ commitAll 0 ++ beginBoth 1 ++
  beginBoth 2

def secondTuple : RowTuple Nat := ⟨⟨0, 1⟩, ⟨1, UndoSeqNumber.Invalid, false, 11⟩⟩

/-- Up to the latch of the transaction that wrote the tuple. -/
def waitFor (w : Fin 4) (tuple : RowTuple Nat) : List (Fin 4 × RowOp Nat) :=
  [(w, .change tuple .delete 0), (w, .lookup), (w, .trans .run), (w, .trans .run)]

theorem no_cycle_of_waits_two : ∃ s : RowRun (Fin 4) Nat,
    Reach step (fun s a => (s.InOrder a ∧ s.OneStatement a) ∧ s.noWrap a) init s ∧ s.WaitsOn 1 2 ∧
    ¬ Relation.TransGen s.WaitsOn 1 1 := by
  have h : (exec (guarded (fun s a => (s.InOrder a ∧ s.OneStatement a) ∧ s.noWrap a) step) init
      (twoTuples ++ [(2, .scan firstSlot), (2, .change firstTuple .delete 3), (1, .scan firstSlot)] ++
        waitFor 1 firstTuple)).map
      (fun s => decide (s.calls 1 = some ⟨firstTuple, .delete, .waiting 3⟩ ∧
        (s.tm.transactions 2).map Transaction.xid = some 3)) = some true := by
    decide +kernel
  obtain ⟨s, hr, hs⟩ := reach_of_test h
  obtain ⟨hcall, htr⟩ := of_decide_eq_true hs
  obtain ⟨tr, htr, hx⟩ := Option.map_eq_some_iff.1 htr
  exact ⟨s, hr.of_guarded, ⟨_, _, tr, hcall, rfl, htr, hx⟩, (no_cycle_of_waits hr.of_guarded).1 1⟩

/-! ## Deadlocks -/

/-- The workers of `D` wait for one another. -/
def Deadlocked (s : RowRun W V) (D : Set W) : Prop :=
  ∀ w ∈ D, ∃ call x v tr, s.calls w = some call ∧ call.pc = .waiting x ∧ s.tm.pc w = .waitLatch x ∧
  s.tm.ended x = false ∧
    v ∈ D ∧ s.tm.transactions v = some tr ∧ tr.xid = x

theorem transInv_of_reach (h : Reach step noWrap (init : RowRun W V) s) : s.tm.TransInv := by
  refine h.inv (I := fun s => s.tm.TransInv) (fun s a t hi hc ht => ?_) .init
  obtain ⟨w, op⟩ := a
  rcases (step_frame ht).1 with he | ⟨op', hs⟩
  · rw [he]
    exact hi
  · exact hi.step hc.1 hs

/-- A worker that waits in the latch of a transaction has no step before the transaction ends. -/
theorem no_step_of_waitLatch {call : RowCall V} {op : RowOp V} (hcall : s.calls w = some call)
    (hpc : call.pc = .waiting x) (hlatch : s.tm.pc w = .waitLatch x)
    (hended : s.tm.ended x = false) : s.step (w, op) = none := by
  cases op with
  | trans op =>
    by_cases hop : op = .run
    · subst hop
      cases hs : s.tm.transactions w <;> simp [RowRun.step, TransManager.step, hs, hlatch, runPc, hended]
    · by_contra hne
      obtain ⟨t, ht⟩ := Option.ne_none_iff_exists'.1 hne
      obtain ⟨⟨hnone, -⟩, -⟩ := trans_inv hop ht
      rw [hcall] at hnone
      cases hnone
  | insert tid values usn => cases hs : s.tm.transactions w <;> simp [RowRun.step, hs, hcall]
  | scan tid =>
    simp only [RowRun.step]
    split
    · simp [hcall]
    · rfl
  | change tuple change usn =>
    simp only [RowRun.step]
    split
    · simp [hcall]
    · rfl
  | lookup => cases hs : s.slots call.tuple.tid <;> simp [RowRun.step, hcall, hs, hpc]
  | decide =>
    obtain ⟨tuple, change, pc⟩ := call
    obtain rfl : pc = .waiting x := hpc
    simp [RowRun.step, hcall, hlatch]
  | resume usn =>
    obtain ⟨tuple, change, pc⟩ := call
    obtain rfl : pc = .waiting x := hpc
    simp [RowRun.step, hcall]
  | undo =>
    simp only [RowRun.step]
    split
    · simp [hcall]
    · rfl

theorem Deadlocked.step {D : Set W} {a : W × RowOp V} (hi : s.tm.TransInv) (h : s.Deadlocked D)
    (ht : s.step a = some t) :
    t.Deadlocked D ∧ ∀ w ∈ D, t.calls w = s.calls w ∧ t.tm.transactions w = s.tm.transactions w := by
  obtain ⟨u, op⟩ := a
  have hout : u ∉ D := fun hu => by
    obtain ⟨call, x, v, tr, hcall, hpc, hlatch, hended, -⟩ := h u hu
    rw [no_step_of_waitLatch hcall hpc hlatch hended] at ht
    cases ht
  obtain ⟨htm, hcalls⟩ := step_frame ht
  have hne : ∀ w ∈ D, w ≠ u := fun w hw e => hout (e ▸ hw)
  have hframe : ∀ w ∈ D, t.tm.pc w = s.tm.pc w ∧ t.tm.transactions w = s.tm.transactions w := fun w hw => by
    rcases htm with he | ⟨op', hs⟩
    · simp [he]
    · exact step_ne hs (hne w hw)
  refine ⟨fun w hw => ?_, fun w hw => ⟨hcalls w (hne w hw), (hframe w hw).2⟩⟩
  obtain ⟨call, x, v, tr, hcall, hpc, hlatch, hended, hv, htr, rfl⟩ := h w hw
  refine ⟨call, tr.xid, v, tr, (hcalls w (hne w hw)).trans hcall, hpc, (hframe w hw).1.trans hlatch, ?_, hv,
    (hframe v hv).2.trans htr, rfl⟩
  rcases htm with he | ⟨op', hs⟩
  · rw [he]
    exact hended
  · rcases ended_step (x := tr.xid) hs with he | ⟨tr', htr', hx⟩
    · exact he.trans hended
    · exact absurd (hi.one v u tr tr' htr htr' hx.symm) (hne v hv)

/-- Nothing ends a deadlock: its workers never take another step. -/
theorem deadlocked_forever {D : Set W} (hs : Reach step noWrap (init : RowRun W V) s) (hD : s.Deadlocked D)
    (h : Reach step noWrap s t) :
    t.Deadlocked D ∧ (∀ w ∈ D, t.calls w = s.calls w ∧ t.tm.transactions w = s.tm.transactions w) ∧
    ∀ w ∈ D, ∀ op, t.step (w, op) = none := by
  have hrun : t.Deadlocked D ∧ ∀ w ∈ D, t.calls w = s.calls w ∧ t.tm.transactions w = s.tm.transactions w := by
    induction h with
    | refl => exact ⟨hD, fun _ _ => ⟨rfl, rfl⟩⟩
    | tail a hr _ ht ih =>
      obtain ⟨hdead, hsame⟩ := ih.1.step (transInv_of_reach (hs.trans hr)) ht
      exact ⟨hdead, fun w hw => ⟨(hsame w hw).1.trans (ih.2 w hw).1, (hsame w hw).2.trans (ih.2 w hw).2⟩⟩
  refine ⟨hrun.1, hrun.2, fun w hw op => ?_⟩
  obtain ⟨call, x, v, tr, hcall, hpc, hlatch, hended, -⟩ := hrun.1 w hw
  exact no_step_of_waitLatch hcall hpc hlatch hended

/-- Two transactions of two statements each: both go through the slots in order, and each waits for the other. -/
theorem deadlocked_two_statements :
    ∃ s : RowRun (Fin 4) Nat, Reach step (fun s a => s.InOrder a ∧ s.noWrap a) init s ∧
    s.Deadlocked {1, 2} ∧ ∀ t, Reach step noWrap s t → t.Deadlocked {1, 2} := by
  have h : (exec (guarded (fun s a => s.InOrder a ∧ s.noWrap a) step) init
      (twoTuples ++ [(1, .scan firstSlot), (1, .change firstTuple .delete 3), (2, .scan firstSlot),
        (2, .scan ⟨0, 1⟩),
        (2, .change secondTuple .delete 4), (1, .trans .beginNewStatement), (2, .trans .beginNewStatement),
        (1, .scan firstSlot), (1, .scan ⟨0, 1⟩), (2, .scan firstSlot)] ++ waitFor 1 secondTuple ++
        waitFor 2 firstTuple)).map
      (fun s => decide ((s.calls 1 = some ⟨secondTuple, .delete, .waiting 3⟩ ∧ s.calls 2 =
        some ⟨firstTuple, .delete, .waiting 2⟩) ∧
        (s.tm.pc 1 = .waitLatch 3 ∧ s.tm.pc 2 = .waitLatch 2) ∧ (s.tm.ended 3 = false ∧ s.tm.ended 2 = false) ∧
        (s.tm.transactions 1).map Transaction.xid = some 2 ∧ (s.tm.transactions 2).map Transaction.xid = some 3)) =
        some true := by
    decide +kernel
  obtain ⟨s, hr, hs⟩ := reach_of_test h
  obtain ⟨⟨hc1, hc2⟩, ⟨hp1, hp2⟩, ⟨he1, he2⟩, ht1, ht2⟩ := of_decide_eq_true hs
  obtain ⟨tr1, htr1, hx1⟩ := Option.map_eq_some_iff.1 ht1
  obtain ⟨tr2, htr2, hx2⟩ := Option.map_eq_some_iff.1 ht2
  have hrun := hr.of_guarded
  have hD : s.Deadlocked {1, 2} := by
    rintro w (rfl | rfl)
    · exact ⟨_, 3, 2, tr2, hc1, rfl, hp1, he1, .inr rfl, htr2, hx2⟩
    · exact ⟨_, 2, 1, tr1, hc2, rfl, hp2, he2, .inl rfl, htr1, hx1⟩
  exact ⟨s, hrun, hD, fun t ht => (deadlocked_forever (hrun.mono fun _ _ hc => hc.2) hD ht).1⟩

end RowRun

end Mimidb
