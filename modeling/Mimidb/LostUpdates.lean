import Mimidb.RowInvariant

/-!
# Lost updates

Where every call that has waited finds the writer of its tuple on the page
again, no change is lost. `UpdateTuple` and `DeleteTuple` do not look again:
when the transaction they wait for has aborted, a third one can have written
and committed before they take the latch.
-/

namespace Mimidb

namespace RowRun

open TransManager

variable {W V : Type} {s t : RowRun W V} {st : Stacks V}

def Committed (s : RowRun W V) (x : Nat) : Prop := CommitSeqNumber.isNormal (s.tm.history x) = true

/-- Every change is written over the version that its scan returned, and no two transactions that
committed have changed the same one. -/
structure NoLostUpdate (s : RowRun W V) : Prop where
  current : ∀ wr ∈ s.writes, wr.replaced = wr.base
  one : ∀ a ∈ s.writes, ∀ b ∈ s.writes, a.xid ≠ b.xid → s.Committed a.xid → s.Committed b.xid → a.tid = b.tid →
    a.base ≠ b.base

theorem SlotsInv.over_unique (h : SlotsInv s st) {tid : TupleId} {v v' b : RowVersion V}
    {newer rest newer' rest' : List (RowVersion V)} (hst : st tid = newer ++ v :: b :: rest)
    (hst' : st tid = newer' ++ v' :: b :: rest') : v = v' := by
  have hnodup : (st tid).Nodup := by
    have hfalls := (h.chain tid).imp (S := fun v b : RowVersion V => b.undo < v.undo) fun _ _ ha => ha.undo
    have : Trans (fun v b : RowVersion V => b.undo < v.undo) (fun v b : RowVersion V => b.undo < v.undo)
        (fun v b : RowVersion V => b.undo < v.undo) := ⟨fun hab hbc => Int.lt_trans hbc hab⟩
    refine (List.isChain_iff_pairwise.1 hfalls).imp fun hlt e => ?_
    rw [e] at hlt
    exact Int.lt_irrefl _ hlt
  have hst : st tid = (newer ++ [v]) ++ b :: rest := by simpa using hst
  have hst' : st tid = (newer' ++ [v']) ++ b :: rest' := by simpa using hst'
  have hno : b ∉ (newer ++ [v]) ++ rest := (List.nodup_cons.1 (List.nodup_middle.1 (hst ▸ hnodup))).1
  rw [List.mem_append, not_or] at hno
  obtain ⟨hsame, -⟩ := (List.append_cons_inj_of_notMem hno.1 hno.2).1 (hst.symm.trans hst')
  simpa using congrArg List.getLast? hsame

theorem RowInv.noLostUpdate (h : RowInv s st) : s.NoLostUpdate := by
  have hwritten : ∀ wr ∈ s.writes, s.Committed wr.xid →
      ∃ newer v rest, st wr.tid = newer ++ v :: wr.base :: rest ∧ v.undo = wr.usn ∧ v.xid = wr.xid :=
        fun wr hwr hc => by
    refine h.written wr hwr ?_
    cases ha : s.aborting wr.xid with
    | false => rfl
    | true => exact absurd (.inl ⟨of_decide_eq_true hc, rfl⟩) ((h.aborting _ ha).2 (s.tm.history wr.xid))
  refine ⟨h.current, fun a ha b hb hne hca hcb htid hbase => ?_⟩
  obtain ⟨newer, v, rest, hst, -, hx⟩ := hwritten a ha hca
  obtain ⟨newer', v', rest', hst', -, hx'⟩ := hwritten b hb hcb
  rw [← htid, ← hbase] at hst'
  obtain rfl := h.slots.over_unique hst hst'
  exact hne (hx.symm.trans hx')

variable [DecidableEq W] [DecidableEq V]

theorem no_lost_update (h : Reach step (fun s a => s.Unovertaken a ∧ s.noWrap a) (init : RowRun W V) s) :
    s.NoLostUpdate ∧ ∀ w usn t, s.step (w, .resume usn) = some t → ¬ s.Unovertaken (w, .resume usn) →
    ¬ t.NoLostUpdate := by
  constructor
  · obtain ⟨st, hst⟩ := rowInv_of_reach h
    exact hst.noLostUpdate
  · intro w usn t ht hover hlost
    simp only [RowRun.step] at ht
    split at ht
    · rename_i tuple change hcall
      obtain ⟨tr, page, tm, htr, hpage, hstep, hnew, rfl⟩ := write_inv ht
      have hcur := hlost.current _ List.mem_cons_self
      refine hover fun call hc p hp => ?_
      obtain rfl := Option.some.inj (hcall.symm.trans hc)
      obtain rfl : page = p := Option.some.inj (hpage.symm.trans hp)
      exact congrArg RowVersion.xid hcur
    · cases ht

/-- A slot of the traces. -/
def firstSlot : TupleId := ⟨0, 0⟩

/-- The version that transaction 1 inserts. -/
def firstVersion : RowVersion Nat := ⟨1, UndoSeqNumber.Invalid, false, 10⟩

def firstTuple : RowTuple Nat := ⟨firstSlot, firstVersion⟩

def beginBoth (w : Fin 4) : List (Fin 4 × RowOp Nat) :=
  [(w, .trans .beginNewTransaction), (w, .trans .run), (w, .trans .beginNewStatement)]

def commitAll (w : Fin 4) : List (Fin 4 × RowOp Nat) :=
  [(w, .trans .commit), (w, .trans .run), (w, .trans .run), (w, .trans .run), (w, .trans .run)]

/-- Worker 2 changes the tuple, worker 1 waits for it, and worker 2 aborts. -/
def waitTrace : List (Fin 4 × RowOp Nat) :=
  beginBoth 0 ++ [(0, .insert firstSlot 10 1)] ++ commitAll 0 ++ beginBoth 1 ++ beginBoth 2 ++ beginBoth 3 ++
    [(1, .scan firstSlot), (2, .scan firstSlot), (2, .change firstTuple (.update 20 none) 2),
      (1, .change firstTuple (.update 30 none) 0), (1, .lookup), (1, .trans .run), (1, .trans .run),
      (2, .undo), (2, .trans .abort), (2, .trans .run), (2, .trans .run), (1, .trans .run), (1, .decide)]

theorem no_lost_update_wait :
    ∃ s : RowRun (Fin 4) Nat, Reach step (fun s a => s.Unovertaken a ∧ s.noWrap a) init s ∧
    s.writes.map RowWrite.usn = [3, 2] ∧ s.NoLostUpdate := by
  have h : (exec (guarded (fun s a => s.Unovertaken a ∧ s.noWrap a) step) init
      (waitTrace ++ [(1, .resume 3)] ++ commitAll 1)).map (fun s => decide (s.writes.map RowWrite.usn = [3, 2])) =
      some true := by
    decide +kernel
  obtain ⟨s, hr, hs⟩ := reach_of_test h
  exact ⟨s, hr.of_guarded, of_decide_eq_true hs, (no_lost_update hr.of_guarded).1⟩

/-- Before worker 1 goes on, worker 3 changes the tuple and commits. -/
theorem update_lost : ∃ s : RowRun (Fin 4) Nat, Reach step noWrap init s ∧
    (∃ a ∈ s.writes, ∃ b ∈ s.writes, a.xid ≠ b.xid ∧ s.Committed a.xid ∧ s.Committed b.xid ∧ a.tid = b.tid ∧
      a.base = b.base) ∧
    ¬ s.NoLostUpdate := by
  have h :
    (exec (guarded noWrap step) init
      (waitTrace ++ [(3, .scan firstSlot), (3, .change firstTuple (.update 40 none) 3)] ++
      commitAll 3 ++ [(1, .resume 4)] ++ commitAll 1)).map (fun s => decide (
        s.writes = [⟨2, 4, firstSlot, firstVersion, ⟨4, 3, false, 40⟩⟩,
        ⟨4, 3, firstSlot, firstVersion, firstVersion⟩,
          ⟨3, 2, firstSlot, firstVersion, firstVersion⟩] ∧
        CommitSeqNumber.isNormal (s.tm.history 2) = true ∧ CommitSeqNumber.isNormal (s.tm.history 4) = true)) =
        some true := by
    decide +kernel
  obtain ⟨s, hr, hs⟩ := reach_of_test h
  obtain ⟨hw, h2, h4⟩ := of_decide_eq_true hs
  have ha : ⟨2, 4, firstSlot, firstVersion, ⟨4, 3, false, 40⟩⟩ ∈ s.writes := by simp [hw]
  have hb : ⟨4, 3, firstSlot, firstVersion, firstVersion⟩ ∈ s.writes := by simp [hw]
  exact ⟨s, hr.of_guarded, ⟨_, ha, _, hb, by decide, h2, h4, rfl, rfl⟩,
    fun hno => hno.one _ ha _ hb (by decide) h2 h4 rfl rfl⟩

end RowRun

end Mimidb
