import Mimidb.RowStacks

/-!
# The order of the commits

The numbers that `CommitTransaction` takes put the transactions into one order,
which only grows at its end: a transaction that has its number stays before all
that have none yet. What a snapshot sees is a first part of this order, so of
two snapshots one sees all that the other one does.
-/

namespace Mimidb

namespace TransManager

variable {W : Type} {s t : TransManager W} {w : W} {x c : Nat} {order : List Nat}

/-- The transactions that have a number, in the order of the numbers. -/
structure Ordered (s : TransManager W) (order : List Nat) : Prop where
  nodup : order.Nodup
  length : order.length = s.csn - CommitSeqNumber.Min
  number : ∀ x c, s.Commits x c ↔ CommitSeqNumber.Min ≤ c ∧ order[c - CommitSeqNumber.Min]? = some x

theorem Ordered.init : Ordered (init : TransManager W) [] where
  nodup := .nil
  length := rfl
  number x c := by
    constructor
    · rintro (⟨hmin, he⟩ | ⟨w, tr, htr, -⟩)
      · have hc : CommitSeqNumber.Invalid = c := he
        rw [← hc] at hmin
        exact absurd hmin (by decide)
      · cases htr
    · rintro ⟨-, hnone⟩
      cases hnone

theorem Ordered.mem (h : Ordered s order) : x ∈ order ↔ ∃ c, s.Commits x c := by
  rw [List.mem_iff_getElem?]
  constructor
  · rintro ⟨i, hi⟩
    refine ⟨CommitSeqNumber.Min + i, (h.number _ _).2 ⟨Nat.le_add_right _ _, ?_⟩⟩
    rwa [Nat.add_sub_cancel_left]
  · rintro ⟨c, hc⟩
    exact ⟨_, ((h.number _ _).1 hc).2⟩

theorem Ordered.mem_take {n : Nat} (h : Ordered s order) :
    x ∈ order.take (n - CommitSeqNumber.Min) ↔ ∃ c, s.Commits x c ∧ c < n := by
  rw [List.mem_take_iff_getElem]
  constructor
  · rintro ⟨i, hi, rfl⟩
    have hlt := lt_min_iff.1 hi
    refine ⟨CommitSeqNumber.Min + i, (h.number _ _).2 ⟨Nat.le_add_right _ _, ?_⟩, ?_⟩
    · rw [Nat.add_sub_cancel_left]
      exact List.getElem?_eq_getElem hlt.2
    · exact Nat.add_lt_of_lt_sub' hlt.1
  · rintro ⟨c, hc, hlt⟩
    obtain ⟨hmin, hx⟩ := (h.number _ _).1 hc
    obtain ⟨hi, rfl⟩ := List.getElem?_eq_some_iff.1 hx
    exact ⟨_, lt_min (Nat.sub_lt_sub_right hmin hlt) hi, rfl⟩

theorem Ordered.unique {d : Nat} (h : Ordered s order) (hc : s.Commits x c) (hd : s.Commits x d) : c = d := by
  obtain ⟨hc, hx⟩ := (h.number _ _).1 hc
  obtain ⟨hd, hx'⟩ := (h.number _ _).1 hd
  obtain ⟨hi, -⟩ := List.getElem?_eq_some_iff.1 hx
  have hsame := (List.getElem?_inj hi h.nodup).1 (hx.trans hx'.symm)
  omega

variable [DecidableEq W]

theorem take_step {op : TransOp} (hi : TransInv s) (hw : noWrap s (w, op)) (h : s.step (w, op) = some t) :
    (t.csn = s.csn ∧ ∀ x c, t.Commits x c → s.Commits x c) ∨
      t.csn = s.csn + 1 ∧ ∃ tr, s.transactions w = some tr ∧ s.pc w = .commitTake ∧ t.Commits tr.xid s.csn := by
  have hkeep : t.csn = s.csn → (t.csn = s.csn ∧ ∀ x c, t.Commits x c → s.Commits x c) ∨
      t.csn = s.csn + 1 ∧ ∃ tr, s.transactions w = some tr ∧ s.pc w = .commitTake ∧ t.Commits tr.xid s.csn :=
        fun he => by
    refine .inl ⟨he, fun x c hc => ?_⟩
    rcases commits_step hi hw h hc with hold | ⟨rfl, -⟩
    · exact hold
    · exact absurd (hc.lt (hi.step hw h)) (by rw [he]; exact Nat.lt_irrefl _)
  cases trans_effect hi hw h with
  | begin _ _ _ _ _ _ hc => exact hkeep hc
  | run _ _ _ _ _ _ _ _ _ _ _ hc => exact hkeep hc
  | mark _ _ _ _ _ _ _ _ _ _ _ _ hc => exact hkeep hc
  | finish _ _ _ _ _ _ hc => exact hkeep hc
  | take hs ht hc htr =>
    refine .inr ⟨hc, ?_⟩
    cases hw' : s.transactions w with
    | none => cases op <;> simp [TransManager.step, hs, hw'] at h
    | some tr => exact ⟨tr, rfl, hs, .inr ⟨w, tr, htr.trans hw', rfl, ht⟩⟩

omit [DecidableEq W] in
theorem not_commits_of_take {tr : Transaction} (hi : TransInv s) (hs : s.transactions w = some tr)
    (hp : s.pc w = .commitTake) :
    ¬ s.Commits tr.xid c := by
  have hphase := hi.phase w tr hs
  rw [hp] at hphase
  rintro (⟨hmin, he⟩ | ⟨u, r, hr, hx, hpub⟩)
  · rw [hphase.1] at he
    rw [← he] at hmin
    exact absurd hmin (by decide)
  · rw [hi.one u w r tr hr hs hx, hp] at hpub
    cases hpub

/-- A step adds at most one transaction, at the end. -/
theorem Ordered.step {op : TransOp} (ho : Ordered s order) (hi : TransInv s) (hw : noWrap s (w, op))
    (h : s.step (w, op) = some t) :
    ∃ new, Ordered t (order ++ new) ∧
    (∀ x ∈ new, s.pc w = .commitTake ∧ ∃ tr, s.transactions w = some tr ∧ tr.xid = x) := by
  have hmono : ∀ x c, s.Commits x c → t.Commits x c := fun _ _ => commits_mono hi hw h
  rcases take_step hi hw h with ⟨hcsn, hback⟩ | ⟨hcsn, tr, htr, hp, hnew⟩
  · refine ⟨[], ⟨?_, ?_, fun x c => ?_⟩, nofun⟩
    · simpa using ho.nodup
    · simpa [hcsn] using ho.length
    · rw [List.append_nil, ← ho.number]
      exact ⟨hback x c, hmono x c⟩
  · have hmin := hi.min
    have hlen := ho.length
    have hno : ∀ c, ¬ s.Commits tr.xid c := fun c => not_commits_of_take hi htr hp
    have hlast : order.length = s.csn - CommitSeqNumber.Min := hlen
    refine ⟨[tr.xid], ⟨?_, ?_, fun x c => ?_⟩, fun x hx => ?_⟩
    · refine ho.nodup.append (List.nodup_singleton _) fun x hx hx' => ?_
      obtain rfl := List.mem_singleton.1 hx'
      obtain ⟨c, hc⟩ := ho.mem.1 hx
      exact hno c hc
    · simp only [List.length_append, List.length_singleton]
      omega
    · constructor
      · intro hc
        rcases commits_step hi hw h hc with hold | ⟨rfl, -, tr', htr', rfl⟩
        · obtain ⟨hle, hx⟩ := (ho.number _ _).1 hold
          obtain ⟨hlt, -⟩ := List.getElem?_eq_some_iff.1 hx
          exact ⟨hle, by rw [List.getElem?_append_left hlt]; exact hx⟩
        · obtain rfl : tr = tr' := Option.some.inj (htr.symm.trans htr')
          refine ⟨hmin, ?_⟩
          rw [← hlast]
          simp
      · rintro ⟨hle, hx⟩
        by_cases hlt : c - CommitSeqNumber.Min < order.length
        · rw [List.getElem?_append_left hlt] at hx
          exact hmono _ _ ((ho.number _ _).2 ⟨hle, hx⟩)
        · obtain ⟨hc, -⟩ := List.getElem?_eq_some_iff.1 hx
          simp only [List.length_append, List.length_singleton] at hc
          obtain rfl : c = s.csn := by omega
          rw [← hlast] at hx
          obtain rfl : tr.xid = x := by simpa using hx
          exact hnew
    · obtain rfl := List.mem_singleton.1 hx
      exact ⟨hp, tr, htr, rfl⟩

theorem Ordered.reach (ho : Ordered s order) (hi : TransInv s) (h : Reach TransManager.step noWrap s t) :
    TransInv t ∧ ∃ newer, Ordered t (order ++ newer) := by
  induction h with
  | refl => exact ⟨hi, [], by simpa using ho⟩
  | tail a _ hw hs ih =>
    obtain ⟨hi', newer, ho'⟩ := ih
    obtain ⟨new, hnew, -⟩ := ho'.step hi' hw hs
    exact ⟨hi'.step hw hs, newer ++ new, by simpa using hnew⟩

/-- The order of the commits only grows at its end. A transaction without a number comes after all that have one,
and every snapshot sees the first transactions of the order, as many as had their number when it was taken. -/
theorem commits_ordered (hs : Reach step noWrap (init : TransManager W) s) (h : Reach step noWrap s t) :
    ∃ older newer, s.Ordered older ∧ t.Ordered (older ++ newer) ∧
      (∀ w tr S, s.transactions w = some tr → tr.snapshot = none → (tr.beginNewStatement s.csn).snapshot = some S →
        ∀ x, x ∈ (older ++ newer).take (S.csn - CommitSeqNumber.Min) ↔ x ∈ older) ∧
      ∀ a ∈ t.answers, a.header.xid ≠ a.reader →
        (a.visible = true ↔ a.header.xid ∈ (older ++ newer).take (a.snapshot.csn - CommitSeqNumber.Min)) := by
  obtain ⟨-, older, hold⟩ := Ordered.init.reach .init hs
  rw [List.nil_append] at hold
  obtain ⟨hi, newer, hnew⟩ := hold.reach (inv_of_reach hs) h
  refine ⟨older, newer, hold, hnew, fun w tr S _ hnone hS x => ?_, fun a ha hne => ?_⟩
  · obtain rfl : ⟨s.csn, UndoSeqNumber.Invalid⟩ = S := by simpa [Transaction.beginNewStatement, hnone] using hS
    simp only
    rw [← hold.length, List.take_left]
  · rw [(hi.answers a ha).2 hne, hnew.mem_take]

/-- Workers 0 and 1 write, and worker 0 commits. -/
def orderTrace : List (Fin 3 × TransOp) :=
  [(0, .beginNewTransaction), (0, .run), (0, .write 1 1 ⟨false, false⟩), (1, .beginNewTransaction), (1, .run),
    (1, .write 2 2 ⟨false, false⟩),
    (0, .commit), (0, .run), (0, .run), (0, .run), (0, .run), (2, .beginNewTransaction), (2, .run)]

/-- Worker 2 takes its snapshot, worker 1 commits, and worker 2 asks about both. -/
def laterTrace : List (Fin 3 × TransOp) :=
  [(2, .beginNewStatement), (1, .commit), (1, .run), (1, .run), (1, .run), (1, .run),
    (2, .visible ⟨1, 1, ⟨false, false⟩⟩), (2, .run), (2, .visible ⟨2, 2, ⟨false, false⟩⟩), (2, .run)]

theorem commits_ordered_two : ∃ s t : TransManager (Fin 3), Reach step noWrap init s ∧ Reach step noWrap s t ∧
    t.answers = [⟨3, ⟨6, 0⟩, ⟨2, 2, ⟨false, false⟩⟩, false⟩, ⟨3, ⟨6, 0⟩, ⟨1, 1, ⟨false, false⟩⟩, true⟩] ∧
    ∃ older newer, s.Ordered older ∧ t.Ordered (older ++ newer) ∧
      ∀ a ∈ t.answers, a.header.xid ≠ a.reader →
        (a.visible = true ↔ a.header.xid ∈ (older ++ newer).take (a.snapshot.csn - CommitSeqNumber.Min)) := by
  have h : ((exec (guarded noWrap step) init orderTrace).bind fun s => (exec (guarded noWrap step) s laterTrace).map
    fun t =>
      decide (t.answers = [⟨3, ⟨6, 0⟩, ⟨2, 2, ⟨false, false⟩⟩, false⟩,
        ⟨3, ⟨6, 0⟩, ⟨1, 1, ⟨false, false⟩⟩, true⟩])) = some true := by
    decide +kernel
  obtain ⟨s, hs, h⟩ := Option.bind_eq_some_iff.1 h
  obtain ⟨t, ht, hans⟩ := Option.map_eq_some_iff.1 h
  have hrun := (reach_of_exec hs).of_guarded
  have hlater := (reach_of_exec ht).of_guarded
  obtain ⟨older, newer, hold, hnew, -, hseen⟩ := commits_ordered hrun hlater
  exact ⟨s, t, hrun, hlater, of_decide_eq_true hans, older, newer, hold, hnew, hseen⟩

end TransManager

end Mimidb
