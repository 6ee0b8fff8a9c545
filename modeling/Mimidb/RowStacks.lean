import Mathlib.Data.List.Chain
import Mathlib.Data.List.Nodup
import Mimidb.RowRun

/-!
# The versions of a slot

A slot has its versions on a stack, the one on the page on top: a change puts
one on it, with the version below saved in the undo record, and an undo takes
it off. The versions of a transaction that has not ended lie above all others,
and a transaction that wrote over another one has taken its number later.
-/

namespace Mimidb

namespace TransManager

variable {W : Type} {s t : TransManager W} {x c : Nat}

theorem Commits.lt (h : s.Commits x c) (hi : TransInv s) : c < s.csn := by
  rcases h with ⟨-, rfl⟩ | ⟨u, tr, hu, rfl, hp⟩
  · exact (hi.history _).1
  · have hphase := hi.phase u tr hu
    rw [hp] at hphase
    exact hphase.2.2.2

theorem le_of_not_visible {snapshot : Snapshot} (hi : TransInv s) (hn : s.history x ≠ CommitSeqNumber.Committing)
    (hv : csnIsVisible snapshot (s.history x) = false) (hc : s.Commits x c) : snapshot.csn ≤ c := by
  rcases hc with ⟨hmin, rfl⟩ | ⟨u, tr, hu, rfl, hp⟩
  · rw [csnIsVisible_normal hmin, decide_eq_false_iff_not] at hv
    exact Nat.le_of_not_lt hv
  · have hphase := hi.phase u tr hu
    rw [hp] at hphase
    exact absurd hphase.1 hn

variable [DecidableEq W] {w : W}

theorem commits_mono {op : TransOp} (hi : TransInv s) (hw : noWrap s (w, op)) (h : s.step (w, op) = some t)
    (hc : s.Commits x c) : t.Commits x c := by
  have hne := fun v (hv : v ≠ w) => step_ne h hv
  cases trans_effect hi hw h with
  | begin ht hp hp' hx hh => exact (commits_keep hne hh (by simp [hp']) (by simp [hp]) x c).2 hc
  | run tr tr' hs ht hx hsn hp hp' hxid hh =>
    exact (commits_keep hne hh (TransPc.not_publish_of_running hp) (TransPc.not_publish_of_running hp') x c).2 hc
  | mark tr v hs ht hv hh hk hp hp' hm hcm => exact (commits_mark hi hne hs ht hh hcm x c).2 hc
  | take hs ht hc' htr hh =>
    rcases hc with hc | ⟨u, r, hr, hx, hp⟩
    · exact .inl (by rw [hh]; exact hc)
    · have e : u ≠ w := fun e => by rw [e, hs] at hp; cases hp
      exact .inr ⟨u, r, by rw [(hne u e).2]; exact hr, hx, by rw [(hne u e).1]; exact hp⟩
  | finish hs hp ht hh =>
    have hnp : ∀ c, s.pc w ≠ .commitPublish c := fun c e => by rw [e] at hs; simp at hs
    exact (commits_keep hne hh hnp (by simp [hp]) x c).2 hc

/-- What the steps of the manager only add to. -/
structure Later (s t : TransManager W) : Prop where
  keeps : ∀ x c, s.Commits x c → t.Commits x c
  new : ∀ x c, t.Commits x c → s.Commits x c ∨ s.csn ≤ c
  begun : ∀ x, s.history x ≠ CommitSeqNumber.Invalid → t.history x ≠ CommitSeqNumber.Invalid
  usn : s.usn ≤ t.usn
  xid : s.xid ≤ t.xid

theorem xid_step {op : TransOp} (hi : TransInv s) (hw : noWrap s (w, op)) (h : s.step (w, op) = some t) :
    s.xid ≤ t.xid := by
  cases trans_effect hi hw h with
  | begin ht hp hp' hx => exact hx ▸ Nat.le_succ _
  | run tr tr' hs ht hx hsn hp hp' hxid => exact Nat.le_of_eq hxid.symm
  | mark tr v hs ht hv hh hk hp hp' hm hcm hxid => exact Nat.le_of_eq hxid.symm
  | take hs ht hc htr hh hk hxid => exact Nat.le_of_eq hxid.symm
  | finish hs hp ht hh hk hxid => exact Nat.le_of_eq hxid.symm

theorem later_step {op : TransOp} (hi : TransInv s) (hw : noWrap s (w, op)) (h : s.step (w, op) = some t) :
    Later s t :=
  ⟨fun _ _ => commits_mono hi hw h, fun _ _ hc => (commits_step hi hw h hc).imp_right fun e =>
  Nat.le_of_eq e.1.symm,
    fun _ => history_step hi hw h, usn_step h, xid_step hi hw h⟩

omit [DecidableEq W] in
theorem Later.refl : Later s s := ⟨fun _ _ => id, fun _ _ => .inl, fun _ => id, Int.le_refl _, Nat.le_refl _⟩

/-- Inside `CommitTransaction`. -/
def committing : TransPc W → Bool
  | .commitMark | .commitTake | .commitPublish _ | .commitEnd _ => true
  | _ => false

theorem run_step (h : s.step (w, .run) = some t) : (t.transactions w = s.transactions w ∨ t.transactions w = none) ∧
    t.usn = s.usn ∧ (committing (t.pc w) = true → committing (s.pc w) = true) := by
  simp only [TransManager.step, Option.bind_eq_some_iff] at h
  obtain ⟨tr, hs, h⟩ := h
  cases hp : s.pc w <;> rw [hp] at h <;> simp only [runPc, locked, eraseWorker] at h
  all_goals
    repeat' split at h
    all_goals cases h
    all_goals simp [hs, hp, committing]

end TransManager

/-- The slots with a version that has this record. -/
@[simp] def RowRecord.places {V : Type} : RowRecord V → List TupleId
  | .Delete _ => []
  | .Update oldLocation newLocation _ => [oldLocation, newLocation]
  | .Insert location _ => [location]

/-- The slots whose version an undo of the record writes back. -/
@[simp] def RowRecord.restores {V : Type} : RowRecord V → List TupleId
  | .Delete _ => []
  | .Update oldLocation _ _ => [oldLocation]
  | .Insert location _ => [location]

/-- The items that an undo of the record sets dead. -/
@[simp] def RowRecord.kills {V : Type} : RowRecord V → List TupleId
  | .Update oldLocation newLocation _ => if newLocation = oldLocation then [] else [newLocation]
  | _ => []

@[simp] def RowRecord.image {V : Type} : RowRecord V → Option (RowVersion V)
  | .Delete _ => none
  | .Update _ _ image | .Insert _ image => some image

namespace RowRun

variable {W V : Type} {s t : RowRun W V} {st : TupleId → List (RowVersion V)} {tid : TupleId} {v b : RowVersion V}
  {newer rest : List (RowVersion V)} {x y : Nat} {res : Option (RowTuple V)}

/-- The versions of the slots, each on top of the one that it replaced. -/
abbrev Stacks (V : Type) := TupleId → List (RowVersion V)

/-- `x` may write over what `y` wrote: `y` has its number, and `x` has none or a later one. -/
def Follows (s : RowRun W V) (x y : Nat) : Prop := x = y ∨ ∃ c, s.tm.Commits y c ∧ ∀ c', s.tm.Commits x c' → c < c'

/-- The record of a version `v` in the slot `tid` has the version `b` below it. -/
inductive Saves (tid : TupleId) (v b : RowVersion V) : RowRecord V → Prop
  | update (hd : v.deleted = false) : Saves tid v b (.Update tid tid b)
  | delete (hd : v.deleted = true) : Saves tid v b (.Insert tid b)
  /-- The mark that a move leaves in the old slot. -/
  | move {new : TupleId} (hn : new ≠ tid) (hd : v.deleted = true) : Saves tid v b (.Update tid new b)

structure Above (s : RowRun W V) (tid : TupleId) (v b : RowVersion V) : Prop where
  undo : b.undo < v.undo
  live : b.deleted = false
  follows : s.Follows v.xid b.xid
  record : ∃ r, s.undo v.undo = some r ∧ Saves tid v b r

/-- The first version of a slot was inserted, or came from the slot where its mark is. -/
def Bottom (s : RowRun W V) (st : Stacks V) (tid : TupleId) (v : RowVersion V) : Prop :=
  v.deleted = false ∧ (v.undo = UndoSeqNumber.Invalid ∨
    ∃ old b, s.undo v.undo = some (.Update old tid b) ∧ old ≠ tid ∧ s.Follows v.xid b.xid ∧ b.undo < v.undo ∧
      (s.dead tid = false → ∃ mark rest, st old = mark :: b :: rest ∧ mark.undo = v.undo ∧ mark.xid = v.xid))

structure SlotsInv (s : RowRun W V) (st : Stacks V) : Prop where
  page : ∀ tid, s.slots tid = (st tid).head?
  dead : ∀ tid, s.dead tid = true → ∃ v, st tid = [v]
  chain : ∀ tid, (st tid).IsChain (s.Above tid)
  bottom : ∀ tid v, (st tid).getLast? = some v → s.Bottom st tid v
  begun : ∀ tid, ∀ v ∈ st tid, s.tm.history v.xid ≠ CommitSeqNumber.Invalid
  undos : ∀ tid, ∀ v ∈ st tid, v.undo ≤ s.tm.usn
  record : ∀ usn r, s.undo usn = some r → 0 < usn ∧ usn ≤ s.tm.usn

/-- A version that a transaction `x` with this snapshot sees. -/
def Sees (s : RowRun W V) (x : Nat) (snapshot : Snapshot) (v : RowVersion V) : Prop :=
  v.xid = x ∨ ∃ c, s.tm.Commits v.xid c ∧ c < snapshot.csn

/-- A version that a transaction may write over. -/
def Based (s : RowRun W V) (tr : Transaction) (v : RowVersion V) : Prop :=
  v.xid = tr.xid ∨ ∃ snapshot, tr.snapshot = some snapshot ∧ ∃ c, s.tm.Commits v.xid c ∧ c < snapshot.csn

/-- What a scan found: a version with nothing over it that the transaction wrote or will ever see. -/
def Found (s : RowRun W V) (st : Stacks V) (x : Nat) (snapshot : Snapshot) (tuple : RowTuple V) : Prop :=
  ∃ newer rest, st tuple.tid = newer ++ tuple.version :: rest ∧ s.dead tuple.tid = false ∧
  tuple.version.deleted = false ∧
    s.Sees x snapshot tuple.version ∧ ∀ a ∈ newer, a.xid ≠ x ∧ ∀ c, s.tm.Commits a.xid c → snapshot.csn ≤ c

/-- The tuples that the statement of a worker can still write over. -/
def tuples (s : RowRun W V) (w : W) : List (RowTuple V) := ((s.calls w).map RowCall.tuple).toList ++ s.scanned w

structure LogInv (s : RowRun W V) (st : Stacks V) (w : W) (tr : Transaction) : Prop where
  falls : (s.log w).Pairwise (· > ·)
  kept : s.aborting tr.xid = false → s.log w = tr.undoLog.getD []
  own : ∀ tid, s.dead tid = false → ∀ v ∈ st tid, v.xid = tr.xid → v.undo = UndoSeqNumber.Invalid ∨ v.undo ∈ s.log w
  entry : ∀ usn ∈ s.log w, ∃ r, s.undo usn = some r ∧
    ∀ tid ∈ r.places, s.dead tid = false ∧ ∃ v ∈ st tid, v.undo = usn ∧ v.xid = tr.xid

structure ScanInv (s : RowRun W V) (st : Stacks V) (w : W) (tr : Transaction) : Prop where
  fresh : tr.snapshot = none → s.visited w = []
  visited : ∀ tuple ∈ s.tuples w, tuple.tid ∈ s.visited w
  once : ((s.tuples w).map RowTuple.tid).Nodup
  found : ∀ tuple ∈ s.tuples w, ∃ snapshot, tr.snapshot = some snapshot ∧ s.Found st tr.xid snapshot tuple
  /-- What the transaction wrote over, its snapshot sees. -/
  based : ∀ tid newer a b rest, st tid = newer ++ a :: b :: rest → a.xid = tr.xid → s.Based tr b
  /-- Where the scan was not, what the transaction wrote over is of an earlier statement. -/
  ahead : ∀ tid, tid ∉ s.visited w → s.dead tid = false → ∀ newer b rest, st tid = newer ++ b :: rest →
    ∀ a ∈ newer, a.xid = tr.xid → ∃ snapshot, tr.snapshot = some snapshot ∧ a.undo < snapshot.cid

/-! ## What running transactions see -/

theorem Follows.later (h : s.Follows x y) (hi : s.tm.TransInv) (hl : s.tm.Later t.tm) : t.Follows x y := by
  rcases h with h | ⟨c, hc, hlt⟩
  · exact .inl h
  · refine .inr ⟨c, hl.keeps _ _ hc, fun c' hc' => ?_⟩
    rcases hl.new _ _ hc' with hold | hnew
    · exact hlt c' hold
    · exact Nat.lt_of_lt_of_le (hc.lt hi) hnew

theorem Follows.of_running (h : s.Follows x y) (hy : ∀ c, ¬ s.tm.Commits y c) : x = y := by
  rcases h with h | ⟨c, hc, -⟩
  · exact h
  · exact absurd hc (hy c)

theorem Above.later (h : s.Above tid v b) (hi : s.tm.TransInv) (hl : s.tm.Later t.tm)
    (hu : ∀ usn r, s.undo usn = some r → t.undo usn = some r) : t.Above tid v b := by
  obtain ⟨r, hr, hsaves⟩ := h.record
  exact ⟨h.undo, h.live, h.follows.later hi hl, r, hu _ _ hr, hsaves⟩

theorem SlotsInv.later (h : SlotsInv s st) (hi : s.tm.TransInv) (hl : s.tm.Later t.tm) (hslots : t.slots = s.slots)
    (hdead : t.dead = s.dead) (hundo : t.undo = s.undo) : SlotsInv t st := by
  refine ⟨hslots ▸ h.page, hdead ▸ h.dead, fun tid => (h.chain tid).imp fun _ _ ha => ha.later hi hl fun _ _ hr =>
    hundo ▸ hr, fun tid v hv => ?_, fun tid v hv => hl.begun _ (h.begun tid v hv),
    fun tid v hv => Int.le_trans (h.undos tid v hv) hl.usn,
    fun usn r hr => ?_⟩
  · obtain ⟨hlive, h0 | ⟨old, b, hr, hne, hf, hlt, hmark⟩⟩ := h.bottom tid v hv
    · exact ⟨hlive, .inl h0⟩
    · exact ⟨hlive, .inr ⟨old, b, hundo ▸ hr, hne, hf.later hi hl, hlt, hdead ▸ hmark⟩⟩
  · obtain ⟨h0, hle⟩ := h.record usn r (hundo ▸ hr)
    exact ⟨h0, Int.le_trans hle hl.usn⟩

/-! ## Below the top -/

theorem rel_of_isChain {α : Type} {R S : α → α → Prop} {a b : α} {l : List α}
    (htrans : ∀ a b c, S a b → S b c → S a c) (himp : ∀ a b, R a b → S a b) (h : (a :: l).IsChain R)
    (hb : b ∈ l) : S a b := by
  have : Trans S S S := ⟨htrans _ _ _⟩
  exact (h.imp himp).rel_cons hb

theorem SlotsInv.undo_lt (h : SlotsInv s st) (hst : st tid = v :: rest) (hb : b ∈ rest) : b.undo < v.undo := by
  have hchain := h.chain tid
  rw [hst] at hchain
  exact rel_of_isChain (S := fun v b : RowVersion V => b.undo < v.undo) (fun _ _ _ hab hbc => Int.lt_trans hbc hab)
    (fun _ _ ha => ha.undo) hchain hb

/-- Nobody else writes over a transaction without a number. -/
theorem SlotsInv.top_xid (h : SlotsInv s st) (hst : st tid = v :: rest) (hb : b ∈ rest)
    (hx : ∀ c, ¬ s.tm.Commits b.xid c) :
    v.xid = b.xid := by
  have hchain := h.chain tid
  rw [hst] at hchain
  exact rel_of_isChain (S := fun v a : RowVersion V => a.xid = b.xid → v.xid = b.xid)
    (fun _ _ _ hab hbc e => hab (hbc e)) (fun v a ha e => (ha.follows.of_running (e ▸ hx)).trans e) hchain hb rfl

theorem SlotsInv.live (h : SlotsInv s st) (hst : st tid = v :: rest) (hb : b ∈ rest) : b.deleted = false := by
  have hchain := h.chain tid
  rw [hst] at hchain
  exact rel_of_isChain (S := fun _ b : RowVersion V => b.deleted = false) (fun _ _ _ _ hbc => hbc)
    (fun _ _ ha => ha.live) hchain hb

theorem SlotsInv.above (h : SlotsInv s st) (hst : st tid = newer ++ v :: b :: rest) : s.Above tid v b := by
  have hchain := h.chain tid
  rw [hst] at hchain
  exact (List.isChain_cons_cons.1 hchain.right_of_append).1

theorem SlotsInv.not_invalid {usn : Int} {r : RowRecord V} (h : SlotsInv s st) (hr : s.undo usn = some r) :
    usn ≠ UndoSeqNumber.Invalid :=
  Int.ne_of_gt (h.record usn r hr).1

/-! ## What a scan finds -/

theorem sees_of_visible {snapshot : Snapshot} (hi : s.tm.TransInv)
    (hb : s.tm.history v.xid ≠ CommitSeqNumber.Invalid) (h : s.tupleIsVisible x snapshot v = some true) :
    s.Sees x snapshot v ∧ (v.xid = x → v.undo < snapshot.cid) := by
  unfold tupleIsVisible at h
  split_ifs at h with hx hc
  · refine ⟨.inl hx, fun _ => ?_⟩
    simpa using h
  · exact ⟨.inr ⟨_, TransManager.commits_of_visible hi hb hc (Option.some.inj h)⟩, fun e => absurd e hx⟩

theorem unseen_of_not_visible {snapshot : Snapshot} (hi : s.tm.TransInv)
    (h : s.tupleIsVisible x snapshot v = some false) :
    (v.xid = x → snapshot.cid ≤ v.undo) ∧ (v.xid ≠ x → ∀ c, s.tm.Commits v.xid c → snapshot.csn ≤ c) := by
  unfold tupleIsVisible at h
  split_ifs at h with hx hc
  · refine ⟨fun _ => ?_, fun e => absurd hx e⟩
    simpa using h
  · exact ⟨fun e => absurd e hx, fun _ c => TransManager.le_of_not_visible hi hc (Option.some.inj h)⟩

/-- The first version of a list that the snapshot sees. -/
def newest (s : RowRun W V) (x : Nat) (snapshot : Snapshot) : List (RowVersion V) → Option (Option (RowVersion V))
  | [] => some none
  | v :: rest => do if ← s.tupleIsVisible x snapshot v then return some v else s.newest x snapshot rest

theorem newest_found {snapshot : Snapshot} {vs : List (RowVersion V)} (h : s.newest x snapshot vs = some (some v)) :
    ∃ newer rest, vs = newer ++ v :: rest ∧ s.tupleIsVisible x snapshot v = some true ∧
      ∀ a ∈ newer, s.tupleIsVisible x snapshot a = some false := by
  induction vs with
  | nil => cases h
  | cons a vs ih =>
    unfold newest at h
    cases ha : s.tupleIsVisible x snapshot a with
    | none => simp [ha] at h
    | some visible =>
      cases visible with
      | true =>
        simp only [ha, Option.bind_eq_bind, Option.bind_some, if_true, Option.pure_def, Option.some.injEq] at h
        subst h
        exact ⟨[], vs, rfl, ha, nofun⟩
      | false =>
        simp only [ha, Option.bind_eq_bind, Option.bind_some, Bool.false_eq_true, if_false] at h
        obtain ⟨newer, rest, rfl, hv, hnewer⟩ := ih h
        refine ⟨a :: newer, rest, rfl, hv, fun c hc => ?_⟩
        rcases List.mem_cons.1 hc with rfl | hc
        · exact ha
        · exact hnewer c hc

theorem SlotsInv.isValid {usn : Int} {r : RowRecord V} (h : SlotsInv s st) (hmax : s.tm.usn ≤ UndoSeqNumber.Max)
    (hr : s.undo usn = some r) : UndoSeqNumber.isValid usn = true := by
  have hle' : usn ≤ UndoSeqNumber.Max := Int.le_trans (h.record usn r hr).2 hmax
  simp [UndoSeqNumber.isValid, h.not_invalid hr, hle']

theorem newest_none {snapshot : Snapshot} {vs : List (RowVersion V)} (h : s.newest x snapshot vs = some none) :
    ∀ a ∈ vs, s.tupleIsVisible x snapshot a = some false := by
  induction vs with
  | nil => nofun
  | cons a vs ih =>
    unfold newest at h
    cases ha : s.tupleIsVisible x snapshot a with
    | none => simp [ha] at h
    | some visible =>
      cases visible with
      | true => simp [ha] at h
      | false =>
        simp only [ha, Option.bind_eq_bind, Option.bind_some, Bool.false_eq_true, if_false] at h
        exact List.forall_mem_cons.2 ⟨ha, ih h⟩

/-- The walk along the undo records goes down the stack, but not from the mark of a move. -/
theorem SlotsInv.findVisible_eq {snapshot : Snapshot} {fuel : Nat} (h : SlotsInv s st)
    (hmax : s.tm.usn ≤ UndoSeqNumber.Max) (hst : st tid = newer ++ v :: rest)
    (hv : v.deleted = false ∨ ∃ b, s.undo v.undo = some (.Insert tid b))
    (hfuel : rest.length < fuel) :
    s.findVisible x snapshot fuel v.undo = (s.newest x snapshot rest).map (Option.map (RowTuple.mk tid)) := by
  induction rest generalizing newer v fuel with
  | nil =>
    obtain ⟨fuel, rfl⟩ : ∃ n, fuel = n + 1 := ⟨fuel - 1, by omega⟩
    obtain ⟨-, h0 | ⟨old, b, hr, hne, -⟩⟩ := h.bottom tid v (by simp [hst])
    · simp [findVisible, newest, UndoSeqNumber.isValid, h0]
    · simp [findVisible, newest, h.isValid hmax hr, hr, hne.symm]
  | cons b rest ih =>
    obtain ⟨fuel, rfl⟩ : ∃ n, fuel = n + 1 := ⟨fuel - 1, by omega⟩
    obtain ⟨r, hr, hsaves⟩ := (h.above hst).record
    have hlive : b.deleted = false := (h.above hst).live
    have hst' : st tid = (newer ++ [v]) ++ b :: rest := by simp [hst]
    have hrest := ih hst' (.inl hlive) (Nat.lt_of_succ_lt_succ hfuel)
    have hwalk : s.findVisible x snapshot (fuel + 1) v.undo =
        (do
          if ← s.tupleIsVisible x snapshot b then return some ⟨tid, b⟩
          else s.findVisible x snapshot fuel b.undo) := by
      cases hsaves with
      | update hd => simp [findVisible, h.isValid hmax hr, hr]
      | delete hd => simp [findVisible, h.isValid hmax hr, hr]
      | move hn hd =>
        rcases hv with hv | ⟨b', hb'⟩
        · rw [hv] at hd
          cases hd
        · rw [hb'] at hr
          cases hr
    rw [hwalk, hrest, newest]
    cases s.tupleIsVisible x snapshot b with
    | none => rfl
    | some visible => cases visible <;> rfl

/-- The stack is not higher than the undo pointer of its top. -/
theorem SlotsInv.length_le (h : SlotsInv s st) (hst : st tid = newer ++ v :: rest) :
    rest.length ≤ v.undo.toNat := by
  induction rest generalizing newer v with
  | nil => exact Nat.zero_le _
  | cons b rest ih =>
    have habove := h.above hst
    have hlt := habove.undo
    obtain ⟨r, hr, -⟩ := habove.record
    have hpos := (h.record _ _ hr).1
    have hst' : st tid = (newer ++ [v]) ++ b :: rest := by simp [hst]
    have := ih hst'
    simp only [List.length_cons]
    omega

theorem SlotsInv.scanSlot_eq {snapshot : Snapshot} (h : SlotsInv s st) (hmax : s.tm.usn ≤ UndoSeqNumber.Max)
    (hst : st tid = v :: rest) (hdead : s.dead tid = false)
    (hv : v.deleted = false ∨ ∃ b, s.undo v.undo = some (.Insert tid b)) :
    s.scanSlot x snapshot tid = (do
      if ← s.tupleIsVisible x snapshot v then return (if v.deleted then none else some ⟨tid, v⟩)
      else (s.newest x snapshot rest).map (Option.map (RowTuple.mk tid))) := by
  have hpage : s.slots tid = some v := by rw [h.page, hst, List.head?_cons]
  have hst' : st tid = [] ++ v :: rest := hst
  have hwalk : s.findVisible x snapshot (v.undo.toNat + 1) v.undo = _ :=
    h.findVisible_eq hmax hst' hv (Nat.lt_succ_of_le (h.length_le hst'))
  simp only [scanSlot, hpage, hdead, hwalk]

/-- From the mark of a move a scan goes on to the next slot. -/
theorem SlotsInv.scanSlot_mark {snapshot : Snapshot} {new : TupleId} {image : RowVersion V} (h : SlotsInv s st)
    (hmax : s.tm.usn ≤ UndoSeqNumber.Max) (hst : st tid = v :: rest)
    (hr : s.undo v.undo = some (.Update tid new image)) (hn : new ≠ tid)
    (hd : v.deleted = true) (hscan : s.scanSlot x snapshot tid = some res) : res = none := by
  have hpage : s.slots tid = some v := by rw [h.page, hst, List.head?_cons]
  unfold scanSlot at hscan
  cases hdead : s.dead tid with
  | true =>
    simp only [hpage, hdead, Option.some.injEq] at hscan
    exact hscan.symm
  | false =>
    cases hvis : s.tupleIsVisible x snapshot v with
    | none => simp [hpage, hdead, hvis] at hscan
    | some visible =>
      cases visible with
      | true =>
        simp [hpage, hdead, hvis, hd] at hscan
        exact hscan.symm
      | false =>
        simp [hpage, hdead, hvis, findVisible, h.isValid hmax hr, hr, hn] at hscan
        exact hscan.symm

/-- The top of a stack is a version to walk from or the mark of a move. -/
theorem SlotsInv.top (h : SlotsInv s st) (hst : st tid = v :: rest) :
    (v.deleted = false ∨ ∃ b, s.undo v.undo = some (.Insert tid b)) ∨
      v.deleted = true ∧ ∃ new image, s.undo v.undo = some (.Update tid new image) ∧ new ≠ tid := by
  cases rest with
  | nil => exact .inl (.inl (h.bottom tid v (by simp [hst])).1)
  | cons b rest =>
    have hst' : st tid = [] ++ v :: b :: rest := hst
    obtain ⟨r, hr, hsaves⟩ := (h.above hst').record
    cases hsaves with
    | update hd => exact .inl (.inl hd)
    | delete hd => exact .inl (.inr ⟨b, hr⟩)
    | move hn hd => exact .inr ⟨hd, _, b, hr, hn⟩

/-- A scan finds what its transaction can write over, if it did not write here in this statement. -/
theorem SlotsInv.found {snapshot : Snapshot} {tuple : RowTuple V} (h : SlotsInv s st) (hi : s.tm.TransInv)
    (hmax : s.tm.usn ≤ UndoSeqNumber.Max)
    (hahead : ∀ newer b rest, st tid = newer ++ b :: rest → ∀ a ∈ newer, a.xid = x → a.undo < snapshot.cid)
    (hdead : s.dead tid = false) (hscan : s.scanSlot x snapshot tid = some (some tuple)) :
    tuple.tid = tid ∧ s.Found st x snapshot tuple := by
  cases hst : st tid with
  | nil =>
    have hpage : s.slots tid = none := by rw [h.page, hst, List.head?_nil]
    simp [scanSlot, hpage] at hscan
  | cons v rest =>
    rcases h.top hst with hv | ⟨hd, new, image, hr, hn⟩
    · rw [h.scanSlot_eq hmax hst hdead hv] at hscan
      cases hvis : s.tupleIsVisible x snapshot v with
      | none => simp [hvis] at hscan
      | some visible =>
        cases visible with
        | true =>
          simp only [hvis, Option.bind_eq_bind, Option.bind_some, if_true, Option.pure_def,
            Option.some.injEq] at hscan
          split_ifs at hscan with hdel
          cases hscan
          have hsees := sees_of_visible hi (h.begun tid v (by simp [hst])) hvis
          exact ⟨rfl, [], rest, hst, hdead, Bool.eq_false_iff.2 hdel, hsees.1, nofun⟩
        | false =>
          simp only [hvis, Option.bind_eq_bind, Option.bind_some, Bool.false_eq_true, if_false] at hscan
          obtain ⟨res, hres, htuple⟩ := Option.map_eq_some_iff.1 hscan
          obtain ⟨b, rfl, rfl⟩ := Option.map_eq_some_iff.1 htuple
          obtain ⟨newer, below, rfl, hb, hnewer⟩ := newest_found hres
          have hmem : b ∈ newer ++ b :: below := List.mem_append_right _ List.mem_cons_self
          have hst' : st tid = (v :: newer) ++ b :: below := hst
          refine ⟨rfl, v :: newer, below, hst, hdead, h.live hst hmem,
            (sees_of_visible hi (h.begun tid b (by simp [hst])) hb).1, fun a ha => ?_⟩
          have hunseen : s.tupleIsVisible x snapshot a = some false := by
            rcases List.mem_cons.1 ha with rfl | ha
            · exact hvis
            · exact hnewer a ha
          obtain ⟨hown, hother⟩ := unseen_of_not_visible hi hunseen
          have hne : a.xid ≠ x := fun e => absurd (hahead _ _ _ hst' a ha e) (Int.not_lt.2 (hown e))
          exact ⟨hne, hother hne⟩
    · have := h.scanSlot_mark hmax hst hr hn hd hscan
      cases this

/-- A found version whose writer is on the page is the version on the page. -/
theorem Found.eq_top {snapshot : Snapshot} {tuple : RowTuple V} (h : s.Found st x snapshot tuple)
    (hst : st tuple.tid = v :: rest) (hx : v.xid = tuple.version.xid) : v = tuple.version := by
  obtain ⟨newer, below, hst', -, -, hsees, hnewer⟩ := h
  cases newer with
  | nil =>
    rw [hst'] at hst
    exact (List.cons.inj hst).1.symm
  | cons a newer =>
    rw [hst'] at hst
    obtain ⟨rfl, -⟩ := List.cons.inj hst
    obtain ⟨hne, hnew⟩ := hnewer a List.mem_cons_self
    rcases hsees with hown | ⟨c, hc, hlt⟩
    · exact absurd (hx.trans hown) hne
    · exact absurd (hnew c (hx ▸ hc)) (Nat.not_le.2 hlt)

/-! ## What stays when a transaction goes on -/

theorem Sees.later {snapshot : Snapshot} (h : s.Sees x snapshot v) (hl : s.tm.Later t.tm) : t.Sees x snapshot v :=
  h.imp_right fun ⟨c, hc, hlt⟩ => ⟨c, hl.keeps _ _ hc, hlt⟩

theorem Found.later {snapshot : Snapshot} {tuple : RowTuple V} (h : s.Found st x snapshot tuple)
    (hl : s.tm.Later t.tm) (hS : snapshot.csn ≤ s.tm.csn)
    (hdead : t.dead = s.dead) : t.Found st x snapshot tuple := by
  obtain ⟨newer, rest, hst, hd, hlive, hsees, hnewer⟩ := h
  refine ⟨newer, rest, hst, hdead ▸ hd, hlive, hsees.later hl, fun a ha => ⟨(hnewer a ha).1, fun c hc => ?_⟩⟩
  rcases hl.new _ _ hc with hold | hnew
  · exact (hnewer a ha).2 c hold
  · exact Nat.le_trans hS hnew

variable {w : W} {tr tr' : Transaction}

theorem Based.later (h : s.Based tr v) (hl : s.tm.Later t.tm) (hx : tr'.xid = tr.xid)
    (hsnap : tr'.snapshot = tr.snapshot) :
    t.Based tr' v := by
  rcases h with h | ⟨snapshot, hs, c, hc, hlt⟩
  · exact .inl (h.trans hx.symm)
  · exact .inr ⟨snapshot, hsnap.trans hs, c, hl.keeps _ _ hc, hlt⟩

theorem LogInv.frame (h : LogInv s st w tr) (hlog : t.log w = s.log w) (hdead : t.dead = s.dead)
    (hundo : t.undo = s.undo)
    (hx : tr'.xid = tr.xid)
    (hkept : t.aborting tr.xid = false → s.aborting tr.xid = false ∧ tr'.undoLog = tr.undoLog) :
    LogInv t st w tr' := by
  refine ⟨hlog ▸ h.falls, fun ha => ?_, fun tid hd v hv he => ?_, fun usn hu => ?_⟩
  · obtain ⟨ha', hlog'⟩ := hkept (hx ▸ ha)
    rw [hlog, hlog']
    exact h.kept ha'
  · rw [hlog]
    exact h.own tid (hdead ▸ hd) v hv (he.trans hx)
  · rw [hlog] at hu
    rw [hundo, hdead, hx]
    exact h.entry usn hu

theorem ScanInv.later (h : ScanInv s st w tr) (hl : s.tm.Later t.tm)
    (hS : ∀ snapshot, tr.snapshot = some snapshot → snapshot.csn ≤ s.tm.csn) (hdead : t.dead = s.dead)
    (hvisited : t.visited w = s.visited w)
    (htuples : ∀ tuple ∈ t.tuples w, tuple ∈ s.tuples w)
    (honce : ((t.tuples w).map RowTuple.tid).Nodup) (hx : tr'.xid = tr.xid) (hsnap : tr'.snapshot = tr.snapshot) :
    ScanInv t st w tr' := by
  refine ⟨fun hs => ?_, fun tuple ht => ?_, honce, fun tuple ht => ?_, fun tid newer a b rest hst ha => ?_,
    fun tid hv hd => ?_⟩
  · rw [hvisited]
    exact h.fresh (hsnap ▸ hs)
  · rw [hvisited]
    exact h.visited tuple (htuples tuple ht)
  · obtain ⟨snapshot, hs, hfound⟩ := h.found tuple (htuples tuple ht)
    exact ⟨snapshot, hsnap.trans hs, hx ▸ hfound.later hl (hS snapshot hs) hdead⟩
  · exact (h.based tid newer a b rest hst (ha.trans hx)).later hl hx hsnap
  · rw [hx, hsnap]
    exact h.ahead tid (hvisited ▸ hv) (hdead ▸ hd)

end RowRun

end Mimidb
