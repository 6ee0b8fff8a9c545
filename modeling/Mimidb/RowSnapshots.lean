import Mimidb.CommitOrder
import Mimidb.RowWaits
import Mimidb.SnapshotStore

/-!
# Rows as a store with snapshots

Where rows are inserted by statements and updated in place, the page of a slot
and the undo log have its whole stack of versions. `Sim` relates the stacks to
a store under snapshot isolation: the commits are in the order of their
numbers, and what a transaction wrote is its last version on each stack. So
what a scan returns for a slot that its statement did not write is what the
store has there (`Sim.reads`).
-/

namespace Mimidb

/-- The row that a change leaves. -/
def RowChange.row {V : Type} : RowChange V → Option V
  | .update values _ => some values
  | .delete => none

namespace RowRun

open TransManager

variable {W V : Type} {s t : RowRun W V} {st : Stacks V} {w : W} {tm : TransManager W} {tid : TupleId}
  {v b : RowVersion V} {x y : Nat}

/-! ## What a step means -/

/-- Rows are inserted by statements, and updated in place. -/
def Served (s : RowRun W V) (a : W × RowOp V) : Prop :=
  match a.2 with
  | .insert _ _ _ => ∀ tr ∈ s.tm.transactions a.1, tr.snapshot ≠ none
  | .change _ (.update _ newSlot) _ => newSlot = none
  | _ => True

instance (s : RowRun W V) : (a : W × RowOp V) → Decidable (s.Served a)
  | (w, .insert _ _ _) => inferInstanceAs (Decidable (∀ tr ∈ s.tm.transactions w, tr.snapshot ≠ none))
  | (_, .change _ (.update _ newSlot) _) => inferInstanceAs (Decidable (newSlot = none))
  | (_, .change _ .delete _) | (_, .trans _) | (_, .scan _) | (_, .lookup) | (_, .decide) | (_, .resume _)
  | (_, .undo) => .isTrue trivial

def ofWorker (s : RowRun W V) (w : W) (op : SnapshotStore.Op TupleId V) : List (Nat × SnapshotStore.Op TupleId V) :=
  ((s.tm.transactions w).map fun tr => (tr.xid, op)).toList

/-- What a step of the run is for the store. -/
def storeOps (s : RowRun W V) : W × RowOp V → List (Nat × SnapshotStore.Op TupleId V)
  | (_, .trans .beginNewTransaction) => [(s.tm.xid, .begin)]
  | (w, .trans .beginNewStatement) => s.ofWorker w .statement
  | (w, .trans .run) => match s.tm.pc w with
    | .commitTake => s.ofWorker w .commit
    | _ => []
  -- the first record that is undone takes the transaction back
  | (w, .trans .abort) | (w, .undo) => if s.undoing w = true then [] else s.ofWorker w .abort
  | (w, .insert tid values _) => s.ofWorker w (.write tid (some values))
  | (w, .change tuple change _) =>
    if (s.slots tuple.tid).map RowVersion.xid = some tuple.version.xid then s.ofWorker w
      (.write tuple.tid change.row) else []
  | (w, .resume _) => match s.calls w with
    | some call => s.ofWorker w (.write call.tuple.tid call.change.row)
    | none => []
  | _ => []

/-! ## Stacks as the undo log has them -/

/-- The versions below `v`, along the undo records. -/
inductive Walk (undo : Int → Option (RowRecord V)) : RowVersion V → List (RowVersion V) → Prop
  | bottom {v : RowVersion V} (h : undo v.undo = none) : Walk undo v []
  | down {v b : RowVersion V} {r : RowRecord V} {rest : List (RowVersion V)} (hr : undo v.undo = some r)
      (hb : r.image = some b) (h : Walk undo b rest) : Walk undo v (b :: rest)

theorem Walk.unique {undo : Int → Option (RowRecord V)} {rest rest' : List (RowVersion V)} (h : Walk undo v rest)
    (h' : Walk undo v rest') : rest = rest' := by
  induction h generalizing rest' with
  | bottom hn =>
    cases h' with
    | bottom => rfl
    | down hr => rw [hn] at hr; cases hr
  | down hr hb _ ih =>
    cases h' with
    | bottom hn => rw [hn] at hr; cases hr
    | down hr' hb' hw =>
      obtain rfl := Option.some.inj (hr.symm.trans hr')
      obtain rfl := Option.some.inj (hb.symm.trans hb')
      rw [ih hw]

theorem Walk.congr {undo : Int → Option (RowRecord V)} {rest : List (RowVersion V)} (h : Walk undo v rest)
    (undo' : Int → Option (RowRecord V))
    (hsame : ∀ a ∈ v :: rest, undo' a.undo = undo a.undo) : Walk undo' v rest := by
  induction h with
  | bottom hn => exact .bottom ((hsame _ List.mem_cons_self).trans hn)
  | down hr hb _ ih =>
    exact .down ((hsame _ List.mem_cons_self).trans hr) hb (ih fun a ha => hsame a (List.mem_cons_of_mem _ ha))

/-- No record is of a move. -/
def Plain (s : RowRun W V) : Prop := ∀ usn old new image, s.undo usn = some (.Update old new image) → new = old

theorem SlotsInv.walk (h : SlotsInv s st) (hp : s.Plain) (newer : List (RowVersion V)) {rest : List (RowVersion V)}
    (hst : st tid = newer ++ v :: rest) :
    Walk s.undo v rest := by
  induction rest generalizing newer v with
  | nil =>
    obtain ⟨-, h0 | ⟨old, b, hr, hne, -⟩⟩ := h.bottom tid v (by simp [hst])
    · refine .bottom (Option.eq_none_iff_forall_ne_some.2 fun r hr => ?_)
      exact h.not_invalid hr h0
    · exact absurd (hp _ _ _ _ hr).symm hne
  | cons b rest ih =>
    obtain ⟨r, hr, hsaves⟩ := (h.above hst).record
    refine .down hr ?_ (ih (newer ++ [v]) (by simp [hst]))
    cases hsaves <;> rfl

/-- The page and the undo log have the whole stack. -/
theorem SlotsInv.stack (h : SlotsInv s st) (hp : s.Plain) (tid : TupleId) : match s.slots tid with
    | none => st tid = []
    | some page => ∃ rest, st tid = page :: rest ∧ Walk s.undo page rest := by
  rw [h.page]
  cases hst : st tid with
  | nil => rfl
  | cons page rest => exact ⟨rest, rfl, h.walk hp [] hst⟩

theorem SlotsInv.stack_same {st' : Stacks V} (h : SlotsInv s st) (h' : SlotsInv t st') (hp : s.Plain)
    (hp' : t.Plain) (hslot : t.slots tid = s.slots tid)
    (hundo : ∀ u, u ≤ s.tm.usn → t.undo u = s.undo u) : st' tid = st tid := by
  have hs := h.stack hp tid
  have ht := h'.stack hp' tid
  rw [hslot] at ht
  cases hpage : s.slots tid with
  | none =>
    rw [hpage] at hs ht
    exact ht.trans hs.symm
  | some page =>
    rw [hpage] at hs ht
    obtain ⟨rest, hst, hw⟩ := hs
    obtain ⟨rest', hst', hw'⟩ := ht
    have hsame := hw.congr t.undo fun a ha => hundo _ (h.undos tid a (hst ▸ ha))
    rw [hst', hst, hsame.unique hw']

theorem SlotsInv.stack_write {st' : Stacks V} (h : SlotsInv s st) (h' : SlotsInv t st') (hp : s.Plain)
    (hp' : t.Plain) (hslot : t.slots tid = some v) (hundo : ∀ u, u ≤ s.tm.usn → t.undo u = s.undo u)
    (hbelow : match s.slots tid with
      | none => t.undo v.undo = none
      | some page => ∃ r, t.undo v.undo = some r ∧ r.image = some page) : st' tid = v :: st tid := by
  have hs := h.stack hp tid
  have ht := h'.stack hp' tid
  rw [hslot] at ht
  obtain ⟨rest', hst', hw'⟩ := ht
  rw [hst']
  cases hpage : s.slots tid with
  | none =>
    rw [hpage] at hs hbelow
    rw [← (Walk.bottom hbelow).unique hw', hs]
  | some page =>
    rw [hpage] at hs hbelow
    obtain ⟨rest, hst, hw⟩ := hs
    obtain ⟨r, hr, himage⟩ := hbelow
    have hsame := hw.congr t.undo fun a ha => hundo _ (h.undos tid a (hst ▸ ha))
    rw [← (Walk.down hr himage hsame).unique hw', hst]

/-! ## What a transaction left on a stack -/

/-- The row that a version shows. -/
def shown (v : RowVersion V) : Option V := if v.deleted then none else some v.values

def lastOf (x : Nat) (l : List (RowVersion V)) : Option (Option V) := (l.find? fun v => v.xid = x).map shown

theorem lastOf_eq_none {l : List (RowVersion V)} : lastOf x l = none ↔ ∀ v ∈ l, v.xid ≠ x := by
  simp [lastOf]

@[simp] theorem lastOf_self {l : List (RowVersion V)} (h : v.xid = x) : lastOf x (v :: l) = some (shown v) := by
  simp [lastOf, h]

@[simp] theorem lastOf_ne {l : List (RowVersion V)} (h : v.xid ≠ x) : lastOf x (v :: l) = lastOf x l := by
  simp [lastOf, h]

theorem lastOf_append {newer rest : List (RowVersion V)} (h : ∀ a ∈ newer, a.xid ≠ v.xid) :
    lastOf v.xid (newer ++ v :: rest) = some (shown v) := by
  induction newer with
  | nil => simp
  | cons a newer ih =>
    rw [List.cons_append, lastOf_ne (h a List.mem_cons_self)]
    exact ih fun b hb => h b (List.mem_cons_of_mem _ hb)

/-! ## The simulation -/

/-- What the running statement did not write, its snapshot sees. -/
structure Tracked (st : Stacks V) (tr : Transaction) (b : SnapshotStore.Active TupleId V) : Prop where
  start : b.start = tr.snapshot.map fun S => S.csn - CommitSeqNumber.Min
  seen : ∀ tid, b.now tid = none → ∀ v ∈ st tid, v.xid = tr.xid → ∃ S, tr.snapshot = some S ∧ v.undo < S.cid
  wrote : ∀ tid, ∀ v ∈ st tid, v.xid = tr.xid → tr.snapshot ≠ none ∧ UndoSeqNumber.isValid tr.lastUsn = true

/-- Calls are of changes in place, by transactions that do not undo. -/
def Called (s : RowRun W V) : Prop := ∀ w call, s.calls w = some call →
  (∀ values new, call.change ≠ .update values (some new)) ∧ ∀ tr, s.tm.transactions w = some tr →
  s.aborting tr.xid = false

structure Sim (s : RowRun W V) (st : Stacks V) (σ : SnapshotStore Nat TupleId V) : Prop where
  order : s.tm.Ordered (σ.commits.map SnapshotStore.Entry.xid)
  log : ∀ e ∈ σ.commits, ∀ tid, e.writes tid = lastOf e.xid (st tid)
  active : ∀ x b, σ.active x = some b → x < s.tm.xid ∧ s.aborting x = false ∧ (∀ c, ¬ s.tm.Commits x c) ∧
    ∀ tid, b.own tid = lastOf x (st tid)
  running : ∀ w tr, s.tm.transactions w = some tr → s.aborting tr.xid = false → (∀ c, ¬ s.tm.Commits tr.xid c) →
    ∃ b, σ.active tr.xid = some b ∧ Tracked st tr b
  plain : s.Plain
  alive : ∀ tid, s.dead tid = false
  calls : s.Called

theorem Sim.init : Sim (init : RowRun W V) (fun _ => []) SnapshotStore.init where
  order := .init
  log := nofun
  active := nofun
  running := nofun
  plain := nofun
  alive _ := rfl
  calls := nofun

/-! ## What a scan returns -/

variable {σ : SnapshotStore Nat TupleId V} {S : Snapshot} {tr : Transaction} {res : Option (RowTuple V)}

theorem SlotsInv.scan_cases (h : SlotsInv s st) (hmax : s.tm.usn ≤ UndoSeqNumber.Max) (hp : s.Plain)
    (hd : s.dead tid = false) (hscan : s.scanSlot x S tid = some res) :
    (∃ newer v below, st tid = newer ++ v :: below ∧ (∀ a ∈ newer, s.tupleIsVisible x S a = some false) ∧
      s.tupleIsVisible x S v = some true ∧ res.map (fun tuple => tuple.version.values) = shown v) ∨
    (∀ a ∈ st tid, s.tupleIsVisible x S a = some false) ∧ res = none := by
  cases hst : st tid with
  | nil =>
    have hpage : s.slots tid = none := by rw [h.page, hst, List.head?_nil]
    simp only [scanSlot, hpage, Option.some.injEq] at hscan
    exact .inr ⟨by simp, hscan.symm⟩
  | cons v rest =>
    have htop := (h.top hst).resolve_right fun hno => by
      obtain ⟨_, new, image, hr, hn⟩ := hno
      exact hn (hp _ _ _ _ hr)
    rw [h.scanSlot_eq hmax hst hd htop] at hscan
    obtain ⟨visible, hvis, hscan⟩ := Option.bind_eq_some_iff.1 hscan
    cases visible with
    | true =>
      refine .inl ⟨[], v, rest, rfl, by simp, hvis, ?_⟩
      simp only [if_true, Option.pure_def, Option.some.injEq] at hscan
      subst hscan
      unfold shown
      split_ifs <;> rfl
    | false =>
      simp only [Bool.false_eq_true, if_false] at hscan
      obtain ⟨found, hfound, rfl⟩ := Option.map_eq_some_iff.1 hscan
      cases found with
      | none =>
        refine .inr ⟨fun a ha => ?_, rfl⟩
        rcases List.mem_cons.1 ha with rfl | ha
        · exact hvis
        · exact newest_none hfound a ha
      | some a =>
        obtain ⟨newer, below, rfl, ha, hnewer⟩ := newest_found hfound
        refine .inl ⟨v :: newer, a, below, rfl, fun c hc => ?_, ha, ?_⟩
        · rcases List.mem_cons.1 hc with rfl | hc
          · exact hvis
          · exact hnewer c hc
        · have hlive := h.live hst (b := a) (by simp)
          simp [shown, hlive]

theorem SlotsInv.number_le {c d : Nat} {order : List Nat} {newer below : List (RowVersion V)} (h : SlotsInv s st)
    (ho : s.tm.Ordered order) (hst : st tid = newer ++ v :: below) (hb : b ∈ below) (hv : s.tm.Commits v.xid c)
    (hd : s.tm.Commits b.xid d) :
    d ≤ c := by
  have hchain := h.chain tid
  rw [hst] at hchain
  have hrel :=
    rel_of_isChain (S := fun v b : RowVersion V => ∀ c, s.tm.Commits v.xid c → ∃ d, s.tm.Commits b.xid d ∧ d ≤ c)
    (fun _ _ _ hab hbc c hc => by
      obtain ⟨d, hd, hle⟩ := hab c hc
      obtain ⟨e, he, hle'⟩ := hbc d hd
      exact ⟨e, he, Nat.le_trans hle' hle⟩)
    (fun v b ha c hc => by
      rcases ha.follows with e | ⟨d, hd, hlt⟩
      · exact ⟨c, e ▸ hc, Nat.le_refl _⟩
      · exact ⟨d, hd, Nat.le_of_lt (hlt c hc)⟩) hchain.right_of_append hb
  obtain ⟨d', hd', hle⟩ := hrel c hv
  rw [ho.unique hd hd']
  exact hle

theorem SlotsInv.own_top {newer below : List (RowVersion V)} (h : SlotsInv s st) (hx : ∀ c, ¬ s.tm.Commits x c)
    (hst : st tid = newer ++ v :: below) (hv : v.xid ≠ x) : ∀ b ∈ below, b.xid ≠ x := by
  intro b hb he
  have hchain := h.chain tid
  rw [hst] at hchain
  have hrel :=
    rel_of_isChain (S := fun v b : RowVersion V => b.xid = x → v.xid = x) (fun _ _ _ hab hbc e => hab (hbc e))
    (fun v b ha e => (ha.follows.of_running (e ▸ hx)).trans e) hchain.right_of_append hb he
  exact hv hrel

theorem Sim.mem_commits {i : Nat} {e : SnapshotStore.Entry Nat TupleId V} (h : Sim s st σ)
    (he : σ.commits[i]? = some e) :
    s.tm.Commits e.xid (CommitSeqNumber.Min + i) := by
  refine (h.order.number _ _).2 ⟨Nat.le_add_right _ _, ?_⟩
  rw [Nat.add_sub_cancel_left, List.getElem?_map, he]
  rfl

/-- The value in the store is that of the last number below the snapshot's. -/
theorem Sim.replay_eq {c : Nat} {newer below : List (RowVersion V)} (hslots : SlotsInv s st) (h : Sim s st σ)
    (hst : st tid = newer ++ v :: below) (hnewer : ∀ a ∈ newer, ∀ d, s.tm.Commits a.xid d → S.csn ≤ d)
    (hc : s.tm.Commits v.xid c) (hlt : c < S.csn) :
    SnapshotStore.replay (σ.commits.take (S.csn - CommitSeqNumber.Min)) tid = shown v := by
  obtain ⟨hmin, hi⟩ := (h.order.number _ _).1 hc
  rw [List.getElem?_map] at hi
  obtain ⟨e, he, hex⟩ := Option.map_eq_some_iff.1 hi
  obtain ⟨hlen, hget⟩ := List.getElem?_eq_some_iff.1 he
  have hlen' : c - CommitSeqNumber.Min < (σ.commits.take (S.csn - CommitSeqNumber.Min)).length := by
    rw [List.length_take]
    exact lt_min (Nat.sub_lt_sub_right hmin hlt) hlen
  refine SnapshotStore.replay_last ((σ.commits.take (S.csn - CommitSeqNumber.Min)).take (c - CommitSeqNumber.Min)) e
    ((σ.commits.take (S.csn - CommitSeqNumber.Min)).drop (c - CommitSeqNumber.Min + 1)) ?_ ?_ fun f hf => ?_
  · have hcons := List.drop_eq_getElem_cons hlen'
    rw [List.getElem_take, hget] at hcons
    rw [← hcons, List.take_append_drop]
  · rw [h.log e (List.mem_of_getElem? he), hst, hex]
    exact lastOf_append fun a ha hax => absurd (hnewer a ha c (hax ▸ hc)) (Nat.not_le.2 hlt)
  · obtain ⟨j, hj⟩ := List.mem_iff_getElem?.1 hf
    rw [List.getElem?_drop, List.getElem?_take] at hj
    split_ifs at hj with hjlt
    have hd := h.mem_commits hj
    rw [h.log f (List.mem_of_getElem? hj), lastOf_eq_none]
    intro a ha hax
    have hda := hax.symm ▸ hd
    rw [hst] at ha
    have hcase : a ∈ newer ∨ a = v ∨ a ∈ below := by simpa using ha
    rcases hcase with ha | rfl | ha
    · have := hnewer a ha _ hda
      omega
    · have := h.order.unique hc hda
      omega
    · have := hslots.number_le h.order hst ha hc hda
      omega

/-- A scan of a slot that the running statement did not write returns the row that the store has there. -/
theorem Sim.reads {b : SnapshotStore.Active TupleId V} (hinv : RowInv s st) (h : Sim s st σ)
    (hs : s.tm.transactions w = some tr) (hidle : s.tm.pc w = .idle) (hab : s.aborting tr.xid = false)
    (hS : tr.snapshot = some S)
    (hb : σ.active tr.xid = some b)
    (hnow : b.now tid = none) (hscan : s.scanSlot tr.xid S tid = some res) :
    res.map (fun tuple => tuple.version.values) = b.read σ.commits tid := by
  have hno := not_commits hinv.trans hs hidle
  obtain ⟨b', hb', htracked⟩ := h.running w tr hs hab hno
  obtain rfl := Option.some.inj (hb.symm.trans hb')
  have hown : b.done tid = lastOf tr.xid (st tid) := by
    have := (h.active _ _ hb).2.2.2 tid
    unfold SnapshotStore.Active.own at this
    simpa [hnow] using this
  have hstart : b.start.getD 0 = S.csn - CommitSeqNumber.Min := by simp [htracked.start, hS]
  have hvisible : ∀ a ∈ st tid, a.xid = tr.xid → s.tupleIsVisible tr.xid S a = some true := fun a ha hx => by
    obtain ⟨S', hS', hlt⟩ := htracked.seen tid hnow a ha hx
    obtain rfl := Option.some.inj (hS.symm.trans hS')
    simp [tupleIsVisible, hx, hlt]
  have hunseen : ∀ a, s.tupleIsVisible tr.xid S a = some false → a ∈ st tid → a.xid ≠ tr.xid ∧
    ∀ c, s.tm.Commits a.xid c → S.csn ≤ c :=
    fun a hv ha => by
      have hne : a.xid ≠ tr.xid := fun e => by
        rw [hvisible a ha e] at hv
        cases hv
      exact ⟨hne, (unseen_of_not_visible hinv.trans hv).2 hne⟩
  unfold SnapshotStore.Active.read
  rw [hown, hstart]
  rcases hinv.slots.scan_cases hinv.max h.plain
    (h.alive tid) hscan with ⟨newer, v, below, hst, hnewer, hv, hres⟩ | ⟨hall, rfl⟩
  · have hmem : ∀ a ∈ newer, a ∈ st tid := fun a ha => by simp [hst, ha]
    rw [hres]
    by_cases hx : v.xid = tr.xid
    · have hlast : lastOf tr.xid (st tid) = some (shown v) := by
        rw [hst, ← hx]
        exact lastOf_append fun a ha => hx ▸ (hunseen a (hnewer a ha) (hmem a ha)).1
      rw [hlast, Option.getD_some]
    · have hbelow := hinv.slots.own_top hno hst hx
      have hnone : lastOf tr.xid (st tid) = none := by
        rw [lastOf_eq_none, hst]
        intro a ha
        have hcase : a ∈ newer ∨ a = v ∨ a ∈ below := by simpa using ha
        rcases hcase with ha | rfl | ha
        · exact (hunseen a (hnewer a ha) (hmem a ha)).1
        · exact hx
        · exact hbelow a ha
      have hsees := (sees_of_visible hinv.trans (hinv.slots.begun tid v (by simp [hst])) hv).1
      obtain ⟨c, hc, hlt⟩ := hsees.resolve_left hx
      rw [hnone, Option.getD_none]
      exact (h.replay_eq hinv.slots hst (fun a ha => (hunseen a (hnewer a ha) (hmem a ha)).2) hc hlt).symm
  · have hnone : lastOf tr.xid (st tid) = none := lastOf_eq_none.2 fun a ha => (hunseen a (hall a ha) ha).1
    rw [hnone, Option.getD_none]
    refine (SnapshotStore.replay_none fun e he => ?_).symm
    obtain ⟨i, hi⟩ := List.mem_iff_getElem?.1 he
    rw [List.getElem?_take] at hi
    split_ifs at hi with hlt
    rw [h.log e (List.mem_of_getElem? hi), lastOf_eq_none]
    intro a ha hax
    have := (hunseen a (hall a ha) ha).2 _ (hax.symm ▸ h.mem_commits hi)
    omega

end RowRun

end Mimidb
