import Mimidb.Run
import Mimidb.UpdateScan

/-!
# Rows are updated once

The scan does not come back to a slot, and it passes over the slots that the
statement has moved rows to as long as nothing is written over them. What does
not end is the search for a page: it waits for the latch that `UpdateTuple`
holds on the first page, so a version has to find its place on that page
(`updates_once`).
-/

namespace Mimidb

open HeapStore

namespace UpdateRun

variable (dbg : Bool) (tableId myXid : Nat) (desc : TupleDescriptor) (node : UpdateNode)

/-- The tuples of the first page can be read, and the snapshot was taken at the end of the undo log or before. -/
structure Readable (s : UpdateRun) : Prop where
  tidy : ∀ p, HeapPage.Tidy (s.store.page p)
  ends : s.scan.ended = false → HeapPage.SizeOfHeapPageHeader ≤ HeapPage.lower (s.store.page 0) ∧
    HeapPage.lower (s.store.page 0) ≤ Config.PageSize
  slots : ∀ i, s.store.Placed ⟨0, i⟩ → Contained dbg desc (s.store.content ⟨0, i⟩) ∧
    ∃ tuple, (s.view dbg myXid desc).itemTuple s.scan.snapshot 0 i = .ok tuple ∧ ∀ t ∈ tuple, t.tid = ⟨0, i⟩
  log : ∀ usn : Int, s.store.undoSize < usn → s.store.undo usn = none
  cid : s.scan.snapshot.cid ≤ s.store.undoSize + 1

/-- The tuple was visible in its slot. -/
def Shows (s : UpdateRun) (tuple : HeapTuple Values) : Prop :=
  (s.view dbg myXid desc).itemTuple s.scan.snapshot tuple.tid.pageno tuple.tid.itemid = .ok (some tuple)

/-- Each row visible at the start was updated once at most, and nothing else was. -/
def Once (s₀ s : UpdateRun) : Prop :=
  (s.updated.map HeapTuple.tid).Nodup ∧ ∀ tuple ∈ s.updated, s₀.Shows dbg myXid desc tuple

/-- The calls are bounded, none of them hangs, and there is a next one until the end. -/
def Terminates (s : UpdateRun) : Prop :=
  s.rounds ≤ 2 ^ 16 ∧ s.updated.length ≤ s.rounds ∧ (∀ e, s.outcome = some (.error e) → e.hangs = false) ∧
    (s.outcome = none → ∃ op ∈ [UpdateOp.next, .update 0], (step dbg tableId myXid desc node s op).isSome = true)

/-- What other transactions do leaves the pages tidy, keeps the slots that the statement moved rows to, and shows
the snapshot no more than before. A reader waits for a writer that is in the middle of its commit. -/
structure Leaves (s : UpdateRun) (store : HeapStore) (history : Nat → Nat) : Prop where
  tidy : ∀ p, HeapPage.Tidy (store.page p)
  ends : s.scan.ended = false → HeapPage.SizeOfHeapPageHeader ≤ HeapPage.lower (store.page 0) ∧
    HeapPage.lower (store.page 0) ≤ Config.PageSize
  slots : ∀ i, store.Placed ⟨0, i⟩ →
    (s.store.Placed ⟨0, i⟩ ∧ store.content ⟨0, i⟩ = s.store.content ⟨0, i⟩ ∧ MovedTo s.store myXid s.scan.snapshot
      ⟨0, i⟩) ∨
    (Contained dbg desc (store.content ⟨0, i⟩) ∧
      ∃ tuple, (store.view dbg desc history myXid).itemTuple s.scan.snapshot 0 i = .ok tuple ∧
        (tuple = none ∨ s.store.Placed ⟨0, i⟩ ∧ (s.view dbg myXid desc).itemTuple s.scan.snapshot 0 i = .ok tuple))
  pending : ∀ p ∈ s.pending, store.Placed p.1.tid
  log : ∀ usn record, s.store.undo usn = some record → store.undo usn = some record
  size : s.store.undoSize ≤ store.undoSize
  fresh : ∀ usn : Int, store.undoSize < usn → store.undo usn = none

/-- The undo log has not outgrown its numbers. -/
def Setting (s : UpdateRun) : UpdateOp → Prop
  | .update _ => (s.store.undoSize : Int) + 1 ≤ UndoSeqNumber.Max
  | .others store history => Leaves dbg myXid desc s store history
  | _ => True

/-- The new version fits in the slot of the old one, or there are no assertions
and it has a vacant place on the page. -/
def Roomy (s : UpdateRun) : UpdateOp → Prop
  | .update _ => ∀ p ∈ s.pending, ∀ bytes,
    (heapTable dbg tableId myXid desc).serialize ((heapTable dbg tableId myXid desc).newHeader p.2) p.2 =
    .ok bytes →
      bytes.length ≤ (s.store.item p.1.tid).length ∨
      (dbg = false ∧ HeapPage.Vacant (s.store.page p.1.tid.pageno)
        (HeapPage.upper (s.store.page p.1.tid.pageno) - bytes.length) bytes.length)
  | _ => True

/-! ## The invariant -/

/-- A slot that the statement has moved a row to, or that shows at most the row that it showed at the start. -/
def Due (s₀ s : UpdateRun) (i : Nat) : Prop :=
  MovedTo s.store myXid s₀.scan.snapshot ⟨0, i⟩ ∨ (Contained dbg desc (s.store.content ⟨0, i⟩) ∧
    ∃ tuple, (s.view dbg myXid desc).itemTuple s₀.scan.snapshot 0 i = .ok tuple ∧
      ∀ t ∈ tuple, t.tid = ⟨0, i⟩ ∧ s₀.Shows dbg myXid desc t)

structure InHand (s₀ s : UpdateRun) (tuple : HeapTuple Values) : Prop where
  pageno : tuple.tid.pageno = 0
  itemid : tuple.tid.itemid < s.scan.tupleId.itemid
  placed : s.store.Placed tuple.tid
  shows : s₀.Shows dbg myXid desc tuple
  fresh : ∀ other ∈ s.updated, other.tid ≠ tuple.tid
  counted : desc.getMaxAttrNumber ≠ 2 ^ 16 - 1

structure UnderWay (s₀ s : UpdateRun) : Prop where
  snapshot : s.scan.snapshot = s₀.scan.snapshot
  pageno : s.scan.tupleId.pageno = 0
  rounds : s.rounds ≤ s.scan.tupleId.itemid ∧ s.scan.tupleId.itemid < 2 ^ 16
  tidy : ∀ p, HeapPage.Tidy (s.store.page p)
  ends : s.scan.ended = false → HeapPage.SizeOfHeapPageHeader ≤ HeapPage.lower (s.store.page 0) ∧
    HeapPage.lower (s.store.page 0) ≤ Config.PageSize
  slots : ∀ i, s.scan.tupleId.itemid ≤ i → s.store.Placed ⟨0, i⟩ → Due dbg myXid desc s₀ s i
  log : ∀ usn : Int, s.store.undoSize < usn → s.store.undo usn = none
  cid : s₀.scan.snapshot.cid ≤ s.store.undoSize + 1
  behind : ∀ tuple ∈ s.updated, tuple.tid.pageno = 0 ∧ tuple.tid.itemid < s.scan.tupleId.itemid
  pending : ∀ p ∈ s.pending, InHand dbg myXid desc s₀ s p.1

structure Inv (s₀ s : UpdateRun) : Prop where
  once : Once dbg myXid desc s₀ s
  count : s.rounds ≤ 2 ^ 16 ∧ s.updated.length + s.pending.toList.length ≤ s.rounds
  quiet : ∀ e, s.outcome = some (.error e) → e.hangs = false
  underWay : s.outcome = none → UnderWay dbg myXid desc s₀ s

section
variable {dbg tableId myXid desc node} {s₀ s t : UpdateRun} {store : HeapStore} {history : Nat → Nat}
  {snapshot : Snapshot}
  {fuel : Nat} {old : HeapTuple Values} {values : Values}

theorem placed_ends {page : Memory} {i : Nat} (h : HeapPage.Placed page i) :
    HeapPage.SizeOfHeapPageHeader ≤ HeapPage.lower page ∧ HeapPage.lower page ≤ Config.PageSize := by
  have hbehind := h.behind
  have hinside := h.inside
  exact ⟨h.header, by omega⟩

theorem start_inv (h : start dbg myXid desc store history snapshot = .ok s₀) (hr : Readable dbg myXid desc s₀) :
    Inv dbg myXid desc s₀ s₀ := by
  obtain ⟨scan, hscan, h⟩ := bind_eq_ok.1 h
  obtain rfl := HeapView.beginScan_eq hscan
  cases h
  refine ⟨⟨List.nodup_nil, nofun⟩, ⟨Nat.zero_le _, Nat.le_refl 0⟩, nofun, fun _ => ?_⟩
  refine ⟨rfl, rfl, ⟨Nat.le_refl 0, Nat.two_pow_pos 16⟩, hr.tidy, hr.ends, fun i _ hp => .inr ?_, hr.log, hr.cid,
    nofun, nofun⟩
  obtain ⟨hin, tuple, htuple, htid⟩ := hr.slots i hp
  refine ⟨hin, tuple, htuple, fun t ht => ⟨htid t ht, ?_⟩⟩
  unfold Shows
  rw [htid t ht]
  cases ht
  exact htuple

/-! ## The scan goes on -/

theorem nextItem_cases {c : HeapView Values} {pageno n index : Nat}
    (h : ∀ i, index ≤ i → i < index + n → ∃ tuple, c.itemTuple snapshot pageno i = .ok tuple) :
    c.nextItem snapshot pageno n index = .ok (none, index + n) ∨
    ∃ i tuple, index ≤ i ∧ i < index + n ∧ c.itemTuple snapshot pageno i = .ok (some tuple) ∧
      c.nextItem snapshot pageno n index = .ok (some tuple, i) := by
  induction n generalizing index with
  | zero => exact .inl rfl
  | succ n ih =>
    obtain ⟨tuple, htuple⟩ := h index (Nat.le_refl _) (by omega)
    unfold HeapView.nextItem
    rw [htuple]
    cases tuple with
    | some tuple => exact .inr ⟨index, tuple, Nat.le_refl _, by omega, htuple, rfl⟩
    | none =>
      have hrest : ∀ i, index + 1 ≤ i → i < index + 1 + n → ∃ tuple, c.itemTuple snapshot pageno i = .ok tuple :=
        fun i hi hi' => h i (by omega) (by omega)
      rcases ih hrest with hn | ⟨i, tuple, hi, hi', hi'', hn⟩
      · refine .inl ?_
        rw [Nat.add_right_comm] at hn
        exact hn
      · exact .inr ⟨i, tuple, by omega, by omega, hi'', hn⟩

theorem getNextTuple_cases {c : HeapView Values} {scan : HeapTableScan} (hp : scan.tupleId.pageno = 0)
    (h : scan.ended = false → ∀ i, scan.tupleId.itemid ≤ i → i < HeapPage.itemsCount (c.page 0) →
      ∃ tuple, c.itemTuple scan.snapshot 0 i = .ok tuple) :
    (∃ scan', HeapTableScan.getNextTuple c scan = .ok (none, scan')) ∨
    ∃ i tuple, scan.ended = false ∧ scan.tupleId.itemid ≤ i ∧ i < HeapPage.itemsCount (c.page 0) ∧
      c.itemTuple scan.snapshot 0 i = .ok (some tuple) ∧
      HeapTableScan.getNextTuple c scan = .ok (some tuple, { scan with tupleId := ⟨0, i + 1⟩ }) := by
  by_cases hended : scan.ended = true
  · refine .inl ⟨scan, ?_⟩
    rw [HeapTableScan.getNextTuple, if_pos hended]
  · have hgoes : scan.ended = false := Bool.eq_false_iff.2 hended
    have hmax : HeapPage.itemsCount (c.page 0) < 2 ^ 16 := Nat.mod_lt _ (by decide)
    have hread : ∀ i, scan.tupleId.itemid ≤ i →
      i < scan.tupleId.itemid + (HeapPage.itemsCount (c.page 0) - scan.tupleId.itemid) →
        ∃ tuple, c.itemTuple scan.snapshot 0 i = .ok tuple := fun i hi hi' => h hgoes i hi (by omega)
    rcases nextItem_cases hread with hn | ⟨i, tuple, hi, hi', hi'', hn⟩
    · rw [← hp] at hn
      exact .inl ⟨_, HeapTableScan.getNextTuple_page hgoes hn⟩
    · rw [← hp] at hn
      have hs := HeapTableScan.getNextTuple_page hgoes hn
      rw [hp, if_neg (by omega), Nat.mod_eq_of_lt (by omega)] at hs
      exact .inr ⟨i, tuple, hgoes, hi, by omega, hi'', hs⟩

/-- What the scan still comes to can be read. -/
theorem UnderWay.read (h : UnderWay dbg myXid desc s₀ s) (hended : s.scan.ended = false) {i : Nat}
    (hi : s.scan.tupleId.itemid ≤ i) (hlt : i < HeapPage.itemsCount (s.store.page 0)) :
    ∃ tuple, (s.view dbg myXid desc).itemTuple s₀.scan.snapshot 0 i = .ok tuple ∧
      ∀ t ∈ tuple, t.tid = ⟨0, i⟩ ∧ s.store.Placed ⟨0, i⟩ ∧ s₀.Shows dbg myXid desc t := by
  cases hnormal : (HeapPage.itemAt (s.store.page 0) i).isNormal with
  | false => exact ⟨none, itemTuple_unused hlt (h.ends hended).1 (h.ends hended).2 hnormal, nofun⟩
  | true =>
    have hp : s.store.Placed ⟨0, i⟩ := (h.tidy 0).placed i hlt hnormal
    rcases h.slots i hi hp with hmoved | ⟨-, tuple, htuple, hshows⟩
    · exact ⟨none, hmoved.itemTuple_eq hp, nofun⟩
    · exact ⟨tuple, htuple, fun t ht => ⟨(hshows t ht).1, hp, (hshows t ht).2⟩⟩

theorem UnderWay.getNext (h : UnderWay dbg myXid desc s₀ s) :
    (∃ scan, HeapTableScan.getNextTuple (s.view dbg myXid desc) s.scan = .ok (none, scan)) ∨
    ∃ i tuple, s.scan.tupleId.itemid ≤ i ∧ i + 1 < 2 ^ 16 ∧ tuple.tid = ⟨0, i⟩ ∧ s.store.Placed ⟨0, i⟩ ∧
      s₀.Shows dbg myXid desc tuple ∧ desc.getMaxAttrNumber ≠ 2 ^ 16 - 1 ∧
      HeapTableScan.getNextTuple (s.view dbg myXid desc) s.scan =
      .ok (some tuple, { s.scan with tupleId := ⟨0, i + 1⟩ }) := by
  have hread : s.scan.ended = false → ∀ i, s.scan.tupleId.itemid ≤ i →
    i < HeapPage.itemsCount ((s.view dbg myXid desc).page 0) →
      ∃ tuple, (s.view dbg myXid desc).itemTuple s.scan.snapshot 0 i = .ok tuple := by
    intro hended i hi hlt
    obtain ⟨tuple, htuple, -⟩ := h.read hended hi hlt
    rw [h.snapshot]
    exact ⟨tuple, htuple⟩
  rcases getNextTuple_cases h.pageno hread with hnone | ⟨i, tuple, hended, hi, hlt, htuple, hget⟩
  · exact .inl hnone
  · obtain ⟨tuple', htuple', hshows⟩ := h.read hended hi hlt
    rw [h.snapshot] at htuple
    rw [htuple] at htuple'
    cases htuple'
    obtain ⟨htid, hp, hshow⟩ := hshows tuple rfl
    have hmax : HeapPage.itemsCount (s.store.page 0) < 2 ^ 14 := by
      have hends := h.ends hended
      rw [HeapPage.itemsCount_eq hends.1]
      simp only [Config.PageSize] at hends
      omega
    have hbound : i < HeapPage.itemsCount (s.store.page 0) := hlt
    exact .inr ⟨i, tuple, hi, by omega, htid, hp, hshow, count_of_read hp htuple, hget⟩

theorem UnderWay.advance {i : Nat} {pending : Option (HeapTuple Values × Values)} (h : UnderWay dbg myXid desc s₀ s)
    (hi : s.scan.tupleId.itemid ≤ i) (hbound : i + 1 < 2 ^ 16)
    (hpending : ∀ p ∈ pending, p.1.tid = ⟨0, i⟩ ∧ s.store.Placed ⟨0, i⟩ ∧ s₀.Shows dbg myXid desc p.1 ∧
      desc.getMaxAttrNumber ≠ 2 ^ 16 - 1) :
    UnderWay dbg myXid desc s₀
      { s with rounds := s.rounds + 1, scan := { s.scan with tupleId := ⟨0, i + 1⟩ }, pending := pending } where
  snapshot := h.snapshot
  pageno := rfl
  rounds := ⟨Nat.succ_le_succ (Nat.le_trans h.rounds.1 hi), hbound⟩
  tidy := h.tidy
  ends := h.ends
  slots j hj := h.slots j (Nat.le_trans hi (Nat.le_of_succ_le hj))
  log := h.log
  cid := h.cid
  behind tuple ht := by
    obtain ⟨hpage, hlt⟩ := h.behind tuple ht
    exact ⟨hpage, Nat.lt_succ_of_lt (Nat.lt_of_lt_of_le hlt hi)⟩
  pending p hp := by
    obtain ⟨htid, hplaced, hshows, hd⟩ := hpending p hp
    refine ⟨by rw [htid], by rw [htid]; exact Nat.lt_succ_self i, by rw [htid]; exact hplaced, hshows,
      fun other ho he => ?_, hd⟩
    have hlt := (h.behind other ho).2
    rw [he, htid] at hlt
    exact absurd hi (Nat.not_le_of_lt hlt)

theorem Inv.finish {rounds : Nat} {scan : HeapTableScan} {r : Except Fault Unit} (h : Inv dbg myXid desc s₀ s)
    (hrounds : s.rounds ≤ rounds ∧ rounds ≤ 2 ^ 16) (hr : Completes r) :
    Inv dbg myXid desc s₀ { s with rounds := rounds, scan := scan, pending := none, outcome := some r } := by
  have hcalls := h.count.2
  refine ⟨h.once, ⟨hrounds.2, ?_⟩, fun e he => hr e (Option.some.inj he), nofun⟩
  show s.updated.length + 0 ≤ rounds
  omega

theorem Inv.next {stmt : UpdateStatement} {info : TableInfo} (h : Inv dbg myXid info.descriptor s₀ s)
    (hplan : Planner.planUpdate dbg info stmt = .ok node) (hout : s.outcome = none) (hpending : s.pending = none) :
    Inv dbg myXid info.descriptor s₀ (s.next dbg myXid info.descriptor node) := by
  have hw := h.underWay hout
  obtain ⟨hrounds, hitemid⟩ := hw.rounds
  have hcalls := h.count.2
  rw [hpending] at hcalls
  have hle : s.rounds ≤ s.rounds + 1 ∧ s.rounds + 1 ≤ 2 ^ 16 := ⟨Nat.le_succ _, by omega⟩
  have hview : UpdateRun.view dbg myXid info.descriptor { s with rounds := s.rounds + 1 } =
    s.view dbg myXid info.descriptor := rfl
  unfold UpdateRun.next
  simp only [hview]
  rcases hw.getNext with ⟨scan, hget⟩ | ⟨i, old, hi, hbound, htid, hp, hshows, hd, hget⟩
  · simp only [hget]
    rw [hpending]
    exact h.finish hle (.ok ())
  · have hchange := completes_change hplan hd old.values
    simp only [hget]
    cases hvalues : node.change dbg info.descriptor old.values with
    | error e =>
      simp only [hpending]
      rw [hvalues] at hchange
      exact h.finish hle (.error (hchange e rfl))
    | ok values =>
      have hmore : ∀ pending : Option (HeapTuple Values × Values), (∀ p ∈ pending, p.1 = old) →
          UnderWay dbg myXid info.descriptor s₀
            { s with rounds := s.rounds + 1, scan := { s.scan with tupleId := ⟨0, i + 1⟩ }, pending := pending } :=
        fun pending hold => hw.advance hi hbound fun p hmem => hold p hmem ▸ ⟨htid, hp, hshows, hd⟩
      cases values with
      | none =>
        simp only [hpending]
        refine ⟨h.once, ⟨hle.2, Nat.le_succ_of_le hcalls⟩, h.quiet, fun _ => hmore none nofun⟩
      | some values =>
        refine ⟨h.once, ⟨hle.2, Nat.succ_le_succ hcalls⟩, h.quiet, fun _ => hmore (some (old, values)) fun p hmem =>
          ?_⟩
        cases hmem
        rfl

/-! ## The scan's page changes -/

/-- The place of a new version: the slot of the old one, or a vacant one on its page. -/
def Fits (s : HeapStore) (old newTID : TupleId) (size : Nat) : Prop :=
  (newTID = old ∧ size ≤ (s.item old).length) ∨
  (newTID = ⟨old.pageno, HeapPage.itemsCount (s.page old.pageno)⟩ ∧
    HeapPage.Vacant (s.page old.pageno) (HeapPage.upper (s.page old.pageno) - size) size)

section
variable {s u : HeapStore} {newTID : TupleId} {bytes : List UInt8}

theorem prepareUpdate_fits {t : HeapTable Values} (hp : s.Placed old.tid)
    (hser : t.serialize (t.newHeader values) values = .ok bytes)
    (hroom : bytes.length ≤ (s.item old.tid).length ∨ HeapPage.Vacant (s.page old.tid.pageno)
      (HeapPage.upper (s.page old.tid.pageno) - bytes.length) bytes.length) :
    ∃ newTID, t.prepareUpdate (fun _ => pure ()) old values fuel s = (.ok newTID, s) ∧
    Fits s old.tid newTID bytes.length := by
  have hcheck : HeapTable.checkUnchanged (fun _ => pure ()) old (s.item old.tid).offset s = (.ok (), s) := by
    have hread :
      HeapPage.readHeader (s.page old.tid.pageno) (s.item old.tid).offset = .ok (.ofBytes (s.content old.tid)) :=
      hp.readHeader_eq
    simp only [HeapTable.checkUnchanged, getPage, Fallible.bind_apply, Fallible.ofExcept, hread]
    split <;> rfl
  have hrun : t.prepareUpdate (fun _ => pure ()) old values fuel s = t.findPlace old.tid bytes.length fuel s := by
    unfold HeapTable.prepareUpdate
    rw [Fallible.bind_ok (Fallible.ofExcept_eq_ok.2 ⟨hser, rfl⟩), Fallible.bind_ok (HeapTable.locate_eq hp),
      Fallible.bind_ok hcheck]
  rw [hrun]
  unfold HeapTable.findPlace
  simp only [Fallible.bind_apply, getPage]
  by_cases hfit : bytes.length ≤ (HeapPage.itemAt (s.page old.tid.pageno) old.tid.itemid).length
  · rw [if_pos hfit]
    exact ⟨old.tid, rfl, .inl ⟨rfl, hfit⟩⟩
  · have hvac := hroom.resolve_left hfit
    have hlow := hvac.1
    simp only [ItemId.size] at hlow
    have hfree : bytes.length + ItemId.size ≤ HeapPage.getFreeSpace (s.page old.tid.pageno) := by
      rw [HeapPage.getFreeSpace_eq (by omega)]
      simp only [ItemId.size]
      omega
    rw [if_neg hfit, if_pos hfree]
    exact ⟨_, rfl, .inr ⟨rfl, hvac⟩⟩

theorem Fits.ne (h : Fits s old.tid newTID bytes.length) (hn : newTID ≠ old.tid) :
    newTID = ⟨old.tid.pageno, HeapPage.itemsCount (s.page old.tid.pageno)⟩ ∧
      HeapPage.Vacant (s.page old.tid.pageno) (HeapPage.upper (s.page old.tid.pageno) - bytes.length)
        bytes.length :=
  h.resolve_left fun hin => hn hin.1

theorem Fits.eq (h : Fits s old.tid newTID bytes.length) (hp : s.Placed old.tid) (he : newTID = old.tid) :
    bytes.length ≤ (s.item old.tid).length := by
  rcases h with ⟨-, hfit⟩ | ⟨hnew, -⟩
  · exact hfit
  · rw [he] at hnew
    have hlt := hp.lt
    rw [hnew] at hlt
    exact absurd hlt (Nat.lt_irrefl _)

theorem slotWrite_others {page page' : Memory} {i j : Nat} (ht : HeapPage.Tidy page) (hp : HeapPage.Placed page i)
    (hw : HeapPage.SlotWrite page page' i bytes) (hne : i ≠ j) (hj : HeapPage.Placed page' j) :
    HeapPage.Placed page j ∧ HeapPage.slot page' j = HeapPage.slot page j := by
  have hlt := hj.lt
  rw [HeapPage.itemsCount_congr hw.lower] at hlt
  have hj' : HeapPage.Placed page j := hj.of_items hw.lower.symm (hw.items j hlt).symm
  exact ⟨hj', hw.apart j hj' (ht.apart i j hne hp hj')⟩

/-- What an update leaves of the other slots: a slot that is not as before is the one it has moved the row to. -/
theorem performUpdate_others (ht : ∀ p, HeapPage.Tidy (s.page p)) (hp : s.Placed old.tid)
    (hser : (heapTable dbg tableId myXid desc).serialize ((heapTable dbg tableId myXid desc).newHeader values)
      values = .ok bytes)
    (hfits : Fits s old.tid newTID bytes.length) (hu : (s.undoSize : Int) + 1 ≤ UndoSeqNumber.Max)
    (hx : myXid < 2 ^ 64)
    (h : (heapTable dbg tableId myXid desc).performUpdate old values newTID s = (.ok (), u)) :
    ∃ image, HeapTable.Logged s u (.Update tableId old.tid newTID image) ∧ (∀ p, HeapPage.Tidy (u.page p)) ∧
    u.Placed old.tid ∧
      ∀ r, r ≠ old.tid → u.Placed r → (s.Placed r ∧ u.content r = s.content r) ∨ (newTID ≠ old.tid ∧
        (HeapPageTupleHeader.ofBytes (u.content r)).xid = myXid ∧
        (HeapPageTupleHeader.ofBytes (u.content r)).undo = s.undoSize + 1) := by
  have hsize : ∀ header bytes', (heapTable dbg tableId myXid desc).serialize header values = .ok bytes' →
    bytes'.length = bytes.length :=
    fun header bytes' hser' => (HeapTable.serialize_length hser' hser).1
  obtain ⟨image, himage, hlog, hfills⟩ := HeapTable.performUpdate_fills ht hp
    (fun he header bytes' hser' => by
      rw [hsize header bytes' hser']
      exact hfits.eq hp he)
    (fun hn => by
      obtain ⟨rfl, hvac⟩ := hfits.ne hn
      refine ⟨rfl, fun header bytes' hser' => ?_⟩
      rw [hsize header bytes' hser']
      exact hvac)
    (by simp only [UndoSeqNumber.Max] at hu; omega) hx h
  have hf := hfills (fun _ => False) (fun bytes => (HeapPageTupleHeader.ofBytes bytes).xid = myXid ∧
    (HeapPageTupleHeader.ofBytes bytes).undo = s.undoSize + 1) fun _ h1 h2 => ⟨h1, h2⟩
  refine ⟨image, hlog, hf.tidy, (hf.kept old.tid (fun hfalse => hfalse) hp).1, fun r hr hpr => ?_⟩
  by_cases hn : newTID = old.tid
  · subst hn
    obtain ⟨data, hdata, hbytes⟩ := HeapTable.serialize_bytes hser
    have hfit := hfits.eq hp rfl
    rw [hbytes, List.length_append, HeapPageTupleHeader.toBytes_length] at hfit
    obtain ⟨u', page', hrun, -, hpage, hw⟩ :=
      HeapTable.performUpdate_inPlace (heapTable dbg tableId myXid desc) old hp himage hdata hfit
    rw [h] at hrun
    cases hrun
    left
    unfold HeapStore.Placed HeapStore.content at *
    by_cases hq : r.pageno = old.tid.pageno
    · have hne : old.tid.itemid ≠ r.itemid := by
        intro he
        apply hr
        show TupleId.mk r.pageno r.itemid = ⟨old.tid.pageno, old.tid.itemid⟩
        rw [hq, he]
      rw [hpage, hq, Function.update_self] at hpr ⊢
      exact slotWrite_others (ht _) hp hw hne hpr
    · rw [hpage, Function.update_of_ne hq] at hpr ⊢
      exact ⟨hpr, rfl⟩
  · rcases hf.slots r hpr with hsame | ⟨hxid, hundo⟩
    · exact .inl hsame
    · exact .inr ⟨hn, hxid, hundo⟩

end

theorem logged_mono {s u : HeapStore} {record : HeapUndoRecord} (hlog : HeapTable.Logged s u record)
    (hend : ∀ usn : Int, s.undoSize < usn → s.undo usn = none) :
    (∀ usn record', s.undo usn = some record' → u.undo usn = some record') ∧ s.undoSize + 1 ≤ u.undoSize ∧
      ∀ usn : Int, u.undoSize < usn → u.undo usn = none := by
  have hsize := hlog.undoSize
  refine ⟨fun usn record' h => ?_, by omega, fun usn h => ?_⟩
  · have hne : usn ≠ s.undoSize + 1 := by
      rintro rfl
      rw [hend _ (by omega)] at h
      cases h
    rw [hlog.undo, Function.update_of_ne hne]
    exact h
  · rw [hlog.undo, Function.update_of_ne (by omega)]
    exact hend usn (by omega)

theorem movedTo_mono {s u : HeapStore} {tid : TupleId} (h : MovedTo s myXid snapshot tid)
    (hc : u.content tid = s.content tid) (hlog : ∀ usn record, s.undo usn = some record → u.undo usn = some record)
    (hsize : s.undoSize ≤ u.undoSize) :
    MovedTo u myXid snapshot tid := by
  obtain ⟨table, old, new, image, hrec, hne⟩ := h.record
  obtain ⟨hpos, hle⟩ := h.range
  refine ⟨by rw [hc]; exact h.own, by rw [hc]; exact h.later, by rw [hc]; exact ⟨hpos, by omega⟩, table, old, new,
    image, ?_, hne⟩
  rw [hc]
  exact hlog _ _ hrec

theorem UnderWay.update {u : HeapStore} {newTID : TupleId} {bytes : List UInt8} (h : UnderWay dbg myXid desc s₀ s)
    (hold : InHand dbg myXid desc s₀ s old)
    (hser : (heapTable dbg tableId myXid desc).serialize ((heapTable dbg tableId myXid desc).newHeader values)
      values = .ok bytes)
    (hfits : Fits s.store old.tid newTID bytes.length) (hu : (s.store.undoSize : Int) + 1 ≤ UndoSeqNumber.Max)
    (hx : myXid < 2 ^ 64)
    (hrun : (heapTable dbg tableId myXid desc).performUpdate old values newTID s.store = (.ok (), u)) :
    UnderWay dbg myXid desc s₀ { s with store := u, pending := none, updated := old :: s.updated } := by
  obtain ⟨image, hlogged, htidy, hplaced, hothers⟩ := performUpdate_others h.tidy hold.placed hser hfits hu hx hrun
  obtain ⟨hlog, hsize, hend⟩ := logged_mono hlogged h.log
  have hcid := h.cid
  have hle : s.store.undoSize ≤ u.undoSize := Nat.le_of_succ_le hsize
  have hpage : HeapPage.Placed (u.page 0) old.tid.itemid := hold.pageno ▸ hplaced
  refine ⟨h.snapshot, h.pageno, h.rounds, htidy, fun _ => placed_ends hpage, fun i hi hp => ?_, hend, ?_,
    fun tuple ht => ?_, nofun⟩
  · have hne : (⟨0, i⟩ : TupleId) ≠ old.tid := by
      intro he
      have hlt := hold.itemid
      rw [← he] at hlt
      exact absurd hi (Nat.not_le_of_lt hlt)
    rcases hothers _ hne hp with ⟨hp', hc⟩ | ⟨hn, hxid, hundo⟩
    · rcases h.slots i hi hp' with hmoved | ⟨hin, tuple, htuple, hshows⟩
      · exact .inl (movedTo_mono hmoved hc hlog hle)
      · refine .inr ⟨by rw [hc]; exact hin, tuple, ?_, hshows⟩
        exact itemTuple_mono hp' hp hc hin hlog hle htuple
    · have hrange : (0 : Int) < s.store.undoSize + 1 ∧ (s.store.undoSize : Int) + 1 ≤ u.undoSize := by omega
      refine .inl
        ⟨hxid, by rw [hundo]; exact hcid, by rw [hundo]; exact hrange, tableId, old.tid, newTID, image, ?_, hn⟩
      rw [hundo, hlogged.undo, Function.update_self]
  · show s₀.scan.snapshot.cid ≤ u.undoSize + 1
    omega
  · rcases List.mem_cons.1 ht with rfl | ht
    · exact ⟨hold.pageno, hold.itemid⟩
    · exact h.behind tuple ht

theorem Inv.update (h : Inv dbg myXid desc s₀ s) (hout : s.outcome = none)
    (hpending : s.pending = some (old, values)) (hset : Setting dbg myXid desc s (.update fuel))
    (hroom : Roomy dbg tableId myXid desc s (.update fuel))
    (hx : myXid < 2 ^ 64) :
    Inv dbg myXid desc s₀ (s.update dbg tableId myXid desc old values fuel) := by
  have hw := h.underWay hout
  have hold : InHand dbg myXid desc s₀ s old := hw.pending (old, values) hpending
  have hcalls := h.count.2
  rw [hpending] at hcalls
  have honce : ∀ (store : HeapStore) (outcome : Option (Except Fault Unit)), Once dbg myXid desc s₀
      { s with store := store, pending := none, updated := old :: s.updated, outcome := outcome } := by
    intro store outcome
    refine ⟨List.nodup_cons.2 ⟨fun hmem => ?_, h.once.1⟩, fun tuple ht => ?_⟩
    · obtain ⟨other, ho, he⟩ := List.mem_map.1 hmem
      exact hold.fresh other ho he
    · rcases List.mem_cons.1 ht with rfl | ht
      · exact hold.shows
      · exact h.once.2 tuple ht
  -- a call that fails is the last one
  have hfail : ∀ (store : HeapStore) (e : Fault), e.hangs = false → Inv dbg myXid desc s₀
      { s with store := store, pending := none, updated := old :: s.updated, outcome := some (.error e) } := by
    intro store e he
    refine ⟨honce store _, ⟨h.count.1, hcalls⟩, fun e' he' => ?_, nofun⟩
    cases he'
    exact he
  unfold UpdateRun.update HeapTable.updateTuple
  simp only
  cases hser :
    (heapTable dbg tableId myXid desc).serialize ((heapTable dbg tableId myXid desc).newHeader values) values with
  | error e =>
    have hprep : (heapTable dbg tableId myXid desc).prepareUpdate (fun _ => pure ()) old values fuel s.store =
        (.error e, s.store) := by
      unfold HeapTable.prepareUpdate
      exact Fallible.bind_error (by rw [hser]; rfl)
    rw [Fallible.bind_error hprep]
    exact hfail s.store e (completes_serialize hold.counted _ _ e hser)
  | ok bytes =>
    have hplace := (hroom (old, values) hpending bytes hser).imp_right And.right
    obtain ⟨newTID, hprep, hfits⟩ := prepareUpdate_fits hold.placed hser hplace
    rw [Fallible.bind_ok hprep]
    have hreturns : HeapTable.Returns ((heapTable dbg tableId myXid desc).performUpdate old values newTID) :=
      HeapTable.returns_performUpdate hold.counted
    rcases hrun : (heapTable dbg tableId myXid desc).performUpdate old values newTID s.store with ⟨_ | _, u⟩
    · exact hfail u _ (hreturns.error trivial hrun)
    · exact ⟨honce u _, ⟨h.count.1, hcalls⟩, h.quiet, fun _ => hw.update hold hser hfits hset hx hrun⟩

theorem UnderWay.others {store : HeapStore} {history : Nat → Nat} (h : UnderWay dbg myXid desc s₀ s)
    (hl : Leaves dbg myXid desc s store history) :
    UnderWay dbg myXid desc s₀ { s with store := store, history := history } where
  snapshot := h.snapshot
  pageno := h.pageno
  rounds := h.rounds
  tidy := hl.tidy
  ends := hl.ends
  slots i hi hp := by
    have hslot := hl.slots i hp
    rw [h.snapshot] at hslot
    rcases hslot with ⟨-, hc, hmoved⟩ | ⟨hin, tuple, htuple, rfl | ⟨hp', hbefore⟩⟩
    · exact .inl (movedTo_mono hmoved hc hl.log hl.size)
    · exact .inr ⟨hin, none, htuple, nofun⟩
    · refine .inr ⟨hin, tuple, htuple, ?_⟩
      rcases h.slots i hi hp' with hmoved | ⟨-, tuple', htuple', hshows⟩
      · rw [UpdateRun.view, hmoved.itemTuple_eq hp'] at hbefore
        cases hbefore
        nofun
      · rw [htuple'] at hbefore
        cases hbefore
        exact hshows
  log := hl.fresh
  cid := by
    have hsize := hl.size
    have hcid := h.cid
    show s₀.scan.snapshot.cid ≤ store.undoSize + 1
    omega
  behind := h.behind
  pending p hp := by
    have hold := h.pending p hp
    exact ⟨hold.pageno, hold.itemid, hl.pending p hp, hold.shows, hold.fresh, hold.counted⟩

theorem Inv.step {stmt : UpdateStatement} {info : TableInfo} {op : UpdateOp}
    (h : Inv dbg myXid info.descriptor s₀ s) (hplan : Planner.planUpdate dbg info stmt = .ok node)
    (hx : myXid < 2 ^ 64)
    (hset : Setting dbg myXid info.descriptor s op)
    (hroom : Roomy dbg tableId myXid info.descriptor s op)
    (ht : step dbg tableId myXid info.descriptor node s op = some t) :
    Inv dbg myXid info.descriptor s₀ t := by
  unfold UpdateRun.step at ht
  cases op with
  | next =>
    simp only at ht
    split at ht
    · rename_i hout hpending
      cases ht
      exact h.next hplan hout hpending
    · cases ht
  | update fuel =>
    simp only at ht
    split at ht
    · rename_i hout hpending
      cases ht
      exact h.update hout hpending hset hroom hx
    · cases ht
  | conflict =>
    simp only at ht
    split at ht
    · split_ifs at ht
      cases ht
      exact h.finish ⟨Nat.le_refl _, h.count.1⟩ (.error rfl)
    · cases ht
  | others store history =>
    cases ht
    exact ⟨h.once, h.count, h.quiet, fun hout => (h.underWay hout).others hset⟩

theorem step_isSome (h : s.outcome = none) :
    ∃ op ∈ [UpdateOp.next, .update 0], (step dbg tableId myXid desc node s op).isSome = true := by
  cases hpending : s.pending with
  | none =>
    refine ⟨.next, List.mem_cons_self, ?_⟩
    simp only [UpdateRun.step, h, hpending]
    rfl
  | some p =>
    refine ⟨.update 0, List.mem_cons_of_mem _ List.mem_cons_self, ?_⟩
    simp only [UpdateRun.step, h, hpending]
    rfl

end

end UpdateRun

open UpdateRun in
/-- In every run in which each new version has its place on the page of the old one, each row that was visible at
the start is updated once at most and the execution ends. -/
theorem updates_once {dbg : Bool} {tableId myXid : Nat} {info : TableInfo} {stmt : UpdateStatement}
    {node : UpdateNode} {store : HeapStore} {history : Nat → Nat} {snapshot : Snapshot} {s₀ s : UpdateRun}
    (hplan : Planner.planUpdate dbg info stmt = .ok node) (hx : myXid < 2 ^ 64)
    (hstart : start dbg myXid info.descriptor store history snapshot = .ok s₀)
    (hread : Readable dbg myXid info.descriptor s₀)
    (hr : Reach (step dbg tableId myXid info.descriptor node)
      (fun s op => Setting dbg myXid info.descriptor s op ∧ Roomy dbg tableId myXid info.descriptor s op) s₀ s) :
    Once dbg myXid info.descriptor s₀ s ∧ Terminates dbg tableId myXid info.descriptor node s := by
  have hinv : Inv dbg myXid info.descriptor s₀ s :=
    hr.inv (fun _ _ _ hi hc ht => hi.step hplan hx hc.1 hc.2 ht) (start_inv hstart hread)
  exact ⟨hinv.once, hinv.count.1, Nat.le_of_add_right_le hinv.count.2, hinv.quiet, fun hout => step_isSome hout⟩

/-! ## A page without room -/

section
variable {dbg : Bool} {desc : TupleDescriptor} {header : HeapPageTupleHeader} {values : Values}
  {bytes rest : List UInt8}

theorem IsVersion.contained (h : IsVersion dbg desc header values bytes) (rest : List UInt8) :
    Contained dbg desc (bytes ++ rest) := by
  intro rest₁ rest₂ size
  have hheader := h.ofBytes_eq rest
  obtain ⟨data, hser, rfl⟩ := h.bytes
  obtain ⟨data', hser', hdes⟩ := TupleSerializer.deserialize_serialize h.typed
  rw [hser] at hser'
  cases hser'
  rw [hheader, h.flags, List.append_assoc, List.drop_left' header.toBytes_length, List.append_assoc,
    List.append_assoc, hdes, hdes]

theorem itemTuple_of_version {s : HeapStore} {tid : TupleId} {history : Nat → Nat} {reader : Nat}
    {snapshot : Snapshot} (hp : s.Placed tid) (hv : IsVersion dbg desc header values bytes)
    (hc : s.content tid = bytes ++ rest) (hx : header.xid ≠ reader)
    (hfrozen : history header.xid = CommitSeqNumber.Frozen) :
    (s.view dbg desc history reader).itemTuple snapshot tid.pageno tid.itemid =
    .ok (some ⟨header, values, tid⟩) := by
  have hvisible : (s.view dbg desc history reader).tupleIsVisible snapshot header = .ok true := by
    rw [tupleIsVisible_other hx (by rw [hfrozen]; decide), hfrozen]
    rfl
  rw [itemTuple_eq hp, hc, hv.ofBytes_eq, hvisible]
  show (if header.flags.Deleted then Except.ok none
    else some <$> (s.view dbg desc history reader).slotTuple tid) = _
  rw [hv.flags, HeapStore.slotTuple_of_version hp hv hc]
  rfl

/-- `INSERT INTO tbl VALUES (NULL, 1)` by a frozen transaction. -/
def nullRow : List UInt8 :=
  HeapPageTupleHeader.toBytes ⟨TransactionId.Min, UndoSeqNumber.Invalid, ⟨false, true⟩⟩ ++ [2, 1, 0]

theorem nullRow_isVersion (dbg : Bool) : IsVersion dbg setupDatabase.descriptor
    ⟨TransactionId.Min, UndoSeqNumber.Invalid, ⟨false, true⟩⟩ [none, some (.scalar 1)] nullRow := by
  have hfits : ∀ d : Datum, some (.scalar 1) = some d → TupleSerializer.Fits dbg ⟨2, true⟩ d := by
    intro d hd
    cases hd
    exact ⟨rfl, 2, rfl, by decide, by decide⟩
  refine ⟨⟨by decide, by decide⟩, rfl, ⟨by decide, .cons (fun d hd => by cases hd) (.cons hfits .nil)⟩, [2, 1, 0],
    ?_, rfl⟩
  cases dbg <;> decide +kernel

end

/-- As many such rows as the page has room for. -/
def fullPage : Memory := fun addr =>
  if addr < HeapPage.SizeOfHeapPageHeader then (encodeLE 8 0 ++ encodeLE 2 920 ++ encodeLE 2 928).getD addr 0
  else if addr < 920 then
    (encodeLE 4 (ItemId.toWord ⟨ItemState.Normal, 8192 - 32 * ((addr - 12) / 4 + 1), 27⟩)).getD ((addr - 12) % 4) 0
  else if addr < 928 then 0
  else nullRow.getD ((addr - 928) % 32) 0

theorem fullPage_ends :
    HeapPage.lower fullPage = 920 ∧ HeapPage.upper fullPage = 928 ∧ HeapPage.itemsCount fullPage = 227 := by
  decide +kernel

theorem fullPage_item : ∀ i < 227, HeapPage.itemAt fullPage i = ⟨ItemState.Normal, 8192 - 32 * (i + 1), 27⟩ := by
  decide +kernel

theorem fullPage_slot {i : Nat} (h : i < 227) : HeapPage.slot fullPage i = nullRow := by
  have hlen : nullRow.length = 27 := rfl
  unfold HeapPage.slot
  rw [fullPage_item i h, ← hlen]
  have hrow :
    ((fullPage.blit (8192 - 32 * (i + 1)) nullRow).slice (8192 - 32 * (i + 1)) nullRow.length) = nullRow :=
    Memory.slice_blit_same
  refine (Memory.slice_congr fun addr hlo hhi => ?_).trans hrow
  simp only at hlo hhi
  rw [hlen] at hhi
  -- the rows lie 32 bytes apart
  have hoff : (addr - 928) % 32 = addr - (8192 - 32 * (i + 1)) := by omega
  have hheader : ¬ addr < HeapPage.SizeOfHeapPageHeader := by
    unfold HeapPage.SizeOfHeapPageHeader
    omega
  unfold Memory.blit
  rw [if_pos (by omega), fullPage, if_neg hheader, if_neg (by omega), if_neg (by omega), hoff,
    List.getD_eq_getElem?_getD,
    List.getElem?_eq_getElem (show addr - (8192 - 32 * (i + 1)) < nullRow.length by omega)]
  rfl

theorem fullPage_placed {i : Nat} (h : i < 227) : HeapPage.Placed fullPage i := by
  obtain ⟨hlower, -, hcount⟩ := fullPage_ends
  have hitem := fullPage_item i h
  constructor
  · rw [hlower]; decide
  · rw [hcount]; exact h
  · rw [hitem]; rfl
  · rw [hitem, hlower]; simp only; omega
  · rw [hitem]; simp only [HeapPage.sizeofHeapPageHeader]; omega
  · rw [hitem]; simp only [HeapPageTupleHeader.size]; omega
  · rw [hitem]; simp only [Config.PageSize]; omega

theorem fullPage_tidy : HeapPage.Tidy fullPage := by
  obtain ⟨hlower, hupper, hcount⟩ := fullPage_ends
  refine ⟨by rw [hupper]; decide, fun _ => by rw [hlower]; decide, fun i hi _ => fullPage_placed (hcount ▸ hi),
    fun i j hne hi hj => ?_⟩
  have hi' := hi.lt
  have hj' := hj.lt
  rw [hcount] at hi' hj'
  unfold HeapPage.Apart
  rw [fullPage_item i hi', fullPage_item j hj']
  simp only
  omega

def fullTable : HeapStore where
  size := Config.PageSize
  page p := if p = 0 then fullPage else fun _ => 0
  dirty _ := false
  undoSize := 0
  undo _ := none
  walEnd := 0
  wal := []

/-- `UPDATE tbl SET colname = 5 WHERE b = 1`. -/
def setFive (colname : String) : UpdateStatement :=
  ⟨[(colname, .literalInt 5)], some (.operator .Equals (.columnRef "b") (.literalInt 1))⟩

/-- Its plan for the column with the number. -/
def setFiveNode (attno : Nat) : UpdateNode :=
  ⟨.function ⟨int32Eq, true, 2⟩ (.attr 2) (.constant (some (.scalar 1))), [(attno, .constant (some (.scalar 5)))]⟩

namespace UpdateRun

def fullStart : UpdateRun :=
  ⟨fullTable, fun _ => CommitSeqNumber.Frozen, ⟨⟨0, 0⟩, 1, ⟨CommitSeqNumber.Min, 0⟩, false⟩, none, [], 0, none⟩

theorem fullStart_eq (dbg : Bool) : start dbg 3 setupDatabase.descriptor fullTable (fun _ => CommitSeqNumber.Frozen)
    ⟨CommitSeqNumber.Min, 0⟩ = .ok fullStart := by
  cases dbg <;> rfl

theorem fullStart_readable (dbg : Bool) : Readable dbg 3 setupDatabase.descriptor fullStart := by
  obtain ⟨hlower, -, hcount⟩ := fullPage_ends
  have hcid : (0 : Int) ≤ (0 : Nat) + 1 := by omega
  refine ⟨fun p => ?_, fun _ => ?_, fun i hp => ?_, fun _ _ => rfl, hcid⟩
  · show HeapPage.Tidy (if p = 0 then fullPage else fun _ => 0)
    split
    · exact fullPage_tidy
    · exact HeapPage.tidy_zero
  · show HeapPage.SizeOfHeapPageHeader ≤ HeapPage.lower fullPage ∧ HeapPage.lower fullPage ≤ Config.PageSize
    rw [hlower]
    decide
  · have hlt : i < 227 := hcount ▸ hp.lt
    have hc : fullTable.content ⟨0, i⟩ = nullRow ++ [] := (fullPage_slot hlt).trans (List.append_nil _).symm
    have hv := nullRow_isVersion dbg
    have hread : (fullTable.view dbg setupDatabase.descriptor (fun _ => CommitSeqNumber.Frozen) 3).itemTuple
      ⟨CommitSeqNumber.Min, 0⟩ 0 i =
        .ok (some ⟨⟨TransactionId.Min, UndoSeqNumber.Invalid, ⟨false, true⟩⟩, [none, some (.scalar 1)], ⟨0, i⟩⟩) :=
      itemTuple_of_version hp hv hc (by decide) rfl
    refine ⟨?_, _, hread, fun t ht => ?_⟩
    · show Contained dbg setupDatabase.descriptor (fullTable.content ⟨0, i⟩)
      rw [hc]
      exact hv.contained []
    · cases ht
      rfl

theorem setFive_planned : Planner.planUpdate true setupDatabase (setFive "b") = .ok (setFiveNode 2) ∧
    Planner.planUpdate true setupDatabase (setFive "a") = .ok (setFiveNode 1) := ⟨rfl, rfl⟩

/-- The first row, to which both statements apply. -/
def firstNullRow : HeapTuple Values :=
  ⟨⟨TransactionId.Min, UndoSeqNumber.Invalid, ⟨false, true⟩⟩, [none, some (.scalar 1)], ⟨0, 0⟩⟩

theorem next_store (s : UpdateRun) (dbg : Bool) (myXid : Nat) (desc : TupleDescriptor) (node : UpdateNode) :
    (s.next dbg myXid desc node).store = s.store := by
  unfold UpdateRun.next
  simp only
  split
  · rfl
  · rfl
  · split <;> rfl

theorem update_updated (s : UpdateRun) (dbg : Bool) (tableId myXid : Nat) (desc : TupleDescriptor)
    (old : HeapTuple Values) (values : Values) (fuel : Nat) :
    (s.update dbg tableId myXid desc old values fuel).updated = old :: s.updated := by
  unfold UpdateRun.update
  simp only
  split <;> rfl

/-- `UPDATE tbl SET b = 5 WHERE b = 1` comes to its first row. -/
theorem fullStart_next : (fullStart.next true 3 setupDatabase.descriptor (setFiveNode 2)).outcome.isNone = true ∧
    (fullStart.next true 3 setupDatabase.descriptor (setFiveNode 2)).pending =
    some (firstNullRow, [none, some (.scalar 5)]) := by
  decide +kernel

/-- The new version of the first row fits in its slot. -/
theorem updates_once_in_place : ∃ s, Reach (step true 1 3 setupDatabase.descriptor (setFiveNode 2))
    (fun s op => Setting true 3 setupDatabase.descriptor s op ∧ Roomy true 1 3 setupDatabase.descriptor s op)
      fullStart s ∧
    s.updated = [firstNullRow] ∧ Once true 3 setupDatabase.descriptor fullStart s ∧
    Terminates true 1 3 setupDatabase.descriptor (setFiveNode 2) s := by
  obtain ⟨hout, hpending⟩ := fullStart_next
  have hstore := next_store fullStart true 3 setupDatabase.descriptor (setFiveNode 2)
  have hupdated : (fullStart.next true 3 setupDatabase.descriptor (setFiveNode 2)).updated = [] := by decide +kernel
  generalize hs :
    fullStart.next true 3 setupDatabase.descriptor (setFiveNode 2) = s at hout hpending hstore hupdated
  have hnext : step true 1 3 setupDatabase.descriptor (setFiveNode 2) fullStart .next = some s := by
    rw [← hs]
    rfl
  have hupdate : step true 1 3 setupDatabase.descriptor (setFiveNode 2) s (.update 0) =
      some (s.update true 1 3 setupDatabase.descriptor firstNullRow [none, some (.scalar 5)] 0) := by
    simp only [UpdateRun.step, Option.isNone_iff_eq_none.1 hout, hpending]
  have hset : Setting true 3 setupDatabase.descriptor s (.update 0) := by
    show (s.store.undoSize : Int) + 1 ≤ UndoSeqNumber.Max
    rw [hstore]
    decide
  have hroom : Roomy true 1 3 setupDatabase.descriptor s (.update 0) := by
    intro p hp bytes hser
    rw [hpending] at hp
    cases hp
    have hlen : ((heapTable true 1 3 setupDatabase.descriptor).serialize
      ((heapTable true 1 3 setupDatabase.descriptor).newHeader
        [none, some (.scalar 5)]) [none, some (.scalar 5)]).toOption.map List.length = some 27 := by decide +kernel
    have hitem : (s.store.item ⟨0, 0⟩).length = 27 := by
      rw [hstore]
      exact congrArg ItemId.length (fullPage_item 0 (by decide))
    rw [hser] at hlen
    have hbytes : bytes.length = 27 := Option.some.inj hlen
    left
    show bytes.length ≤ (s.store.item ⟨0, 0⟩).length
    rw [hbytes, hitem]
  have hr :=
    (Reach.refl.tail (C := fun s op => Setting true 3 setupDatabase.descriptor s op ∧
      Roomy true 1 3 setupDatabase.descriptor s op)
    UpdateOp.next ⟨trivial, trivial⟩ hnext).tail (.update 0) ⟨hset, hroom⟩ hupdate
  obtain ⟨honce, hends⟩ :=
    updates_once setFive_planned.1 (by decide) (fullStart_eq true) (fullStart_readable true) hr
  exact ⟨_, hr, by rw [update_updated, hupdated], honce, hends⟩

/-- `UPDATE tbl SET a = 5 WHERE b = 1` waits for its own latch. -/
theorem full_page_deadlock :
    ∃ s, Reach (step true 1 3 setupDatabase.descriptor (setFiveNode 1)) anyStep fullStart s ∧
    s.updated = [firstNullRow] ∧ s.outcome = some (.error .deadlock) ∧
    ¬ Terminates true 1 3 setupDatabase.descriptor (setFiveNode 1) s := by
  have h : (exec (step true 1 3 setupDatabase.descriptor (setFiveNode 1)) fullStart [.next, .update 1]).map
      (fun s => s.updated == [firstNullRow] && decide (s.outcome = some (.error .deadlock))) = some true := by
    decide +kernel
  obtain ⟨s, hr, hs⟩ := reach_of_test h
  rw [Bool.and_eq_true, beq_iff_eq] at hs
  obtain ⟨hupdated, hout⟩ := hs
  have hdeadlock : s.outcome = some (.error .deadlock) := of_decide_eq_true hout
  exact ⟨s, hr, hupdated, hdeadlock, fun hends => absurd (hends.2.2.1 _ hdeadlock) (by decide)⟩

end UpdateRun

end Mimidb
