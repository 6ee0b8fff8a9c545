import Mimidb.ByteRefinement

/-!
# Repeated reads

From the begin of a statement on, a transaction reads for each slot the one
value that its statement found, whatever the other workers do, for as long as it
does not write the slot itself.
-/

namespace Mimidb

namespace RowRun

open TransManager

variable {W V : Type} {s t : RowRun W V} {st : Stacks V} {w : W} {tr : Transaction} {x : Nat}
  {σ : SnapshotStore Nat TupleId V} {b : SnapshotStore.Active TupleId V} {tid : TupleId}

/-! ## Numbers of transactions -/

section
variable [DecidableEq W] [DecidableEq V]

theorem xid_le {a : W × RowOp V} (hi : s.tm.TransInv) (hw : s.noWrap a) (ht : s.step a = some t) :
    s.tm.xid ≤ t.tm.xid := by
  obtain ⟨w, op⟩ := a
  rcases (step_frame ht).1 with htm | ⟨o, htm⟩
  · rw [htm]
  · exact xid_step hi hw.1 htm

end

/-! ## Statements -/

theorem mem_ofWorker {y : Nat} {op o : SnapshotStore.Op TupleId V} (h : (y, o) ∈ s.ofWorker w op) :
    o = op ∧ ∃ tr, s.tm.transactions w = some tr ∧ y = tr.xid := by
  unfold ofWorker at h
  rw [Option.mem_toList] at h
  obtain ⟨tr, htr, he⟩ := Option.map_eq_some_iff.1 h
  cases he
  exact ⟨rfl, tr, htr, rfl⟩

theorem begin_mem {a : W × RowOp V} {y : Nat} (h : (y, .begin) ∈ s.storeOps a) : y = s.tm.xid := by
  obtain ⟨w, op⟩ := a
  have hno : ∀ {op : SnapshotStore.Op TupleId V}, op ≠ .begin → (y, .begin) ∉ s.ofWorker w op := fun hne hm =>
    hne (mem_ofWorker hm).1.symm
  cases op with
  | trans op =>
    cases op with
    | beginNewTransaction => simpa [storeOps] using h
    | beginNewStatement => exact absurd h (hno (by simp))
    | run =>
      simp only [storeOps] at h
      split at h
      · exact absurd h (hno (by simp))
      · cases h
    | abort =>
      simp only [storeOps] at h
      split_ifs at h
      · cases h
      · exact absurd h (hno (by simp))
    | _ => cases h
  | insert tid values usn => exact absurd h (hno (by simp))
  | change tuple change usn =>
    simp only [storeOps] at h
    split_ifs at h
    · exact absurd h (hno (by simp))
    · cases h
  | resume usn =>
    simp only [storeOps] at h
    split at h
    · exact absurd h (hno (by simp))
    · cases h
  | undo =>
    simp only [storeOps] at h
    split_ifs at h
    · cases h
    · exact absurd h (hno (by simp))
  | _ => cases h

/-- Transaction `x` reads for the slot what `b` reads behind `log`. -/
structure Steady (s : RowRun W V) (x : Nat) (tid : TupleId) (b : SnapshotStore.Active TupleId V)
    (log : List (SnapshotStore.Entry Nat TupleId V)) : Prop where
  sim : ∃ st σ, RowInv s st ∧ Sim s st σ ∧ σ.Holds x tid b log
  begun : x < s.tm.xid

variable [DecidableEq W] [DecidableEq V] {log : List (SnapshotStore.Entry Nat TupleId V)}

theorem Steady.step {a : W × RowOp V} (h : Steady s x tid b log) (hb : b.start ≠ none)
    (hc : (s.Served a ∧ s.Unovertaken a) ∧ s.noWrap a) (hwrite : ∀ v, (x, .write tid v) ∉ s.storeOps a)
    (ht : s.step a = some t) :
    Steady t x tid b log := by
  obtain ⟨⟨st, σ, hinv, hsim, hholds⟩, hbegun⟩ := h
  obtain ⟨st', σ', hσ, hinv', hsim'⟩ := hsim.step hinv hc ht
  have hbegin : (x, .begin) ∉ s.storeOps a := fun hm => by
    have := begin_mem hm
    omega
  exact ⟨⟨st', σ', hinv', hsim', hholds.exec hb hbegin hwrite hσ⟩,
    Nat.lt_of_lt_of_le hbegun (xid_le hinv.trans hc.2 ht)⟩

omit [DecidableEq W] [DecidableEq V] in
theorem Steady.read {n : Nat} {S : Snapshot} {res : Option (RowTuple V)} (h : Steady s tr.xid tid b log)
    (hn : b.start = some n) (hle : n ≤ log.length) (hs : s.tm.transactions w = some tr) (hidle : s.tm.pc w = .idle)
    (hab : s.aborting tr.xid = false)
    (hS : tr.snapshot = some S) (hscan : s.scanSlot tr.xid S tid = some res) :
    res.map (fun tuple => tuple.version.values) = b.read log tid := by
  obtain ⟨⟨st, σ, hinv, hsim, hholds⟩, -⟩ := h
  obtain ⟨c, hc, -⟩ := hsim.running w tr hs hab (not_commits hinv.trans hs hidle)
  obtain ⟨-, hnow, -⟩ := hholds.active c hc
  rw [hsim.reads hinv hs hidle hab hS hc hnow hscan, hholds.read hn hle hc]

/-- What a transaction reads once a statement has begun. -/
theorem statement_steady (hinv : RowInv s st) (h : Sim s st σ) (hstore : SnapshotStore.StoreInv σ)
    (hw : s.noWrap (w, .trans .beginNewStatement)) (ht : s.step (w, .trans .beginNewStatement) = some t)
    (htr : t.tm.transactions w = some tr) :
    ∃ b n log, b.start = some n ∧ n ≤ log.length ∧ ∀ tid, Steady t tr.xid tid b log := by
  obtain ⟨st', σ', hσ, hinv', h'⟩ := h.step (a := (w, .trans .beginNewStatement)) hinv ⟨⟨trivial, trivial⟩, hw⟩ ht
  obtain ⟨-, tm, htm, rfl⟩ := trans_inv (by simp) ht
  cases hs : s.tm.transactions w with
  | none => simp [TransManager.step, hs] at htm
  | some tr₀ =>
    have hx : tr.xid = tr₀.xid := by
      simp only [TransManager.step, hs] at htm
      split_ifs at htm
      cases htm
      obtain rfl : tr₀.beginNewStatement s.tm.csn = tr := by simpa [handled] using htr
      unfold Transaction.beginNewStatement
      split
      · rfl
      · split <;> rfl
    rw [storeOps, exec_ofWorker hs] at hσ
    obtain ⟨b, hb, rfl⟩ := Option.map_eq_some_iff.1 hσ
    refine ⟨⟨some (b.start.getD σ.commits.length), b.own, fun _ => none⟩, _, σ.commits, rfl, ?_,
      fun tid => ⟨⟨st', _, hinv', h', ?_⟩, ?_⟩⟩
    · cases hstart : b.start with
      | none => exact Nat.le_refl _
      | some n => exact hstore.start _ b n hb hstart
    · refine ⟨⟨[], by simp⟩, fun c hc => ?_⟩
      rw [hx] at hc
      obtain rfl := Option.some.inj ((Function.update_self (β := fun _ => Option _) ..).symm.trans hc)
      exact ⟨rfl, rfl, rfl⟩
    · exact hinv'.trans.xids w tr htr

end RowRun

namespace ByteRun

open HeapStore TransManager

variable {W : Type} {dbg : Bool} {tableId : Nat} {desc : TupleDescriptor} {s t : ByteRun W} {r : RowRun W Values}
  {w : W} {tid : TupleId}
  {tr : Transaction} {x : Nat}

/-! ## Slots that are written -/

def byWorker (s : ByteRun W) (w : W) (tid : TupleId) : List (Nat × TupleId) :=
  ((s.tm.transactions w).map fun tr => (tr.xid, tid)).toList

/-- The slots that a step writes, with the transaction that does. -/
def writes (dbg : Bool) (s : ByteRun W) : W × ByteOp → List (Nat × TupleId)
  | (w, .insert _ pageno) => s.byWorker w ⟨pageno, HeapPage.itemsCount (s.store.page pageno)⟩
  | (w, .change tuple _) => if s.pageXid dbg tuple.tid = some tuple.header.xid then s.byWorker w tuple.tid else []
  | (w, .resume) => match s.calls w with
    | some call => s.byWorker w call.tuple.tid
    | none => []
  | _ => []

theorem Rows.mem_byWorker {v v' : Option Values} {k : TupleId} (h : Rows dbg desc s r)
    (hm : (x, .write tid v) ∈ r.ofWorker w (.write k v')) : (x, tid) ∈ s.byWorker w k := by
  obtain ⟨e, tr, htr, rfl⟩ := RowRun.mem_ofWorker hm
  cases e
  simp [byWorker, ← h.tm, htr]

theorem Rows.pageXid (h : Rows dbg desc s r) {page : RowVersion Values} (hslot : r.slots tid = some page) :
    s.pageXid dbg tid = some page.xid := by
  obtain ⟨hp, -⟩ := h.pages.slot tid page hslot
  obtain ⟨page', hpage', hxid, -⟩ := h.page hp
  obtain rfl := Option.some.inj (hpage'.symm.trans hslot)
  exact hxid

theorem Rows.write_mem {a : W × ByteOp} {b : W × RowOp Values} {v : Option Values} (h : Rows dbg desc s r)
    (hb : b ∈ s.rowOps dbg desc a) (hm : (x, .write tid v) ∈ r.storeOps b) : (x, tid) ∈ s.writes dbg a := by
  obtain ⟨w, op⟩ := a
  have hno : ∀ {op : SnapshotStore.Op TupleId Values}, (∀ v, op ≠ .write tid v) →
    (x, .write tid v) ∉ r.ofWorker w op := fun hne hm =>
    hne v (RowRun.mem_ofWorker hm).1.symm
  cases op with
  | trans op =>
    obtain rfl := List.mem_singleton.1 hb
    cases op with
    | beginNewTransaction => simp [RowRun.storeOps] at hm
    | beginNewStatement => exact absurd hm (hno (by simp))
    | run =>
      simp only [RowRun.storeOps] at hm
      split at hm
      · exact absurd hm (hno (by simp))
      · cases hm
    | abort =>
      simp only [RowRun.storeOps] at hm
      split_ifs at hm
      · cases hm
      · exact absurd hm (hno (by simp))
    | _ => cases hm
  | insert values pageno =>
    obtain rfl := List.mem_singleton.1 hb
    exact h.mem_byWorker hm
  | change tuple change =>
    obtain rfl := List.mem_singleton.1 hb
    simp only [RowRun.storeOps] at hm
    split_ifs at hm with hx
    · obtain ⟨page, hpage, hxid⟩ := Option.map_eq_some_iff.1 hx
      have hpx : s.pageXid dbg tuple.tid = some tuple.header.xid := (h.pageXid hpage).trans (congrArg some hxid)
      simp only [writes, if_pos hpx]
      exact h.mem_byWorker hm
    · cases hm
  | resume =>
    obtain rfl := List.mem_singleton.1 hb
    simp only [RowRun.storeOps, h.calls] at hm
    cases hcall : s.calls w with
    | none => simp [hcall] at hm
    | some call =>
      simp only [hcall, Option.map_some] at hm
      simp only [writes, hcall]
      exact h.mem_byWorker hm
  | undo =>
    obtain rfl := List.mem_singleton.1 hb
    simp only [RowRun.storeOps] at hm
    split_ifs at hm
    · cases hm
    · exact absurd hm (hno (by simp))
  | extend => cases hb
  | others bytes => cases hb
  | evict pageno => cases hb
  | _ =>
    obtain rfl := List.mem_singleton.1 hb
    cases hm

theorem rowOps_cases (s : ByteRun W) (a : W × ByteOp) :
    s.rowOps dbg desc a = [] ∨ ∃ b, s.rowOps dbg desc a = [b] := by
  obtain ⟨w, op⟩ := a
  cases op with
  | extend | others bytes | evict pageno => exact .inl rfl
  | _ => exact .inr ⟨_, rfl⟩

/-! ## Runs -/

variable [DecidableEq W] {b : SnapshotStore.Active TupleId Values}
  {log : List (SnapshotStore.Entry Nat TupleId Values)}

theorem Rows.steady {a : W × ByteOp} (h : Rows dbg desc s r) (hsteady : RowRun.Steady r x tid b log)
    (hb : b.start ≠ none) (hc : (s.Sheltered dbg tableId desc a ∧ s.noWrap a) ∧ (x, tid) ∉ s.writes dbg a)
    (ht : s.step dbg tableId desc a = some t) :
    ∃ r', Rows dbg desc t r' ∧ RowRun.Steady r' x tid b log := by
  obtain ⟨st, σ, hinv, -⟩ := hsteady.sim
  obtain ⟨r', hr', hrows⟩ := h.step hinv hc.1 ht
  refine ⟨r', hrows, ?_⟩
  rcases rowOps_cases s a with hops | ⟨o, hops⟩
  · rw [hops] at hr'
    cases hr'
    exact hsteady
  · rw [hops] at hr'
    cases hr' with
    | cons ho hstep hrest =>
      cases hrest
      exact hsteady.step hb ho (fun v hm => hc.2 (h.write_mem (by simp [hops]) hm)) hstep

/-- From the begin of a statement on, the scans of a transaction decode one value for each
slot, until the transaction writes there. -/
theorem reads_repeat {as : List (W × ByteOp)}
    (hrun : Steps (step dbg tableId desc) (fun s a => s.Sheltered dbg tableId desc a ∧ s.noWrap a) init
      (as ++ [(w, .trans .beginNewStatement)]) s) (htr : s.tm.transactions w = some tr) :
    ∃ read : TupleId → Option Values, ∀ bs t tr' S tid found,
      Steps (step dbg tableId desc) (fun s a => s.Sheltered dbg tableId desc a ∧ s.noWrap a) s bs t →
      t.tm.transactions w = some tr' → tr'.xid = tr.xid → t.tm.pc w = .idle → t.aborting tr.xid = false →
      tr'.snapshot = some S →
      (tr.xid, tid) ∉ traceOf (step dbg tableId desc) (writes dbg) s bs →
      tid.itemid < HeapPage.itemsCount (t.store.page tid.pageno) → t.scanSlot dbg desc tr.xid S tid = .ok found →
      found.map (fun tuple => tuple.values) = read tid := by
  obtain ⟨s₀, hbefore, hlast⟩ := hrun.split
  obtain ⟨r₀, hr₀, hrows₀⟩ := Rows.run hbefore
  obtain ⟨st, σ, hσ, hinv, hsim⟩ := RowRun.Sim.run .init .init hr₀.exec_guarded
  have hstore : SnapshotStore.StoreInv σ := (reach_of_exec hσ).inv (fun _ _ _ hi _ ht => hi.step ht) .init
  cases hlast with
  | cons hc hstep hnil =>
    cases hnil
    obtain ⟨r, hr, hrows⟩ := hrows₀.trans hstep
    have hw : r₀.noWrap (w, .trans .beginNewStatement) := by
      refine ⟨?_, trivial⟩
      rw [hrows₀.tm]
      exact hc.2.1
    obtain ⟨b, n, log, hn, hle, hsteady⟩ := RowRun.statement_steady hinv hsim hstore hw hr (hrows.tm ▸ htr)
    refine ⟨fun tid => b.read log tid, fun bs t tr' S tid found hbs htr' hx hidle hab hS hno hlt hfound => ?_⟩
    have hkept :=
      (hbs.avoid hno).reach.inv (I := fun s => ∃ r, Rows dbg desc s r ∧ RowRun.Steady r tr.xid tid b log)
      (fun s a t hi hc ht => by
        obtain ⟨r, hrows, hsteady⟩ := hi
        exact hrows.steady hsteady (by simp [hn]) hc ht) ⟨r, hrows, hsteady tid⟩
    obtain ⟨r', hrows', hsteady'⟩ := hkept
    rw [← hx] at hab hfound hsteady'
    rw [← hrows'.tm] at htr' hidle
    rw [← hrows'.aborting] at hab
    obtain ⟨hscan, -⟩ := hrows'.scanSlot hlt hfound
    have hread := hsteady'.read hn hle htr' hidle hab hS hscan
    rw [Option.map_map] at hread
    exact hread

/-- Worker 2 begins its statement before worker 1 changes the byte and commits. -/
theorem reads_repeat_two : ∃ (s t : ByteRun (Fin 4)) (read : TupleId → Option Values),
    Steps (step true 1 byteDesc) (fun s a => s.Sheltered true 1 byteDesc a ∧ s.noWrap a) init
      (byteTrace.take 15 ++ [(2, .trans .beginNewStatement)]) s ∧
    Steps (step true 1 byteDesc) (fun s a => s.Sheltered true 1 byteDesc a ∧ s.noWrap a) s (byteTrace.drop 16) t ∧
    s.pageXid true ⟨0, 0⟩ = some 1 ∧ t.pageXid true ⟨0, 0⟩ = some 2 ∧ some [some (.scalar 7)] = read ⟨0, 0⟩ := by
  have h : ((exec (guarded (fun s a => tame true 1 byteDesc s a = true) (step true 1 byteDesc)) init
      (byteTrace.take 15 ++ [(2, .trans .beginNewStatement)])).bind fun s =>
        (exec (guarded (fun s a => tame true 1 byteDesc s a = true) (step true 1 byteDesc)) s
          (byteTrace.drop 16)).map fun t => (s, t)).map
      (fun p =>
        decide ((p.1.tm.transactions 2 = some ⟨3, .RUNNING, some ⟨6, 0⟩, none⟩ ∧ p.1.pageXid true ⟨0, 0⟩ = some 1) ∧
        (p.2.tm.transactions 2 = some ⟨3, .RUNNING, some ⟨6, 0⟩, none⟩ ∧ p.2.tm.pc 2 = .idle ∧
          p.2.aborting 3 = false ∧
          p.2.pageXid true ⟨0, 0⟩ = some 2) ∧
        (3, (⟨0, 0⟩ : TupleId)) ∉ traceOf (step true 1 byteDesc) (writes true) p.1 (byteTrace.drop 16) ∧
        0 < HeapPage.itemsCount (p.2.store.page 0) ∧
        p.2.scanSlot true byteDesc 3 ⟨6, 0⟩ ⟨0, 0⟩ = .ok (some byteTuple))) = some true := by
    decide +kernel
  obtain ⟨⟨s, t⟩, hp, htest⟩ := Option.map_eq_some_iff.1 h
  obtain ⟨s', hs, hp⟩ := Option.bind_eq_some_iff.1 hp
  obtain ⟨t', ht, he⟩ := Option.map_eq_some_iff.1 hp
  cases he
  obtain ⟨⟨htr, hbefore⟩, ⟨htr', hidle, hab, hafter⟩, hno, hlt, hscan⟩ := of_decide_eq_true htest
  have hrun := (Steps.of_guarded hs).mono fun _ _ => sheltered_of_tame
  have hlater := (Steps.of_guarded ht).mono fun _ _ => sheltered_of_tame
  obtain ⟨read, hread⟩ := reads_repeat hrun htr
  exact ⟨s, t, read, hrun, hlater, hbefore, hafter, hread _ t _ _ _ _ hlater htr' rfl hidle hab rfl hno hlt hscan⟩

end ByteRun

end Mimidb
