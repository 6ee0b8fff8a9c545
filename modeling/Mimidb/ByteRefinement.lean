import Mimidb.ByteWrites
import Mimidb.Simulation
import Mimidb.SnapshotRefinement

/-!
# Bytes as rows

A run on the bytes of pages and undo records is a run of rows, and so one of a
store under snapshot isolation: a scan decodes for a slot what the store has
there.
-/

namespace Mimidb

open HeapStore TransManager

namespace ByteRun

variable {W : Type} {dbg : Bool} {tableId : Nat} {desc : TupleDescriptor} {s t : ByteRun W} {r : RowRun W Values}
  {st : RowRun.Stacks Values} {w : W}
  {tid : TupleId} {tuple : HeapTuple Values} {change : ByteChange} {tr : Transaction}

theorem Rows.init : Rows dbg desc (init : ByteRun W) RowRun.init where
  tm := rfl
  log := rfl
  aborting := rfl
  visited := rfl
  scanned _ := rfl
  calls _ := rfl
  dead _ := rfl
  pages := {
    tidy := fun _ => HeapPage.tidy_zero
    slot := fun _ _ h => by cases h
    vacant := fun _ _ hp => HeapPage.not_placed_zero hp
    beyond := fun _ hp => (HeapPage.not_placed_zero hp).elim
    record := fun _ => .none
    range := fun _ _ h => by cases h }
  held _ _ h := by cases h

theorem Rows.calls_none (h : Rows dbg desc s r) (hc : s.calls w = none) : r.calls w = none := by
  rw [h.calls, hc]
  rfl

theorem mem_tuples :
    tuple ∈ s.tuples w ↔ (∃ call, s.calls w = some call ∧ call.tuple = tuple) ∨ tuple ∈ s.scanned w := by
  simp [tuples]

theorem Rows.page (h : Rows dbg desc s r) (hp : s.store.Placed tid) :
    ∃ page, r.slots tid = some page ∧ s.pageXid dbg tid = some page.xid ∧
    Shows dbg desc (s.store.content tid) page := by
  cases hslot : r.slots tid with
  | none => exact absurd hp (h.pages.vacant tid hslot)
  | some page =>
    obtain ⟨-, hshows⟩ := h.pages.slot tid page hslot
    refine ⟨page, rfl, ?_, hshows⟩
    unfold pageXid
    rw [hp.tupleAt_eq]
    exact congrArg some hshows.xid

theorem erase_map {α β : Type*} [DecidableEq α] [DecidableEq β] {f : α → β} {l : List α} {a : α}
    (h : ∀ b ∈ l, f b = f a → b = a) :
    (l.erase a).map f = (l.map f).erase (f a) := by
  induction l with
  | nil => rfl
  | cons b l ih =>
    by_cases e : b = a
    · subst e
      simp
    · have hne : f b ≠ f a := fun hf => e (h b List.mem_cons_self hf)
      rw [List.erase_cons_tail (by simpa using e), List.map_cons, List.map_cons,
        List.erase_cons_tail (by simpa using hne), ih fun c hc => h c (List.mem_cons_of_mem _ hc)]

theorem Rows.erase (h : Rows dbg desc s r) (hscan : RowRun.ScanInv r st w tr) (hmem : tuple ∈ s.scanned w) :
    ((s.scanned w).erase tuple).map rowOf = (r.scanned w).erase (rowOf tuple) := by
  rw [h.scanned]
  refine erase_map fun other hother he => ?_
  have honce := hscan.once
  unfold RowRun.tuples at honce
  rw [List.map_append, h.scanned, List.map_map] at honce
  refine List.inj_on_of_nodup_map (List.nodup_append.1 honce).2.1 hother hmem ?_
  exact congrArg RowTuple.tid he

/-! ## The handler -/

theorem Rows.handles (h : Rows dbg desc s r) (op : TransOp) : r.handles w op = s.handles w op := by
  cases op <;> simp only [RowRun.handles, ByteRun.handles, RowRun.undoing, ByteRun.undoing, h.tm, h.aborting, h.log]

variable [DecidableEq W]

theorem Rows.handled (h : Rows dbg desc s r) (op : TransOp) (tm : TransManager W) :
    Rows dbg desc (s.handled w op tm) (r.handled w op tm) := by
  have hscanned : ∀ v, (s.handled w op tm).scanned v = [] ∧ (r.handled w op tm).scanned v = [] ∨
      (s.handled w op tm).scanned v = s.scanned v ∧ (r.handled w op tm).scanned v = r.scanned v := fun v => by
    unfold ByteRun.handled RowRun.handled
    by_cases hop : RowRun.opens op = true
    · by_cases e : v = w
      · exact .inl (by simp [hop, e])
      · exact .inr (by simp [hop, e])
    · exact .inr (by simp [hop])
  refine ⟨rfl, ?_, ?_, ?_, fun v => ?_, h.calls, h.dead, h.pages, fun v tuple ht => ?_⟩
  · unfold ByteRun.handled RowRun.handled
    rw [h.log]
  · cases op <;> cases hs :
      s.tm.transactions w <;> simp only [ByteRun.handled, RowRun.handled, h.aborting, h.tm, hs]
  · unfold ByteRun.handled RowRun.handled
    rw [h.visited]
  · rcases hscanned v with ⟨hs, hr⟩ | ⟨hs, hr⟩
    · rw [hs, hr]
      rfl
    · rw [hs, hr]
      exact h.scanned v
  · refine h.held v tuple ?_
    rcases mem_tuples.1 ht with ht | ht
    · exact mem_tuples.2 (.inl ht)
    · rcases hscanned v with ⟨hs, -⟩ | ⟨hs, -⟩
      · rw [hs] at ht
        cases ht
      · exact mem_tuples.2 (.inr (hs ▸ ht))

theorem Rows.trans {op : TransOp} (h : Rows dbg desc s r) (ht : s.step dbg tableId desc (w, .trans op) = some t) :
    ∃ r', r.step (w, .trans op) = some r' ∧ Rows dbg desc t r' := by
  by_cases hop : op = .run
  · subst hop
    obtain ⟨tm, htm, rfl⟩ := Option.map_eq_some_iff.1 ht
    refine ⟨{ r with tm := tm }, ?_, rfl, h.log, h.aborting, h.visited, h.scanned, h.calls, h.dead, h.pages, h.held⟩
    simp only [RowRun.step, h.tm, htm, Option.map_some]
  · have hstep :
      ∀ {c : Prop} [Decidable c], (if c then (s.tm.step (w, op)).map (s.handled w op) else none) = some t →
        c ∧ ∃ tm, s.tm.step (w, op) = some tm ∧ t = s.handled w op tm := fun {c} _ h => by
      split_ifs at h with hc
      obtain ⟨tm, htm, rfl⟩ := Option.map_eq_some_iff.1 h
      exact ⟨hc, tm, htm, rfl⟩
    have hguard :
        (s.calls w = none ∧ s.handles w op = true) ∧ ∃ tm, s.tm.step (w, op) = some tm ∧ t = s.handled w op tm := by
      cases op with
      | run => exact absurd rfl hop
      | _ => exact hstep ht
    obtain ⟨⟨hcalls, hhandles⟩, tm, htm, rfl⟩ := hguard
    refine ⟨r.handled w op tm, ?_, h.handled op tm⟩
    have hg : r.calls w = none ∧ r.handles w op = true := ⟨h.calls_none hcalls, (h.handles op).trans hhandles⟩
    cases op with
    | run => exact absurd rfl hop
    | _ => simp only [RowRun.step, if_pos hg, h.tm, htm, Option.map_some]

/-! ## Scans -/

theorem Rows.scan (h : Rows dbg desc s r) (ht : s.step dbg tableId desc (w, .scan tid) = some t) :
    ∃ r', r.step (w, .scan tid) = some r' ∧ Rows dbg desc t r' := by
  simp only [ByteRun.step] at ht
  split at ht
  · rename_i tr snapshot hsn
    split_ifs at ht with hg
    split at ht
    · rename_i found hfound
      cases ht
      obtain ⟨⟨hcalls, hidle, hab, hnot⟩, hlt⟩ := hg
      obtain ⟨hscan, hheld⟩ := h.scanSlot hlt hfound
      refine ⟨{ r with
        visited := Function.update r.visited w (tid :: r.visited w)
        scanned := Function.update r.scanned w ((found.map rowOf).toList ++ r.scanned w) }, ?_, ?_⟩
      · have hg : r.calls w = none ∧ r.tm.pc w = .idle ∧ r.aborting tr.xid = false ∧ tid ∉ r.visited w := by
          rw [h.tm, h.aborting, h.visited]
          exact ⟨h.calls_none hcalls, hidle, hab, hnot⟩
        rw [← h.tm] at hsn
        simp only [RowRun.step, hsn, if_pos hg, hscan, Option.map_some]
      · refine ⟨h.tm, h.log, h.aborting, ?_, fun v => ?_, h.calls, h.dead, h.pages, fun v tuple ht => ?_⟩
        · rw [h.visited]
        · by_cases e : v = w
          · subst e
            cases found <;> simp [h.scanned]
          · simp [e, h.scanned]
        · by_cases e : v = w
          · subst e
            rcases mem_tuples.1 ht with ht | ht
            · exact h.held v tuple (mem_tuples.2 (.inl ht))
            · simp only [Function.update_self, List.mem_append, Option.mem_toList] at ht
              rcases ht with ht | ht
              · exact hheld tuple ht
              · exact h.held v tuple (mem_tuples.2 (.inr ht))
          · refine h.held v tuple (mem_tuples.2 ?_)
            simpa [mem_tuples, e] using ht
    · cases ht
  · cases ht

/-! ## Changes -/

theorem Rows.update_calls (h : Rows dbg desc s r) (w : W) (call : Option ByteCall) (v : W) :
    Function.update r.calls w (call.map (callOf dbg desc)) v = (Function.update s.calls w call v).map
      (callOf dbg desc) := by
  by_cases e : v = w
  · simp [e]
  · simp [e, h.calls]

theorem Rows.written {u : HeapStore} {bytes : List UInt8} {v : RowVersion Values} {record : HeapUndoRecord}
    {row : RowRecord Values} {calls : W → Option ByteCall} {calls' : W → Option (RowCall Values)}
    (h : Rows dbg desc s r)
    (tm : TransManager W) (writes : List (RowWrite Values))
    (hlog : HeapTable.Logged s.store u record) (hr : Refills s.store u tid bytes)
    (hrow : Saved dbg desc u (s.store.undoSize + 1) record row)
    (hv : Shows dbg desc bytes v) (hin : tid.pageno < s.store.pagesCount)
    (hcalls : ∀ w, calls' w = (calls w).map (callOf dbg desc))
    (hless : ∀ w, ∀ call ∈ calls w, s.calls w = some call) :
    Rows dbg desc { s with
        tm := tm
        store := u
        log := Function.update s.log w (((s.store.undoSize : Int) + 1) :: s.log w)
        calls := calls }
      { r with
        tm := tm
        slots := Function.update r.slots tid (some v)
        undo := Function.update r.undo (s.store.undoSize + 1) (some row)
        log := Function.update r.log w (((s.store.undoSize : Int) + 1) :: r.log w)
        calls := calls'
        writes := writes } := by
  refine ⟨rfl, ?_, h.aborting, h.visited, h.scanned, hcalls, h.dead, h.pages.put hlog hr hrow hv hin,
    fun x tuple ht => ?_⟩
  · rw [h.log]
  · refine (h.held x tuple ?_).mono hr.kept
    rcases mem_tuples.1 ht with ⟨call, hcall, rfl⟩ | ht
    · exact mem_tuples.2 (.inl ⟨call, hless x call hcall, rfl⟩)
    · exact mem_tuples.2 (.inr ht)

omit [DecidableEq W] in
/-- The version that a call writes over is on the page and in its hands. -/
theorem Rows.image (h : Rows dbg desc s r) (hinv : RowRun.SlotsInv r st) (hheld : Held dbg desc s.store tuple)
    {x : Nat} {S : Snapshot} (hfound : r.Found st x S (rowOf tuple))
    (hxid : ∀ x ∈ s.pageXid dbg tuple.tid, x = tuple.header.xid) :
    r.slots tuple.tid = some (rowOf tuple).version ∧
    Shows dbg desc (s.store.content tuple.tid) (rowOf tuple).version ∧
      tuple.header.undo ≤ s.tm.usn := by
  obtain ⟨page, hpage, hpx, hshows⟩ := h.page hheld.placed
  cases hst : st tuple.tid with
  | nil =>
    rw [hinv.page, hst] at hpage
    cases hpage
  | cons v rest =>
    rw [hinv.page, hst] at hpage
    obtain rfl := Option.some.inj hpage
    obtain rfl : v = (rowOf tuple).version := hfound.eq_top hst (hxid v.xid hpx)
    refine ⟨by rw [hinv.page, hst]; rfl, hshows, ?_⟩
    rw [← h.tm]
    exact hinv.undos tuple.tid _ (by rw [hst]; exact List.mem_cons_self)

theorem Rows.write (h : Rows dbg desc s r) (hinv : RowRun.SlotsInv r st) (hs : s.tm.transactions w = some tr)
    (hx : tr.xid < 2 ^ 64) (hheld : Held dbg desc s.store tuple) {S : Snapshot}
    (hfound : r.Found st tr.xid S (rowOf tuple)) (hmax : (s.store.undoSize : Int) + 1 ≤ UndoSeqNumber.Max)
    (hxid : ∀ x ∈ s.pageXid dbg tuple.tid, x = tuple.header.xid)
    (ht : s.write dbg tableId desc w tuple change = some t) :
    ∃ r', r.write w (rowOf tuple) (changeOf dbg desc change) (s.store.undoSize + 1) = some r' ∧
    Rows dbg desc t r' := by
  obtain ⟨hpage, hshows, hundo⟩ := h.image hinv hheld hfound hxid
  have hlive : (rowOf tuple).version.deleted = false := hfound.choose_spec.choose_spec.2.2.1
  have hin := h.pages.beyond _ hheld.placed
  have husn : (s.store.undoSize : Int) + 1 < 2 ^ 63 := by
    simp only [UndoSeqNumber.Max] at hmax
    omega
  have hb : ∀ flags, HeapPageTupleHeader.Bounded ⟨tr.xid, s.store.undoSize + 1, flags⟩ :=
    fun flags => ⟨hx, by simp only; omega⟩
  have hless : ∀ v, ∀ call ∈ Function.update s.calls w none v, s.calls v = some call := fun v call hcall => by
    by_cases e : v = w
    · simp [e] at hcall
    · simpa [e] using hcall
  have hrow : r.tm.transactions w = some tr ∧ r.slots (rowOf tuple).tid = some (rowOf tuple).version :=
    ⟨h.tm ▸ hs, hpage⟩
  let write : RowWrite Values :=
    ⟨tr.xid, s.store.undoSize + 1, tuple.tid, (rowOf tuple).version, (rowOf tuple).version⟩
  unfold ByteRun.write at ht
  simp only [hs] at ht
  split_ifs at ht with hfits
  split at ht
  · rename_i u hu
    obtain ⟨tm, htm, rfl⟩ := Option.map_eq_some_iff.1 ht
    have holder : tuple.header.undo < s.store.undoSize + 1 := Int.lt_of_le_of_lt hundo (write_step hs htm).2.1
    have htm' : r.tm.step (w, .write (s.store.undoSize + 1) (s.store.undoSize + 1) ⟨false, false⟩) = some tm :=
      h.tm ▸ htm
    cases change with
    | update values =>
      obtain ⟨data, hdata, hfit⟩ := HeapTable.fits_iff.1 hfits
      obtain ⟨image, hv, hlen⟩ := hheld.version
      obtain ⟨hlog, hr⟩ :=
        HeapTable.performUpdate_refills h.pages.tidy hheld.placed hv.serialize hdata hfit hx husn hu
      obtain ⟨header, hhx, hhu, hver⟩ := stored_version (hb _) hdata
      have hnew := Shows.of_version hver ((s.store.content tuple.tid).drop
        ((heapTable dbg tableId tr.xid desc).versionBytes (s.store.undoSize + 1) values data).length)
      rw [hhx, hhu] at hnew
      have himage : Image dbg desc u (s.store.undoSize + 1) tuple.tid image (rowOf tuple).version := by
        have hshows := Shows.of_version hv []
        rw [List.append_nil] at hshows
        obtain ⟨hplaced, hitem⟩ := hr.kept _ hheld.placed
        refine ⟨?_, hlive, hitem ▸ hlen, hplaced, holder⟩
        unfold rowOf
        rw [hv.flags]
        exact hshows
      refine ⟨_, ?_, h.written tm (write :: r.writes) hlog hr (.update himage) hnew hin
        (h.update_calls w none) hless⟩
      unfold RowRun.write changeOf
      simp only [hrow.1, hrow.2, htm', Option.bind_some]
      rfl
    | delete =>
      obtain ⟨hlog, hr⟩ := HeapTable.deleteAt_refills h.pages.tidy hheld.placed hx husn hu
      have himage :
          Image dbg desc u (s.store.undoSize + 1) tuple.tid (s.store.content tuple.tid) (rowOf tuple).version := by
        obtain ⟨hplaced, hitem⟩ := hr.kept _ hheld.placed
        refine ⟨hshows, hlive, ?_, hplaced, holder⟩
        rw [hitem, content_length]
      refine ⟨_, ?_, h.written tm (write :: r.writes) hlog hr (.insert himage)
        (shows_deleted (hb _) _ (rowOf tuple).version.values) hin
        (h.update_calls w none) hless⟩
      unfold RowRun.write changeOf
      simp only [hrow.1, hrow.2, htm', Option.bind_some]
      rfl
  · cases ht

omit [DecidableEq W] in
theorem Rows.recall {calls' : W → Option (RowCall Values)} {scanned : W → List (HeapTuple Values)}
    {scanned' : W → List (RowTuple Values)} {tm tm' : TransManager W} (h : Rows dbg desc s r) (htm : tm' = tm)
    (calls : W → Option ByteCall) (hcalls : ∀ v, calls' v = (calls v).map (callOf dbg desc))
    (hscanned : ∀ v, scanned' v = (scanned v).map rowOf)
    (htuples : ∀ v, ∀ tuple ∈ tuples { s with scanned := scanned, calls := calls } v, tuple ∈ s.tuples v) :
    Rows dbg desc { s with tm := tm, scanned := scanned, calls := calls } { r with
      tm := tm', scanned := scanned', calls := calls' } :=
  ⟨htm, h.log, h.aborting, h.visited, hscanned, hcalls, h.dead, h.pages,
  fun v tuple ht => h.held v tuple (htuples v tuple ht)⟩

theorem Rows.changes (h : Rows dbg desc s r) (hinv : RowRun.RowInv r st)
    (hmax : (s.store.undoSize : Int) + 1 ≤ UndoSeqNumber.Max) (hcounter : s.tm.xid + 1 < counter)
    (ht : s.step dbg tableId desc (w, .change tuple change) = some t) :
    ∃ r', r.step (w, .change (rowOf tuple) (changeOf dbg desc change) (s.store.undoSize + 1)) = some r' ∧
    Rows dbg desc t r' := by
  simp only [ByteRun.step] at ht
  split at ht
  · rename_i tr xid hs hpx
    have hs' : r.tm.transactions w = some tr := h.tm ▸ hs
    split_ifs at ht with hg hx
    all_goals
      obtain ⟨hcalls, hidle, hab, hcontains⟩ := hg
      have hmem := List.contains_iff_mem.1 hcontains
      have hheld := h.held w tuple (mem_tuples.2 (.inr hmem))
      obtain ⟨page, hpage, hpx', -⟩ := h.page hheld.placed
      obtain rfl : xid = page.xid := Option.some.inj (hpx.symm.trans hpx')
      have hmem' : rowOf tuple ∈ r.scanned w := by
        rw [h.scanned]
        exact List.mem_map_of_mem hmem
      have hcalls' := h.calls_none hcalls
      have hg : r.calls w = none ∧ r.tm.pc w = .idle ∧ r.aborting tr.xid = false ∧ rowOf tuple ∈ r.scanned w := by
        rw [h.tm, h.aborting]
        exact ⟨hcalls', hidle, hab, hmem'⟩
      have hscanned : ∀ v, Function.update r.scanned w ((r.scanned w).erase (rowOf tuple)) v =
          (Function.update s.scanned w ((s.scanned w).erase tuple) v).map rowOf := fun v => by
        by_cases e : v = w
        · subst e
          simp only [Function.update_self]
          exact (h.erase (hinv.scans v tr hs') hmem).symm
        · simp [e, h.scanned]
      have hless : ∀ v, ∀ other ∈ Function.update s.scanned w ((s.scanned w).erase tuple) v, other ∈ s.scanned v :=
        fun v other ho => by
        by_cases e : v = w
        · subst e
          rw [Function.update_self] at ho
          exact List.mem_of_mem_erase ho
        · rwa [Function.update_of_ne e] at ho
    · obtain ⟨S, -, hfound⟩ := (hinv.scans w tr hs').found (rowOf tuple) (List.mem_append_right _ hmem')
      have herased := h.recall h.tm s.calls h.calls hscanned fun v other ho => by
        exact mem_tuples.2 ((mem_tuples.1 ho).imp id (hless v other))
      have hslots := (hinv.erase hcalls' hmem' : _ ∧ (r.tm.transactions w = some tr → _)).1.slots
      have hxid : tr.xid < 2 ^ 64 := by
        have hlt := hinv.trans.xids w tr hs'
        rw [h.tm] at hlt
        unfold counter at hcounter
        omega
      have hwriter : ∀ x ∈ s.pageXid dbg tuple.tid, x = tuple.header.xid :=
        fun x hxx => (Option.some.inj (hpx'.symm.trans hxx)).symm.trans hx
      obtain ⟨r', hr', hrows⟩ := herased.write hslots hs hxid hheld hfound hmax hwriter ht
      refine ⟨r', ?_, hrows⟩
      have hsame : page.xid = (rowOf tuple).version.xid := hx
      simp only [RowRun.step, hs', show r.slots (rowOf tuple).tid = some page from hpage, if_pos hg, if_pos hsame]
      exact hr'
    · cases ht
      refine ⟨{ r with
        scanned := Function.update r.scanned w ((r.scanned w).erase (rowOf tuple))
        calls := Function.update r.calls w (some ⟨rowOf tuple, changeOf dbg desc change, .released⟩) }, ?_, ?_⟩
      · have hne : ¬ page.xid = (rowOf tuple).version.xid := hx
        simp only [RowRun.step, hs', show r.slots (rowOf tuple).tid = some page from hpage, if_pos hg, if_neg hne]
      · have hcall :=
          h.recall h.tm _ (h.update_calls w (some ⟨tuple, change, .released⟩)) hscanned fun v other ho => by
          rcases mem_tuples.1 ho with ⟨call, hcall, rfl⟩ | ho
          · by_cases e : v = w
            · subst e
              simp only [Function.update_self, Option.some.injEq] at hcall
              subst hcall
              exact mem_tuples.2 (.inr hmem)
            · simp only [Function.update_of_ne e] at hcall
              exact mem_tuples.2 (.inl ⟨call, hcall, rfl⟩)
          · exact mem_tuples.2 (.inr (hless v other ho))
        exact hcall
  · cases ht

theorem Rows.resume (h : Rows dbg desc s r) (hinv : RowRun.RowInv r st)
    (hmax : (s.store.undoSize : Int) + 1 ≤ UndoSeqNumber.Max)
    (hcounter : s.tm.xid + 1 < counter) (hwriter : ∀ call ∈ s.calls w, ∀ x ∈ s.pageXid dbg call.tuple.tid,
      x = call.tuple.header.xid)
    (ht : s.step dbg tableId desc (w, .resume) = some t) :
    ∃ r', r.step (w, .resume (s.store.undoSize + 1)) = some r' ∧ Rows dbg desc t r' := by
  simp only [ByteRun.step] at ht
  split at ht
  · rename_i tuple change hcall
    have hcall' : r.calls w = some ⟨rowOf tuple, changeOf dbg desc change, .returned⟩ := by
      rw [h.calls, hcall]
      rfl
    cases hs : s.tm.transactions w with
    | none => simp [ByteRun.write, hs] at ht
    | some tr =>
      have hs' : r.tm.transactions w = some tr := h.tm ▸ hs
      have hheld := h.held w tuple (mem_tuples.2 (.inl ⟨_, hcall, rfl⟩))
      obtain ⟨S, -, hfound⟩ := (hinv.scans w tr hs').found (rowOf tuple) (by simp [RowRun.tuples, hcall'])
      have hlt := hinv.trans.xids w tr hs'
      rw [h.tm] at hlt
      unfold counter at hcounter
      obtain ⟨r', hr', hrows⟩ := h.write hinv.slots hs (by omega) hheld hfound hmax (hwriter _ hcall) ht
      refine ⟨r', ?_, hrows⟩
      simp only [RowRun.step, hcall']
      exact hr'
  · cases ht

/-! ## Waiting calls -/

theorem tuples_call {call : ByteCall} {next : Option ByteCall} (hcall : s.calls w = some call)
    (hnext : ∀ other ∈ next, other.tuple = call.tuple) (v : W) (tuple : HeapTuple Values)
    (ht : tuple ∈ tuples { s with calls := Function.update s.calls w next } v) :
    tuple ∈ s.tuples v := by
  rcases mem_tuples.1 ht with ⟨other, hother, rfl⟩ | ht
  · by_cases e : v = w
    · subst e
      simp only [Function.update_self] at hother
      exact mem_tuples.2 (.inl ⟨call, hcall, (hnext other hother).symm⟩)
    · simp only [Function.update_of_ne e] at hother
      exact mem_tuples.2 (.inl ⟨other, hother, rfl⟩)
  · exact mem_tuples.2 (.inr ht)

theorem Rows.decideCsn (h : Rows dbg desc s r) {call : ByteCall} (hcall : s.calls w = some call) (pc : WaitPc)
    (csn : Nat) :
    Rows dbg desc (s.decideCsn w { call with pc := pc } csn)
      (r.decideCsn w (callOf dbg desc { call with pc := pc }) csn) := by
  unfold ByteRun.decideCsn RowRun.decideCsn
  by_cases hc : csn = CommitSeqNumber.Aborted
  · simp only [hc, if_true]
    refine h.recall h.tm _ (h.update_calls w (some { call with pc := .returned })) h.scanned
      (tuples_call hcall fun other ho => ?_)
    cases ho
    rfl
  · simp only [hc, if_false]
    exact h.recall h.tm _ (h.update_calls w none) h.scanned (tuples_call hcall fun other ho => by cases ho)

theorem Rows.lookup (h : Rows dbg desc s r) (ht : s.step dbg tableId desc (w, .lookup) = some t) :
    ∃ r', r.step (w, .lookup) = some r' ∧ Rows dbg desc t r' := by
  simp only [ByteRun.step] at ht
  split at ht
  · rename_i call xid hcx
    obtain ⟨call, hcall, hcx⟩ := Option.bind_eq_some_iff.1 hcx
    obtain ⟨xid, hpx, hpair⟩ := Option.map_eq_some_iff.1 hcx
    cases hpair
    obtain ⟨page, hpage, hpx', -⟩ := h.page (h.held w call.tuple (mem_tuples.2 (.inl ⟨call, hcall, rfl⟩))).placed
    obtain rfl : xid = page.xid := Option.some.inj (hpx.symm.trans hpx')
    have hcall' : r.calls w = some (callOf dbg desc call) := by
      rw [h.calls, hcall]
      rfl
    have hcp : ((r.calls w).bind fun call => (r.slots call.tuple.tid).map fun page => (call, page)) =
        some (callOf dbg desc call, page) := by
      rw [hcall', Option.bind_some, show r.slots (callOf dbg desc call).tuple.tid = some page from hpage,
        Option.map_some]
    split_ifs at ht with hno hrun
    · obtain ⟨tm, htm, rfl⟩ := Option.map_eq_some_iff.1 ht
      have hwait :=
        h.recall (rfl : tm = tm) _ (h.update_calls w (some { call with pc := .waiting page.xid })) h.scanned
        (tuples_call hcall fun other ho => by cases ho; rfl)
      refine ⟨_, ?_, hwait⟩
      rw [← h.tm] at hno hrun htm
      have hno' : ¬ ((callOf dbg desc call).pc ≠ .released ∨ r.tm.history page.xid = CommitSeqNumber.Committing) :=
        hno
      simp only [RowRun.step, hcp, if_neg hno', if_pos hrun, htm, Option.map_some]
      rfl
    · cases ht
      refine ⟨_, ?_, h.decideCsn hcall call.pc (s.tm.history page.xid)⟩
      rw [← h.tm] at hno hrun ⊢
      have hno' : ¬ ((callOf dbg desc call).pc ≠ .released ∨ r.tm.history page.xid = CommitSeqNumber.Committing) :=
        hno
      simp only [RowRun.step, hcp, if_neg hno', if_neg hrun]
  · cases ht

theorem Rows.decide (h : Rows dbg desc s r) (ht : s.step dbg tableId desc (w, .decide) = some t) :
    ∃ r', r.step (w, .decide) = some r' ∧ Rows dbg desc t r' := by
  simp only [ByteRun.step] at ht
  split at ht
  · rename_i tuple change x hcall
    split_ifs at ht with hg
    cases ht
    refine ⟨_, ?_, h.decideCsn hcall (.waiting x) (s.tm.history x)⟩
    have hcall' : r.calls w = some ⟨rowOf tuple, changeOf dbg desc change, .waiting x⟩ := by
      rw [h.calls, hcall]
      rfl
    rw [← h.tm] at hg ⊢
    simp only [RowRun.step, hcall', if_pos hg]
    rfl
  · cases ht

/-! ## Inserts and undo -/

theorem Rows.insert {values : Values} {pageno : Nat} (h : Rows dbg desc s r) (hinv : RowRun.RowInv r st)
    (hcounter : s.tm.xid + 1 < counter)
    (hvacant : ∀ tr ∈ s.tm.transactions w, ∀ bytes ∈ ((heapTable dbg tableId tr.xid desc).serialize
      ((heapTable dbg tableId tr.xid desc).newHeader values) values).toOption, HeapPage.Vacant (s.store.page pageno)
        (HeapPage.upper (s.store.page pageno) - BitUtils.maxAlign bytes.length) bytes.length)
    (ht : s.step dbg tableId desc (w, .insert values pageno) = some t) :
    ∃ r', r.step (w, .insert ⟨pageno, HeapPage.itemsCount (s.store.page pageno)⟩ (stored dbg desc values)
      (s.store.undoSize + 1)) = some r' ∧
      Rows dbg desc t r' := by
  simp only [ByteRun.step] at ht
  split at ht
  · rename_i tr hs
    split_ifs at ht with hg
    split at ht
    · rename_i u hu
      obtain ⟨tm, htm, rfl⟩ := Option.map_eq_some_iff.1 ht
      obtain ⟨hcalls, hab, hlt, -⟩ := hg
      have hs' : r.tm.transactions w = some tr := h.tm ▸ hs
      have hxid := hinv.trans.xids w tr hs'
      rw [h.tm] at hxid
      unfold counter at hcounter
      obtain ⟨bytes, _, hb, hu⟩ := Fallible.bind_eq_ok.1 hu
      obtain ⟨hser, rfl⟩ := Fallible.ofExcept_eq_ok.1 hb
      obtain ⟨data, hdata, hbytes⟩ := HeapTable.serialize_bytes hser
      obtain ⟨hlog, hr⟩ := HeapTable.performInsert_refills h.pages.tidy (HeapTable.serialize_size hser)
        (hvacant tr hs bytes (by rw [hser]; exact rfl)) hu
      have hbound : HeapPageTupleHeader.Bounded ⟨tr.xid, UndoSeqNumber.Invalid, ⟨false, false⟩⟩ :=
        ⟨by simp only; omega, by simp only [UndoSeqNumber.Invalid]; omega⟩
      obtain ⟨header, hhx, hhu, hver⟩ := stored_version hbound hdata
      have hnew := Shows.of_version hver []
      have hsame : (heapTable dbg tableId tr.xid desc).versionBytes UndoSeqNumber.Invalid values data = bytes :=
        hbytes.symm
      rw [hhx, hhu, List.append_nil, hsame] at hnew
      have hfree : r.slots ⟨pageno, HeapPage.itemsCount (s.store.page pageno)⟩ = none := by
        cases hslot : r.slots ⟨pageno, HeapPage.itemsCount (s.store.page pageno)⟩ with
        | none => rfl
        | some v => exact absurd (h.pages.slot _ v hslot).1.lt (Nat.lt_irrefl _)
      refine ⟨_, ?_, h.written tm r.writes hlog hr (.delete hr.placed) hnew hlt h.calls fun _ _ => id⟩
      have hg : r.calls w = none ∧ r.aborting tr.xid = false ∧
          r.slots ⟨pageno, HeapPage.itemsCount (s.store.page pageno)⟩ = none := by
        rw [h.aborting]
        exact ⟨h.calls_none hcalls, hab, hfree⟩
      rw [← h.tm] at htm
      simp only [RowRun.step, hs', if_pos hg, htm, Option.map_some]
    · cases ht
  · cases ht

theorem visitDelete_skip {s : HeapStore} {usn : Int} (hp : s.Placed tid)
    (hu : (HeapPageTupleHeader.ofBytes (s.content tid)).undo ≠ usn) :
    UndoApplierVisitor.visitDelete dbg usn tid s = (.ok (), s) := by
  have hread : HeapPage.readHeader (s.page tid.pageno) (HeapPage.itemAt (s.page tid.pageno) tid.itemid).offset =
      .ok (.ofBytes (s.content tid)) := hp.readHeader_eq
  simp only [UndoApplierVisitor.visitDelete, getPage, Fallible.bind_apply, Fallible.ofExcept, hp.getItemId_eq,
    hp.normal, Bool.not_true, Bool.false_eq_true, if_false, hp.getTuple_eq, hread, if_pos hu]
  rfl

omit [DecidableEq W] in
/-- The undo of a record finds what the change has left. -/
theorem Rows.visit {u : HeapStore} {usn : Int} {record : HeapUndoRecord} {row : RowRecord Values}
    (h : Rows dbg desc s r) (hinv : RowRun.SlotsInv r st) (htop : RowRun.Tops r st tr usn row)
    (hrec : s.store.undo usn = some record)
    (hrow : r.undo usn = some row)
    (hsaved : Saved dbg desc s.store usn record row) (hu : performUndo dbg usn s.store = (.ok (), u)) :
    ∃ slots, r.visit usn row = some { r with slots := slots } ∧ Bears dbg desc u slots r.undo ∧
      ∀ r, s.store.Placed r → u.Placed r ∧ u.item r = s.store.item r := by
  -- an image goes back to the slot where the record is the last one
  have hback : ∀ {tid bytes image}, Image dbg desc s.store usn tid bytes image → record.RestoresAt tid bytes →
    tid ∈ row.places →
      (∃ page, r.slots tid = some page ∧ page.undo = usn) ∧
      Bears dbg desc u (Function.update r.slots tid (some image)) r.undo ∧
        ∀ r, s.store.Placed r → u.Placed r ∧ u.item r = s.store.item r := by
    intro tid bytes image himage hres hplace
    obtain ⟨-, p, rest, hst, hpu, -⟩ := htop tid hplace
    have hpage : r.slots tid = some p := by rw [hinv.page, hst, List.head?_cons]
    obtain ⟨-, hshows⟩ := h.pages.slot tid p hpage
    rw [performUndo_inPlace hrec hres himage.placed (hshows.undo.trans hpu) himage.fits] at hu
    cases hu
    have hr := UndoApplierVisitor.restored_refills h.pages.tidy himage.placed himage.fits
    exact ⟨⟨p, hpage, hpu⟩, h.pages.refill hr (himage.shows.append himage.live _) (h.pages.beyond _ himage.placed)
      rfl (Nat.le_refl _), hr.kept⟩
  cases hsaved with
  | @delete table tid hp =>
    obtain ⟨page, hpage, -, hshows⟩ := h.page hp
    have hne : page.undo ≠ usn := fun e => by
      rw [hinv.page] at hpage
      exact absurd (hinv.recorded (List.mem_of_mem_head? hpage) (e ▸ hrow)) (by simp)
    have hskip : performUndo dbg usn s.store = (.ok (), s.store) := by
      simp only [performUndo, Fallible.bind_apply, Fallible.get_apply, hrec]
      exact visitDelete_skip hp (hshows.undo ▸ hne)
    rw [hskip] at hu
    cases hu
    refine ⟨r.slots, ?_, h.pages, fun r hp => ⟨hp, rfl⟩⟩
    simp only [RowRun.visit, hpage, hne, ne_eq, not_false_eq_true, or_true, if_true]
  | @update table tid bytes image himage =>
    obtain ⟨⟨page, hpage, hpu⟩, hbears, hkept⟩ := hback himage (.inl ⟨table, rfl⟩) (by simp)
    refine ⟨_, ?_, hbears, hkept⟩
    simp only [RowRun.visit, hpage, hpu, ne_eq, not_true_eq_false, or_self, if_false, if_true]
  | @insert table tid bytes image himage =>
    obtain ⟨⟨page, hpage, hpu⟩, hbears, hkept⟩ := hback himage (.inr ⟨table, rfl⟩) (by simp)
    refine ⟨_, ?_, hbears, hkept⟩
    simp only [RowRun.visit, hpage, hpu, ne_eq, not_true_eq_false, if_false]

theorem Rows.undo (h : Rows dbg desc s r) (hinv : RowRun.RowInv r st)
    (ht : s.step dbg tableId desc (w, .undo) = some t) :
    ∃ r', r.step (w, .undo) = some r' ∧ Rows dbg desc t r' := by
  simp only [ByteRun.step] at ht
  split at ht
  · rename_i tr usn log hs hlog
    split_ifs at ht with hg
    split at ht
    · rename_i u hu
      cases ht
      have hs' : r.tm.transactions w = some tr := h.tm ▸ hs
      have hlog' : r.log w = usn :: log := h.log ▸ hlog
      have hidle : r.tm.pc w = .idle := h.tm ▸ hg.2
      cases hrec : s.store.undo usn with
      | none =>
        simp only [performUndo, Fallible.bind_apply, Fallible.get_apply, hrec] at hu
        cases hu
      | some record =>
        obtain ⟨row, hrow, hsaved⟩ := h.pages.saved hrec
        have htop : RowRun.Tops r st tr usn row := fun tid htid =>
          (hinv.logs w tr hs').top hinv.slots (not_commits hinv.trans hs' hidle) hlog' hrow htid
        obtain ⟨slots, hvisit, hbears, hkept⟩ := h.visit hinv.slots htop hrec hrow hsaved hu
        have hg : r.calls w = none ∧ r.tm.pc w = .idle := ⟨h.calls_none hg.1, hidle⟩
        refine ⟨{ r with
          slots := slots
          log := Function.update s.log w log
          aborting := Function.update s.aborting tr.xid true
          scanned := Function.update r.scanned w [] }, ?_, h.tm, rfl, rfl, h.visited, fun v => ?_, h.calls, h.dead,
            hbears, fun v tuple ht => ?_⟩
        · simp only [RowRun.step, hs', hlog', if_pos hg, hrow, Option.bind_some, hvisit, Option.map_some, h.log,
            h.aborting]
        · by_cases e : v = w
          · simp [e]
          · simp [e, h.scanned]
        · refine (h.held v tuple (mem_tuples.2 ((mem_tuples.1 ht).imp id fun ht => ?_))).mono hkept
          by_cases e : v = w
          · simp [e] at ht
          · simpa [e] using ht
    · cases ht
  · cases ht

/-! ## Steps -/

omit [DecidableEq W] in
theorem Rows.frame {u : HeapStore} {disk : Nat → Memory} (h : Rows dbg desc s r)
    (hpages : Bears dbg desc u r.slots r.undo)
    (hkept : ∀ r, s.store.Placed r → u.Placed r ∧ u.item r = s.store.item r) :
    Rows dbg desc { s with store := u, disk := disk } r :=
  ⟨h.tm, h.log, h.aborting, h.visited, h.scanned, h.calls, h.dead, hpages,
  fun v tuple ht => (h.held v tuple ht).mono hkept⟩

/-- What a step of the rows has to meet. -/
abbrev RowStep (r : RowRun W Values) (a : W × RowOp Values) : Prop := (r.Served a ∧ r.Unovertaken a) ∧ r.noWrap a

theorem Rows.step {a : W × ByteOp} (h : Rows dbg desc s r) (hinv : RowRun.RowInv r st)
    (hc : s.Sheltered dbg tableId desc a ∧ s.noWrap a) (ht : s.step dbg tableId desc a = some t) :
    ∃ r', Steps RowRun.step RowStep r (s.rowOps dbg desc a) r' ∧ Rows dbg desc t r' := by
  obtain ⟨w, op⟩ := a
  obtain ⟨hsheltered, hw, hmax⟩ := hc
  have hw' : r.tm.csn + 1 < counter ∧ r.tm.xid + 1 < counter := by rwa [h.tm]
  have hsingle : ∀ {op : RowOp Values}, RowStep r (w, op) → (∃ r', r.step (w, op) = some r' ∧ Rows dbg desc t r') →
      ∃ r', Steps RowRun.step RowStep r [(w, op)] r' ∧ Rows dbg desc t r' := fun hc hr' => by
    obtain ⟨r', hr', hrows⟩ := hr'
    exact ⟨r', .single hc hr', hrows⟩
  cases op with
  | trans op => exact hsingle ⟨⟨trivial, trivial⟩, hw', trivial⟩ (h.trans ht)
  | insert values pageno =>
    obtain ⟨hserved, hvacant⟩ := hsheltered
    refine hsingle ⟨⟨fun tr htr => hserved tr (h.tm ▸ htr), trivial⟩, hw', hmax⟩ (h.insert hinv hw.2 hvacant ht)
  | scan tid => exact hsingle ⟨⟨trivial, trivial⟩, hw', trivial⟩ (h.scan ht)
  | change tuple change =>
    refine hsingle ⟨⟨?_, trivial⟩, hw', hmax⟩ (h.changes hinv hmax hw.2 ht)
    cases change with
    | update values => exact rfl
    | delete => exact trivial
  | lookup => exact hsingle ⟨⟨trivial, trivial⟩, hw', trivial⟩ (h.lookup ht)
  | decide => exact hsingle ⟨⟨trivial, trivial⟩, hw', trivial⟩ (h.decide ht)
  | resume =>
    refine hsingle ⟨⟨trivial, fun call hcall page hpage => ?_⟩, hw', hmax⟩ (h.resume hinv hmax hw.2 hsheltered ht)
    obtain ⟨base, hbase, rfl⟩ := Option.map_eq_some_iff.1 ((h.calls w).symm.trans hcall)
    obtain ⟨page', hpage', hpx, -⟩ := h.page (h.held w base.tuple (mem_tuples.2 (.inl ⟨base, hbase, rfl⟩))).placed
    obtain rfl : page' = page := Option.some.inj (hpage'.symm.trans hpage)
    exact hsheltered base hbase page'.xid hpx
  | undo => exact hsingle ⟨⟨trivial, trivial⟩, hw', trivial⟩ (h.undo hinv ht)
  | extend =>
    cases ht
    obtain ⟨hpages, hkept⟩ := h.pages.grown
    exact ⟨r, .nil, h.frame hpages hkept⟩
  | others bytes =>
    cases ht
    exact ⟨r, .nil, h.frame (h.pages.congr rfl rfl rfl (Nat.le_add_right _ _)) fun _ hp => ⟨hp, rfl⟩⟩
  | evict pageno =>
    cases ht
    have hpage : (s.store.evicted s.disk pageno).1.page = s.store.page := evicted_page hsheltered
    refine ⟨r, .nil, h.frame (h.pages.congr hpage rfl rfl (Nat.le_refl _)) fun tid hp => ?_⟩
    unfold HeapStore.Placed item at *
    rw [hpage]
    exact ⟨hp, rfl⟩

/-! ## Runs -/

theorem Rows.run {as : List (W × ByteOp)}
    (hrun : Steps (ByteRun.step dbg tableId desc) (fun s a => s.Sheltered dbg tableId desc a ∧ s.noWrap a)
      ByteRun.init as s) :
    ∃ r, Steps RowRun.step RowStep RowRun.init
      (traceOf (ByteRun.step dbg tableId desc) (rowOps dbg desc) ByteRun.init as) r ∧
      Rows dbg desc s r := by
  have hstep : ∀ (s : ByteRun W) (r : RowRun W Values) a t, (Rows dbg desc s r ∧ ∃ st, RowRun.RowInv r st) →
      s.Sheltered dbg tableId desc a ∧ s.noWrap a → s.step dbg tableId desc a = some t →
      ∃ r', Steps RowRun.step RowStep r (s.rowOps dbg desc a) r' ∧
      (Rows dbg desc t r' ∧ ∃ st, RowRun.RowInv r' st) := by
    rintro s r a t ⟨h, st, hinv⟩ hc ht
    obtain ⟨r', hr', hrows⟩ := h.step hinv hc ht
    refine ⟨r', hr', hrows, hr'.reach.inv (I := fun r => ∃ st, RowRun.RowInv r st) (fun _ _ _ hi hc ht => ?_)
      ⟨st, hinv⟩⟩
    obtain ⟨st, hi⟩ := hi
    exact hi.step ⟨hc.1.2, hc.2⟩ ht
  obtain ⟨r, hr, hrows, -⟩ := Steps.simulates hstep hrun ⟨.init, _, .init⟩
  exact ⟨r, hr, hrows⟩

/-- A run on the bytes is a run of a store under snapshot isolation. A scan of a slot that its statement did not
write decodes the values that the store has there. -/
theorem bytes_refine_store {as : List (W × ByteOp)}
    (hrun : Steps (step dbg tableId desc) (fun s a => s.Sheltered dbg tableId desc a ∧ s.noWrap a) init as s) :
    ∃ σ, exec SnapshotStore.step SnapshotStore.init
        (RowRun.storeTrace RowRun.init (traceOf (step dbg tableId desc) (rowOps dbg desc) init as)) = some σ ∧
        σ.Isolated ∧
      s.tm.Ordered (σ.commits.map SnapshotStore.Entry.xid) ∧
      ∀ w tr S, s.tm.transactions w = some tr → s.tm.pc w = .idle → s.aborting tr.xid = false →
      tr.snapshot = some S →
        ∃ b, σ.active tr.xid = some b ∧ ∀ tid, tid.itemid < HeapPage.itemsCount (s.store.page tid.pageno) →
        b.now tid = none →
          (∀ found, s.scanSlot dbg desc tr.xid S tid = .ok found → found.map (fun tuple => tuple.values) =
            b.read σ.commits tid) ∧
          (s.Quiet → s.store.Used tid → ∃ found, s.scanSlot dbg desc tr.xid S tid = .ok found) := by
  obtain ⟨r, hr, hrows⟩ := Rows.run hrun
  obtain ⟨st, σ, hσ, hinv, hsim⟩ := RowRun.Sim.run .init .init hr.exec_guarded
  have horder := hsim.order
  rw [hrows.tm] at horder
  refine ⟨σ, hσ, SnapshotStore.isolated_of_reach (reach_of_exec hσ), horder, fun w tr S hs hidle hab hS => ?_⟩
  rw [← hrows.tm] at hs hidle
  rw [← hrows.aborting] at hab
  obtain ⟨b, hb, -⟩ := hsim.running w tr hs hab (not_commits hinv.trans hs hidle)
  refine ⟨b, hb, fun tid hlt hnow => ⟨fun found hfound => ?_,
    fun hq hused => hrows.scan_returns hinv.slots hinv.max hq hused⟩⟩
  obtain ⟨hscan, -⟩ := hrows.scanSlot hlt hfound
  rw [← hsim.reads hinv hs hidle hab hS hb hnow hscan, Option.map_map]
  rfl

/-- The conditions in a form that a trace can be checked for; it has no evictions. -/
def tame (dbg : Bool) (tableId : Nat) (desc : TupleDescriptor) (s : ByteRun W) (a : W × ByteOp) : Bool :=
  decide ((s.tm.csn + 1 < counter ∧ s.tm.xid + 1 < counter) ∧ (s.store.undoSize : Int) + 1 ≤ UndoSeqNumber.Max) &&
    match a.2 with
    | .insert values pageno => decide (∀ tr ∈ s.tm.transactions a.1, tr.snapshot ≠ none ∧
        ∀ bytes ∈ ((heapTable dbg tableId tr.xid desc).serialize
          ((heapTable dbg tableId tr.xid desc).newHeader values) values).toOption,
          HeapPage.Vacant (s.store.page pageno)
            (HeapPage.upper (s.store.page pageno) - BitUtils.maxAlign bytes.length) bytes.length)
    | .resume | .evict _ => false
    | _ => true

omit [DecidableEq W] in
theorem sheltered_of_tame {a : W × ByteOp} (h : tame dbg tableId desc s a = true) :
    s.Sheltered dbg tableId desc a ∧ s.noWrap a := by
  obtain ⟨w, op⟩ := a
  simp only [tame, Bool.and_eq_true, decide_eq_true_eq] at h
  obtain ⟨⟨hw, hmax⟩, h⟩ := h
  cases op with
  | insert values pageno =>
    have h := of_decide_eq_true h
    exact ⟨⟨fun tr htr => (h tr htr).1, fun tr htr => (h tr htr).2⟩, hw, hmax⟩
  | resume => cases h
  | evict pageno => cases h
  | change tuple change => exact ⟨trivial, hw, hmax⟩
  | _ => exact ⟨trivial, hw, trivial⟩

def byteTuple : HeapTuple Values := ⟨⟨1, UndoSeqNumber.Invalid, ⟨false, false⟩⟩, [some (.scalar 7)], ⟨0, 0⟩⟩

/-- Worker 1 changes the byte of worker 0 and commits, and worker 2 has its snapshot from before. -/
def byteTrace : List (Fin 4 × ByteOp) :=
  let beginAll (w : Fin 4) : List (Fin 4 × ByteOp) :=
    [(w, .trans .beginNewTransaction), (w, .trans .run), (w, .trans .beginNewStatement)]
  let commitAll (w : Fin 4) : List (Fin 4 × ByteOp) := (w, .trans .commit) :: List.replicate 4 (w, .trans .run)
  beginAll 0 ++ [(0, .extend), (0, .insert [some (.scalar 7)] 0)] ++ commitAll 0 ++ beginAll 1 ++ beginAll 2 ++
    [(1, .scan ⟨0, 0⟩), (1, .change byteTuple (.update [some (.scalar 9)]))] ++ commitAll 1

theorem bytes_refine_store_two : ∃ (s : ByteRun (Fin 4)) (σ : SnapshotStore Nat TupleId Values),
    Steps (step true 1 byteDesc) (fun s a => s.Sheltered true 1 byteDesc a ∧ s.noWrap a) init byteTrace s ∧
    exec SnapshotStore.step SnapshotStore.init
      (RowRun.storeTrace RowRun.init (traceOf (step true 1 byteDesc) (rowOps true byteDesc) init byteTrace)) =
      some σ ∧
    s.pageXid true ⟨0, 0⟩ = some 2 ∧ s.scanSlot true byteDesc 3 ⟨6, 0⟩ ⟨0, 0⟩ = .ok (some byteTuple) ∧
    ∃ b, σ.active 3 = some b ∧ (b.now ⟨0, 0⟩ = none → some [some (.scalar 7)] = b.read σ.commits ⟨0, 0⟩) := by
  have h : (exec (guarded (fun s a => tame true 1 byteDesc s a = true) (step true 1 byteDesc)) init byteTrace).map
    (fun s => decide
      ((s.pageXid true ⟨0, 0⟩ = some 2 ∧ s.scanSlot true byteDesc 3 ⟨6, 0⟩ ⟨0, 0⟩ = .ok (some byteTuple)) ∧
        (s.tm.transactions 2 = some ⟨3, .RUNNING, some ⟨6, 0⟩, none⟩ ∧ s.tm.pc 2 = .idle ∧ s.aborting 3 = false) ∧
        0 < HeapPage.itemsCount (s.store.page 0))) = some true := by
    decide +kernel
  obtain ⟨s, hs, htest⟩ := Option.map_eq_some_iff.1 h
  obtain ⟨⟨hpage, hscan⟩, ⟨htr, hidle, hab⟩, hlt⟩ := of_decide_eq_true htest
  have hrun :
    Steps (step true 1 byteDesc) (fun s a => s.Sheltered true 1 byteDesc a ∧ s.noWrap a) init byteTrace s :=
    (Steps.of_guarded hs).mono fun _ _ => sheltered_of_tame
  obtain ⟨σ, hσ, -, -, hreads⟩ := bytes_refine_store hrun
  obtain ⟨b, hb, hread⟩ := hreads 2 _ _ htr hidle hab rfl
  exact ⟨s, σ, hrun, hσ, hpage, hscan, b, hb, fun hnow => (hread ⟨0, 0⟩ hlt hnow).1 _ hscan⟩

end ByteRun

end Mimidb
