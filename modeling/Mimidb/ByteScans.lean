import Mimidb.ByteRows

/-!
# What scans decode

The bytes of a slot and those in an undo record show the version of a row. A
scan of the pages returns what the scan of the rows returns, wherever the walk
along the undo records stops.
-/

namespace Mimidb

open HeapStore

namespace ByteRun

variable {W : Type} {dbg : Bool} {tableId : Nat} {desc : TupleDescriptor} {s : ByteRun W} {r : RowRun W Values}
  {w : W}
  {tid : TupleId} {usn : Int} {bytes : List UInt8} {v image : RowVersion Values} {tuple : HeapTuple Values}
  {found : Option (HeapTuple Values)} {x : Nat} {snapshot : Snapshot}

/-- The bytes start with the version; a deleted one is only a header. -/
structure Shows (dbg : Bool) (desc : TupleDescriptor) (bytes : List UInt8) (v : RowVersion Values) : Prop where
  xid : (HeapPageTupleHeader.ofBytes bytes).xid = v.xid
  undo : (HeapPageTupleHeader.ofBytes bytes).undo = v.undo
  deleted : (HeapPageTupleHeader.ofBytes bytes).flags.Deleted = v.deleted
  version :
    v.deleted = false → ∃ data rest, bytes = data ++ rest ∧ IsVersion dbg desc (.ofBytes bytes) v.values data

/-- Bytes that can be written back to the slot. -/
structure Image (dbg : Bool) (desc : TupleDescriptor) (s : HeapStore) (usn : Int) (tid : TupleId)
    (bytes : List UInt8) (image : RowVersion Values) : Prop where
  shows : Shows dbg desc bytes image
  live : image.deleted = false
  fits : bytes.length ≤ (s.item tid).length
  placed : s.Placed tid
  older : image.undo < usn

inductive Saved (dbg : Bool) (desc : TupleDescriptor) (s : HeapStore) (usn : Int) :
    HeapUndoRecord → RowRecord Values → Prop where
  | delete {table : Nat} {tid : TupleId} (hp : s.Placed tid) :
      Saved dbg desc s usn (.Delete table tid) (.Delete tid)
  | update {table : Nat} {tid : TupleId} {bytes : List UInt8} {image : RowVersion Values}
      (h : Image dbg desc s usn tid bytes image) :
    Saved dbg desc s usn (.Update table tid tid bytes) (.Update tid tid image)
  | insert {table : Nat} {tid : TupleId} {bytes : List UInt8} {image : RowVersion Values}
      (h : Image dbg desc s usn tid bytes image) :
    Saved dbg desc s usn (.Insert table tid bytes) (.Insert tid image)

/-- A tuple in the hands of a statement, as a slot had it. -/
structure Held (dbg : Bool) (desc : TupleDescriptor) (s : HeapStore) (tuple : HeapTuple Values) : Prop where
  placed : s.Placed tuple.tid
  version : ∃ data, IsVersion dbg desc tuple.header tuple.values data ∧ data.length ≤ (s.item tuple.tid).length

def tuples (s : ByteRun W) (w : W) : List (HeapTuple Values) :=
  ((s.calls w).map ByteCall.tuple).toList ++ s.scanned w

/-- The pages and the undo log have these rows. -/
structure Bears (dbg : Bool) (desc : TupleDescriptor) (s : HeapStore) (slots : TupleId → Option (RowVersion Values))
    (undo : Int → Option (RowRecord Values)) : Prop where
  tidy : ∀ n, HeapPage.Tidy (s.page n)
  slot : ∀ tid v, slots tid = some v → s.Placed tid ∧ Shows dbg desc (s.content tid) v
  vacant : ∀ tid, slots tid = none → ¬ s.Placed tid
  -- pages behind the end of the file
  beyond : ∀ tid, s.Placed tid → tid.pageno < s.pagesCount
  record : ∀ usn, Option.Rel (Saved dbg desc s usn) (s.undo usn) (undo usn)
  range : ∀ usn row, undo usn = some row → 0 < usn ∧ usn ≤ s.undoSize

structure Rows (dbg : Bool) (desc : TupleDescriptor) (s : ByteRun W) (r : RowRun W Values) : Prop where
  tm : r.tm = s.tm
  log : r.log = s.log
  aborting : r.aborting = s.aborting
  visited : r.visited = s.visited
  scanned : ∀ w, r.scanned w = (s.scanned w).map rowOf
  calls : ∀ w, r.calls w = (s.calls w).map (callOf dbg desc)
  dead : ∀ tid, r.dead tid = false
  pages : Bears dbg desc s.store r.slots r.undo
  held : ∀ w, ∀ tuple ∈ s.tuples w, Held dbg desc s.store tuple

theorem Bears.saved {s : HeapStore} {slots : TupleId → Option (RowVersion Values)}
    {undo : Int → Option (RowRecord Values)} (h : Bears dbg desc s slots undo) {record : HeapUndoRecord}
    (hr : s.undo usn = some record) :
    ∃ row, undo usn = some row ∧ Saved dbg desc s usn record row := by
  have hrel := h.record usn
  rw [hr] at hrel
  cases hu : undo usn with
  | none =>
    rw [hu] at hrel
    cases hrel
  | some row =>
    rw [hu] at hrel
    cases hrel with
    | some hsaved => exact ⟨row, rfl, hsaved⟩

theorem Bears.logged {s : HeapStore} {slots : TupleId → Option (RowVersion Values)}
    {undo : Int → Option (RowRecord Values)} (h : Bears dbg desc s slots undo) {row : RowRecord Values}
    (hr : undo usn = some row) :
    ∃ record, s.undo usn = some record ∧ Saved dbg desc s usn record row := by
  have hrel := h.record usn
  rw [hr] at hrel
  cases hu : s.undo usn with
  | none =>
    rw [hu] at hrel
    cases hrel
  | some record =>
    rw [hu] at hrel
    cases hrel with
    | some hsaved => exact ⟨record, rfl, hsaved⟩

/-! ## Versions -/

theorem Shows.of_version {header : HeapPageTupleHeader} {values : Values} {data : List UInt8}
    (h : IsVersion dbg desc header values data)
    (rest : List UInt8) : Shows dbg desc (data ++ rest) ⟨header.xid, header.undo, false, values⟩ := by
  have hbytes := h.ofBytes_eq rest
  refine ⟨?_, ?_, ?_, fun _ => ⟨data, rest, rfl, ?_⟩⟩ <;> rw [hbytes]
  · rw [h.flags]
  · exact h

theorem Shows.build (h : Shows dbg desc bytes v) (hlive : v.deleted = false) {c : HeapView Values}
    (hc : c.deserialize = TupleSerializer.deserialize dbg desc) (rest : List UInt8) (size : Nat) (tid : TupleId) :
    c.buildHeapTuple (bytes ++ rest) size tid = .ok ⟨.ofBytes bytes, v.values, tid⟩ := by
  obtain ⟨data, rest', rfl, hv⟩ := h.version hlive
  rw [List.append_assoc]
  exact hv.build_eq hc _ size tid

theorem Shows.rowOf_eq (h : Shows dbg desc bytes v) : rowOf ⟨.ofBytes bytes, v.values, tid⟩ = ⟨tid, v⟩ := by
  unfold rowOf
  rw [h.xid, h.undo, h.deleted]

theorem Shows.held {s : HeapStore} (h : Shows dbg desc bytes v) (hlive : v.deleted = false) (hp : s.Placed tid)
    (hfits : bytes.length ≤ (s.item tid).length) : Held dbg desc s ⟨.ofBytes bytes, v.values, tid⟩ := by
  obtain ⟨data, rest, hbytes, hv⟩ := h.version hlive
  refine ⟨hp, data, hv, Nat.le_trans ?_ hfits⟩
  rw [hbytes, List.length_append]
  exact Nat.le_add_right _ _

/-! ## The walk -/

theorem Rows.visible (h : Rows dbg desc s r) {header : HeapPageTupleHeader} {visible : Bool}
    (hx : header.xid = v.xid)
    (hu : header.undo = v.undo) (hv : (s.store.view dbg desc s.tm.history x).tupleIsVisible snapshot header =
      .ok visible) :
    r.tupleIsVisible x snapshot v = some visible := by
  unfold HeapView.tupleIsVisible at hv
  unfold RowRun.tupleIsVisible
  rw [h.tm, ← hx, ← hu]
  by_cases hown : header.xid = x
  · have hmine : header.xid = (s.store.view dbg desc s.tm.history x).myXid := hown
    rw [if_pos hmine] at hv
    cases hv
    rw [if_pos hown]
    rfl
  · have hother : ¬ header.xid = (s.store.view dbg desc s.tm.history x).myXid := hown
    rw [if_neg hother] at hv
    obtain ⟨csn, hcsn, hv⟩ := bind_eq_ok.1 hv
    unfold HeapView.getTransactionCsn at hcsn
    split_ifs at hcsn with hc
    cases hcsn
    obtain ⟨_, _, hv⟩ := bind_eq_ok.1 hv
    cases hv
    have hc' : ¬ s.tm.history header.xid = CommitSeqNumber.Committing := hc
    rw [if_neg hown, if_neg hc']
    rfl

theorem Rows.imageTuple (h : Rows dbg desc s r) (himage : Image dbg desc s.store usn tid bytes image) {undo : Int}
    (hi : (s.store.view dbg desc s.tm.history x).imageTuple snapshot bytes tid = .ok (undo, found)) :
    undo = image.undo ∧ r.tupleIsVisible x snapshot image = some found.isSome ∧
      ∀ tuple ∈ found, rowOf tuple = ⟨tid, image⟩ ∧ Held dbg desc s.store tuple := by
  have hshows := himage.shows
  unfold HeapView.imageTuple at hi
  split_ifs at hi with hsize
  · cases hi
  · obtain ⟨visible, hv, hi⟩ := bind_eq_ok.1 hi
    have hvis := h.visible hshows.xid hshows.undo hv
    cases visible with
    | true =>
      have hbuild := hshows.build himage.live (c := s.store.view dbg desc s.tm.history x) rfl [] bytes.length tid
      rw [List.append_nil] at hbuild
      rw [if_pos rfl, hbuild] at hi
      cases hi
      refine ⟨hshows.undo, hvis, fun tuple ht => ?_⟩
      cases ht
      exact ⟨hshows.rowOf_eq, hshows.held himage.live himage.placed himage.fits⟩
    | false =>
      cases hi
      exact ⟨hshows.undo, hvis, by simp⟩

theorem Rows.findVisible (h : Rows dbg desc s r) {fuel fuel' : Nat} (hfuel : usn.toNat < fuel')
    (hf : (s.store.view dbg desc s.tm.history x).findVisibleTuplePage snapshot fuel usn = .ok found) :
    r.findVisible x snapshot fuel' usn = some (found.map rowOf) ∧ ∀ tuple ∈ found, Held dbg desc s.store tuple := by
  obtain ⟨fuel', rfl⟩ : ∃ n, fuel' = n + 1 := ⟨fuel' - 1, by omega⟩
  induction fuel generalizing usn fuel' with
  | zero =>
    unfold HeapView.findVisibleTuplePage at hf
    split_ifs at hf with hvalid
    cases hf
    rw [RowRun.findVisible, if_neg hvalid]
    exact ⟨rfl, by simp⟩
  | succ fuel ih =>
    by_cases hvalid : UndoSeqNumber.isValid usn = true
    · rw [HeapView.findVisibleTuplePage, if_pos hvalid] at hf
      cases hrec : s.store.undo usn with
      | none =>
        have hget : (s.store.view dbg desc s.tm.history x).getRecord usn =
            .error (.runtimeError "could not read UndoLogRecordHeader") := by
          simp only [view, hrec]
        rw [hget] at hf
        cases hf
      | some record =>
        have hget : (s.store.view dbg desc s.tm.history x).getRecord usn = .ok (.heap record) := by
          simp only [view, hrec]
        rw [hget] at hf
        obtain ⟨row, hrow, hsaved⟩ := h.pages.saved hrec
        have hpos := (h.pages.range usn row hrow).1
        rw [RowRun.findVisible, if_pos hvalid, hrow]
        -- the walk stops at this image or goes on to an older record
        have hnext : ∀ {tid bytes image undo res}, Image dbg desc s.store usn tid bytes image →
            (s.store.view dbg desc s.tm.history x).imageTuple snapshot bytes tid = .ok (undo, res) →
            (∀ tuple, res = some tuple → found = some tuple) →
            (res = none → (s.store.view dbg desc s.tm.history x).findVisibleTuplePage snapshot fuel undo =
              .ok found) →
            (do if ← r.tupleIsVisible x snapshot image then return some ⟨tid, image⟩
                else r.findVisible x snapshot fuel' image.undo) = some (found.map rowOf) ∧ ∀ tuple ∈ found,
                  Held dbg desc s.store tuple := by
          intro tid bytes image undo res himage hi hsome hnone
          obtain ⟨rfl, hvis, hres⟩ := h.imageTuple himage hi
          rw [hvis]
          cases res with
          | some tuple =>
            obtain rfl := hsome tuple rfl
            obtain ⟨hrow, hheld⟩ := hres tuple rfl
            refine ⟨by simp [hrow], fun t ht => ?_⟩
            cases ht
            exact hheld
          | none =>
            have holder := himage.older
            obtain ⟨fuel', rfl⟩ : ∃ n, fuel' = n + 1 := ⟨fuel' - 1, by omega⟩
            exact ih (hnone rfl) fuel' (by omega)
        cases hsaved with
        | delete =>
          cases hf
          exact ⟨rfl, by simp⟩
        | @update _ tid bytes image himage =>
          simp only [ne_eq, not_true_eq_false, if_false]
          cases hi : (s.store.view dbg desc s.tm.history x).imageTuple snapshot bytes tid with
          | error e => simp [bind, Except.bind, hi] at hf
          | ok res =>
            obtain ⟨undo, res⟩ := res
            refine hnext himage hi (fun t ht => ?_) fun ht => ?_ <;> subst ht
            · simpa [bind, Except.bind, hi, pure, Except.pure, eq_comm] using hf
            · simpa [bind, Except.bind, hi] using hf
        | @insert _ tid bytes image himage =>
          cases hi : (s.store.view dbg desc s.tm.history x).imageTuple snapshot bytes tid with
          | error e => simp [bind, Except.bind, hi] at hf
          | ok res =>
            obtain ⟨undo, res⟩ := res
            refine hnext himage hi (fun t ht => ?_) fun ht => ?_ <;> subst ht
            · simpa [bind, Except.bind, hi, pure, Except.pure, eq_comm] using hf
            · simpa [bind, Except.bind, hi] using hf
    · rw [HeapView.findVisibleTuplePage, if_neg hvalid] at hf
      cases hf
      rw [RowRun.findVisible, if_neg hvalid]
      exact ⟨rfl, by simp⟩

/-! ## Slots -/

theorem itemTuple_unused {page : HeapStore} {history : Nat → Nat} (hn : (page.item tid).isNormal = false)
    (hs : (page.view dbg desc history x).itemTuple snapshot tid.pageno tid.itemid = .ok found) : found = none := by
  unfold HeapView.itemTuple at hs
  obtain ⟨item, hi, hs⟩ := bind_eq_ok.1 hs
  obtain rfl := HeapPage.getItemId_ok hi
  have hn' : (HeapPage.itemAt ((page.view dbg desc history x).page tid.pageno) tid.itemid).isNormal = false := hn
  simp only [hn', Bool.not_false, if_true] at hs
  cases hs
  rfl

/-- A scan of the bytes returns what the scan of the rows does. -/
theorem Rows.scanSlot (h : Rows dbg desc s r) (hlt : tid.itemid < HeapPage.itemsCount (s.store.page tid.pageno))
    (hs : s.scanSlot dbg desc x snapshot tid = .ok found) :
    r.scanSlot x snapshot tid = some (found.map rowOf) ∧ ∀ tuple ∈ found, Held dbg desc s.store tuple := by
  unfold ByteRun.scanSlot at hs
  unfold RowRun.scanSlot
  rw [h.dead]
  cases hslot : r.slots tid with
  | none =>
    have hn : (s.store.item tid).isNormal = false := by
      by_contra hn
      exact h.pages.vacant tid hslot ((h.pages.tidy _).placed _ hlt (by simpa [HeapStore.item] using hn))
    obtain rfl := itemTuple_unused hn hs
    exact ⟨rfl, by simp⟩
  | some v =>
    obtain ⟨hp, hshows⟩ := h.pages.slot tid v hslot
    rw [itemTuple_eq hp] at hs
    obtain ⟨visible, hv, hs⟩ := bind_eq_ok.1 hs
    simp only [h.visible hshows.xid hshows.undo hv]
    cases visible with
    | true =>
      rw [hshows.deleted] at hs
      cases hd : v.deleted with
      | true =>
        simp only [hd, if_true] at hs
        cases hs
        exact ⟨by simp, by simp⟩
      | false =>
        obtain ⟨rest, hrest⟩ := hp.slotTuple_eq dbg desc s.tm.history x
        have hbuild :=
          hshows.build hd (c := s.store.view dbg desc s.tm.history x) rfl rest (s.store.item tid).length tid
        rw [← hrest] at hbuild
        simp only [hd, if_true, hbuild] at hs
        cases hs
        refine ⟨by simp [hshows.rowOf_eq], fun tuple ht => ?_⟩
        cases ht
        exact hshows.held hd hp (Nat.le_of_eq (content_length _ _))
    | false =>
      simp only [Bool.false_eq_true, if_false] at hs
      rw [hshows.undo] at hs
      have := h.findVisible (Nat.lt_succ_self v.undo.toNat) hs
      simpa using this

/-! ## Scans return -/

variable {st : RowRun.Stacks Values} {rest newer : List (RowVersion Values)} {history : Nat → Nat}
  {page : HeapStore}

/-- No transaction is between the mark of its commit and its number. -/
def Quiet (s : ByteRun W) : Prop := ∀ x, s.tm.history x ≠ CommitSeqNumber.Committing

theorem isVisible_returns (page : HeapStore) (dbg : Bool) (desc : TupleDescriptor) (x : Nat) (snapshot : Snapshot)
    {header : HeapPageTupleHeader} (hb : history header.xid ≠ CommitSeqNumber.Invalid)
    (hq : history header.xid ≠ CommitSeqNumber.Committing) :
    ∃ visible, (page.view dbg desc history x).tupleIsVisible snapshot header = .ok visible := by
  by_cases hx : header.xid = x
  · have hown : header.xid = (page.view dbg desc history x).myXid := hx
    unfold HeapView.tupleIsVisible
    rw [if_pos hown]
    exact ⟨_, rfl⟩
  · rw [tupleIsVisible_other hx hb, if_neg hq]
    exact ⟨_, rfl⟩

theorem Image.returns (h : Image dbg desc page usn tid bytes image) (x : Nat) (snapshot : Snapshot)
    (hb : history image.xid ≠ CommitSeqNumber.Invalid) (hq : history image.xid ≠ CommitSeqNumber.Committing) :
    ∃ found, (page.view dbg desc history x).imageTuple snapshot bytes tid = .ok (image.undo, found) := by
  have hshows := h.shows
  rw [← hshows.xid] at hb hq
  obtain ⟨visible, hv⟩ := isVisible_returns page dbg desc x snapshot hb hq
  obtain ⟨data, rest, hbytes, hversion⟩ := hshows.version h.live
  have hsize : ¬ bytes.length < HeapPageTupleHeader.size := by
    have := hversion.size_le
    rw [hbytes, List.length_append]
    omega
  have hbuild := hshows.build h.live (c := page.view dbg desc history x) rfl [] bytes.length tid
  rw [List.append_nil] at hbuild
  unfold HeapView.imageTuple
  simp only [if_neg hsize, hv]
  cases visible with
  | true =>
    refine ⟨some ⟨.ofBytes bytes, image.values, tid⟩, ?_⟩
    rw [← hshows.undo]
    simp only [bind, Except.bind, if_true, hbuild]
    rfl
  | false =>
    refine ⟨none, ?_⟩
    rw [← hshows.undo]
    rfl

theorem Rows.below (h : Rows dbg desc s r) (hinv : RowRun.SlotsInv r st) (hst : st tid = newer ++ v :: rest) :
    (rest = [] ∧ v.undo = UndoSeqNumber.Invalid) ∨ ∃ b older record bytes, rest = b :: older ∧
    s.store.undo v.undo = some record ∧
      record.RestoresAt tid bytes ∧ Image dbg desc s.store v.undo tid bytes b ∧ 0 < v.undo ∧
      v.undo ≤ s.store.undoSize := by
  cases rest with
  | nil =>
    obtain ⟨-, h0 | ⟨old, b, hr, hne, -⟩⟩ := hinv.bottom tid v (by simp [hst])
    · exact .inl ⟨rfl, h0⟩
    · obtain ⟨record, -, hsaved⟩ := h.pages.logged hr
      cases hsaved
      exact absurd rfl hne
  | cons b older =>
    obtain ⟨row, hr, hsaves⟩ := (hinv.above hst).record
    obtain ⟨hpos, hle⟩ := h.pages.range _ row hr
    obtain ⟨record, hrec, hsaved⟩ := h.pages.logged hr
    refine .inr ⟨b, older, record, ?_⟩
    cases hsaves with
    | update =>
      cases hsaved with
      | update himage => exact ⟨_, rfl, hrec, .inl ⟨_, rfl⟩, himage, hpos, hle⟩
    | delete =>
      cases hsaved with
      | insert himage => exact ⟨_, rfl, hrec, .inr ⟨_, rfl⟩, himage, hpos, hle⟩
    | move hne =>
      cases hsaved
      exact absurd rfl hne

theorem Rows.walk_returns (h : Rows dbg desc s r) (hinv : RowRun.SlotsInv r st)
    (hmax : r.tm.usn ≤ UndoSeqNumber.Max) (hq : s.Quiet) {fuel : Nat} (hst : st tid = newer ++ v :: rest)
    (hf : v.undo ≤ fuel) :
    ∃ found, (s.store.view dbg desc s.tm.history x).findVisibleTuplePage snapshot fuel v.undo = .ok found := by
  induction rest generalizing newer v fuel with
  | nil =>
    obtain ⟨-, h0⟩ | ⟨b, older, -, -, hnil, -⟩ := h.below hinv hst
    · rw [h0]
      exact ⟨none, findVisible_not_valid rfl fuel⟩
    · cases hnil
  | cons b rest ih =>
    obtain ⟨hnil, -⟩ | ⟨b', older, record, bytes, hrest, hrec, hres, himage, hpos, hle⟩ := h.below hinv hst
    · cases hnil
    · obtain ⟨rfl, rfl⟩ := List.cons.inj hrest
      obtain ⟨fuel, rfl⟩ : ∃ n, fuel = n + 1 := ⟨fuel - 1, by omega⟩
      have holder := himage.older
      have hbegun := hinv.begun tid b (by simp [hst])
      rw [h.tm] at hbegun
      obtain ⟨found, hfound⟩ := himage.returns x snapshot hbegun (hq _)
      have hst' : st tid = (newer ++ [v]) ++ b :: rest := by simp [hst]
      obtain ⟨next, hnext⟩ :
        ∃ next, (s.store.view dbg desc s.tm.history x).findVisibleTuplePage snapshot fuel b.undo = .ok next :=
        ih hst' (by omega)
      have hvalid : UndoSeqNumber.isValid v.undo = true :=
        isValid_pos hpos (Int.le_trans (hinv.undos tid v (by simp [hst])) hmax)
      have hget : (s.store.view dbg desc s.tm.history x).getRecord v.undo = .ok (.heap record) := by
        simp only [view, hrec]
      rw [HeapView.findVisibleTuplePage, if_pos hvalid, hget]
      refine ⟨found.elim next some, ?_⟩
      rcases hres with ⟨table, rfl⟩ | ⟨table, rfl⟩ <;>
        cases found <;> simp only [bind, Except.bind, ne_eq, not_true_eq_false, if_false, hfound] <;>
          first | exact hnext | rfl

/-- A scan of a slot with a tuple returns while nobody commits. -/
theorem Rows.scan_returns (h : Rows dbg desc s r) (hinv : RowRun.SlotsInv r st)
    (hmax : r.tm.usn ≤ UndoSeqNumber.Max) (hq : s.Quiet)
    (hused : s.store.Used tid) : ∃ found, s.scanSlot dbg desc x snapshot tid = .ok found := by
  unfold ByteRun.scanSlot
  have hp : s.store.Placed tid := (h.pages.tidy _).placed _ hused.1 hused.2
  cases hst : st tid with
  | nil => exact absurd hp (h.pages.vacant tid (by rw [hinv.page, hst, List.head?_nil]))
  | cons v rest =>
    have hst' : st tid = [] ++ v :: rest := hst
    obtain ⟨-, hshows⟩ := h.pages.slot tid v (by rw [hinv.page, hst, List.head?_cons])
    have hbegun := hinv.begun tid v (by simp [hst])
    rw [h.tm, ← hshows.xid] at hbegun
    obtain ⟨visible, hvisible⟩ := isVisible_returns s.store dbg desc x snapshot hbegun (hq _)
    rw [itemTuple_eq hp, hvisible]
    cases visible with
    | true =>
      cases hd : v.deleted with
      | true =>
        rw [← hshows.deleted] at hd
        exact ⟨none, if_pos hd⟩
      | false =>
        obtain ⟨bytes, hbytes⟩ := hp.slotTuple_eq dbg desc s.tm.history x
        rw [hshows.build hd (c := s.store.view dbg desc s.tm.history x) rfl bytes _ tid] at hbytes
        rw [← hshows.deleted] at hd
        refine ⟨some ⟨.ofBytes (s.store.content tid), v.values, tid⟩, ?_⟩
        show (if (HeapPageTupleHeader.ofBytes (s.store.content tid)).flags.Deleted then _ else _) = _
        rw [hd, hbytes]
        rfl
    | false =>
      rw [hshows.undo]
      refine h.walk_returns hinv hmax hq hst' ?_
      obtain ⟨-, h0⟩ | ⟨-, -, -, -, -, -, -, -, -, hle⟩ := h.below hinv hst'
      · rw [h0]
        exact Int.natCast_nonneg _
      · exact hle

end ByteRun

end Mimidb
