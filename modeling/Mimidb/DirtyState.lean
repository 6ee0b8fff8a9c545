import Mimidb.BufferCalls
import Mimidb.Run

/-!
# The dirty state of an entry

`Dirty` and `IoError` are one bit, which `TerminateBufferIO` clears and a failed
operation sets. A page that is read is clean after it and a page that could not be
read is dirty, so the next flush writes data that is not valid.
-/

namespace Mimidb

/-- `IoError` has the value of `Dirty`. -/
def EntryState.ioError (st : EntryState) : Bool := st.dirty

namespace BufferManager

variable {β : Type}

def markDirty (e : Nat) : PoolM β Unit := do
  let st ← getState e
  setState e { st with dirty := true }

/-! ## File operations with their outcome -/

/-- The next file operation fails. -/
def FailsNext (s : BufferManager β) : Prop := s.io.head? = some false

/-- The page of the entry cannot be read. -/
def Unreadable (s : BufferManager β) (e : Nat) : Prop := s.FailsNext ∨ (s.tag e).pageno = PageNumber.Invalid

section
variable {dbg : Bool} {s : BufferManager β} {e b : Nat} {tag : PageTag}

theorem nextIo_fails (h : s.FailsNext) :
    ∃ io what, nextIo s = (.error (.runtimeError what), { s with io := io }) := by
  unfold FailsNext at h
  cases hio : s.io with
  | nil => rw [hio] at h; cases h
  | cons ok io =>
    rw [hio] at h
    cases h
    exact ⟨io, _, by simp [nextIo, Fallible.bind_apply, hio]; rfl⟩

theorem nextIo_succeeds (h : ¬ s.FailsNext) : ∃ io, nextIo s = (.ok (), { s with io := io }) := by
  unfold FailsNext at h
  cases hio : s.io with
  | nil =>
    have heq : ({ s with io := [] } : BufferManager β) = s := by rw [← hio]
    exact ⟨[], by rw [heq]; simp [nextIo, Fallible.bind_apply, hio]⟩
  | cons ok io =>
    rw [hio] at h
    cases ok with
    | true => exact ⟨io, by simp [nextIo, Fallible.bind_apply, hio]⟩
    | false => exact absurd rfl h

theorem readPage_fails (h : s.FailsNext ∨ tag.pageno = PageNumber.Invalid) :
    ∃ io what, readPage tag s = (.error (.runtimeError what), { s with io := io }) := by
  by_cases hn : s.FailsNext
  · obtain ⟨io, what, hrun⟩ := nextIo_fails hn
    exact ⟨io, what, by simp [readPage, Fallible.bind_apply, hrun]⟩
  · obtain ⟨io, hrun⟩ := nextIo_succeeds hn
    have hp : tag.pageno = PageNumber.Invalid := h.resolve_left hn
    exact ⟨io, _, by simp [readPage, Fallible.bind_apply, hrun, hp]; rfl⟩

theorem readPage_succeeds (h : ¬ (s.FailsNext ∨ tag.pageno = PageNumber.Invalid)) :
    ∃ io, readPage tag s = (.ok (s.disk tag), { s with io := io }) := by
  rw [not_or] at h
  obtain ⟨io, hrun⟩ := nextIo_succeeds h.1
  exact ⟨io, by simp [readPage, Fallible.bind_apply, hrun, h.2]⟩

/-- The place of a page in its file. -/
def offset (tag : PageTag) : Nat := Config.PageSize * tag.pageno % counter

theorem nextIo_quiet (h : s.io = []) : nextIo s = (.ok (), s) := by
  simp only [nextIo, Fallible.bind_apply, Fallible.get_apply, h, Fallible.pure_apply]

theorem writePage_quiet {page : β} (h : s.io = []) (hp : tag.pageno ≠ PageNumber.Invalid) :
    writePage tag page s = (.ok (), { s with
      disk := Function.update s.disk ⟨tag.relid, offset tag / Config.PageSize⟩ page
      fileSize :=
        Function.update s.fileSize tag.relid (max (s.fileSize tag.relid) (offset tag + Config.PageSize)) }) := by
  simp only [writePage, Fallible.bind_apply, nextIo_quiet h, if_neg hp, Fallible.modify_apply, offset]

/-! ## The calls of an entry -/

theorem shouldStartIo_flush {r : Nat} {tv it fl d dv : Bool} :
    shouldStartIo dbg e false (s.withState e ⟨r, false, tv, it, fl, false, d, dv⟩) =
      (.ok d, s.withState e ⟨r, false, tv, it, fl, d, d, dv⟩) := by
  cases d <;> simp [shouldStartIo, Fallible.bind_apply]

theorem flushBuffer_clean (dbg : Bool) (r : Nat) (tv it fl dv : Bool) :
    flushBuffer dbg e (s.withState e ⟨r, false, tv, it, fl, false, false, dv⟩) =
      (.ok (), s.withState e ⟨r, false, tv, it, fl, false, false, dv⟩) := by
  simp [flushBuffer, Fallible.bind_apply, shouldStartIo_flush]

/-- With no operation that fails, a dirty page is written to its place. -/
theorem flushBuffer_writes (dbg : Bool) (r : Nat) (tv it fl dv : Bool) (hb : s.buffer e = some b)
    (h : s.io = []) (hp : (s.tag e).pageno ≠ PageNumber.Invalid) :
    flushBuffer dbg e (s.withState e ⟨r, false, tv, it, fl, false, true, dv⟩) =
      (.ok (), ({ s with
        disk := Function.update s.disk ⟨(s.tag e).relid, offset (s.tag e) / Config.PageSize⟩ (s.contents b)
        fileSize := Function.update s.fileSize (s.tag e).relid
          (max (s.fileSize (s.tag e).relid) (offset (s.tag e) + Config.PageSize)) } : BufferManager β).withState e
        ⟨r, false, tv, it, fl, false, false, true⟩) := by
  let v := s.withState e ⟨r, false, tv, it, fl, true, true, dv⟩
  let w : BufferManager β := { s with
    disk := Function.update s.disk ⟨(s.tag e).relid, offset (s.tag e) / Config.PageSize⟩ (s.contents b)
    fileSize := Function.update s.fileSize (s.tag e).relid
      (max (s.fileSize (s.tag e).relid) (offset (s.tag e) + Config.PageSize)) }
  have hstart : shouldStartIo dbg e false (s.withState e ⟨r, false, tv, it, fl, false, true, dv⟩) = (.ok true, v) :=
    shouldStartIo_flush
  have hatt : attached dbg e v = (.ok b, v) := attached_ok hb
  have hw : writePage (v.tag e) (v.contents b) v =
      (.ok (), w.withState e ⟨r, false, tv, it, fl, true, true, dv⟩) :=
    writePage_quiet h hp
  have hnext : nextIo (w.withState e ⟨r, false, tv, it, fl, true, true, dv⟩) = (.ok (), _) := nextIo_quiet h
  have hterm : terminateBufferIo dbg e false true (w.withState e ⟨r, false, tv, it, fl, true, true, dv⟩) =
      (.ok (), w.withState e ⟨r, false, tv, it, fl, false, false, dv || true⟩) :=
    terminateBufferIo_with dbg false true hb
  rw [flushBuffer, Fallible.bind_ok hstart]
  simp only [Bool.not_true, Bool.false_eq_true, if_false, Fallible.bind_apply, hatt, Fallible.tryCatch_apply,
    Fallible.get_apply, hw, hnext]
  rw [hterm, Bool.or_true]

theorem flushBuffer_dirty (dbg : Bool) (r : Nat) (tv it fl dv : Bool) (hb : s.buffer e = some b) :
    ∃ disk fileSize io, flushBuffer dbg e (s.withState e ⟨r, false, tv, it, fl, false, true, dv⟩) =
      (.ok (), { s.withState e ⟨r, false, tv, it, fl, false, false, true⟩ with
        disk := disk, fileSize := fileSize, io := io }) ∨
    ∃ what, flushBuffer dbg e (s.withState e ⟨r, false, tv, it, fl, false, true, dv⟩) =
      (.error (.runtimeError what),
        { s.withState e ⟨r, false, tv, it, fl, false, true, dv⟩ with
          disk := disk, fileSize := fileSize, io := io }) := by
  have hatt : attached dbg e (s.withState e ⟨r, false, tv, it, fl, true, true, dv⟩) = (.ok b, _) := attached_ok hb
  -- the state in which the I/O is terminated, whatever the operations did
  have hterm : ∀ (disk : PageTag → β) fileSize io setError setValid, terminateBufferIo dbg e setError setValid
      { s.withState e ⟨r, false, tv, it, fl, true, true, dv⟩ with disk := disk, fileSize := fileSize, io := io } =
      (.ok (), { s.withState e ⟨r, false, tv, it, fl, false, setError, dv || setValid⟩ with
        disk := disk, fileSize := fileSize, io := io }) := by
    intro disk fileSize io setError setValid
    exact terminateBufferIo_with (s := { s with disk := disk, fileSize := fileSize, io := io }) dbg setError
      setValid hb
  obtain ⟨res, disk, fileSize, io, h, rfl | ⟨what, rfl⟩⟩ :=
    writePage_cases (s.withState e ⟨r, false, tv, it, fl, true, true, dv⟩) (s.tag e) (s.contents b)
  · obtain ⟨io', h' | ⟨h', -⟩⟩ := nextIo_cases
      { s.withState e ⟨r, false, tv, it, fl, true, true, dv⟩ with disk := disk, fileSize := fileSize, io := io }
    · refine ⟨disk, fileSize, io', .inl ?_⟩
      have hok := hterm disk fileSize io' false true
      rw [Bool.or_true] at hok
      simp only [flushBuffer, Fallible.bind_apply, shouldStartIo_flush, Bool.not_true, Bool.false_eq_true, if_false,
        hatt, Fallible.tryCatch_apply, Fallible.get_apply, withState_tag, withState_contents, h, h', hok]
    · refine ⟨disk, fileSize, io', .inr ⟨"file operation failed", ?_⟩⟩
      have herr := hterm disk fileSize io' true false
      rw [Bool.or_false] at herr
      simp only [flushBuffer, Fallible.bind_apply, shouldStartIo_flush, Bool.not_true, Bool.false_eq_true, if_false,
        hatt, Fallible.tryCatch_apply, Fallible.get_apply, withState_tag, withState_contents, h, h', herr,
        Fallible.throw_apply]
  · refine ⟨disk, fileSize, io, .inr ⟨what, ?_⟩⟩
    have herr := hterm disk fileSize io true false
    rw [Bool.or_false] at herr
    simp only [flushBuffer, Fallible.bind_apply, shouldStartIo_flush, Bool.not_true, Bool.false_eq_true, if_false,
      hatt,
      Fallible.tryCatch_apply, Fallible.get_apply, withState_tag, withState_contents, h, herr, Fallible.throw_apply]

end

end BufferManager

/-! ## Runs -/

open BufferManager

inductive EntryOp where
  | markDirty
  | readBuffer
  | flushBuffer
  deriving DecidableEq, Repr

structure EntryRun (β : Type) where
  pool : BufferManager β
  /-- The page was marked dirty and no flush has succeeded since. -/
  marked : Bool

namespace EntryRun

variable {β : Type}

def call (dbg : Bool) (e : Nat) : EntryOp → PoolM β Unit
  | .markDirty => markDirty e
  | .readBuffer => readBuffer dbg e
  | .flushBuffer => flushBuffer dbg e

/-- Whether the page is marked after a call. -/
def marks (marked : Bool) : EntryOp → Except Fault Unit → Bool
  | .markDirty, _ => true
  | .flushBuffer, .ok _ => false
  | _, _ => marked

def step (dbg : Bool) (e : Nat) (s : EntryRun β) (op : EntryOp) : Option (EntryRun β) :=
  some ⟨(call dbg e op s.pool).2, marks s.marked op (call dbg e op s.pool).1⟩

/-- The entry has a buffer and nobody works on it; the two bits of its state agree with the history. -/
structure Tracked (e : Nat) (s : EntryRun β) : Prop where
  buffer : ∃ b, s.pool.buffer e = some b
  unlocked : (s.pool.state e).locked = false
  idle : (s.pool.state e).ioInProgress = false
  dirty : (s.pool.state e).dirty = s.marked

/-- A step that keeps the bits apart: a page is read into a clean entry, or not at all into a dirty one;
a dirty page is valid when it is flushed. -/
def KeepsApart (e : Nat) (s : EntryRun β) : EntryOp → Prop
  | .markDirty => True
  | .readBuffer => (s.pool.state e).dataValid = true ∨ ((s.pool.state e).dirty = true ↔ s.pool.Unreadable e)
  | .flushBuffer => (s.pool.state e).dirty = true → (s.pool.state e).dataValid = true

/-- A call ends or throws; a failed one is recorded and leaves the dirty state, and
data that is not valid is not written. -/
structure Sound (e : Nat) (op : EntryOp) (s : BufferManager β) (r : Except Fault Unit × BufferManager β) :
    Prop where
  ends : r.1 = .ok () ∨ ∃ what, r.1 = .error (.runtimeError what)
  recorded : r.1 ≠ .ok () → (r.2.state e).ioError = true ∧ (r.2.state e).dirty = (s.state e).dirty
  written : op = .flushBuffer → (s.state e).dataValid = false → r.2 = s

section
variable {dbg : Bool} {e : Nat} {s t : EntryRun β} {op : EntryOp}

theorem Tracked.pool_eq (h : Tracked e s) :
    ∃ r tv it fl dv, s.pool.state e = ⟨r, false, tv, it, fl, false, s.marked, dv⟩ ∧
    s.pool.withState e ⟨r, false, tv, it, fl, false, s.marked, dv⟩ = s.pool := by
  have hst :
    s.pool.state e = ⟨(s.pool.state e).refCount, false, (s.pool.state e).tagValid, (s.pool.state e).isTopList,
      (s.pool.state e).isFrequencyList, false, s.marked, (s.pool.state e).dataValid⟩ := by
    cases hs : s.pool.state e with
    | mk r lo tv it fl io d dv =>
      have h1 := h.unlocked
      have h2 := h.idle
      have h3 := h.dirty
      rw [hs] at h1 h2 h3
      cases h1
      cases h2
      cases h3
      rfl
  exact ⟨_, _, _, _, _, hst, withState_eq hst⟩

theorem Tracked.of_call {r : Except Fault Unit} {u : BufferManager β} {b : Nat}
    (hrun : call dbg e op s.pool = (r, u)) (hb : u.buffer e = some b) (hlock : (u.state e).locked = false)
    (hidle : (u.state e).ioInProgress = false) (hdirty : (u.state e).dirty = marks s.marked op r)
    (hstep : step dbg e s op = some t) : Tracked e t := by
  unfold step at hstep
  rw [hrun] at hstep
  cases hstep
  exact ⟨⟨b, hb⟩, hlock, hidle, hdirty⟩

theorem Sound.of_call {r : Except Fault Unit} {u : BufferManager β} (hrun : call dbg e op s.pool = (r, u))
    (h : Sound e op s.pool (r, u)) : Sound e op s.pool (call dbg e op s.pool) := by
  rwa [hrun]

theorem markDirty_step (h : Tracked e s) : Sound e .markDirty s.pool (call dbg e .markDirty s.pool) ∧
    ∀ t, step dbg e s .markDirty = some t → Tracked e t := by
  obtain ⟨b, hb⟩ := h.buffer
  have hrun : call dbg e .markDirty s.pool = (.ok (), s.pool.withState e { s.pool.state e with dirty := true }) :=
    rfl
  refine ⟨.of_call hrun ⟨.inl rfl, fun hne => absurd rfl hne, nofun⟩, fun t => .of_call hrun hb ?_ ?_ ?_⟩
  · simp [h.unlocked]
  · simp [h.idle]
  · simp [marks]

theorem readBuffer_step (h : Tracked e s) (hk : KeepsApart e s .readBuffer) :
    Sound e .readBuffer s.pool (call dbg e .readBuffer s.pool) ∧ ∀ t, step dbg e s .readBuffer = some t →
    Tracked e t := by
  obtain ⟨b, hb⟩ := h.buffer
  obtain ⟨r, tv, it, fl, dv, hst, hpool⟩ := h.pool_eq
  by_cases hv : (s.pool.state e).dataValid = true
  · have hrun : call dbg e .readBuffer s.pool = (.ok (), s.pool) := by
      simp [call, readBuffer, Fallible.bind_apply, hv]
    exact ⟨.of_call hrun ⟨.inl rfl, fun hne => absurd rfl hne, fun h => by cases h⟩,
      fun t => .of_call hrun hb h.unlocked h.idle h.dirty⟩
  · have hread := hk.resolve_left hv
    rw [hst] at hv hread
    have hdv : dv = false := Bool.eq_false_iff.2 hv
    subst hdv
    cases hm : s.marked with
    | false =>
      rw [hm] at hread hpool
      have hnot : ¬ s.pool.Unreadable e := fun hu => Bool.noConfusion (hread.2 hu)
      obtain ⟨io, hio⟩ :=
        readPage_succeeds (s := s.pool.withState e ⟨r, false, tv, it, fl, true, false, false⟩) hnot
      have hrun := readBuffer_read dbg hb hio
      rw [hpool] at hrun
      refine ⟨.of_call hrun ⟨.inl rfl, fun hne => absurd rfl hne, fun h => by cases h⟩,
        fun t => .of_call hrun hb ?_ ?_ ?_⟩
      · simp
      · simp
      · simp [marks, hm]
    | true =>
      rw [hm] at hread hpool
      obtain ⟨io, what, hio⟩ :=
        readPage_fails (s := s.pool.withState e ⟨r, false, tv, it, fl, true, true, false⟩) (hread.1 rfl)
      have hrun := readBuffer_failed dbg hb hio
      rw [hpool] at hrun
      refine ⟨.of_call hrun ⟨.inr ⟨_, rfl⟩, fun _ => ⟨h.dirty.trans hm, rfl⟩, fun h => by cases h⟩, fun t => ?_⟩
      exact .of_call hrun hb h.unlocked h.idle h.dirty

theorem flushBuffer_step (h : Tracked e s) (hk : KeepsApart e s .flushBuffer) :
    Sound e .flushBuffer s.pool (call dbg e .flushBuffer s.pool) ∧ ∀ t, step dbg e s .flushBuffer = some t →
    Tracked e t := by
  obtain ⟨b, hb⟩ := h.buffer
  obtain ⟨r, tv, it, fl, dv, hst, hpool⟩ := h.pool_eq
  cases hm : s.marked with
  | false =>
    rw [hm] at hpool
    have hrun := @flushBuffer_clean β s.pool e dbg r tv it fl dv
    rw [hpool] at hrun
    refine ⟨.of_call hrun ⟨.inl rfl, fun hne => absurd rfl hne, fun _ _ => rfl⟩,
      fun t => .of_call hrun hb h.unlocked h.idle ?_⟩
    rw [h.dirty, hm]
    rfl
  | true =>
    rw [hm] at hpool
    have hv : (s.pool.state e).dataValid = true := hk (h.dirty.trans hm)
    obtain ⟨disk, fileSize, io, hrun | ⟨what, hrun⟩⟩ := flushBuffer_dirty dbg r tv it fl dv hb
    · rw [hpool] at hrun
      refine ⟨.of_call hrun ⟨.inl rfl, fun hne => absurd rfl hne, fun _ hn => ?_⟩,
        fun t => .of_call hrun hb ?_ ?_ ?_⟩
      · exact absurd (hv.symm.trans hn) nofun
      · simp
      · simp
      · simp [marks]
    · rw [hpool] at hrun
      refine ⟨.of_call hrun ⟨.inr ⟨_, rfl⟩, fun _ => ⟨h.dirty.trans hm, rfl⟩, fun _ hn => ?_⟩, fun t => ?_⟩
      · exact absurd (hv.symm.trans hn) nofun
      · exact .of_call hrun hb h.unlocked h.idle h.dirty

theorem Tracked.call (h : Tracked e s) (hk : KeepsApart e s op) :
    Sound e op s.pool (call dbg e op s.pool) ∧ ∀ t, step dbg e s op = some t → Tracked e t := by
  cases op with
  | markDirty => exact markDirty_step h
  | readBuffer => exact readBuffer_step h hk
  | flushBuffer => exact flushBuffer_step h hk

/-- As long as the steps keep the bits apart, the page is dirty when it was marked since the last flush
that succeeded, and every call is sound. -/
theorem dirty_eq_marked (h0 : Tracked e s) (h : Reach (step dbg e) (KeepsApart e) s t) :
    (t.pool.state e).dirty = t.marked ∧ ∀ op, KeepsApart e t op → Sound e op t.pool (call dbg e op t.pool) := by
  have ht : Tracked e t := h.inv (fun _ _ _ hs hk hstep => (hs.call hk).2 _ hstep) h0
  exact ⟨ht.dirty, fun op hk => (ht.call hk).1⟩

end

/-- One page with 5 in the file and 7 in the buffer, where it is not read yet. -/
def entryPool (io : List Bool) : BufferManager Nat where
  npages := 1
  map := fun tag => if tag = ⟨1, 0⟩ then some 0 else none
  tag := fun _ => ⟨1, 0⟩
  state := fun e => { EntryState.empty with
    refCount := if e = 0 then 1 else 0
    tagValid := e = 0
    isTopList := e = 0 }
  buffer := fun e => if e = 0 then some 0 else none
  prev := fun _ => none
  next := fun _ => none
  lists :=
    fun l => if l = .T1 then ⟨some 0, some 0, 1⟩ else if l = .FreeList then ⟨some 1, some 1, 1⟩ else ⟨none, none, 0⟩
  freeBuffers := []
  contents := fun _ => 7
  P := 0
  disk := fun _ => 5
  fileSize := fun _ => Config.PageSize
  io := io

theorem marked_page_dirty : ∃ t, exec (step true 0) ⟨entryPool [], false⟩ [.readBuffer, .markDirty] = some t ∧
    (t.pool.state 0).dirty = true := by
  have hread : KeepsApart 0 ⟨entryPool [], false⟩ .readBuffer :=
    .inr ⟨nofun, fun h => absurd h (by unfold Unreadable FailsNext; decide)⟩
  exact ⟨_, rfl, (dirty_eq_marked ⟨⟨0, rfl⟩, rfl, rfl, rfl⟩
    (.tail .markDirty (.tail .readBuffer .refl hread rfl) trivial rfl)).1⟩

/-- A page that could not be read is dirty, and the flush writes the buffer to the file. -/
theorem unread_page_written : ((readBuffer true 0 (entryPool [false])).2.state 0).dirty = true ∧
    ((readBuffer true 0 (entryPool [false])).2.state 0).dataValid = false ∧
    (flushBuffer true 0 (readBuffer true 0 (entryPool [false])).2).2.disk ⟨1, 0⟩ = 7 := by
  refine ⟨?_, ?_, ?_⟩ <;> decide

end EntryRun

end Mimidb
