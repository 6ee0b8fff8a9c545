import Mimidb.BufferCalls

/-!
# Reference counts, mappings and data buffers

What every part of a call does to the counts of the entries, to the page map
and to the data buffers, in any pool, however its lists are linked. A part
that returns keeps the counts; one that throws may leave one pin too many.
-/

namespace Mimidb

namespace BufferManager

variable {β : Type}

/-- The count of every entry is that of `refs`, the mappings are among those of `M`, and the
buffers of `B` are free or attached. -/
structure Ledger (refs : Nat → Nat) (M : PageTag → Nat → Prop) (B : Nat → Prop) (s : BufferManager β) : Prop where
  refs : ∀ e, (s.state e).refCount = refs e
  map : ∀ tag e, s.map tag = some e → M tag e
  buffers : ∀ b, B b → b ∈ s.freeBuffers ∨ ∃ e, s.buffer e = some b

/-- A crash or a wait for ever, of which `E` says nothing. -/
class Crashes (E : Fault → BufferManager β → Prop) : Prop where
  crash : ∀ err s, (∀ what, err ≠ .runtimeError what) → E err s

/-- An exception leaves the counts, but for a pin too many. -/
def Overpins (refs : Nat → Nat) (err : Fault) (s : BufferManager β) : Prop :=
  (∃ what, err = .runtimeError what) → ∀ e, refs e ≤ (s.state e).refCount ∧ (s.state e).refCount ≤ refs e + 1

/-- One more reference to an entry. -/
def addRef (refs : Nat → Nat) (e : Nat) : Nat → Nat := Function.update refs e (refs e + 1)

section
variable {refs : Nat → Nat} {M : PageTag → Nat → Prop} {B : Nat → Prop} {s t : BufferManager β} {dbg : Bool}
  {e : Nat}
  {l : ListId}

theorem Ledger.overpins (h : Ledger refs M B s) (err : Fault) : Overpins refs err s := fun _ z => by
  rw [h.refs z]
  omega

theorem Ledger.overpins_addRef (h : Ledger (addRef refs e) M B s) (err : Fault) : Overpins refs err s :=
  fun _ z => by
  rw [h.refs z, addRef]
  by_cases hz : z = e
  · rw [hz, Function.update_self]
    omega
  · rw [Function.update_of_ne hz]
    omega

instance : Crashes fun (_ : Fault) (_ : BufferManager β) => True := ⟨fun _ _ _ => trivial⟩

instance : Crashes (Overpins (β := β) refs) := ⟨fun _ _ h ⟨what, he⟩ => absurd he (h what)⟩

section
variable {E : Fault → BufferManager β → Prop} [Crashes E]

theorem crash_assertion : E .assertion s := Crashes.crash _ _ (by simp)

theorem crash_diverges : E .diverges s := Crashes.crash _ _ (by simp)

theorem crash_nullPointer : E .nullPointer s := Crashes.crash _ _ (by simp)

end

theorem Ledger.of_same (h : Ledger refs M B s) (hs : t.state = s.state) (hm : t.map = s.map)
    (hf : t.freeBuffers = s.freeBuffers) (hb : t.buffer = s.buffer) : Ledger refs M B t :=
  ⟨fun z => by rw [hs]; exact h.refs z, fun tag z hz => h.map tag z (hm ▸ hz),
  fun b hB => by rw [hf, hb]; exact h.buffers b hB⟩

theorem Ledger.withState (h : Ledger refs M B s) (st : EntryState) :
    Ledger (Function.update refs e st.refCount) M B (s.withState e st) := by
  refine ⟨fun z => ?_, h.map, h.buffers⟩
  by_cases hz : z = e
  · simp only [withState_state, hz, Function.update_self]
  · simp only [withState_state, Function.update_of_ne hz, h.refs z]

theorem Ledger.withFlags (h : Ledger refs M B s) {st : EntryState} (hst : st.refCount = refs e) :
    Ledger refs M B (s.withState e st) := by
  have hw := h.withState (e := e) st
  rwa [hst, Function.update_eq_self] at hw

/-- The counts alone. -/
abbrev Pins (refs : Nat → Nat) (s : BufferManager β) : Prop := Ledger refs (fun _ _ => True) (fun _ => False) s

theorem pins_of (h : ∀ e, (s.state e).refCount = refs e) : Pins refs s :=
  ⟨h, fun _ _ _ => trivial, fun _ h => h.elim⟩

/-! ## Entries -/

theorem check_ledger {I : BufferManager β → Prop} (c : Bool) : Fallible.Maintains I (check dbg c) := by
  intro s hs
  cases dbg <;> cases c <;> exact hs

theorem check_spec {I : BufferManager β → Prop} {E : Fault → BufferManager β → Prop} [Crashes E] (c : Bool) :
    Fallible.Spec I (check dbg c) (fun _ => I) E := by
  intro s hs
  cases dbg <;> cases c <;> first | exact hs | exact crash_assertion

theorem lockEntry_ledger :
    Fallible.Spec (Ledger (β := β) refs M B) (lockEntry e) (fun st s => Ledger refs M B s ∧ st.refCount = refs e)
    fun _ => Ledger refs M B := by
  intro s hs
  cases hl : (s.state e).locked with
  | true =>
    have hrun : lockEntry e s = (.error .diverges, s) := by simp [lockEntry, Fallible.bind_apply, hl]
    rw [hrun]
    exact hs
  | false =>
    have hrun : lockEntry e s = (.ok { s.state e with locked := true },
        s.withState e { s.state e with locked := true }) := by
      simp [lockEntry, Fallible.bind_apply, hl]
    rw [hrun]
    exact ⟨hs.withFlags (hs.refs e), hs.refs e⟩

theorem lockEntry_spec {E : Fault → BufferManager β → Prop} [Crashes E] :
    Fallible.Spec (Ledger refs M B) (lockEntry e)
    (fun st s => Ledger refs M B s ∧ st.refCount = refs e) E := by
  intro s hs
  have hl := lockEntry_ledger (e := e) s hs
  cases hb : (s.state e).locked with
  | true =>
    have hrun : lockEntry e s = (.error .diverges, s) := by simp [lockEntry, Fallible.bind_apply, hb]
    rw [hrun]
    exact crash_diverges
  | false =>
    have hrun : lockEntry e s = (.ok { s.state e with locked := true },
        s.withState e { s.state e with locked := true }) := by
      simp [lockEntry, Fallible.bind_apply, hb]
    rw [hrun] at hl ⊢
    exact hl

theorem lockEntry_bind {α : Type} {f : EntryState → PoolM β α}
    (h : ∀ st, st.refCount = refs e → Fallible.Maintains (Ledger refs M B) (f st)) :
    Fallible.Maintains (Ledger refs M B) (lockEntry e >>= f) :=
  Fallible.Spec.bind lockEntry_ledger fun st => Fallible.Spec.fact (h st)

theorem setState_any {E : Fault → BufferManager β → Prop} {st : EntryState} (hst : st.refCount = refs e) :
    Fallible.Spec (Ledger refs M B) (setState e st) (fun _ => Ledger refs M B) E := fun _ hs => hs.withFlags hst

theorem setState_ledger {st : EntryState} (hst : st.refCount = refs e) :
    Fallible.Maintains (Ledger (β := β) refs M B) (setState e st) :=
  setState_any hst

theorem unlockEntry_ledger : Fallible.Maintains (Ledger (β := β) refs M B) (unlockEntry dbg e) := by
  intro s hs
  exact check_ledger _ _ (hs.withFlags (hs.refs e))

theorem unlockEntry_spec {E : Fault → BufferManager β → Prop} [Crashes E] :
    Fallible.Spec (Ledger refs M B) (unlockEntry dbg e) (fun _ => Ledger refs M B) E := by
  intro s hs
  exact check_spec _ _ (hs.withFlags (hs.refs e))

theorem pin_ledger {E : Fault → BufferManager β → Prop} [Crashes E] : Fallible.Spec (Ledger refs M B) (pin dbg e)
    (fun _ => Ledger (addRef refs e) M B) E := by
  intro s hs
  have hw := hs.withState (e := e) { s.state e with refCount := (s.state e).refCount + 1 }
  have hnew : Function.update refs e ((s.state e).refCount + 1) = addRef refs e := by rw [hs.refs e, addRef]
  rw [hnew] at hw
  exact check_spec _ _ hw

theorem unpin_ledger {E : Fault → BufferManager β → Prop} [Crashes E] :
    Fallible.Spec (Ledger (addRef refs e) M B) (unpin dbg e)
    (fun _ => Ledger refs M B) E := by
  intro s hs
  have hw := hs.withState (e := e) { s.state e with refCount := (s.state e).refCount - 1 }
  have hback : Function.update (addRef refs e) e ((s.state e).refCount - 1) = refs := by
    rw [hs.refs e, addRef, Function.update_self, Function.update_idem, Nat.add_sub_cancel, Function.update_eq_self]
  rw [hback] at hw
  exact check_spec _ _ hw

theorem Maintains.overpins {α : Type} {m : PoolM β α} (h : Fallible.Maintains (Ledger refs M B) m) :
    Fallible.Spec (Ledger refs M B) m (fun _ => Ledger refs M B) (Overpins refs) :=
  Fallible.Spec.conseq h (fun _ => id) (fun _ _ => id) fun err _ hs => hs.overpins err

theorem Maintains.overpins_addRef {α : Type} {m : PoolM β α}
    (h : Fallible.Maintains (Ledger (addRef refs e) M B) m) :
    Fallible.Spec (Ledger (addRef refs e) M B) m (fun _ => Ledger (addRef refs e) M B) (Overpins refs) :=
  Fallible.Spec.conseq h (fun _ => id) (fun _ _ => id) fun err _ hs => hs.overpins_addRef err

/-! ## Lists and files -/

/-- Whatever does not depend on the lists is kept by their operations. -/
def OffLists (I : BufferManager β → Prop) : Prop :=
  ∀ s prev next lists, I s → I { s with prev := prev, next := next, lists := lists }

section
variable {I : BufferManager β → Prop}

theorem setList_maintains (h : OffLists I) (list : CacheEntryList) : Fallible.Maintains I (setList l list) :=
  .modify fun s => h s s.prev s.next _

theorem setLinks_maintains (h : OffLists I) (prev next : Nat → Option Nat) :
    Fallible.Maintains I (setLinks prev next) :=
  .modify fun s => h s prev next s.lists

theorem insertMRU_maintains (h : OffLists I) : Fallible.Maintains I (insertMRU dbg l e) := by
  unfold insertMRU
  refine .bind .get fun s => .bind (check_ledger _) fun _ => .ite (fun _ => setList_maintains h _) fun _ => ?_
  cases (s.lists l).head with
  | none => exact .throw
  | some head => exact .bind (setLinks_maintains h _ _) fun _ => setList_maintains h _

theorem insertMRU_spec {E : Fault → BufferManager β → Prop} [Crashes E] (h : OffLists I) :
    Fallible.Spec I (insertMRU dbg l e) (fun _ => I) E := by
  unfold insertMRU
  refine Fallible.Spec.bind (R := fun _ => I) (Fallible.Spec.get fun _ hs => hs) fun s =>
    Fallible.Spec.bind (check_spec _) fun _ => ?_
  refine Fallible.Spec.ite (fun _ => Fallible.Spec.modify fun t => h t t.prev t.next _) fun _ => ?_
  cases (s.lists l).head with
  | none => exact Fallible.Spec.throw fun _ _ => crash_nullPointer
  | some head =>
    refine Fallible.Spec.bind (R := fun _ => I) (Fallible.Spec.modify fun t => h t _ _ t.lists) fun _ => ?_
    exact Fallible.Spec.modify fun t => h t t.prev t.next _

theorem removeEntry_maintains (h : OffLists I) : Fallible.Maintains I (removeEntry dbg l e) := by
  unfold removeEntry
  refine .bind .get fun s => .bind (check_ledger _) fun _ => .ite (fun _ _ hs => hs) fun _ => .ite (fun _ => ?_)
    fun _ => ?_
  · exact .bind (check_ledger _) fun _ => .bind (check_ledger _) fun _ =>
      .bind (setLinks_maintains h _ _) fun _ => setList_maintains h _
  · exact .bind (check_ledger _) fun _ => .bind (check_ledger _) fun _ =>
      .bind (setLinks_maintains h _ _) fun _ => setList_maintains h _

theorem moveMRU_maintains (h : OffLists I) : Fallible.Maintains I (moveMRU dbg l e) := by
  unfold moveMRU
  refine .bind .get fun s => .bind (check_ledger _) fun _ => .ite (fun _ => check_ledger _) fun _ => ?_
  exact .bind (check_ledger _) fun _ => .bind (removeEntry_maintains h) fun _ => insertMRU_maintains h

end

theorem ledger_offLists : OffLists (Ledger (β := β) refs M B) := fun _ _ _ _ h => h.of_same rfl rfl rfl rfl

theorem insertMRU_ledger : Fallible.Maintains (Ledger (β := β) refs M B) (insertMRU dbg l e) :=
  insertMRU_maintains ledger_offLists

theorem removeEntry_ledger : Fallible.Maintains (Ledger (β := β) refs M B) (removeEntry dbg l e) :=
  removeEntry_maintains ledger_offLists

theorem moveMRU_ledger : Fallible.Maintains (Ledger (β := β) refs M B) (moveMRU dbg l e) :=
  moveMRU_maintains ledger_offLists

theorem nextIo_ledger : Fallible.Maintains (Ledger (β := β) refs M B) nextIo := by
  intro s hs
  obtain ⟨io, h | ⟨h, -⟩⟩ := nextIo_cases s
  · rw [h]
    exact hs.of_same rfl rfl rfl rfl
  · rw [h]
    exact hs.of_same rfl rfl rfl rfl

theorem writePage_ledger (tag : PageTag) (page : β) :
    Fallible.Maintains (Ledger refs M B) (writePage tag page) := by
  unfold writePage
  exact .bind nextIo_ledger fun _ => .ite (fun _ _ hs => hs) fun _ => .modify fun _ hs => hs.of_same rfl rfl rfl rfl

theorem readPage_ledger (tag : PageTag) : Fallible.Maintains (Ledger (β := β) refs M B) (readPage tag) := by
  unfold readPage
  exact .bind nextIo_ledger fun _ => .ite (fun _ _ hs => hs) fun _ => .bind .get fun _ => .pure

theorem shouldStartIo_ledger (forInput : Bool) :
    Fallible.Maintains (Ledger (β := β) refs M B) (shouldStartIo dbg e forInput) := by
  unfold shouldStartIo
  refine lockEntry_bind fun st hst => ?_
  refine .ite (fun _ _ hs => hs) fun _ => .ite (fun _ => ?_) fun _ => ?_
  · exact .bind unlockEntry_ledger fun _ => .pure
  · exact .bind (setState_ledger hst) fun _ => .bind unlockEntry_ledger fun _ => .pure

theorem terminateBufferIo_ledger (setError setValid : Bool) :
    Fallible.Maintains (Ledger (β := β) refs M B) (terminateBufferIo dbg e setError setValid) := by
  unfold terminateBufferIo
  refine lockEntry_bind fun st hst => ?_
  exact .bind (check_ledger _) fun _ => .bind (setState_ledger hst) fun _ => .bind unlockEntry_ledger fun _ =>
    .bind .get fun _ => check_ledger _

theorem attached_ledger : Fallible.Spec (Ledger (β := β) refs M B) (attached dbg e)
    (fun b s => Ledger refs M B s ∧ s.buffer e = some b) fun _ => Ledger refs M B := by
  intro s hs
  cases hb : s.buffer e with
  | some b =>
    rw [attached_ok hb]
    exact ⟨hs, hb⟩
  | none =>
    simp only [attached, Fallible.bind_apply, Fallible.get_apply, hb, Option.isSome_none]
    cases hc : check dbg false s with
    | mk r u =>
      cases r with
      | ok _ => exact (check_ledger false).ok hs hc
      | error _ => exact (check_ledger false).error hs hc

theorem attached_bind {α : Type} {f : Nat → PoolM β α} (h : ∀ b, Fallible.Maintains (Ledger refs M B) (f b)) :
    Fallible.Maintains (Ledger refs M B) (attached dbg e >>= f) :=
  Fallible.Spec.bind attached_ledger fun b _ hs => h b _ hs.1

theorem flushBuffer_ledger : Fallible.Maintains (Ledger (β := β) refs M B) (flushBuffer dbg e) := by
  unfold flushBuffer
  refine .bind (shouldStartIo_ledger _) fun started => .ite (fun _ => .pure) fun _ => ?_
  refine attached_bind fun b => ?_
  refine .bind (.tryCatch ?_ fun err => ?_) fun _ => terminateBufferIo_ledger _ _
  · exact .bind .get fun _ => .bind (writePage_ledger _ _) fun _ => nextIo_ledger
  · exact .bind (terminateBufferIo_ledger _ _) fun _ => .throw

theorem readBuffer_ledger : Fallible.Maintains (Ledger (β := β) refs M B) (readBuffer dbg e) := by
  unfold readBuffer
  refine .bind (fun s hs => hs) fun st => .ite (fun _ => .pure) fun _ => ?_
  refine .bind (shouldStartIo_ledger _) fun started => .ite (fun _ => .pure) fun _ => ?_
  refine attached_bind fun b => ?_
  refine .bind (.tryCatch ?_ fun err => ?_) fun _ => terminateBufferIo_ledger _ _
  · exact .bind .get fun _ => .bind (readPage_ledger _) fun _ => .modify fun _ hs => hs.of_same rfl rfl rfl rfl
  · exact .bind (terminateBufferIo_ledger _ _) fun _ => .throw

end

end BufferManager

end Mimidb
