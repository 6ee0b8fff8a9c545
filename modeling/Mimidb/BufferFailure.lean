import Mimidb.BufferRun
import Mimidb.BufferWalks

/-!
# Calls that throw

A call that finds no entry to take throws with the pool as it was. An
exception of a file operation in the search leaves the victim pinned. Any
later one, for want of a data buffer or of a file operation, leaves the entry
of the page pinned, and an entry that was taken before its file could not be
opened is in no list.
-/

namespace Mimidb

namespace BufferManager

variable {β : Type} {refs : Nat → Nat} {M : PageTag → Nat → Prop} {B : Nat → Prop} {dbg : Bool} {e : Nat}
  {tag : PageTag}
  {s t u : BufferManager β}

/-! ## Hits -/

theorem lockEntry_overpins : Fallible.Spec (Ledger (β := β) refs M B) (lockEntry e)
    (fun st s => Ledger refs M B s ∧ st.refCount = refs e) (Overpins refs) :=
  Fallible.Spec.conseq lockEntry_ledger (fun _ => id) (fun _ _ => id) fun err _ hs => hs.overpins err

theorem handleCacheHit_ledger :
    Fallible.Spec (Ledger (β := β) refs M B) (handleCacheHit dbg e) (fun _ => Ledger refs M B)
    (Overpins refs) := by
  unfold handleCacheHit
  refine getState_bind fun st _ => Fallible.Spec.bind (check_spec _) fun _ => Fallible.Spec.ite (fun _ => ?_)
    fun _ => ?_
  · refine Maintains.overpins (lockEntry_bind fun st _ => ?_)
    exact .bind (check_ledger _) fun _ => .bind moveMRU_ledger fun _ => unlockEntry_ledger
  · refine Maintains.overpins (lockEntry_bind fun st _ => .ite (fun _ => ?_) fun _ => ?_)
    · refine .bind removeEntry_ledger fun _ => .bind insertMRU_ledger fun _ => ?_
      exact getState_bind fun st hst => .bind (setState_ledger hst) fun _ => unlockEntry_ledger
    · exact .bind moveMRU_ledger fun _ => unlockEntry_ledger

theorem handleGhostHit_ledger (isFrequency : Bool) :
    Fallible.Spec (Ledger (β := β) refs M B) (handleGhostHit dbg e isFrequency)
    (fun _ => Ledger refs M B) (Overpins refs) := by
  unfold handleGhostHit
  have hmove : Fallible.Maintains (Ledger (β := β) refs M B) (do
      let st ← lockEntry e
      if st.isTopList = false ∧ st.isFrequencyList = isFrequency then
        removeEntry dbg (if isFrequency then .B1 else .B2) e
        insertMRU dbg .T2 e
        let st ← getState e
        setState e { st with isTopList := true, isFrequencyList := true }
      unlockEntry dbg e) := by
    refine lockEntry_bind fun st _ => .ite (fun _ => ?_) fun _ => unlockEntry_ledger
    refine .bind removeEntry_ledger fun _ => .bind insertMRU_ledger fun _ => ?_
    exact getState_bind fun st hst => .bind (setState_ledger hst) fun _ => unlockEntry_ledger
  have hadjust : ∀ p fromB2, Fallible.Spec (Ledger (β := β) refs M B) (adjust dbg p fromB2)
    (fun _ => Ledger refs M B) (Overpins refs) :=
    fun p fromB2 => Fallible.Spec.conseq (adjust_ledger p fromB2) (fun _ => id) (fun _ _ => id) fun _ _ hs =>
    hs.overpins
  have hdelta : ∀ x : Except Fault Nat, Fallible.Maintains (Ledger (β := β) refs M B) (Fallible.ofExcept x) :=
    fun _ _ hs => by
    cases ‹Except Fault Nat› <;> exact hs
  refine Fallible.Spec.bind (R := fun _ => Ledger refs M B) (Fallible.Spec.get fun _ hs => hs) fun s => ?_
  refine Fallible.Spec.ite (fun _ => ?_) fun _ => ?_
  · refine Fallible.Spec.bind (Maintains.overpins (hdelta _)) fun delta => ?_
    refine Fallible.Spec.bind (R := fun _ => Ledger refs M B)
      (Fallible.Spec.modify fun _ hs => hs.of_same rfl rfl rfl rfl) fun _ => ?_
    exact Fallible.Spec.bind (hadjust _ _) fun _ => Maintains.overpins hmove
  · refine Fallible.Spec.bind (Maintains.overpins (hdelta _)) fun delta => ?_
    refine Fallible.Spec.bind (R := fun _ => Ledger refs M B)
      (Fallible.Spec.modify fun _ hs => hs.of_same rfl rfl rfl rfl) fun _ => ?_
    exact Fallible.Spec.bind (hadjust _ _) fun _ => Maintains.overpins hmove

theorem handleHit_ledger :
    Fallible.Spec (Ledger (β := β) refs M B) (handleHit dbg e) (fun _ => Ledger refs M B) (Overpins refs) := by
  unfold handleHit
  refine Fallible.Spec.bind lockEntry_overpins fun st => Fallible.Spec.fact fun _ => ?_
  refine Fallible.Spec.bind (Maintains.overpins unlockEntry_ledger) fun _ => getState_bind fun st _ => ?_
  exact Fallible.Spec.ite (fun _ => handleCacheHit_ledger) fun _ => handleGhostHit_ledger _

theorem makeBufferPin_ledger : Fallible.Maintains (Ledger (β := β) refs M B) (makeBufferPin dbg e) :=
  .bind .get fun _ => .bind (check_ledger _) fun _ => .bind (check_ledger _) fun _ => .bind (check_ledger _)
    fun _ => .pure

/-- The end of `GetBuffer`: the page is read if its data is not valid. -/
def finishGet (dbg : Bool) (e : Nat) : PoolM β (PageTag × Nat) := do
  check dbg ((← get).buffer e).isSome
  if (← getState e).dataValid then makeBufferPin dbg e
  else
    readBuffer dbg e
    check dbg (← getState e).dataValid
    makeBufferPin dbg e

theorem finishGet_ledger : Fallible.Maintains (Ledger (β := β) refs M B) (finishGet dbg e) := by
  refine .bind .get fun s => .bind (check_ledger _) fun _ => getState_bind fun st _ =>
    .ite (fun _ => makeBufferPin_ledger) fun _ => ?_
  exact .bind readBuffer_ledger fun _ => getState_bind fun st _ => .bind (check_ledger _) fun _ =>
    makeBufferPin_ledger

/-! ## Entries that are taken -/

theorem Pins.modify {E : Fault → BufferManager β → Prop} {f : BufferManager β → BufferManager β}
    (hf : ∀ s, (f s).state = s.state) :
    Fallible.Spec (Pins refs) (modify f) (fun _ => Pins refs) E := fun s hs => pins_of fun e => by
      rw [hf]; exact hs.refs e

/-- The count of a taken entry is one, and that of a victim of the replacement may be one too many. -/
def pinned (refs : Nat → Nat) (e : Nat) : Nat → Nat := addRef (Function.update refs e 0) e

theorem takeFreeBuffer_pins {E : Fault → BufferManager β → Prop} :
    Fallible.Spec (Pins refs) takeFreeBuffer (fun _ => Pins refs) E := by
  unfold takeFreeBuffer
  refine Fallible.Spec.getBind fun s hs => ?_
  cases s.freeBuffers with
  | nil =>
    intro t ht
    subst ht
    exact hs
  | cons b bs => exact fun t ht => pins_of hs.refs

theorem createEntry_pins : Fallible.Spec (Pins (β := β) (Function.update refs e 0)) (createEntry dbg tag e)
    (fun _ => Pins (pinned refs e)) (Overpins (pinned refs e)) := by
  unfold createEntry
  refine getState_bind fun st hst => Fallible.Spec.bind (setState_any hst) fun _ => Fallible.Spec.bind pin_ledger
    fun _ => ?_
  refine Fallible.Spec.bind takeFreeBuffer_pins fun o => Maintains.overpins ?_
  cases o with
  | none =>
    refine .bind (mapRemove_ledger _ _) fun _ => getState_bind fun st _ => .bind (check_ledger _) fun _ => ?_
    exact .bind insertMRU_ledger fun _ _ hs => hs
  | some b =>
    refine .bind (fun s hs => pins_of hs.refs) fun _ => lockEntry_bind fun st _ => ?_
    exact .bind insertMRU_ledger fun _ => unlockEntry_ledger

theorem extendEntry_pins : Fallible.Spec (Pins (β := β) (Function.update refs e 0)) (extendEntry dbg tag e)
    (fun _ => Pins (pinned refs e)) (Overpins (pinned refs e)) := by
  unfold extendEntry
  refine getState_bind fun st hst => Fallible.Spec.bind (check_spec _) fun _ =>
    Fallible.Spec.bind (Pins.modify fun _ => rfl) fun _ => ?_
  refine Fallible.Spec.bind (setState_any hst) fun _ => Fallible.Spec.bind pin_ledger fun _ => ?_
  refine Fallible.Spec.bind takeFreeBuffer_pins fun o => Maintains.overpins ?_
  cases o with
  | none => exact .bind (mapRemove_ledger _ _) fun _ => .bind insertMRU_ledger fun _ => .throw
  | some b =>
    refine .bind (fun s hs => pins_of hs.refs) fun _ => .bind insertMRU_ledger fun _ => getState_bind fun st hst =>
      ?_
    refine .bind (setState_ledger hst) fun _ => lockEntry_bind fun st _ => .bind insertMRU_ledger fun _ => ?_
    exact .bind unlockEntry_ledger fun _ => .bind (shouldStartIo_ledger _) fun _ => check_ledger _

theorem restartIo_ledger : Fallible.Maintains (Ledger (β := β) refs M B) (restartIo dbg e) := by
  unfold restartIo
  refine lockEntry_bind fun st hst => .bind (setState_ledger hst) fun _ => .bind unlockEntry_ledger fun _ => ?_
  exact .bind (shouldStartIo_ledger _) fun _ => .pure

theorem takeOverEntry_pins {e' : Nat} : Fallible.Spec (Pins (β := β) refs) (takeOverEntry dbg e e')
    (fun _ => Pins (addRef refs e')) (Overpins (addRef refs e')) := by
  unfold takeOverEntry
  refine Fallible.Spec.bind pin_ledger fun _ => Fallible.Spec.bind (Maintains.overpins insertMRU_ledger) fun _ =>
    getState_bind fun st _ => ?_
  refine Fallible.Spec.ite (fun _ => ?_) fun _ => Maintains.overpins restartIo_ledger
  exact Fallible.Spec.bind (handleGhostHit_ledger _) fun _ => Maintains.overpins restartIo_ledger

theorem writeExtension_pins [Inhabited β] : Fallible.Maintains (Pins (β := β) refs) (writeExtension dbg tag e) := by
  unfold writeExtension
  refine attached_bind fun b => .bind (.tryCatch (writePage_ledger _ _) fun err => ?_) fun _ => ?_
  · exact .bind (terminateBufferIo_ledger _ _) fun _ => .throw
  · refine .bind (Pins.modify fun _ => rfl) fun _ => .bind (terminateBufferIo_ledger _ _) fun _ =>
      makeBufferPin_ledger

/-! ## Calls in two parts -/

/-- `GetBuffer` after the search. -/
def finishMiss (dbg : Bool) (tag : PageTag) : Option Nat → PoolM β (PageTag × Nat)
  | some e => do
    modify fun s => { s with tag := Function.update s.tag e tag }
    setState e { EntryState.empty with tagValid := true }
    check dbg ((← get).buffer e).isNone
    match (← get).map tag with
    | none =>
      modify fun s => { s with map := Function.update s.map tag (some e) }
      createEntry dbg tag e
      finishGet dbg e
    | some existing =>
      pin dbg existing
      insertMRU dbg .FreeList e
      handleHit dbg existing
      finishGet dbg existing
  | none => do
    match (← get).map tag with
    | none => throw (.runtimeError "no free cache entries found")
    | some e =>
      pin dbg e
      handleHit dbg e
      finishGet dbg e

theorem getBuffer_hit_eq (hm : s.map tag = some e) : getBuffer dbg tag s = (do
    pin dbg e
    handleHit dbg e
    finishGet dbg e) s := by
  simp only [getBuffer, findEntry, finishGet, Fallible.bind_apply, Fallible.get_apply, hm]
  rcases pin dbg e s with ⟨r, u⟩
  cases r <;> rfl

theorem getBuffer_miss_eq (hm : s.map tag = none) :
    getBuffer dbg tag s = (search dbg >>= finishMiss dbg tag) s := by
  simp only [getBuffer, findEntry, missEntry, search, Fallible.bind_apply, Fallible.get_apply, hm]
  rcases preinsertCleanup dbg s with ⟨_ | _, u⟩
  · rfl
  simp only
  rcases evictCacheEntry dbg u with ⟨_ | o, v⟩
  · rfl
  simp only
  cases o with
  | none =>
    simp only [finishMiss, Fallible.bind_apply, Fallible.get_apply]
    cases v.map tag with
    | none => rfl
    | some e =>
      simp only [Fallible.bind_apply]
      rcases pin dbg e v with ⟨_ | _, w⟩ <;> rfl
  | some e =>
    simp only [finishMiss, Fallible.bind_apply, Fallible.get_apply, Fallible.modify_apply, setState_apply]
    generalize withState _ _ _ = w
    rcases check dbg (w.buffer e).isNone w with ⟨_ | _, x⟩
    · rfl
    simp only
    cases x.map tag with
    | none =>
      simp only [Fallible.bind_apply, Fallible.modify_apply]
      generalize BufferManager.mk _ _ _ _ _ _ _ _ _ _ _ _ _ _ = y
      rcases createEntry dbg tag e y with ⟨_ | _, z⟩ <;> rfl
    | some existing =>
      simp only [Fallible.bind_apply]
      rcases pin dbg existing x with ⟨_ | _, y⟩
      · rfl
      simp only
      rcases insertMRU dbg .FreeList e y with ⟨_ | _, z⟩ <;> rfl

/-- `ExtendRelation` after the search. -/
def finishExtend [Inhabited β] (dbg : Bool) (relid : Nat) : Option Nat → PoolM β (PageTag × Nat)
  | none => throw (.runtimeError "no free cache entry found")
  | some fresh => do
    nextIo
    let nblocks := (← get).fileSize relid / Config.PageSize % counter
    let tag : PageTag := ⟨relid, nblocks⟩
    let e ← match (← get).map tag with
      | none => do
        modify fun s => { s with map := Function.update s.map tag (some fresh) }
        extendEntry dbg tag fresh
        pure fresh
      | some existing => do
        takeOverEntry dbg fresh existing
        pure existing
    writeExtension dbg tag e

theorem extendRelation_eq [Inhabited β] (relid : Nat) : extendRelation dbg relid s = (do
    check dbg (relid ≠ 0)
    let o ← search dbg
    finishExtend dbg relid o) s := by
  simp only [extendRelation, search, Fallible.bind_apply]
  rcases check dbg (relid ≠ 0) s with ⟨_ | _, t⟩
  · rfl
  simp only
  rcases preinsertCleanup dbg t with ⟨_ | _, u⟩
  · rfl
  simp only
  rcases evictCacheEntry dbg u with ⟨_ | o, v⟩
  · rfl
  cases o <;> rfl

theorem check_bind_error {α : Type} {c : Bool} {m : PoolM β α} {what : String}
    (h : (check dbg c >>= fun _ => m) s = (.error (.runtimeError what), t)) :
    m s = (.error (.runtimeError what), t) := by
  cases dbg <;> cases c
  case true.false => cases h
  all_goals exact h

/-! ## Exceptions after the search -/

theorem getBuffer_hit_pins : Fallible.Spec (Pins (β := β) refs) (do
    pin dbg e
    handleHit dbg e
    finishGet dbg e) (fun _ _ => True) (Overpins (addRef refs e)) := by
  refine Fallible.Spec.bind pin_ledger fun _ => Fallible.Spec.bind handleHit_ledger fun _ => ?_
  exact Fallible.Spec.conseq (Maintains.overpins finishGet_ledger) (fun _ => id) (fun _ _ _ => trivial) fun _ _ =>
    id

theorem finishMiss_pins : Fallible.Spec (fun s => Pins (β := β) (Function.update refs e 0) s ∧ s.map tag = none)
    (finishMiss dbg tag (some e)) (fun _ _ => True) (Overpins (pinned refs e)) := by
  let P : BufferManager β → Prop := fun s => Pins (Function.update refs e 0) s ∧ s.map tag = none
  have hzero : ({ EntryState.empty with tagValid := true } : EntryState).refCount = Function.update refs e 0 e :=
    (Function.update_self e 0 refs).symm
  unfold finishMiss
  refine Fallible.Spec.bind (R := fun _ => P) (fun s hs => ⟨pins_of hs.1.refs, hs.2⟩) fun _ => ?_
  refine Fallible.Spec.bind (R := fun _ => P) (fun s hs => ⟨hs.1.withFlags hzero, hs.2⟩) fun _ => ?_
  refine Fallible.Spec.bind (R := fun _ => P) (Fallible.Spec.get fun _ hs => hs) fun s => ?_
  refine Fallible.Spec.bind (check_spec (I := P) _) fun _ => Fallible.Spec.getBind fun s hs => ?_
  rw [hs.2]
  refine Fallible.Spec.bind (R := fun _ => Pins (Function.update refs e 0)) (fun t ht => ?_) fun _ => ?_
  · subst ht
    exact pins_of hs.1.refs
  refine Fallible.Spec.bind createEntry_pins fun _ => ?_
  exact Fallible.Spec.conseq (Maintains.overpins finishGet_ledger) (fun _ => id) (fun _ _ _ => trivial) fun _ _ =>
    id

/-- The two ways of an extension whose file is open. -/
def extendFresh [Inhabited β] (dbg : Bool) (tag : PageTag) (e : Nat) : PoolM β (PageTag × Nat) := do
  modify fun s => { s with map := Function.update s.map tag (some e) }
  extendEntry dbg tag e
  writeExtension dbg tag e

def extendAgain [Inhabited β] (dbg : Bool) (tag : PageTag) (e existing : Nat) : PoolM β (PageTag × Nat) := do
  takeOverEntry dbg e existing
  writeExtension dbg tag existing

theorem finishExtend_open [Inhabited β] (dbg : Bool) (e relid : Nat) (hopen : nextIo s = (.ok (), u)) : ∃ tag,
    finishExtend dbg relid (some e) s = extendFresh dbg tag e u ∨
      ∃ existing, finishExtend dbg relid (some e) s = extendAgain dbg tag e existing u := by
  refine ⟨⟨relid, u.fileSize relid / Config.PageSize % counter⟩, ?_⟩
  simp only [finishExtend, Fallible.bind_apply, hopen, Fallible.get_apply]
  cases u.map ⟨relid, u.fileSize relid / Config.PageSize % counter⟩ with
  | none =>
    refine .inl ?_
    simp only [extendFresh, Fallible.bind_apply, Fallible.modify_apply]
    generalize BufferManager.mk _ _ _ _ _ _ _ _ _ _ _ _ _ _ = x
    rcases extendEntry dbg _ e x with ⟨_ | _, y⟩ <;> rfl
  | some existing =>
    refine .inr ⟨existing, ?_⟩
    simp only [extendAgain, Fallible.bind_apply]
    rcases takeOverEntry dbg e existing u with ⟨_ | _, y⟩ <;> rfl

theorem extendFresh_pins [Inhabited β] :
    Fallible.Spec (Pins (β := β) (Function.update refs e 0)) (extendFresh dbg tag e)
    (fun _ _ => True) (Overpins (pinned refs e)) := by
  refine Fallible.Spec.bind (Pins.modify fun _ => rfl) fun _ => Fallible.Spec.bind extendEntry_pins fun _ => ?_
  exact Fallible.Spec.conseq (Maintains.overpins writeExtension_pins) (fun _ => id) (fun _ _ _ => trivial)
    fun _ _ => id

theorem extendAgain_pins [Inhabited β] {existing : Nat} :
    Fallible.Spec (Pins (β := β) refs) (extendAgain dbg tag e existing)
    (fun _ _ => True) (Overpins (addRef refs existing)) := by
  refine Fallible.Spec.bind takeOverEntry_pins fun _ => ?_
  exact Fallible.Spec.conseq (Maintains.overpins writeExtension_pins) (fun _ => id) (fun _ _ _ => trivial)
    fun _ _ => id

/-! ## Counts that differ -/

theorem Overpins.ne {what : String} (h : Overpins (addRef refs e) (.runtimeError what) t) :
    (t.state e).refCount ≠ refs e := by
  have he := h ⟨what, rfl⟩ e
  rw [addRef, Function.update_self] at he
  omega

theorem Overpins.ne_taken {e' : Nat} {what : String} (hz : refs e % 2 ^ 20 = 0)
    (h : Overpins (addRef (Function.update refs e 0) e') (.runtimeError what) t) :
    (t.state e').refCount ≠ refs e' := by
  have he := h ⟨what, rfl⟩ e'
  rw [addRef, Function.update_self] at he
  by_cases hee : e' = e
  · rw [hee, Function.update_self] at he
    rw [hee]
    omega
  · rw [Function.update_of_ne hee] at he
    omega

/-- `GetBuffer` leaves the entry that it took pinned. -/
theorem Taken.finishMiss_ne {M : PageTag → Nat → Prop} {B : Nat → Prop} {what : String}
    (ht : Taken refs M B (some e) t) (hM : ∀ e', ¬ M tag e')
    (h : finishMiss dbg tag (some e) t = (.error (.runtimeError what), u)) : (u.state e).refCount ≠ refs e := by
  obtain ⟨hl, hz⟩ := ht
  have hnone : t.map tag = none := by
    cases hmap : t.map tag with
    | none => rfl
    | some e' => exact absurd (hl.map tag e' hmap) (hM e')
  exact (Fallible.Spec.error finishMiss_pins ⟨pins_of hl.refs, hnone⟩ h).ne_taken hz

/-- `ExtendRelation` leaves a pin, or loses the entry that it took. -/
theorem Taken.finishExtend_traces [Inhabited β] {M : PageTag → Nat → Prop} {B : Nat → Prop} {relid : Nat}
    {what : String} (ht : Taken refs M B (some e) t) (hloose : Loose t e)
    (h : finishExtend dbg relid (some e) t = (.error (.runtimeError what), u)) :
    (∃ e', (u.state e').refCount ≠ refs e') ∨ ∀ nodes, u.Chain .FreeList nodes → e ∉ nodes := by
  obtain ⟨hl, hz⟩ := ht
  cases hopen : nextIo t with
  | mk r v =>
    cases r with
    | error err =>
      -- the file of the relation cannot be opened: the entry is in no list
      have hend : finishExtend dbg relid (some e) t = (.error err, v) := Fallible.bind_error hopen
      rw [hend] at h
      cases h
      exact .inr fun nodes hc => (hloose.of_sameLinks (nextIo_sameLinks.error (SameLinks.refl t) hopen)).not_mem hc
    | ok _ =>
      have hpins := nextIo_ledger.ok (pins_of hl.refs) hopen
      left
      obtain ⟨tag, hf | ⟨existing, hf⟩⟩ := finishExtend_open dbg e relid hopen
      · exact ⟨e, Overpins.ne_taken hz (Fallible.Spec.error extendFresh_pins hpins (hf.symm.trans h))⟩
      · exact ⟨existing, (Fallible.Spec.error extendAgain_pins hpins (hf.symm.trans h)).ne_taken hz⟩

end BufferManager

open BufferManager

variable {β : Type}

/-! ## Failures -/

/-- A call that threw, with the pool before and after it. -/
structure PoolFailure (β : Type) where
  op : PoolOp β
  before : BufferManager β
  after : BufferManager β
  what : String

namespace PoolFailure

/-- The pool in which the call runs, with the outcomes of its file operations. -/
def start (f : PoolFailure β) : BufferManager β :=
  match f.op with
  | .getBuffer _ io | .extendRelation _ io => { f.before with io := io }
  | _ => f.before

/-- The call looks for an entry to take. -/
def Searches (f : PoolFailure β) : Prop :=
  match f.op with
  | .getBuffer tag _ => f.before.map tag = none
  | _ => True

/-- The call needs an entry, and none can be taken. -/
def Exhausted (f : PoolFailure β) : Prop := f.Searches ∧ f.start.exhausted = true

/-- The call left no trace. -/
structure Atomic (dbg : Bool) (f : PoolFailure β) : Prop where
  refs : ∀ e, (f.after.state e).refCount = (f.before.state e).refCount
  map : ∀ tag e, f.after.map tag = some e → f.before.map tag = some e
  entries : f.Searches → ∀ e t, search dbg f.start = (.ok (some e), t) →
    f.after.state e = .empty ∧ ∃ nodes, f.after.Chain .FreeList nodes ∧ e ∈ nodes
  buffers : ∀ b, (b ∈ f.before.freeBuffers ∨ ∃ e, f.before.buffer e = some b) →
    b ∈ f.after.freeBuffers ∨ ∃ e, f.after.buffer e = some b

/-- The call threw. -/
def Throws [Inhabited β] (dbg : Bool) (f : PoolFailure β) : Prop :=
  match f.op with
  | .getBuffer tag _ => getBuffer dbg tag f.start = (.error (.runtimeError f.what), f.after)
  | .extendRelation relid _ => extendRelation dbg relid f.start = (.error (.runtimeError f.what), f.after)
  | _ => False

section
variable {dbg : Bool} {f : PoolFailure β}

theorem start_eq (f : PoolFailure β) : f.start.state = f.before.state ∧ f.start.map = f.before.map ∧
    f.start.freeBuffers = f.before.freeBuffers ∧ f.start.buffer = f.before.buffer := by
  unfold start
  cases f.op <;> exact ⟨rfl, rfl, rfl, rfl⟩

theorem ledger_start (f : PoolFailure β) :
    Ledger (fun e => (f.before.state e).refCount) (fun tag e => f.before.map tag = some e)
    (fun b => b ∈ f.before.freeBuffers ∨ ∃ e, f.before.buffer e = some b) f.start := by
  obtain ⟨hs, hm, hf, hb⟩ := f.start_eq
  exact ⟨fun e => by rw [hs], fun tag e h => hm ▸ h, fun b h => by rw [hf, hb]; exact h⟩

theorem atomic_of_after (h : search dbg f.start = (.ok none, f.start)) (ha : f.after = f.start) : f.Atomic dbg := by
  have ht := f.ledger_start
  rw [← ha] at ht
  refine ⟨ht.refs, ht.map, fun _ e u hu => ?_, ht.buffers⟩
  rw [h] at hu
  cases hu

theorem Exhausted.atomic [Inhabited β] (h : f.Exhausted) (ht : f.Throws dbg) : f.Atomic dbg := by
  obtain ⟨op, before, after, what⟩ := f
  obtain ⟨hse, hex⟩ := h
  cases op with
  | getBuffer tag io =>
    have hsearch : search dbg { before with io := io } = (.ok none, { before with io := io }) :=
      search_exhausted hex
    have hrun : getBuffer dbg tag { before with io := io } = (.error (.runtimeError what), after) := ht
    have hm : before.map tag = none := hse
    rw [getBuffer_miss_eq (s := { before with io := io }) hm, Fallible.bind_ok hsearch] at hrun
    simp only [finishMiss, Fallible.bind_apply, Fallible.get_apply, hm] at hrun
    exact atomic_of_after hsearch (Prod.ext_iff.1 hrun).2.symm
  | extendRelation relid io =>
    have hsearch : search dbg { before with io := io } = (.ok none, { before with io := io }) :=
      search_exhausted hex
    have hrun : extendRelation dbg relid { before with io := io } = (.error (.runtimeError what), after) := ht
    rw [extendRelation_eq] at hrun
    have hrest := check_bind_error hrun
    rw [Fallible.bind_ok hsearch] at hrest
    exact atomic_of_after hsearch (Prod.ext_iff.1 hrest).2.symm
  | write tag e page => exact ht.elim
  | returnBuffer tag e => exact ht.elim

/-- An exception of the search itself leaves its victim pinned. -/
theorem search_error {what : String} {t : BufferManager β}
    (h : search dbg f.start = (.error (.runtimeError what), t))
    (hw : what ∉ brokenTexts) : ∃ e, (t.state e).refCount ≠ (f.before.state e).refCount := by
  have hstops : Stops (fun e => (f.before.state e).refCount) (.runtimeError what) t :=
    Fallible.Spec.error search_ledger f.ledger_start h
  rcases hstops what rfl with ⟨hb, -⟩ | ⟨e, he⟩
  · exact absurd hb hw
  · refine ⟨e, ?_⟩
    rw [he e, addRef, Function.update_self]
    exact Nat.succ_ne_self _

/-- A call that left no trace had nothing to take. -/
theorem Atomic.exhausted [Inhabited β] (ha : f.Atomic dbg) (ht : f.Throws dbg) (hi : f.start.Intact)
    (hw : f.what ∉ brokenTexts) : f.Exhausted := by
  have hl := f.ledger_start
  have hserr : ∀ t, search dbg f.start = (.error (.runtimeError f.what), t) →
      ∃ e, (t.state e).refCount ≠ (f.before.state e).refCount := fun _ h => search_error h hw
  obtain ⟨op, before, after, what⟩ := f
  cases op with
  | getBuffer tag io =>
    have hrun : getBuffer dbg tag { before with io := io } = (.error (.runtimeError what), after) := ht
    cases hm : before.map tag with
    | some e =>
      have hrest := (getBuffer_hit_eq (s := { before with io := io }) hm).symm.trans hrun
      exact absurd (ha.refs e) (Fallible.Spec.error getBuffer_hit_pins (pins_of fun _ => rfl) hrest).ne
    | none =>
      rw [getBuffer_miss_eq (s := { before with io := io }) hm] at hrun
      cases hsearch : search dbg { before with io := io } with
      | mk r t =>
        cases r with
        | error err =>
          rw [Fallible.bind_error hsearch] at hrun
          cases hrun
          obtain ⟨e, he⟩ := hserr _ hsearch
          exact absurd (ha.refs e) he
        | ok o =>
          rcases search_ok hi hsearch with ⟨rfl, hex⟩ | ⟨e, rfl, -⟩
          · exact ⟨hm, hex⟩
          · have htaken : Taken _ _ _ (some e) t := Fallible.Spec.ok search_ledger hl hsearch
            rw [Fallible.bind_ok hsearch] at hrun
            exact absurd (ha.refs e) (htaken.finishMiss_ne (fun e' h => by simp [hm] at h) hrun)
  | extendRelation relid io =>
    have hrun : extendRelation dbg relid { before with io := io } = (.error (.runtimeError what), after) := ht
    rw [extendRelation_eq] at hrun
    have hrest := check_bind_error hrun
    cases hsearch : search dbg { before with io := io } with
    | mk r t =>
      cases r with
      | error err =>
        rw [Fallible.bind_error hsearch] at hrest
        cases hrest
        obtain ⟨e, he⟩ := hserr _ hsearch
        exact absurd (ha.refs e) he
      | ok o =>
        rcases search_ok hi hsearch with ⟨rfl, hex⟩ | ⟨e, rfl, hloose⟩
        · exact ⟨trivial, hex⟩
        · have htaken : Taken _ _ _ (some e) t := Fallible.Spec.ok search_ledger hl hsearch
          rw [Fallible.bind_ok hsearch] at hrest
          rcases htaken.finishExtend_traces hloose hrest with ⟨e', he'⟩ | hlost
          · exact absurd (ha.refs e') he'
          · obtain ⟨-, nodes, hc, hmem⟩ := ha.entries trivial e t hsearch
            exact absurd hmem (hlost nodes hc)
  | write tag e page => exact ht.elim
  | returnBuffer tag e => exact ht.elim

end

end PoolFailure

/-! ## Runs -/

theorem create_of_toOption [Inhabited β] {dbg : Bool} {n : Nat} {disk : PageTag → β} {fileSize : Nat → Nat}
    {pool : BufferManager β}
    (h : (create dbg n disk fileSize).toOption = some pool) : create dbg n disk fileSize = .ok pool := by
  cases hc : create dbg n disk fileSize with
  | error err => rw [hc] at h; cases h
  | ok p => rw [hc] at h; cases h; rfl

/-- A run with the calls that threw in it, the last one first. -/
structure FailureRun (β : Type) where
  run : PoolRun β
  failures : List (PoolFailure β)

namespace FailureRun

/-- The pool that a call leaves when it throws, and what it throws. -/
def thrown [Inhabited β] (dbg : Bool) (pool : BufferManager β) : PoolOp β → Option (BufferManager β × String)
  | .getBuffer tag io =>
    match getBuffer dbg tag { pool with io := io } with
    | (.error (.runtimeError what), t) => some (t, what)
    | _ => none
  | .extendRelation relid io =>
    match extendRelation dbg relid { pool with io := io } with
    | (.error (.runtimeError what), t) => some (t, what)
    | _ => none
  | _ => none

def step [Inhabited β] (dbg : Bool) (s : FailureRun β) (op : PoolOp β) : Option (FailureRun β) :=
  (PoolRun.step dbg s.run op).map fun run =>
    ⟨run, ((thrown dbg s.run.pool op).map fun r => ⟨op, s.run.pool, r.1, r.2⟩).toList ++ s.failures⟩

def init (pool : BufferManager β) : FailureRun β := ⟨PoolRun.init pool, []⟩

variable [Inhabited β] {dbg : Bool} {s : FailureRun β} {pool : BufferManager β} {f : PoolFailure β}

theorem throws_of_thrown {op : PoolOp β} {r : BufferManager β × String} (h : thrown dbg pool op = some r) :
    (PoolFailure.mk op pool r.1 r.2).Throws dbg := by
  cases op with
  | getBuffer tag io =>
    simp only [thrown] at h
    split at h
    next what u hu =>
      cases h
      exact hu
    next => cases h
  | extendRelation relid io =>
    simp only [thrown] at h
    split at h
    next what u hu =>
      cases h
      exact hu
    next => cases h
  | write tag e page => cases h
  | returnBuffer tag e => cases h

theorem failures_throw (h : Reach (step dbg) anyStep (init pool) s) : ∀ f ∈ s.failures, f.Throws dbg := by
  refine h.inv (I := fun s => ∀ f ∈ s.failures, f.Throws dbg) (fun s op t hi _ ht => ?_) (by simp [init])
  obtain ⟨run, -, rfl⟩ := Option.map_eq_some_iff.1 ht
  intro f hf
  rcases List.mem_append.1 hf with hf | hf
  · obtain ⟨r, hr, rfl⟩ := Option.map_eq_some_iff.1 (Option.mem_toList.1 hf)
    exact throws_of_thrown hr
  · exact hi f hf

/-- A call that throws leaves no trace if it found nothing to take; in a pool
whose lists share no entry, only then. -/
theorem failures_atomic (h : Reach (step dbg) anyStep (init pool) s) (hf : f ∈ s.failures) :
    (f.Exhausted → f.Atomic dbg) ∧ (f.start.Intact → f.what ∉ brokenTexts → f.Atomic dbg → f.Exhausted) := by
  have ht := failures_throw h f hf
  exact ⟨fun he => he.atomic ht, fun hi hw ha => ha.exhausted ht hi hw⟩

/-- Two pages of a relation that is read and then extended leave two entries pinned and no entry free. -/
theorem failures_atomic_full : ∃ pool : BufferManager Nat, create true 2 (fun _ => 0) (fun _ => 0) = .ok pool ∧
    ∃ s, Reach (step true) anyStep (init pool) s ∧ ∃ f ∈ s.failures, f.Exhausted ∧ f.Atomic true := by
  have h : ((create true 2 (fun _ => 0) (fun _ => 0)).toOption.bind fun pool : BufferManager Nat =>
      (exec (step true) (init pool) [.getBuffer ⟨1, 0⟩ [false], .extendRelation 1 [], .getBuffer ⟨2, 0⟩ [],
        .getBuffer ⟨2, 1⟩ []]).map
        fun s => s.failures.any fun f => f.op == .getBuffer ⟨2, 1⟩ [] && (f.before.map ⟨2, 1⟩).isNone &&
        f.start.exhausted) =
      some true := by
    decide +kernel
  obtain ⟨pool, hpool, hs⟩ := Option.bind_eq_some_iff.1 h
  obtain ⟨s, hr, hany⟩ := reach_of_test hs
  obtain ⟨f, hf, hp⟩ := List.any_eq_true.1 hany
  simp only [Bool.and_eq_true, beq_iff_eq, Option.isNone_iff_eq_none] at hp
  obtain ⟨⟨hop, hm⟩, hex⟩ := hp
  have he : f.Exhausted := ⟨by rw [PoolFailure.Searches, hop]; exact hm, hex⟩
  exact ⟨pool, create_of_toOption hpool, s, hr, f, hf, he, (failures_atomic hr hf).1 he⟩

/-- The read of the first page fails: its entry keeps the pin and the mapping. -/
theorem failed_read_pins : ∃ pool : BufferManager Nat, create true 1 (fun _ => 0) (fun _ => 8192) = .ok pool ∧
    ∃ s, Reach (step true) anyStep (init pool) s ∧ ∃ f ∈ s.failures, f.what = "file operation failed" ∧
    ¬ f.Atomic true := by
  have h : ((create true 1 (fun _ => 0) (fun _ => 8192)).toOption.bind fun pool : BufferManager Nat =>
      (exec (step true) (init pool) [.getBuffer ⟨1, 0⟩ [false]]).map fun s => s.failures.any fun f =>
        (f.after.state 0).refCount == 1 && (f.before.state 0).refCount == 0 && f.what == "file operation failed") =
        some true := by
    decide +kernel
  obtain ⟨pool, hpool, hs⟩ := Option.bind_eq_some_iff.1 h
  obtain ⟨s, hr, hany⟩ := reach_of_test hs
  obtain ⟨f, hf, hp⟩ := List.any_eq_true.1 hany
  simp only [Bool.and_eq_true, beq_iff_eq] at hp
  obtain ⟨⟨hafter, hbefore⟩, hwhat⟩ := hp
  refine ⟨pool, create_of_toOption hpool, s, hr, f, hf, hwhat, fun ha => ?_⟩
  have hrefs := ha.refs 0
  omega

end FailureRun

end Mimidb
