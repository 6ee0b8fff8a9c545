import Mimidb.BufferManager
import Mimidb.Run

/-!
# Hand-over of the I/O on an entry

Any number of workers on one entry with its buffer, one atomic operation at a time:
the spin lock and the flags are in the state word of the entry, the sleep and the
wake-up use the latch of the buffer. `ExtendRelation` of a new page relies on an
assertion to get the I/O; a build without assertions goes on without it.
-/

namespace Mimidb

inductive IoCall where
  | readBuffer
  | flushBuffer
  /-- `ExtendRelation` with an entry of its own. -/
  | extendNew
  /-- `ExtendRelation` with the entry of an earlier call. -/
  | extendAgain
  deriving DecidableEq, Repr

def IoCall.forInput : IoCall → Bool
  | .flushBuffer => false
  | _ => true

/-- Program points: each names the operation that comes next. -/
inductive IoPc where
  | idle
  /-- Other code that has locked the entry. -/
  | holding
  -- `ReadBuffer`
  | readLoad
  -- the loop of `ExtendRelation`
  | clearLock
  | clearValid
  | clearUnlock
  -- `ShouldStartIO`
  | startLock (c : IoCall)
  | startTest (c : IoCall) (state : EntryState)
  | startUnlock (c : IoCall)
  -- `waitIO`
  | waitLock (c : IoCall)
  | waitUnlock (c : IoCall) (state : EntryState)
  | waitLatch (c : IoCall)
  | waitLoad (c : IoCall)
  | waitSleep (c : IoCall)
  | asleep (c : IoCall)
  | woken (c : IoCall)
  | waitRelease (c : IoCall)
  -- the I/O
  | ioLatch (c : IoCall)
  | transfer (c : IoCall)
  -- `TerminateBufferIO`
  | endLock (c : IoCall) (failed : Bool)
  | endClear (c : IoCall) (failed : Bool)
  | endUnset (c : IoCall) (failed : Bool)
  | endSet (c : IoCall) (failed : Bool)
  | endUnlock
  | endNotify
  | endRelease
  deriving DecidableEq, Repr

structure IoEntry (W : Type) where
  state : EntryState
  /-- The exclusive holder of the latch of the buffer, and the shared ones. -/
  latch : Option W
  sharers : List W
  pc : W → IoPc

inductive IoOp where
  | call (c : IoCall)
  | run
  /-- The end of the file operation. -/
  | finish (ok : Bool)
  /-- A wake-up without a notification. -/
  | wake
  -- other code locks the entry or the page, or changes other bits of the state
  | lockEntry
  | lockPage
  | unlockPage
  | sharePage
  | unsharePage
  | change (state : EntryState)
  deriving DecidableEq, Repr

namespace IoPc

/-- The worker has locked the entry. -/
@[simp] def spins : IoPc → Bool
  | .holding | .clearValid | .clearUnlock | .startTest .. | .startUnlock _ | .waitUnlock .. => true
  | .endClear .. | .endUnset .. | .endSet .. | .endUnlock => true
  | _ => false

/-- The worker has the latch. -/
@[simp] def latched : IoPc → Bool
  | .waitLoad _ | .waitSleep _ | .waitRelease _ | .transfer _ => true
  | .endLock .. | .endClear .. | .endUnset .. | .endSet .. | .endUnlock | .endNotify | .endRelease => true
  | _ => false

/-- Between a true result of `ShouldStartIO` and the end of the I/O in `TerminateBufferIO`. -/
@[simp] def doing : IoPc → Bool
  | .startUnlock _ | .ioLatch _ | .transfer _ | .endLock .. | .endClear .. => true
  | _ => false

/-- The notification is still to come. -/
@[simp] def notifies : IoPc → Bool
  | .endUnset .. | .endSet .. | .endUnlock | .endNotify => true
  | _ => false

@[simp] def isAsleep : IoPc → Bool
  | .asleep _ => true
  | _ => false

@[simp] def isSleeping : IoPc → Bool
  | .waitSleep _ => true
  | _ => false

/-- The state that `ShouldStartIO` has read is still right about `IoInProgress`. -/
@[simp] def upToDate (st : EntryState) : IoPc → Bool
  | .startTest _ st' => st'.ioInProgress == st.ioInProgress
  | _ => true

/-- `p` has neither the latch nor the I/O unless `q` has it, and does not forget the notification. -/
def keeps (q p : IoPc) : Bool := (!p.latched || q.latched) && (!p.doing || q.doing) && (!q.notifies || p.notifies)

def sleeps (p : IoPc) : Bool := p.isSleeping || p.isAsleep

/-- The test of `ShouldStartIO` refuses the new page of `ExtendRelation`. -/
def refusesNew : IoPc → Bool
  | .startTest .extendNew st => !st.ioInProgress && st.dataValid
  | _ => false

/-- `notify_all`. -/
@[simp] def notified : IoPc → IoPc
  | .asleep c => .woken c
  | p => p

theorem latched_of_isSleeping {p : IoPc} (h : p.isSleeping = true) : p.latched = true := by
  cases p <;> simp_all

theorem upToDate_of_spins {p : IoPc} {st : EntryState} (h : p.spins = false) : p.upToDate st = true := by
  cases p <;> simp_all

theorem upToDate_congr {p : IoPc} {st st' : EntryState} (h : st.ioInProgress = st'.ioInProgress) :
    p.upToDate st = p.upToDate st' := by
  cases p <;> simp [h]

section
variable {q p : IoPc}

theorem keeps_latched (h : q.keeps p = true) (hp : p.latched = true) : q.latched = true := by
  unfold keeps at h
  rw [hp] at h
  simp only [Bool.and_eq_true, Bool.not_true, Bool.false_or] at h
  exact h.1.1

theorem keeps_doing (h : q.keeps p = true) (hp : p.doing = true) : q.doing = true := by
  unfold keeps at h
  rw [hp] at h
  simp only [Bool.and_eq_true, Bool.not_true, Bool.false_or] at h
  exact h.1.2

theorem keeps_notifies (h : q.keeps p = true) (hq : q.notifies = true) : p.notifies = true := by
  unfold keeps at h
  rw [hq] at h
  simp only [Bool.and_eq_true, Bool.not_true, Bool.false_or] at h
  exact h.2

end

theorem spins_notified (p : IoPc) : p.notified.spins = p.spins := by cases p <;> rfl
theorem latched_notified (p : IoPc) : p.notified.latched = p.latched := by cases p <;> rfl
theorem doing_notified (p : IoPc) : p.notified.doing = p.doing := by cases p <;> rfl
theorem isSleeping_notified (p : IoPc) : p.notified.isSleeping = p.isSleeping := by cases p <;> rfl
theorem isAsleep_notified (p : IoPc) : p.notified.isAsleep = false := by cases p <;> rfl
theorem upToDate_notified (st : EntryState) (p : IoPc) : p.notified.upToDate st = p.upToDate st := by
  cases p <;> rfl

end IoPc

namespace IoEntry

variable {W : Type} [DecidableEq W]

@[simp] def goto (s : IoEntry W) (w : W) (p : IoPc) : IoEntry W := { s with pc := Function.update s.pc w p }

@[simp] def setState (s : IoEntry W) (st : EntryState) : IoEntry W := { s with state := st }

@[simp] def setLatch (s : IoEntry W) (o : Option W) : IoEntry W := { s with latch := o }

/-- `CacheEntry::Lock`; a worker that finds the entry locked tries again. -/
def spinLock (s : IoEntry W) (w : W) (p : EntryState → IoPc) : Option (IoEntry W) :=
  if s.state.locked then some s
  else some ((s.setState { s.state with locked := true }).goto w (p { s.state with locked := true }))

def spinUnlock (s : IoEntry W) (w : W) (p : IoPc) : IoEntry W :=
  (s.setState { s.state with locked := !s.state.locked }).goto w p

/-- `Latch.Lock` of the buffer; the worker waits until it is free. -/
def takeLatch (s : IoEntry W) (w : W) (p : IoPc) : Option (IoEntry W) :=
  if s.latch = none ∧ s.sharers = [] then some ((s.setLatch (some w)).goto w p) else none

def giveLatch (s : IoEntry W) (w : W) (p : IoPc) : IoEntry W := (s.setLatch none).goto w p

/-- What follows a `ShouldStartIO` that returns false; a failed assertion ends the process. -/
def refused (dbg : Bool) : IoCall → Option IoPc
  | .readBuffer | .flushBuffer => some .idle
  | .extendNew => if dbg then none else some (.ioLatch .extendNew)
  | .extendAgain => some .clearLock

def runPc (dbg : Bool) (s : IoEntry W) (w : W) : IoPc → Option (IoEntry W)
  | .idle => none
  | .holding => some (s.spinUnlock w .idle)
  | .readLoad => some (s.goto w (if s.state.dataValid then .idle else .startLock .readBuffer))
  | .clearLock => s.spinLock w fun _ => .clearValid
  | .clearValid => some ((s.setState { s.state with dataValid := false }).goto w .clearUnlock)
  | .clearUnlock => some (s.spinUnlock w (.startLock .extendAgain))
  | .startLock c => s.spinLock w (.startTest c)
  | .startTest c st =>
    if st.ioInProgress then some (s.spinUnlock w (.waitLock c))
    else if (if c.forInput then st.dataValid else !st.dirty) then (refused dbg c).map (s.spinUnlock w)
    else some ((s.setState { s.state with ioInProgress := true }).goto w (.startUnlock c))
  | .startUnlock c => some (s.spinUnlock w (.ioLatch c))
  | .waitLock c => s.spinLock w (.waitUnlock c)
  | .waitUnlock c st => some (s.spinUnlock w (if st.ioInProgress then .waitLatch c else .startLock c))
  | .waitLatch c => s.takeLatch w (.waitLoad c)
  | .waitLoad c => some (s.goto w (if s.state.ioInProgress then .waitSleep c else .waitRelease c))
  -- the latch is given back and the worker is asleep in one step
  | .waitSleep c => some (s.giveLatch w (.asleep c))
  | .asleep _ => none
  | .woken c => s.takeLatch w (.waitRelease c)
  | .waitRelease c => some (s.giveLatch w (.waitLock c))
  | .ioLatch c => s.takeLatch w (.transfer c)
  | .transfer _ => none
  | .endLock c failed =>
    if dbg ∧ s.state.locked = false ∧ s.state.ioInProgress = false then none
      else s.spinLock w fun _ => .endClear c failed
  -- `IoInProgress` and `IoError`, which is `Dirty`
  | .endClear c failed =>
    some ((s.setState { s.state with ioInProgress := false, dirty := false }).goto w (.endUnset c failed))
  | .endUnset c failed =>
    some ((s.setState { s.state with dirty := s.state.dirty && (failed || c.forInput) }).goto w (.endSet c failed))
  | .endSet _ failed => some
      ((s.setState (if failed then { s.state with dirty := true } else { s.state with dataValid := true })).goto w
      .endUnlock)
  | .endUnlock => some (s.spinUnlock w .endNotify)
  | .endNotify => some ({ s with pc := fun v => (s.pc v).notified }.goto w .endRelease)
  | .endRelease => some (s.giveLatch w .idle)

def entryPc : IoCall → IoPc
  | .readBuffer => .readLoad
  | .flushBuffer => .startLock .flushBuffer
  | .extendNew => .startLock .extendNew
  | .extendAgain => .clearLock

def step (dbg : Bool) (s : IoEntry W) : W × IoOp → Option (IoEntry W)
  | (w, .call c) => if s.pc w = .idle then some (s.goto w (entryPc c)) else none
  | (w, .run) => s.runPc dbg w (s.pc w)
  | (w, .finish ok) =>
    match s.pc w with
    | .transfer c => some (s.goto w (.endLock c !ok))
    | _ => none
  | (w, .wake) =>
    match s.pc w with
    | .asleep c => some (s.goto w (.woken c))
    | _ => none
  | (w, .lockEntry) => if s.pc w = .idle then s.spinLock w fun _ => .holding else none
  | (w, .lockPage) => if s.pc w = .idle then s.takeLatch w .idle else none
  | (w, .unlockPage) => if s.pc w = .idle ∧ s.latch = some w then some (s.setLatch none) else none
  | (w, .sharePage) => if s.pc w = .idle ∧ s.latch = none then some { s with sharers := w :: s.sharers } else none
  | (w, .unsharePage) =>
    if s.pc w = .idle ∧ w ∈ s.sharers then some { s with sharers := s.sharers.erase w } else none
  | (_, .change st) =>
    if st.locked = s.state.locked ∧ st.ioInProgress = s.state.ioInProgress then some (s.setState st) else none

/-- Nobody works on the entry. -/
structure Quiet (s : IoEntry W) : Prop where
  idle : ∀ w, s.pc w = .idle
  unlocked : s.state.locked = false
  noIo : s.state.ioInProgress = false

/-- A new page is not valid yet when `ExtendRelation` starts its I/O. -/
def ExtendsNew (s : IoEntry W) (a : W × IoOp) : Prop := a.2 = .run → (s.pc a.1).refusesNew = false

instance (s : IoEntry W) (a : W × IoOp) : Decidable (ExtendsNew s a) := inferInstanceAs (Decidable (_ → _))

/-- One worker at most does I/O, and whoever sleeps while none is done will be notified. -/
structure HandsOver (s : IoEntry W) : Prop where
  one : ∀ w v, (s.pc w).doing = true → (s.pc v).doing = true → w = v
  notified : ∀ w, (s.pc w).isAsleep = true → s.state.ioInProgress = false → ∃ v, (s.pc v).notifies = true

/-! ## The invariant -/

structure HandoverInv (s : IoEntry W) : Prop where
  spin : ∀ w, (s.pc w).spins = true → s.state.locked = true
  spinOne : ∀ w v, (s.pc w).spins = true → (s.pc v).spins = true → w = v
  snapshot : ∀ w, (s.pc w).upToDate s.state = true
  latch : ∀ w, (s.pc w).latched = true → s.latch = some w
  sleeping : ∀ w, (s.pc w).isSleeping = true → s.state.ioInProgress = true
  doing : ∀ w, (s.pc w).doing = true → s.state.ioInProgress = true
  hands : HandsOver s

/-- What a step of `w` may do to the state word and the latch when it goes on to `p`. -/
structure Effect (s : IoEntry W) (w : W) (st : EntryState) (o : Option W) (p : IoPc) : Prop where
  spin : p.spins = true → st.locked = true ∧ ((s.pc w).spins = true ∨ s.state.locked = false)
  locked : st.locked = s.state.locked ∨ (s.pc w).spins = true ∨ s.state.locked = false
  latched : p.latched = true → o = some w
  latch : o = s.latch ∨ s.latch = none ∨ s.latch = some w
  /-- `IoInProgress` is set and cleared under the spin lock, and cleared under the latch too. -/
  progress : st.ioInProgress = s.state.ioInProgress ∨ (s.pc w).spins = true ∧
    (st.ioInProgress = true ∨ (s.pc w).latched = true ∧ (s.pc w).doing = true ∧ p.notifies = true)
  snapshot : p.upToDate st = true
  sleeps : p.sleeps = true → st.ioInProgress = true
  doing : p.doing = true → st.ioInProgress = true ∧ ((s.pc w).doing = true ∨ s.state.ioInProgress = false)
  notifies : (s.pc w).notifies = true → p.notifies = true ∨ ∀ v, (s.pc v).isAsleep = false

section
variable {dbg : Bool} {s t : IoEntry W} {w : W}

theorem HandoverInv.effect {st : EntryState} {o : Option W} {p : IoPc} {sharers : List W} (hi : HandoverInv s)
    (he : Effect s w st o p) : HandoverInv ⟨st, o, sharers, Function.update s.pc w p⟩ := by
  have hother : ∀ v, v ≠ w → Function.update s.pc w p v = s.pc v := fun v hv => Function.update_of_ne hv ..
  have hself : Function.update s.pc w p w = p := Function.update_self ..
  -- another worker in the spin lock, with the latch or in the I/O keeps it
  have hspin : ∀ v, v ≠ w → (s.pc v).spins = true → st.locked = true ∧ (s.pc w).spins = false := by
    intro v hv hs
    have hlocked := hi.spin v hs
    have hw : (s.pc w).spins = false := Bool.eq_false_iff.2 fun hw => hv (hi.spinOne v w hs hw)
    rcases he.locked with h | h | h
    · exact ⟨h.trans hlocked, hw⟩
    · rw [hw] at h; cases h
    · rw [hlocked] at h; cases h
  have hlatch : ∀ v, v ≠ w → (s.pc v).latched = true → o = some v ∧ (s.pc w).latched = false := by
    intro v hv hs
    have hl := hi.latch v hs
    have hw : (s.pc w).latched = false :=
      Bool.eq_false_iff.2 fun hw => hv (Option.some.inj (hl.symm.trans (hi.latch w hw)))
    rcases he.latch with h | h | h
    · exact ⟨h.trans hl, hw⟩
    · rw [hl] at h; cases h
    · rw [hl] at h; exact absurd (Option.some.inj h) hv
  constructor
  case spin =>
    intro v hs
    change (Function.update s.pc w p v).spins = true at hs
    by_cases hv : v = w
    · rw [hv, hself] at hs
      exact (he.spin hs).1
    · rw [hother v hv] at hs
      exact (hspin v hv hs).1
  case spinOne =>
    intro v u hv hu
    change (Function.update s.pc w p v).spins = true at hv
    change (Function.update s.pc w p u).spins = true at hu
    have key : ∀ x, x ≠ w → (s.pc x).spins = true → p.spins = true → False := by
      intro x hx hs hp
      rcases (he.spin hp).2 with h | h
      · rw [(hspin x hx hs).2] at h; cases h
      · rw [hi.spin x hs] at h; cases h
    by_cases ev : v = w <;> by_cases eu : u = w
    · rw [ev, eu]
    · rw [ev, hself] at hv
      rw [hother u eu] at hu
      exact (key u eu hu hv).elim
    · rw [hother v ev] at hv
      rw [eu, hself] at hu
      exact (key v ev hv hu).elim
    · rw [hother v ev] at hv
      rw [hother u eu] at hu
      exact hi.spinOne v u hv hu
  case snapshot =>
    intro v
    show (Function.update s.pc w p v).upToDate st = true
    by_cases ev : v = w
    · rw [ev, hself]
      exact he.snapshot
    · rw [hother v ev]
      rcases he.progress with h | ⟨h, -⟩
      · exact (IoPc.upToDate_congr h).trans (hi.snapshot v)
      · cases hv : (s.pc v).spins with
        | false => exact IoPc.upToDate_of_spins hv
        | true => rw [(hspin v ev hv).2] at h; cases h
  case latch =>
    intro v hv
    change (Function.update s.pc w p v).latched = true at hv
    by_cases ev : v = w
    · rw [ev, hself] at hv
      rw [ev]
      exact he.latched hv
    · rw [hother v ev] at hv
      exact (hlatch v ev hv).1
  case sleeping =>
    intro v hv
    change (Function.update s.pc w p v).isSleeping = true at hv
    by_cases ev : v = w
    · rw [ev, hself] at hv
      exact he.sleeps (by rw [IoPc.sleeps, hv]; rfl)
    · rw [hother v ev] at hv
      rcases he.progress with h | ⟨-, h | ⟨h, -⟩⟩
      · exact h.trans (hi.sleeping v hv)
      · exact h
      · rw [(hlatch v ev (IoPc.latched_of_isSleeping hv)).2] at h; cases h
  case doing =>
    intro v hv
    change (Function.update s.pc w p v).doing = true at hv
    by_cases ev : v = w
    · rw [ev, hself] at hv
      exact (he.doing hv).1
    · rw [hother v ev] at hv
      rcases he.progress with h | ⟨-, h | ⟨-, h, -⟩⟩
      · exact h.trans (hi.doing v hv)
      · exact h
      · exact absurd (hi.hands.one v w hv h) ev
  case hands =>
    constructor
    · intro v u hv hu
      change (Function.update s.pc w p v).doing = true at hv
      change (Function.update s.pc w p u).doing = true at hu
      have key : ∀ x, x ≠ w → (s.pc x).doing = true → p.doing = true → False := by
        intro x hx hs hp
        rcases (he.doing hp).2 with h | h
        · exact hx (hi.hands.one x w hs h)
        · rw [hi.doing x hs] at h; cases h
      by_cases ev : v = w <;> by_cases eu : u = w
      · rw [ev, eu]
      · rw [ev, hself] at hv
        rw [hother u eu] at hu
        exact (key u eu hu hv).elim
      · rw [hother v ev] at hv
        rw [eu, hself] at hu
        exact (key v ev hv hu).elim
      · rw [hother v ev] at hv
        rw [hother u eu] at hu
        exact hi.hands.one v u hv hu
    · intro v hv hno
      change (Function.update s.pc w p v).isAsleep = true at hv
      change st.ioInProgress = false at hno
      show ∃ u, (Function.update s.pc w p u).notifies = true
      by_cases ev : v = w
      · rw [ev, hself] at hv
        rw [he.sleeps (by rw [IoPc.sleeps, hv, Bool.or_true])] at hno; cases hno
      · rw [hother v ev] at hv
        rcases he.progress with h | ⟨-, h | ⟨-, -, h⟩⟩
        · obtain ⟨u, hu⟩ := hi.hands.notified v hv (h.symm.trans hno)
          by_cases eu : u = w
          · rcases he.notifies (eu ▸ hu) with h | h
            · exact ⟨w, by rw [hself]; exact h⟩
            · rw [h v] at hv; cases hv
          · exact ⟨u, by rw [hother u eu]; exact hu⟩
        · rw [h] at hno; cases hno
        · exact ⟨w, by rw [hself]; exact h⟩

theorem HandoverInv.spinLock {q : IoPc} {p : EntryState → IoPc} (hi : HandoverInv s) (hpc : s.pc w = q)
    (hs : s.spinLock w p = some t) (hk : ∀ st, q.keeps (p st) = true) (hp : ∀ st, (p st).upToDate st = true)
    (ha : ∀ st, (p st).sleeps = false) : HandoverInv t := by
  unfold IoEntry.spinLock at hs
  split at hs
  · cases hs
    exact hi
  · rename_i hfree
    cases hs
    have hfree' : s.state.locked = false := Bool.eq_false_iff.2 hfree
    subst hpc
    apply hi.effect
    constructor
    case spin => exact fun _ => ⟨rfl, .inr hfree'⟩
    case locked => exact .inr (.inr hfree')
    case latched => exact fun h => hi.latch w (IoPc.keeps_latched (hk _) h)
    case latch => exact .inl rfl
    case progress => exact .inl rfl
    case snapshot => exact hp _
    case sleeps => exact fun h => absurd h (Bool.eq_false_iff.1 (ha _))
    case doing => exact fun h => ⟨hi.doing w (IoPc.keeps_doing (hk _) h), .inl (IoPc.keeps_doing (hk _) h)⟩
    case notifies => exact fun h => .inl (IoPc.keeps_notifies (hk _) h)

theorem HandoverInv.spinUnlock {q p : IoPc} (hi : HandoverInv s) (hpc : s.pc w = q) (hq : q.spins = true)
    (hp : p.spins = false) (hk : q.keeps p = true) (ha : p.sleeps = false) : HandoverInv (s.spinUnlock w p) := by
  subst hpc
  apply hi.effect
  constructor
  case spin => exact fun h => absurd h (Bool.eq_false_iff.1 hp)
  case locked => exact .inr (.inl hq)
  case latched => exact fun h => hi.latch w (IoPc.keeps_latched hk h)
  case latch => exact .inl rfl
  case progress => exact .inl rfl
  case snapshot => exact IoPc.upToDate_of_spins hp
  case sleeps => exact fun h => absurd h (Bool.eq_false_iff.1 ha)
  case doing => exact fun h => ⟨hi.doing w (IoPc.keeps_doing hk h), .inl (IoPc.keeps_doing hk h)⟩
  case notifies => exact fun h => .inl (IoPc.keeps_notifies hk h)

theorem HandoverInv.takeLatch {q p : IoPc} (hi : HandoverInv s) (hpc : s.pc w = q) (hs : s.takeLatch w p = some t)
    (hp : p.spins = false) (hd : p.doing = q.doing) (hn : q.notifies = false) (ha : p.sleeps = false) :
    HandoverInv t := by
  unfold IoEntry.takeLatch at hs
  split at hs
  · rename_i hfree
    cases hs
    subst hpc
    apply hi.effect
    constructor
    case spin => exact fun h => absurd h (Bool.eq_false_iff.1 hp)
    case locked => exact .inl rfl
    case latched => exact fun _ => rfl
    case latch => exact .inr (.inl hfree.1)
    case progress => exact .inl rfl
    case snapshot => exact IoPc.upToDate_of_spins hp
    case sleeps => exact fun h => absurd h (Bool.eq_false_iff.1 ha)
    case doing => exact fun h => ⟨hi.doing w (hd.symm.trans h), .inl (hd.symm.trans h)⟩
    case notifies => exact fun h => absurd h (Bool.eq_false_iff.1 hn)
  · cases hs

theorem HandoverInv.giveLatch {q p : IoPc} (hi : HandoverInv s) (hpc : s.pc w = q) (hq : q.latched = true)
    (hp : p.spins = false) (hl : p.latched = false) (hk : q.keeps p = true)
    (ha : p.sleeps = true → s.state.ioInProgress = true) : HandoverInv (s.giveLatch w p) := by
  subst hpc
  apply hi.effect
  constructor
  case spin => exact fun h => absurd h (Bool.eq_false_iff.1 hp)
  case locked => exact .inl rfl
  case latched => exact fun h => absurd h (Bool.eq_false_iff.1 hl)
  case latch => exact .inr (.inr (hi.latch w hq))
  case progress => exact .inl rfl
  case snapshot => exact IoPc.upToDate_of_spins hp
  case sleeps => exact ha
  case doing => exact fun h => ⟨hi.doing w (IoPc.keeps_doing hk h), .inl (IoPc.keeps_doing hk h)⟩
  case notifies => exact fun h => .inl (IoPc.keeps_notifies hk h)

theorem HandoverInv.setGoto {q p : IoPc} {st : EntryState} (hi : HandoverInv s) (hpc : s.pc w = q)
    (hst : st.locked = s.state.locked ∧ st.ioInProgress = s.state.ioInProgress)
    (hs : p.spins = true → q.spins = true) (hp : p.upToDate st = true) (hk : q.keeps p = true)
    (ha : p.sleeps = true → s.state.ioInProgress = true) : HandoverInv ((s.setState st).goto w p) := by
  subst hpc
  apply hi.effect
  constructor
  case spin => exact fun h => ⟨hst.1.trans (hi.spin w (hs h)), .inl (hs h)⟩
  case locked => exact .inl hst.1
  case latched => exact fun h => hi.latch w (IoPc.keeps_latched hk h)
  case latch => exact .inl rfl
  case progress => exact .inl hst.2
  case snapshot => exact hp
  case sleeps => exact fun h => hst.2.trans (ha h)
  case doing => exact fun h => ⟨hst.2.trans (hi.doing w (IoPc.keeps_doing hk h)), .inl (IoPc.keeps_doing hk h)⟩
  case notifies => exact fun h => .inl (IoPc.keeps_notifies hk h)

theorem HandoverInv.goto {q p : IoPc} (hi : HandoverInv s) (hpc : s.pc w = q) (hp : p.spins = false)
    (hk : q.keeps p = true) (ha : p.sleeps = true → s.state.ioInProgress = true) : HandoverInv (s.goto w p) := by
  have hs : HandoverInv ((s.setState s.state).goto w p) := hi.setGoto hpc ⟨rfl, rfl⟩
    (fun h => absurd h (Bool.eq_false_iff.1 hp)) (IoPc.upToDate_of_spins hp) hk ha
  exact hs

theorem HandoverInv.starts {c : IoCall} {st : EntryState} (hi : HandoverInv s) (hpc : s.pc w = .startTest c st)
    (hst : st.ioInProgress = false) :
    HandoverInv ((s.setState { s.state with ioInProgress := true }).goto w (.startUnlock c)) := by
  have hw : (s.pc w).spins = true := by rw [hpc]; rfl
  have hno : s.state.ioInProgress = false := by
    have h := hi.snapshot w
    rw [hpc] at h
    exact (eq_of_beq h).symm.trans hst
  apply hi.effect
  constructor
  case spin => exact fun _ => ⟨hi.spin w hw, .inl hw⟩
  case locked => exact .inl rfl
  case latched => exact fun h => by cases h
  case latch => exact .inl rfl
  case progress => exact .inr ⟨hw, .inl rfl⟩
  case snapshot => rfl
  case sleeps => exact fun _ => rfl
  case doing => exact fun _ => ⟨rfl, .inr hno⟩
  case notifies =>
    intro h
    rw [hpc] at h
    cases h

theorem HandoverInv.clears {c : IoCall} {failed : Bool} (hi : HandoverInv s) (hpc : s.pc w = .endClear c failed) :
    HandoverInv ((s.setState { s.state with ioInProgress := false, dirty := false }).goto w
      (.endUnset c failed)) := by
  have hw : (s.pc w).spins = true := by rw [hpc]; rfl
  have hl : (s.pc w).latched = true := by rw [hpc]; rfl
  have hd : (s.pc w).doing = true := by rw [hpc]; rfl
  apply hi.effect
  constructor
  case spin => exact fun _ => ⟨hi.spin w hw, .inl hw⟩
  case locked => exact .inl rfl
  case latched => exact fun _ => hi.latch w hl
  case latch => exact .inl rfl
  case progress => exact .inr ⟨hw, .inr ⟨hl, hd, rfl⟩⟩
  case snapshot => rfl
  case sleeps => exact fun h => by cases h
  case doing => exact fun h => by cases h
  case notifies => exact fun _ => .inl rfl

omit [DecidableEq W] in
/-- Other code takes or gives back the latch, or changes other bits. -/
theorem HandoverInv.elsewhere {st : EntryState} {o : Option W} {l : List W} (hi : HandoverInv s)
    (hst : st.locked = s.state.locked ∧ st.ioInProgress = s.state.ioInProgress)
    (ho : ∀ v, (s.pc v).latched = true → o = s.latch) : HandoverInv ⟨st, o, l, s.pc⟩ := by
  constructor
  case spin => exact fun v h => hst.1.trans (hi.spin v h)
  case spinOne => exact hi.spinOne
  case snapshot => exact fun v => (IoPc.upToDate_congr hst.2).trans (hi.snapshot v)
  case latch => exact fun v h => (ho v h).trans (hi.latch v h)
  case sleeping => exact fun v h => hst.2.trans (hi.sleeping v h)
  case doing => exact fun v h => hst.2.trans (hi.doing v h)
  case hands => exact ⟨hi.hands.one, fun v h hno => hi.hands.notified v h (hst.2.symm.trans hno)⟩

omit [DecidableEq W] in
theorem HandoverInv.notifyAll (hi : HandoverInv s) : HandoverInv { s with pc := fun v => (s.pc v).notified } := by
  constructor
  case spin => exact fun v h => hi.spin v ((s.pc v).spins_notified ▸ h)
  case spinOne =>
    exact fun v u hv hu => hi.spinOne v u ((s.pc v).spins_notified ▸ hv) ((s.pc u).spins_notified ▸ hu)
  case snapshot => exact fun v => ((s.pc v).upToDate_notified _).trans (hi.snapshot v)
  case latch => exact fun v h => hi.latch v ((s.pc v).latched_notified ▸ h)
  case sleeping => exact fun v h => hi.sleeping v ((s.pc v).isSleeping_notified ▸ h)
  case doing => exact fun v h => hi.doing v ((s.pc v).doing_notified ▸ h)
  case hands =>
    constructor
    · exact fun v u hv hu => hi.hands.one v u ((s.pc v).doing_notified ▸ hv) ((s.pc u).doing_notified ▸ hu)
    · intro v h
      rw [IoPc.isAsleep_notified] at h
      cases h

theorem HandoverInv.notifies (hi : HandoverInv s) (hpc : s.pc w = .endNotify) :
    HandoverInv ({ s with pc := fun v => (s.pc v).notified }.goto w .endRelease) := by
  apply hi.notifyAll.effect
  constructor
  case spin => exact fun h => by cases h
  case locked => exact .inl rfl
  case latched => exact fun _ => hi.latch w (by rw [hpc]; rfl)
  case latch => exact .inl rfl
  case progress => exact .inl rfl
  case snapshot => rfl
  case sleeps => exact fun h => by cases h
  case doing => exact fun h => by cases h
  case notifies => exact fun _ => .inr fun v => IoPc.isAsleep_notified _

theorem HandoverInv.runPc (hi : HandoverInv s) (hc : ExtendsNew s (w, .run))
    (hs : s.runPc dbg w (s.pc w) = some t) :
    HandoverInv t := by
  cases hpc : s.pc w <;> rw [hpc] at hs <;> simp only [IoEntry.runPc, reduceCtorEq, Option.some.injEq] at hs
  case holding => exact hs ▸ hi.spinUnlock hpc rfl rfl rfl rfl
  case readLoad =>
    subst hs
    split <;> exact hi.goto hpc rfl rfl fun h => by cases h
  case clearLock => exact hi.spinLock hpc hs (fun _ => rfl) (fun _ => rfl) fun _ => rfl
  case clearValid => exact hs ▸ hi.setGoto hpc ⟨rfl, rfl⟩ (fun _ => rfl) rfl rfl fun h => by cases h
  case clearUnlock => exact hs ▸ hi.spinUnlock hpc rfl rfl rfl rfl
  case startLock c => exact hi.spinLock hpc hs (fun _ => rfl) (fun _ => beq_self_eq_true _) fun _ => rfl
  case startTest c st =>
    split at hs
    · cases hs
      exact hi.spinUnlock hpc rfl rfl rfl rfl
    · rename_i hno
      have hno' : st.ioInProgress = false := Bool.eq_false_iff.2 hno
      by_cases hdone : (if c.forInput then st.dataValid else !st.dirty) = true
      · rw [if_pos hdone] at hs
        cases c <;> simp only [refused, Option.map_some, Option.some.injEq] at hs
        -- the new page of `ExtendRelation` is never refused
        case extendNew =>
          have hnew : (s.pc w).refusesNew = false := hc rfl
          have hvalid : st.dataValid = true := hdone
          rw [hpc, IoPc.refusesNew, hno', hvalid] at hnew
          cases hnew
        all_goals exact hs ▸ hi.spinUnlock hpc rfl rfl rfl rfl
      · rw [if_neg hdone] at hs
        cases hs
        exact hi.starts hpc hno'
  case startUnlock c => exact hs ▸ hi.spinUnlock hpc rfl rfl rfl rfl
  case waitLock c => exact hi.spinLock hpc hs (fun _ => rfl) (fun _ => rfl) fun _ => rfl
  case waitUnlock c st =>
    subst hs
    split <;> exact hi.spinUnlock hpc rfl rfl rfl rfl
  case waitLatch c => exact hi.takeLatch hpc hs rfl rfl rfl rfl
  case waitLoad c =>
    subst hs
    split
    · rename_i hio
      exact hi.goto hpc rfl rfl fun _ => hio
    · exact hi.goto hpc rfl rfl fun h => by cases h
  case waitSleep c => exact hs ▸ hi.giveLatch hpc rfl rfl rfl rfl fun _ => hi.sleeping w (by rw [hpc]; rfl)
  case woken c => exact hi.takeLatch hpc hs rfl rfl rfl rfl
  case waitRelease c => exact hs ▸ hi.giveLatch hpc rfl rfl rfl rfl fun h => by cases h
  case ioLatch c => exact hi.takeLatch hpc hs rfl rfl rfl rfl
  case endLock c failed =>
    split at hs
    · cases hs
    · exact hi.spinLock hpc hs (fun _ => rfl) (fun _ => rfl) fun _ => rfl
  case endClear c failed => exact hs ▸ hi.clears hpc
  case endUnset c failed => exact hs ▸ hi.setGoto hpc ⟨rfl, rfl⟩ (fun _ => rfl) rfl rfl fun h => by cases h
  case endSet c failed =>
    subst hs
    split <;> exact hi.setGoto hpc ⟨rfl, rfl⟩ (fun _ => rfl) rfl rfl fun h => by cases h
  case endUnlock => exact hs ▸ hi.spinUnlock hpc rfl rfl rfl rfl
  case endNotify => exact hs ▸ hi.notifies hpc
  case endRelease => exact hs ▸ hi.giveLatch hpc rfl rfl rfl rfl fun h => by cases h

theorem HandoverInv.step {a : W × IoOp} (hi : HandoverInv s) (hc : ExtendsNew s a) (hs : s.step dbg a = some t) :
    HandoverInv t := by
  obtain ⟨w, op⟩ := a
  cases op <;> simp only [IoEntry.step] at hs
  case run => exact hi.runPc hc hs
  case change st =>
    split at hs
    · rename_i hst
      cases hs
      exact hi.elsewhere hst fun _ _ => rfl
    · cases hs
  case call c =>
    split at hs
    · rename_i hpc
      cases hs
      cases c <;> exact hi.goto hpc rfl rfl fun h => by cases h
    · cases hs
  case finish ok =>
    split at hs
    · rename_i c hpc
      cases hs
      exact hi.goto hpc rfl rfl fun h => by cases h
    · cases hs
  case wake =>
    split at hs
    · rename_i c hpc
      cases hs
      exact hi.goto hpc rfl rfl fun h => by cases h
    · cases hs
  case lockEntry =>
    split at hs
    · rename_i hpc
      exact hi.spinLock hpc hs (fun _ => rfl) (fun _ => rfl) fun _ => rfl
    · cases hs
  case lockPage =>
    split at hs
    · rename_i hpc
      exact hi.takeLatch hpc hs rfl rfl rfl rfl
    · cases hs
  case unlockPage =>
    split at hs
    · rename_i hpc
      cases hs
      apply hi.elsewhere ⟨rfl, rfl⟩
      intro v hv
      have hvw : v = w := Option.some.inj ((hi.latch v hv).symm.trans hpc.2)
      rw [hvw, hpc.1] at hv
      cases hv
    · cases hs
  case sharePage =>
    split at hs
    · cases hs
      exact hi.elsewhere ⟨rfl, rfl⟩ fun _ _ => rfl
    · cases hs
  case unsharePage =>
    split at hs
    · cases hs
      exact hi.elsewhere ⟨rfl, rfl⟩ fun _ _ => rfl
    · cases hs

omit [DecidableEq W] in
theorem Quiet.handover (hq : Quiet s) : HandoverInv s := by
  constructor
  case hands =>
    constructor
    all_goals intro w; simp [hq.idle]
  all_goals intro w; simp [hq.idle]

/-- In a build with assertions no test that refuses a new page returns. -/
theorem step_extendsNew {a : W × IoOp} (hs : s.step true a = some t) : ExtendsNew s a := by
  obtain ⟨w, op⟩ := a
  intro hop
  change op = .run at hop
  subst hop
  apply Bool.eq_false_iff.2
  intro hr
  change (s.pc w).refusesNew = true at hr
  unfold IoPc.refusesNew at hr
  split at hr
  · rename_i st hpc
    simp only [Bool.and_eq_true, Bool.not_eq_true'] at hr
    simp only [IoEntry.step, hpc, IoEntry.runPc, hr.1, IoCall.forInput, hr.2, refused] at hs
    cases hs
  · cases hr

theorem reach_extendsNew (h : Reach (IoEntry.step true) anyStep s t) :
    Reach (IoEntry.step true) ExtendsNew s t := by
  induction h with
  | refl => exact .refl
  | tail a _ _ hs ih => exact ih.tail a (step_extendsNew hs) hs

end

section
variable {s t : IoEntry W}

theorem io_handed_over (hq : Quiet s) (dbg : Bool) :
    (Reach (IoEntry.step dbg) ExtendsNew s t → HandsOver t) ∧
      (dbg = true → Reach (IoEntry.step dbg) anyStep s t → HandsOver t) := by
  have key : Reach (IoEntry.step dbg) ExtendsNew s t → HandsOver t := by
    intro h
    have hi : HandoverInv t := h.inv (fun u a v hu ha hs => hu.step ha hs) hq.handover
    exact hi.hands
  constructor
  · exact key
  · intro hd h
    subst hd
    exact key (reach_extendsNew h)

end

/-- An entry of a new page. -/
def fresh (W : Type) : IoEntry W :=
  ⟨{ EntryState.empty with refCount := 1, tagValid := true }, none, [], fun _ => .idle⟩

omit [DecidableEq W] in
theorem Quiet.fresh : Quiet (fresh W) := ⟨fun _ => rfl, rfl, rfl⟩

/-- The second worker is asleep while the first one reads the page. -/
theorem reader_handed_over : ∃ s : IoEntry (Fin 2), Reach (IoEntry.step false) ExtendsNew (fresh (Fin 2)) s ∧
    (s.pc 0 = .transfer .readBuffer ∧ s.pc 1 = .asleep .readBuffer) ∧ HandsOver s := by
  have h : (exec (guarded ExtendsNew (IoEntry.step false)) (fresh (Fin 2))
      ((0, .call .readBuffer) :: List.replicate 4 (0, .run) ++ (1, .call .readBuffer) :: List.replicate 8
        (1, .run) ++
        [(0, .run)])).map (fun s => decide (s.pc 0 = .transfer .readBuffer ∧ s.pc 1 = .asleep .readBuffer)) =
        some true := by
    decide +kernel
  obtain ⟨s, hr, hs⟩ := reach_of_test h
  exact ⟨s, hr.of_guarded, of_decide_eq_true hs, (io_handed_over .fresh false).1 hr.of_guarded⟩

/-- The new page of worker 0 is valid when it tests it, and it ends the I/O of worker 2. -/
theorem two_workers_extend : ∃ s : IoEntry (Fin 4), Reach (IoEntry.step false) anyStep (fresh (Fin 4)) s ∧
    (s.pc 2 = .ioLatch .extendAgain ∧ s.pc 3 = .ioLatch .extendAgain) ∧ ¬ HandsOver s := by
  have h : (exec (IoEntry.step false) (fresh (Fin 4))
      ([(0, .call .extendNew), (1, .call .extendAgain)] ++ List.replicate 7 (1, .run) ++ (1, .finish true) ::
        List.replicate 7 (1, .run) ++ List.replicate 3 (0, .run) ++ (2, .call .extendAgain) :: List.replicate 6
          (2, .run) ++
        (0, .finish true) :: List.replicate 5 (0, .run) ++ (3, .call .extendAgain) :: List.replicate 6
          (3, .run))).map
      (fun s => decide (s.pc 2 = .ioLatch .extendAgain ∧ s.pc 3 = .ioLatch .extendAgain)) = some true := by
    decide +kernel
  obtain ⟨s, hr, hs⟩ := reach_of_test h
  have hs' := of_decide_eq_true hs
  refine ⟨s, hr, hs', fun hands => ?_⟩
  have h23 : (2 : Fin 4) = 3 := hands.one 2 3 (by rw [hs'.1]; rfl) (by rw [hs'.2]; rfl)
  exact absurd h23 (by decide)

end IoEntry

end Mimidb
