import Mimidb.Config
import Mimidb.Fallible
import Mimidb.Ownership
import Mimidb.Run

/-!
# Page locks

`BufferLockBase` objects of both modes and the calls of `Buffer` that they
make. The move constructor reads `_locked` before anything is written there:
what is left in the storage decides whether it unlocks.
-/

namespace Mimidb

/-- A call of `Buffer::Lock` or `Buffer::Unlock`; the buffer is the number of its
entry, `none` for `Buffer::Invalid()`. -/
inductive BufferCall where
  | lock (buffer : Option Nat) (shared : Bool)
  | unlock (buffer : Option Nat) (shared : Bool)
  deriving DecidableEq, Repr

/-- The state is the calls so far. -/
abbrev LockCalls : Type → Type := Fallible (List BufferCall) Fault

namespace Buffer

def getCacheEntry (dbg : Bool) : Option Nat → LockCalls Unit
  | some _ => pure ()
  | none => throw (if dbg then .assertion else .nullPointer)

def lock (dbg : Bool) (buffer : Option Nat) (shared : Bool) : LockCalls Unit := do
  modify (· ++ [.lock buffer shared])
  getCacheEntry dbg buffer

def unlock (dbg : Bool) (buffer : Option Nat) (shared : Bool) : LockCalls Unit := do
  modify (· ++ [.unlock buffer shared])
  getCacheEntry dbg buffer

end Buffer

structure BufferLockBase where
  buffer : Option Nat
  locked : Bool
  /-- `VShared` of its type. -/
  shared : Bool
  deriving DecidableEq, Repr

namespace BufferLockBase

/-- The default constructor. -/
def default (shared : Bool) : BufferLockBase := ⟨none, false, shared⟩

/-- The constructor from a buffer. -/
def ofBuffer (dbg : Bool) (buffer : Option Nat) (shared : Bool) : LockCalls BufferLockBase := do
  Buffer.lock dbg buffer shared
  return ⟨buffer, true, shared⟩

/-- `Release`. The destructor does the same, and so do the moves before they swap. -/
def release (dbg : Bool) (this : BufferLockBase) : LockCalls BufferLockBase := do
  if !this.locked then return this
  Buffer.unlock dbg this.buffer this.shared
  return { this with locked := false }

def lock (dbg : Bool) (this : BufferLockBase) : LockCalls BufferLockBase := do
  if this.locked then return this
  Buffer.lock dbg this.buffer this.shared
  return { this with locked := true }

/-- The move assignment from another object. It gives both objects. -/
def moveAssign (dbg : Bool) (this other : BufferLockBase) : LockCalls (BufferLockBase × BufferLockBase) := do
  let this ← this.release dbg
  return (⟨other.buffer, other.locked, this.shared⟩, ⟨this.buffer, this.locked, other.shared⟩)

/-- The move constructor. `_buffer` is initialised by its default constructor and
`_locked` is what was in the storage. -/
def moveConstruct (dbg : Bool) (prior : Bool) (other : BufferLockBase) :
    LockCalls (BufferLockBase × BufferLockBase) :=
  moveAssign dbg ⟨none, prior, other.shared⟩ other

end BufferLockBase

inductive LockOp where
  | construct (o : Nat) (shared : Bool)
  | lockConstruct (o : Nat) (buffer : Option Nat) (shared : Bool)
  /-- `prior` is what the storage of `o` holds at `_locked`. -/
  | moveConstruct (o other : Nat) (shared prior : Bool)
  | moveAssign (o other : Nat)
  | lock (o : Nat)
  | release (o : Nat)
  | destroy (o : Nat)
  deriving DecidableEq, Repr

namespace LockOp

/-- The object whose member runs. -/
def this : LockOp → Nat
  | construct o _ | lockConstruct o _ _ | moveConstruct o _ _ _ | moveAssign o _ | lock o | release o | destroy o =>
    o

/-- The objects after the operation; `none` where it is no program: the
lifetime or the type of an object is wrong. -/
def run (dbg : Bool) (object : Nat → Option BufferLockBase) :
    LockOp → Option (LockCalls (Nat → Option BufferLockBase))
  | construct o shared =>
    if (object o).isSome then none else some (pure (Function.update object o (some (.default shared))))
  | lockConstruct o buffer shared =>
    if (object o).isSome then none
    else some do
      let this ← BufferLockBase.ofBuffer dbg buffer shared
      return Function.update object o (some this)
  | moveConstruct o other shared prior =>
    if (object o).isSome then none
    -- an object may be given to its own constructor, which returns at once
    else if other = o then some (pure (Function.update object o (some ⟨none, prior, shared⟩)))
    else do
      let src ← object other
      if src.shared ≠ shared then none
      else some do
        let (this, src) ← BufferLockBase.moveConstruct dbg prior src
        return Function.update (Function.update object o (some this)) other (some src)
  | moveAssign o other => do
    let this ← object o
    let src ← object other
    if src.shared ≠ this.shared then none
    else if other = o then some (pure object)
    else some do
      let (this, src) ← BufferLockBase.moveAssign dbg this src
      return Function.update (Function.update object o (some this)) other (some src)
  | lock o => do
    let this ← object o
    some do
      let this ← this.lock dbg
      return Function.update object o (some this)
  | release o => do
    let this ← object o
    some do
      let this ← this.release dbg
      return Function.update object o (some this)
  | destroy o => do
    let this ← object o
    some do
      let _ ← this.release dbg
      return Function.update object o none

end LockOp

/-- The live objects and what was done so far, with the calls of each operation. -/
structure LockRun where
  object : Nat → Option BufferLockBase
  trace : List (LockOp × List BufferCall)
  fault : Option Fault

namespace LockRun

def init : LockRun := ⟨fun _ => none, [], none⟩

def step (dbg : Bool) (s : LockRun) (op : LockOp) : Option LockRun :=
  if s.fault.isSome then none
  else (op.run dbg s.object).map fun m =>
    match m [] with
    | (.ok object, calls) => ⟨object, s.trace ++ [(op, calls)], none⟩
    | (.error fault, calls) => ⟨s.object, s.trace ++ [(op, calls)], some fault⟩

end LockRun

/-! ## Who holds what -/

/-- A call on an invalid buffer does not return, so nothing is acquired by it and nothing may be released by it. -/
def BufferCall.enter (o : Nat) (h : Holdings Nat (Nat × Bool)) : BufferCall → Option (Holdings Nat (Nat × Bool))
  | lock (some b) shared => h.acquire o (b, shared)
  | lock none _ => some h
  | unlock (some b) shared => h.release o (b, shared)
  | unlock none _ => none

/-- The calls are made by the object of the operation; a move hands on what the other one holds. -/
def LockOp.enter (h : Holdings Nat (Nat × Bool)) (op : LockOp) (calls : List BufferCall) :
    Option (Holdings Nat (Nat × Bool)) := do
  let h ← calls.foldlM (BufferCall.enter op.this) h
  match op with
  | moveConstruct o other _ _ | moveAssign o other => h.transfer other o
  | destroy o => h.retire o
  | _ => some h

namespace LockRun

/-- The latches by the history of the calls; `none` if an object unlocked what it
did not hold, or a lock was forgotten. -/
def holdings (s : LockRun) : Option (Holdings Nat (Nat × Bool)) := s.trace.foldlM (fun h e => e.1.enter h e.2) .init

/-- The flag of an object says whether it holds its buffer, in the mode of its type. -/
def Agrees (x : Option BufferLockBase) (r : Option (Nat × Bool)) : Prop :=
  match x with
  | none => r = none
  | some this => if this.locked then ∃ b, this.buffer = some b ∧ r = some (b, this.shared) else r = none

def Balanced (s : LockRun) : Prop := ∃ h, s.holdings = some h ∧ ∀ o, Agrees (s.object o) (h.holding o)

/-- A move constructor finds false in its storage. -/
def Initialised (_ : LockRun) : LockOp → Prop
  | .moveConstruct _ _ _ prior => prior = false
  | _ => True

end LockRun

/-! ## Sound holdings -/

section
variable {h h' : Holdings Nat (Nat × Bool)} {o : Nat} {op : LockOp}

theorem BufferCall.enter_sound {call : BufferCall} (hs : h.Sound) (he : call.enter o h = some h') : h'.Sound := by
  cases call with
  | lock buffer shared =>
    cases buffer with
    | none => cases he; exact hs
    | some b => exact hs.acquire he
  | unlock buffer shared =>
    cases buffer with
    | none => cases he
    | some b => exact hs.release he

theorem BufferCall.enterAll_sound {calls : List BufferCall} (hs : h.Sound)
    (he : calls.foldlM (BufferCall.enter o) h = some h') : h'.Sound := by
  induction calls generalizing h with
  | nil => cases he; exact hs
  | cons call calls ih =>
    rw [List.foldlM_cons] at he
    obtain ⟨h₁, h1, he⟩ := Option.bind_eq_some_iff.1 he
    exact ih (enter_sound hs h1) he

theorem LockOp.enter_sound {calls : List BufferCall} (hs : h.Sound) (he : op.enter h calls = some h') :
    h'.Sound := by
  obtain ⟨h₁, h1, he⟩ := Option.bind_eq_some_iff.1 he
  have hs := BufferCall.enterAll_sound hs h1
  cases op with
  | moveConstruct o other shared prior => exact hs.transfer he
  | moveAssign o other => exact hs.transfer he
  | destroy o => exact hs.retire he
  | construct o shared => cases he; exact hs
  | lockConstruct o buffer shared => cases he; exact hs
  | lock o => cases he; exact hs
  | release o => cases he; exact hs

theorem LockRun.holdings_sound {s : LockRun} (he : s.holdings = some h) : h.Sound := by
  have hall : ∀ (trace : List (LockOp × List BufferCall)) (h₀ : Holdings Nat (Nat × Bool)), h₀.Sound →
      trace.foldlM (fun h e => LockOp.enter h e.1 e.2) h₀ = some h → h.Sound := by
    intro trace
    induction trace with
    | nil => intro h₀ hs he; cases he; exact hs
    | cons e trace ih =>
      intro h₀ hs he
      rw [List.foldlM_cons] at he
      obtain ⟨h₁, h1, he⟩ := Option.bind_eq_some_iff.1 he
      exact ih h₁ (LockOp.enter_sound hs h1) he
  exact hall s.trace .init .init he

end

namespace LockRun

/-! ## One step -/

section
variable {dbg : Bool} {s t : LockRun} {op : LockOp} {calls : List BufferCall} {h h' : Holdings Nat (Nat × Bool)}
  {o : Nat}
  {this : BufferLockBase} {object : Nat → Option BufferLockBase}

theorem step_eq (h : step dbg s op = some t) :
    ∃ m calls, op.run dbg s.object = some m ∧ t.trace = s.trace ++ [(op, calls)] ∧
    (m [] = (.ok t.object, calls) ∧ t.fault = none ∨ ∃ fault, m [] = (.error fault, calls) ∧
      t.object = s.object) := by
  unfold step at h
  split_ifs at h with hf
  obtain ⟨m, hm, h⟩ := Option.map_eq_some_iff.1 h
  refine ⟨m, (m []).2, hm, ?_⟩
  rcases hr : m [] with ⟨r, calls⟩
  rw [hr] at h
  cases r with
  | ok object =>
    subst h
    exact ⟨rfl, .inl ⟨rfl, rfl⟩⟩
  | error fault =>
    subst h
    exact ⟨rfl, .inr ⟨fault, rfl, rfl⟩⟩

section
variable {m : LockCalls (Nat → Option BufferLockBase)} {calls' : List BufferCall}
  (hr : m [] = (.ok t.object, calls) ∧ t.fault = none ∨ ∃ fault, m [] = (.error fault, calls) ∧ t.object = s.object)
include hr

theorem ran_ok (hm : m [] = (.ok object, calls')) : t.object = object ∧ calls = calls' := by
  rcases hr with ⟨hr, -⟩ | ⟨fault, hr, -⟩
  · obtain ⟨hobject, hcalls⟩ := Prod.mk.inj (hr.symm.trans hm)
    exact ⟨Except.ok.inj hobject, hcalls⟩
  · cases hr.symm.trans hm

theorem ran_error {fault : Fault} (hm : m [] = (.error fault, calls')) : t.object = s.object ∧ calls = calls' := by
  rcases hr with ⟨hr, -⟩ | ⟨fault', hr, hobject⟩
  · cases hr.symm.trans hm
  · exact ⟨hobject, (Prod.mk.inj (hr.symm.trans hm)).2⟩

end

theorem holdings_eq (ht : t.trace = s.trace ++ [(op, calls)]) :
    t.holdings = s.holdings.bind fun h => op.enter h calls := by
  unfold holdings
  rw [ht, List.foldlM_append]
  simp only [List.foldlM_cons, List.foldlM_nil, Option.bind_eq_bind, Option.pure_def, Option.bind_fun_some]

theorem Agrees.of_unlocked (hl : this.locked = false) : Agrees (some this) none := by
  unfold Agrees
  simp only [hl, Bool.false_eq_true, if_false]

theorem Agrees.of_dead : Agrees none none := rfl

theorem Agrees.of_locked {b : Nat} (hl : this.locked = true) (hb : this.buffer = some b) :
    Agrees (some this) (some (b, this.shared)) := by
  unfold Agrees
  simp only [hl, if_true]
  exact ⟨b, hb, rfl⟩

theorem Agrees.none_of_unlocked {r : Option (Nat × Bool)} (ha : Agrees (some this) r) (hl : this.locked = false) :
    r = none := by
  unfold Agrees at ha
  simpa only [hl, Bool.false_eq_true, if_false] using ha

theorem Agrees.update {object : Nat → Option BufferLockBase} {held : Nat → Option (Nat × Bool)}
    (ha : ∀ p, Agrees (object p) (held p)) {x : Option BufferLockBase} {r : Option (Nat × Bool)} (hx : Agrees x r)
    (o p : Nat) :
    Agrees (Function.update object o x p) (Function.update held o r p) := by
  by_cases e : p = o
  · rw [e, Function.update_self, Function.update_self]
    exact hx
  · rw [Function.update_of_ne e, Function.update_of_ne e]
    exact ha p

theorem Agrees.release (dbg : Bool) (ha : Agrees (some this) (h.holding o)) : ∃ calls h',
    this.release dbg [] = (.ok { this with locked := false }, calls) ∧
    calls.foldlM (BufferCall.enter o) h = some h' ∧
      h'.holding = Function.update h.holding o none := by
  cases hl : this.locked with
  | false =>
    refine ⟨[], h, ?_, rfl, ?_⟩
    · unfold BufferLockBase.release
      rw [hl]
      cases this
      cases hl
      rfl
    · rw [← ha.none_of_unlocked hl, Function.update_eq_self]
  | true =>
    unfold Agrees at ha
    simp only [hl, if_true] at ha
    obtain ⟨b, hb, hr⟩ := ha
    obtain ⟨h', he⟩ := Holdings.release_isSome hr
    refine ⟨[.unlock (some b) this.shared], h', ?_, ?_, Holdings.holding_release he⟩
    · unfold BufferLockBase.release
      rw [hl, hb]
      rfl
    · rw [List.foldlM_cons, BufferCall.enter, he]
      rfl

theorem Balanced.entered (h' : Holdings Nat (Nat × Bool)) (hs : s.holdings = some h)
    (ht : t.trace = s.trace ++ [(op, calls)]) (he : op.enter h calls = some h')
    (ha : ∀ o, Agrees (t.object o) (h'.holding o)) : Balanced t :=
  ⟨h', by rw [holdings_eq ht, hs, Option.bind_some, he], ha⟩

theorem holding_of_dead (ha : ∀ p, Agrees (s.object p) (h.holding p)) (hdead : (s.object o).isSome = false) :
    h.holding o = none := by
  have := ha o
  rw [Option.isSome_eq_false_iff.1 hdead |> Option.isNone_iff_eq_none.1] at this
  exact this

section
variable (hs : s.holdings = some h) (ha : ∀ p, Agrees (s.object p) (h.holding p))
include hs ha

theorem construct_balanced {shared : Bool} (hstep : step dbg s (.construct o shared) = some t) : Balanced t := by
  obtain ⟨m, calls, hm, ht, hr⟩ := step_eq hstep
  simp only [LockOp.run] at hm
  split_ifs at hm with hlive
  cases hm
  obtain ⟨hobject, rfl⟩ := ran_ok hr rfl
  refine Balanced.entered _ hs ht rfl fun p => ?_
  rw [hobject, ← Function.update_eq_self o h.holding, holding_of_dead ha (Bool.eq_false_iff.2 hlive)]
  exact Agrees.update ha (Agrees.of_unlocked rfl) o p

theorem locked_balanced {buffer : Option Nat} {shared : Bool} (hfree : h.holding o = none)
    (henter : op.enter h [.lock buffer shared] = BufferCall.enter o h (.lock buffer shared))
    (ht : t.trace = s.trace ++ [(op, [.lock buffer shared])])
    (hr : t.object = Function.update s.object o (some ⟨buffer, true, shared⟩) ∧ buffer ≠ none ∨
      t.object = s.object ∧ buffer = none) : Balanced t := by
  rcases hr with ⟨hobject, hb⟩ | ⟨hobject, rfl⟩
  · obtain ⟨b, rfl⟩ := Option.ne_none_iff_exists'.1 hb
    obtain ⟨h', he⟩ := Holdings.acquire_isSome (holdings_sound hs) hfree (b, shared)
    refine Balanced.entered _ hs ht (henter.trans he) fun p => ?_
    rw [hobject, Holdings.holding_acquire (holdings_sound hs) he]
    exact Agrees.update ha (Agrees.of_locked rfl rfl) o p
  · refine Balanced.entered _ hs ht henter fun p => ?_
    rw [hobject]
    exact ha p

theorem lockConstruct_balanced {buffer : Option Nat} {shared : Bool}
    (hstep : step dbg s (.lockConstruct o buffer shared) = some t) :
    Balanced t := by
  obtain ⟨m, calls, hm, ht, hr⟩ := step_eq hstep
  simp only [LockOp.run] at hm
  split_ifs at hm with hlive
  cases hm
  have hfree := holding_of_dead ha (Bool.eq_false_iff.2 hlive)
  have henter : (LockOp.lockConstruct o buffer shared).enter h [.lock buffer shared] =
      BufferCall.enter o h (.lock buffer shared) := by
    simp only [LockOp.enter, List.foldlM_cons, List.foldlM_nil, LockOp.this, Option.bind_eq_bind, Option.pure_def,
      Option.bind_fun_some]
  cases buffer with
  | none =>
    obtain ⟨hobject, rfl⟩ := ran_error hr rfl
    exact locked_balanced hs ha hfree henter ht (.inr ⟨hobject, rfl⟩)
  | some b =>
    obtain ⟨hobject, rfl⟩ := ran_ok hr rfl
    exact locked_balanced hs ha hfree henter ht (.inl ⟨hobject, Option.some_ne_none b⟩)

theorem lock_balanced (hstep : step dbg s (.lock o) = some t) : Balanced t := by
  obtain ⟨m, calls, hm, ht, hr⟩ := step_eq hstep
  simp only [LockOp.run] at hm
  obtain ⟨this, hthis, hm⟩ := Option.bind_eq_some_iff.1 hm
  cases hm
  have hagrees := hthis ▸ ha o
  cases hl : this.locked with
  | true =>
    have hrun : this.lock dbg [] = (.ok this, []) := by
      unfold BufferLockBase.lock
      rw [hl]
      rfl
    obtain ⟨hobject, rfl⟩ := ran_ok hr (Fallible.bind_ok hrun)
    refine Balanced.entered _ hs ht rfl fun p => ?_
    rw [hobject, ← hthis, Function.update_eq_self]
    exact ha p
  | false =>
    have hfree := Agrees.none_of_unlocked hagrees hl
    have henter : (LockOp.lock o).enter h [.lock this.buffer this.shared] =
        BufferCall.enter o h (.lock this.buffer this.shared) := by
      simp only [LockOp.enter, List.foldlM_cons, List.foldlM_nil, LockOp.this, Option.bind_eq_bind, Option.pure_def,
        Option.bind_fun_some]
    cases hb : this.buffer with
    | none =>
      have hrun :
          this.lock dbg [] = (.error (if dbg then .assertion else .nullPointer), [.lock none this.shared]) := by
        unfold BufferLockBase.lock
        rw [hl, hb]
        rfl
      obtain ⟨hobject, rfl⟩ := ran_error hr (Fallible.bind_error hrun)
      exact locked_balanced hs ha hfree (hb ▸ henter) ht (.inr ⟨hobject, rfl⟩)
    | some b =>
      have hrun : this.lock dbg [] = (.ok { this with locked := true }, [.lock (some b) this.shared]) := by
        unfold BufferLockBase.lock
        rw [hl, hb]
        rfl
      obtain ⟨hobject, rfl⟩ := ran_ok hr (Fallible.bind_ok hrun)
      exact locked_balanced hs ha hfree (hb ▸ henter) ht (.inl ⟨hobject.trans (by rw [hb]), Option.some_ne_none b⟩)

theorem release_balanced (hstep : step dbg s (.release o) = some t) : Balanced t := by
  obtain ⟨m, calls, hm, ht, hr⟩ := step_eq hstep
  simp only [LockOp.run] at hm
  obtain ⟨this, hthis, hm⟩ := Option.bind_eq_some_iff.1 hm
  cases hm
  obtain ⟨calls', h', hrun, he, hholding⟩ := Agrees.release dbg (hthis ▸ ha o)
  obtain ⟨hobject, rfl⟩ := ran_ok hr (Fallible.bind_ok hrun)
  refine Balanced.entered h' hs ht (by rw [LockOp.enter, LockOp.this, he]; rfl) fun p => ?_
  rw [hobject, hholding]
  exact Agrees.update ha (Agrees.of_unlocked rfl) o p

theorem destroy_balanced (hstep : step dbg s (.destroy o) = some t) : Balanced t := by
  obtain ⟨m, calls, hm, ht, hr⟩ := step_eq hstep
  simp only [LockOp.run] at hm
  obtain ⟨this, hthis, hm⟩ := Option.bind_eq_some_iff.1 hm
  cases hm
  obtain ⟨calls', h', hrun, he, hholding⟩ := Agrees.release dbg (hthis ▸ ha o)
  have hsound := BufferCall.enterAll_sound (holdings_sound hs) he
  obtain ⟨hobject, rfl⟩ := ran_ok hr (Fallible.bind_ok hrun)
  have hretire : h'.retire o = some h' := Holdings.retire_isSome hsound (by rw [hholding, Function.update_self])
  refine Balanced.entered h' hs ht (by rw [LockOp.enter, LockOp.this, he]; exact hretire) fun p => ?_
  rw [hobject, hholding]
  exact Agrees.update ha Agrees.of_dead o p

theorem move_balanced {other : Nat} {this src : BufferLockBase} (hne : other ≠ o)
    (hthis : Agrees (some this) (h.holding o)) (hsrc : s.object other = some src)
    (hshared : src.shared = this.shared)
    (henter : ∀ calls, op.enter h calls = (calls.foldlM (BufferCall.enter o) h).bind fun h => h.transfer other o)
    (ht : t.trace = s.trace ++ [(op, calls)])
    (hr : (this.moveAssign dbg src >>= fun x =>
      pure (Function.update (Function.update s.object o (some x.1)) other (some x.2)) :
        LockCalls (Nat → Option BufferLockBase)) [] = (.ok t.object, calls) ∧ t.fault = none ∨
      ∃ fault, (this.moveAssign dbg src >>= fun x =>
      pure (Function.update (Function.update s.object o (some x.1)) other (some x.2)) :
        LockCalls (Nat → Option BufferLockBase)) [] = (.error fault, calls) ∧ t.object = s.object) :
    Balanced t ∧ ∃ x, t.object other = some x ∧ x.locked = false := by
  obtain ⟨calls', h₁, hrun, he, hholding⟩ := Agrees.release dbg hthis
  have hsound := BufferCall.enterAll_sound (holdings_sound hs) he
  have hmove : this.moveAssign dbg src [] =
      (.ok (⟨src.buffer, src.locked, this.shared⟩, ⟨this.buffer, false, src.shared⟩), calls') := by
    unfold BufferLockBase.moveAssign
    rw [Fallible.bind_ok hrun]
    rfl
  obtain ⟨hobject, rfl⟩ := ran_ok hr (Fallible.bind_ok hmove)
  obtain ⟨h', htransfer⟩ := Holdings.transfer_isSome hsound (by rw [hholding, Function.update_self]) other
  refine ⟨Balanced.entered h' hs ht (by rw [henter, he, Option.bind_some, htransfer]) fun p => ?_, ?_⟩
  · rw [hobject, Holdings.holding_transfer hne htransfer, hholding, Function.update_idem, Function.update_of_ne hne]
    refine Agrees.update (Agrees.update ha ?_ o) (Agrees.of_unlocked rfl) other p
    rw [← hshared]
    exact hsrc ▸ ha other
  · exact ⟨⟨this.buffer, false, src.shared⟩, by rw [hobject, Function.update_self], rfl⟩

theorem moveAssign_balanced {other : Nat} (hstep : step dbg s (.moveAssign o other) = some t) :
    Balanced t ∧ (other ≠ o → ∃ x, t.object other = some x ∧ x.locked = false) := by
  obtain ⟨m, calls, hm, ht, hr⟩ := step_eq hstep
  simp only [LockOp.run] at hm
  obtain ⟨this, hthis, hm⟩ := Option.bind_eq_some_iff.1 hm
  obtain ⟨src, hsrc, hm⟩ := Option.bind_eq_some_iff.1 hm
  split_ifs at hm with hshared hself
  · cases hm
    obtain ⟨hobject, rfl⟩ := ran_ok hr rfl
    refine ⟨Balanced.entered h hs ht ?_ fun p => hobject ▸ ha p, fun hne => absurd hself hne⟩
    rw [LockOp.enter, List.foldlM_nil, hself]
    exact if_pos rfl
  · cases hm
    have h' := move_balanced hs ha hself (hthis ▸ ha o) hsrc (not_not.1 hshared) (fun _ => rfl) ht hr
    exact ⟨h'.1, fun _ => h'.2⟩

theorem moveConstruct_balanced {other : Nat} {shared : Bool}
    (hstep : step dbg s (.moveConstruct o other shared false) = some t) :
    Balanced t ∧ (other ≠ o → ∃ x, t.object other = some x ∧ x.locked = false) := by
  obtain ⟨m, calls, hm, ht, hr⟩ := step_eq hstep
  simp only [LockOp.run] at hm
  split_ifs at hm with hlive hself
  · cases hm
    have hfree := holding_of_dead ha (Bool.eq_false_iff.2 hlive)
    obtain ⟨hobject, rfl⟩ := ran_ok hr rfl
    refine ⟨Balanced.entered h hs ht ?_ fun p => ?_, fun hne => absurd hself hne⟩
    · rw [LockOp.enter, List.foldlM_nil, hself]
      exact if_pos rfl
    · rw [hobject, ← Function.update_eq_self o h.holding, hfree]
      exact Agrees.update ha (Agrees.of_unlocked rfl) o p
  · obtain ⟨src, hsrc, hm⟩ := Option.bind_eq_some_iff.1 hm
    split_ifs at hm with hshared
    cases hm
    have hfree := holding_of_dead ha (Bool.eq_false_iff.2 hlive)
    have hthis : Agrees (some ⟨none, false, src.shared⟩) (h.holding o) := hfree ▸ Agrees.of_unlocked rfl
    have h' := move_balanced hs ha hself hthis hsrc rfl (fun _ => rfl) ht hr
    exact ⟨h'.1, fun _ => h'.2⟩

omit ha in
/-- What the storage holds is unlocked, or taken for the flag of a lock. -/
theorem moveConstruct_unbalanced {other : Nat} {shared : Bool}
    (hstep : step dbg s (.moveConstruct o other shared true) = some t) :
    ¬ Balanced t := by
  rintro ⟨h', hs', ha'⟩
  obtain ⟨m, calls, hm, ht, hr⟩ := step_eq hstep
  rw [holdings_eq ht, hs, Option.bind_some] at hs'
  simp only [LockOp.run] at hm
  split_ifs at hm with hlive hself
  · cases hm
    obtain ⟨hobject, rfl⟩ := ran_ok hr rfl
    have hself' := ha' o
    rw [hobject, Function.update_self] at hself'
    obtain ⟨b, hb, -⟩ := hself'
    cases hb
  · obtain ⟨src, hsrc, hm⟩ := Option.bind_eq_some_iff.1 hm
    split_ifs at hm with hshared
    cases hm
    have hrun : BufferLockBase.moveConstruct dbg true src [] =
        (.error (if dbg then .assertion else .nullPointer), [.unlock none src.shared]) := rfl
    obtain ⟨-, rfl⟩ := ran_error hr (Fallible.bind_error hrun)
    cases hs'

end

end

/-! ## Runs -/

theorem Balanced.step_iff {dbg : Bool} {s t : LockRun} {op : LockOp} (hs : Balanced s)
    (hstep : step dbg s op = some t) :
    Balanced t ↔ Initialised s op := by
  obtain ⟨h, hs, ha⟩ := hs
  cases op with
  | construct o shared => exact iff_of_true (construct_balanced hs ha hstep) trivial
  | lockConstruct o buffer shared => exact iff_of_true (lockConstruct_balanced hs ha hstep) trivial
  | moveConstruct o other shared prior =>
    cases prior with
    | false => exact iff_of_true (moveConstruct_balanced hs ha hstep).1 rfl
    | true => exact iff_of_false (moveConstruct_unbalanced hs hstep) Bool.noConfusion
  | moveAssign o other => exact iff_of_true (moveAssign_balanced hs ha hstep).1 trivial
  | lock o => exact iff_of_true (lock_balanced hs ha hstep) trivial
  | release o => exact iff_of_true (release_balanced hs ha hstep) trivial
  | destroy o => exact iff_of_true (destroy_balanced hs ha hstep) trivial

theorem Balanced.init : Balanced init := ⟨.init, rfl, fun _ => rfl⟩

theorem unlocked_silent {dbg : Bool} {s t : LockRun} {op : LockOp} {o : Nat} {x : BufferLockBase}
    (hx : s.object o = some x) (hl : x.locked = false) (hop : op = .release o ∨ op = .destroy o)
    (hstep : step dbg s op = some t) :
    t.trace = s.trace ++ [(op, [])] := by
  have hrun : x.release dbg [] = (.ok x, []) := by
    unfold BufferLockBase.release
    rw [hl]
    rfl
  obtain ⟨m, calls, hm, ht, hr⟩ := step_eq hstep
  rcases hop with rfl | rfl
  · simp only [LockOp.run, hx] at hm
    cases hm
    obtain ⟨-, rfl⟩ := ran_ok hr (Fallible.bind_ok hrun)
    exact ht
  · simp only [LockOp.run, hx] at hm
    cases hm
    obtain ⟨-, rfl⟩ := ran_ok hr (Fallible.bind_ok hrun)
    exact ht

/-- In a run whose move constructors find false in their storage, every acquisition has one holder or was released
once in its mode, and a moved-from object releases nothing; any other move construction breaks this. -/
theorem locks_released_once {dbg : Bool} {s : LockRun} (hr : Reach (step dbg) Initialised init s) :
    (∃ h, s.holdings = some h ∧ h.Sound ∧ (∀ o, Agrees (s.object o) (h.holding o)) ∧
      ((∀ o, s.object o = none) → ∀ n < h.acquired.length, h.released.count n = 1)) ∧
    (∀ o other op t, (op = .moveAssign o other ∨ ∃ shared, op = .moveConstruct o other shared false) → other ≠ o →
      step dbg s op = some t → ∀ op' u, op' = .release other ∨ op' = .destroy other → step dbg t op' = some u →
        u.trace = t.trace ++ [(op', [])]) ∧
    ∀ op t, step dbg s op = some t → (Balanced t ↔ Initialised s op) := by
  have hb : Balanced s := hr.inv (fun s op t hb hc ht => (hb.step_iff ht).mpr hc) .init
  obtain ⟨h, hs, ha⟩ := hb
  have hsound := holdings_sound hs
  refine ⟨⟨h, hs, hsound, ha, fun hdead n hn => ?_⟩, fun o other op t hop hne ht op' u hop' hu => ?_,
    fun op t ht => Balanced.step_iff ⟨h, hs, ha⟩ ht⟩
  · refine hsound.count_released (fun o => hsound.holding_none.1 ?_) hn
    have := ha o
    rw [hdead o] at this
    exact this
  · rcases hop with rfl | ⟨shared, rfl⟩
    · obtain ⟨x, hx, hl⟩ := (moveAssign_balanced hs ha ht).2 hne
      exact unlocked_silent hx hl hop' hu
    · obtain ⟨x, hx, hl⟩ := (moveConstruct_balanced hs ha ht).2 hne
      exact unlocked_silent hx hl hop' hu

instance (s : LockRun) : ∀ op, Decidable (Initialised s op)
  | .moveConstruct _ _ _ prior => inferInstanceAs (Decidable (prior = false))
  | .construct _ _ | .lockConstruct _ _ _ | .moveAssign _ _ | .lock _ | .release _ | .destroy _ =>
    inferInstanceAs (Decidable True)

/-- `UpdateTuple` that waits for another transaction and moves the tuple to the page in `e'`. -/
def updateTuple (e e' : Nat) : List LockOp :=
  [.lockConstruct 0 (some e) false, .release 0, .lock 0, .construct 1 false, .lockConstruct 2 (some e') false,
    .moveAssign 1 2, .destroy 2, .destroy 1, .destroy 0]

theorem locks_released_once_update : ∃ s, Reach (step true) Initialised init s ∧ s.trace.length = 9 ∧
    ∃ h, s.holdings = some h ∧ h.Sound := by
  have hrun : (exec (guarded Initialised (step true)) init (updateTuple 5 6)).map (fun s => s.trace.length == 9) =
      some true := by
    decide
  obtain ⟨s, hr, hlen⟩ := reach_of_test hrun
  obtain ⟨h, hs, hsound, -⟩ := (locks_released_once hr.of_guarded).1
  exact ⟨s, hr.of_guarded, by simpa using hlen, h, hs, hsound⟩

/-- A lock is moved to storage that holds true: it unlocks the invalid buffer. -/
theorem move_unlocks_invalid :
    (exec (step true) init [.lockConstruct 0 (some 5) false, .moveConstruct 1 0 false true]).map
        (fun s => (s.trace.map Prod.snd, s.fault, s.holdings.isSome)) =
      some ([[.lock (some 5) false], [.unlock none false]], some .assertion, false) ∧
    (exec (step false) init [.lockConstruct 0 (some 5) false, .moveConstruct 1 0 false true]).map
        (fun s => (s.trace.map Prod.snd, s.fault, s.holdings.isSome)) =
      some ([[.lock (some 5) false], [.unlock none false]], some .nullPointer, false) := by
  decide

end LockRun

end Mimidb
