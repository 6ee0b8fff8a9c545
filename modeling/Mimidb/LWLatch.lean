import Mimidb.LatchWord
import Mimidb.Run

/-!
# The lightweight latch, one atomic operation at a time

`Latches W L` is the shared state of any number of latches (`L`) and workers
(`W`): the word and waiter queue of every latch, and for every worker its
semaphore, lock state, requested mode and program point. A step runs one
atomic operation of `Lock` or `Unlock` by one worker. Plain fields that are
only touched under the list lock are read and written with the neighbouring
operation. Assertions do not stop a run; `failed` records that one fired.
-/

namespace Mimidb

inductive WorkerLockState where
  | NotWaiting
  | Waiting
  | PendingWakeup
  deriving DecidableEq, Repr

/-- Arguments and locals of one `Lock` call; `retry` is set once the caller was woken. -/
structure LockCall (L : Type) where
  latch : L
  mode : LockMode
  extraWaits : Nat
  retry : Bool
  deriving DecidableEq, Repr

/-- Program points: each names the atomic operation that comes next. -/
inductive Pc (W L : Type) where
  | idle
  -- `attemptLock`, on the first try or once the caller is queued
  | attemptLoad (c : LockCall L) (queued : Bool)
  | attemptCas (c : LockCall L) (queued : Bool) (old : BitVec 32)
  -- `queueSelf`
  | queueLock (c : LockCall L)
  | queueFlag (c : LockCall L)
  | queuePush (c : LockCall L)
  | queueUnlock (c : LockCall L)
  -- the wait in `Lock`
  | sleep (c : LockCall L)
  | awake (c : LockCall L)
  | allowWake (c : LockCall L)
  -- `dequeueSelf`
  | dequeueLock (c : LockCall L)
  | dequeueDelete (c : LockCall L)
  | dequeueFlag (c : LockCall L) (isWaiting : Bool)
  | dequeueUnlock (c : LockCall L) (isWaiting : Bool)
  | dequeueState (c : LockCall L) (isWaiting : Bool)
  | dequeueSleep (c : LockCall L) (extraWaits : Nat)
  | dequeueAwake (c : LockCall L) (extraWaits : Nat)
  | dequeueRelease (c : LockCall L) (extraWaits : Nat)
  -- the end of `Lock`
  | lockDone (c : LockCall L)
  -- `Unlock` after its subtraction
  | unlockCheck (ℓ : L) (mode : LockMode) (old : BitVec 32)
  -- `wakeup`
  | wakeLock (ℓ : L)
  | wakePick (ℓ : L)
  | wakeAssert (ℓ : L) (ws : List W)
  | wakeLoad (ℓ : L) (ws : List W)
  | wakeCas (ℓ : L) (ws : List W) (old : BitVec 32)
  | wakeState (ℓ : L) (ws : List W)
  | wakeRelease (ℓ : L) (v : W) (ws : List W)
  deriving DecidableEq, Repr

structure Latches (W L : Type) where
  word : L → BitVec 32
  waiters : L → List W
  sema : W → Nat
  lockState : W → WorkerLockState
  lockMode : W → LockMode
  pc : W → Pc W L
  /-- The latches a worker owns, from the exchange that took them to the subtraction. -/
  held : W → L → Option LockMode
  failed : Bool

inductive LatchOp (L : Type) where
  | lock (ℓ : L) (m : LockMode)
  | unlock (ℓ : L) (m : LockMode)
  | run
  deriving DecidableEq, Repr

/-- The workers `wakeup` takes from the queue, and what it leaves there. -/
def pickWaiters {W : Type} (mode : W → LockMode) : Bool → List W → List W × List W
  | _, [] => ([], [])
  | wokeupSomebody, v :: vs =>
    if wokeupSomebody = true ∧ mode v = .Exclusive then
      let r := pickWaiters mode wokeupSomebody vs
      (r.1, v :: r.2)
    else if mode v = .Exclusive then ([v], vs)
    else
      let r := pickWaiters mode true vs
      (v :: r.1, r.2)

def checkWaitersFlags : BitVec 32 := LWLatchFlag.HasWaiters ||| LWLatchFlag.UnlockWaiter

/-- The test of `Unlock` on the word before its subtraction. -/
def shouldWake (old : BitVec 32) (m : LockMode) : Bool :=
  old &&& checkWaitersFlags == checkWaitersFlags && (m == .Exclusive || lockCount old == 1#32)

namespace Latches

variable {W L : Type}

/-- All latches free, every semaphore at its initial count of one. -/
def init : Latches W L where
  word _ := LWLatchFlag.UnlockWaiter
  waiters _ := []
  sema _ := 1
  lockState _ := .NotWaiting
  lockMode _ := .Share
  pc _ := .idle
  held _ _ := none
  failed := false

variable [DecidableEq W] [DecidableEq L]

@[simp] def goto (s : Latches W L) (w : W) (p : Pc W L) : Latches W L :=
  { s with pc := Function.update s.pc w p }

@[simp] def setWord (s : Latches W L) (ℓ : L) (x : BitVec 32) : Latches W L :=
  { s with word := Function.update s.word ℓ x }

@[simp] def setWaiters (s : Latches W L) (ℓ : L) (q : List W) : Latches W L :=
  { s with waiters := Function.update s.waiters ℓ q }

@[simp] def setSema (s : Latches W L) (w : W) (n : Nat) : Latches W L :=
  { s with sema := Function.update s.sema w n }

@[simp] def setState (s : Latches W L) (w : W) (x : WorkerLockState) : Latches W L :=
  { s with lockState := Function.update s.lockState w x }

@[simp] def setMode (s : Latches W L) (w : W) (m : LockMode) : Latches W L :=
  { s with lockMode := Function.update s.lockMode w m }

@[simp] def setHeld (s : Latches W L) (w : W) (ℓ : L) (h : Option LockMode) : Latches W L :=
  { s with held := Function.update s.held w (Function.update (s.held w) ℓ h) }

/-- `SetLockState(PendingWakeup)` on every picked worker. -/
@[simp] def setPending (s : Latches W L) (ws : List W) : Latches W L :=
  { s with lockState := fun v => if v ∈ ws then .PendingWakeup else s.lockState v }

@[simp] def check (s : Latches W L) (b : Bool) : Latches W L :=
  { s with failed := s.failed || !b }

/-- `wait_list_lock`: one `fetch_or`, which is repeated while the list is locked. -/
def listLock (s : Latches W L) (w : W) (ℓ : L) (p : Pc W L) : Latches W L :=
  if hasFlag (s.word ℓ) LWLatchFlag.ListLocked then s
  else (s.setWord ℓ (s.word ℓ ||| LWLatchFlag.ListLocked)).goto w p

def listUnlock (s : Latches W L) (w : W) (ℓ : L) (p : Pc W L) : Latches W L :=
  ((s.check (hasFlag (s.word ℓ) LWLatchFlag.ListLocked)).setWord ℓ
    (s.word ℓ &&& ~~~LWLatchFlag.ListLocked)).goto w p

/-- `compare_exchange_strong` of `attemptLock`. -/
def attemptExchange (s : Latches W L) (w : W) (c : LockCall L) (queued : Bool)
    (old : BitVec 32) : Latches W L :=
  if s.word c.latch = old then
    if lockCount old = 0#32 then
      ((s.setWord c.latch (old + c.mode.value)).setHeld w c.latch (some c.mode)).goto w
        (if queued then .dequeueLock c else .lockDone c)
    else s.goto w (if queued then .sleep c else .queueLock c)
  else s.goto w (.attemptCas c queued (s.word c.latch))

/-- The word `wakeup` installs when it leaves the list. -/
def wakeWord (queueEmpty : Bool) (old : BitVec 32) : BitVec 32 :=
  let desired := old &&& ~~~LWLatchFlag.UnlockWaiter
  let desired := if queueEmpty then desired &&& ~~~LWLatchFlag.HasWaiters else desired
  desired &&& ~~~LWLatchFlag.ListLocked

/-- The atomic operation at a program point; `none` is a blocked semaphore. -/
def runPc (s : Latches W L) (w : W) : Pc W L → Option (Latches W L)
  | .idle => none
  | .attemptLoad c queued => some (s.goto w (.attemptCas c queued (s.word c.latch)))
  | .attemptCas c queued old => some (s.attemptExchange w c queued old)
  | .queueLock c => some (s.listLock w c.latch (.queueFlag c))
  | .queueFlag c =>
    some ((s.setWord c.latch (s.word c.latch ||| LWLatchFlag.HasWaiters)).goto w (.queuePush c))
  | .queuePush c =>
    some ((((s.setState w .Waiting).setMode w c.mode).setWaiters c.latch
      (s.waiters c.latch ++ [w])).goto w (.queueUnlock c))
  | .queueUnlock c => some (s.listUnlock w c.latch (.attemptLoad c true))
  | .sleep c =>
    if s.sema w = 0 then none else some ((s.setSema w (s.sema w - 1)).goto w (.awake c))
  | .awake c =>
    if s.lockState w = .NotWaiting then some (s.goto w (.allowWake c))
    else some (s.goto w (.sleep { c with extraWaits := c.extraWaits + 1 }))
  | .allowWake c =>
    some ((s.setWord c.latch (s.word c.latch ||| LWLatchFlag.UnlockWaiter)).goto w
      (.attemptLoad { c with retry := true } false))
  | .dequeueLock c => some (s.listLock w c.latch (.dequeueDelete c))
  | .dequeueDelete c =>
    if s.lockState w = .Waiting then
      some ((s.setWaiters c.latch ((s.waiters c.latch).erase w)).goto w (.dequeueFlag c true))
    else some (s.goto w (.dequeueFlag c false))
  | .dequeueFlag c b =>
    if (s.waiters c.latch).isEmpty ∧ hasFlag (s.word c.latch) LWLatchFlag.HasWaiters = true then
      some ((s.setWord c.latch (s.word c.latch &&& ~~~LWLatchFlag.HasWaiters)).goto w
        (.dequeueUnlock c b))
    else some (s.goto w (.dequeueUnlock c b))
  | .dequeueUnlock c b => some (s.listUnlock w c.latch (.dequeueState c b))
  | .dequeueState c true => some ((s.setState w .NotWaiting).goto w (.lockDone c))
  | .dequeueState c false =>
    some ((s.setWord c.latch (s.word c.latch ||| LWLatchFlag.UnlockWaiter)).goto w
      (.dequeueSleep c 0))
  | .dequeueSleep c n =>
    if s.sema w = 0 then none
    else some ((s.setSema w (s.sema w - 1)).goto w (.dequeueAwake c n))
  | .dequeueAwake c n =>
    if s.lockState w = .NotWaiting then some (s.goto w (.dequeueRelease c n))
    else some (s.goto w (.dequeueSleep c (n + 1)))
  | .dequeueRelease c n => some ((s.setSema w (s.sema w + n)).goto w (.lockDone c))
  | .lockDone c => some ((s.setSema w (s.sema w + c.extraWaits)).goto w .idle)
  | .unlockCheck ℓ m old =>
    some ((s.check (s.word ℓ &&& ExclusiveLockValue == 0#32)).goto w
      (if shouldWake old m then .wakeLock ℓ else .idle))
  | .wakeLock ℓ => some (s.listLock w ℓ (.wakePick ℓ))
  | .wakePick ℓ =>
    let r := pickWaiters s.lockMode false (s.waiters ℓ)
    some ((((s.check (r.1.all fun v => s.lockState v == .Waiting)).setPending r.1).setWaiters ℓ
      r.2).goto w (.wakeAssert ℓ r.1))
  | .wakeAssert ℓ ws =>
    some ((s.check (ws.isEmpty || hasFlag (s.word ℓ) LWLatchFlag.HasWaiters)).goto w
      (.wakeLoad ℓ ws))
  | .wakeLoad ℓ ws => some (s.goto w (.wakeCas ℓ ws (s.word ℓ)))
  | .wakeCas ℓ ws old =>
    if s.word ℓ = old then
      some ((s.setWord ℓ (wakeWord (s.waiters ℓ).isEmpty old)).goto w (.wakeState ℓ ws))
    else some (s.goto w (.wakeCas ℓ ws (s.word ℓ)))
  | .wakeState _ [] => some (s.goto w .idle)
  | .wakeState ℓ (v :: ws) => some ((s.setState v .NotWaiting).goto w (.wakeRelease ℓ v ws))
  | .wakeRelease ℓ v ws => some ((s.setSema v (s.sema v + 1)).goto w (.wakeState ℓ ws))

/-- An idle worker calls `Lock` or `Unlock`; a busy one runs its next operation.
`Unlock` starts with its `fetch_sub`. -/
def step (s : Latches W L) : W × LatchOp L → Option (Latches W L)
  | (w, .lock ℓ m) =>
    if s.pc w = .idle then some (s.goto w (.attemptLoad ⟨ℓ, m, 0, false⟩ false)) else none
  | (w, .unlock ℓ m) =>
    if s.pc w = .idle ∧ s.held w ℓ = some m then
      some ((((s.check (m == .Share || s.word ℓ &&& ExclusiveLockValue != 0#32)).setWord ℓ
        (s.word ℓ - m.value)).setHeld w ℓ none).goto w (.unlockCheck ℓ m (s.word ℓ)))
    else none
  | (w, .run) => s.runPc w (s.pc w)

end Latches

end Mimidb
