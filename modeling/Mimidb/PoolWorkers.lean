import Mimidb.PoolProgram
import Mimidb.Run

/-!
# Workers of the buffer pool

Any number of workers call the pool and use the pages that they have pinned.
A run takes one step of one worker after the other; the environment says how
the file operation in the step ends. The record beside the pool is for the
statements only.
-/

namespace Mimidb

inductive PoolCall (β : Type) where
  | getBuffer (tag : PageTag)
  | extendRelation (relid : Nat)
  | returnBuffer (tag : PageTag) (e : Nat)
  -- through a pin: `Lock`, a change of the page, `MarkDirty` and `Unlock`
  | lockPage (e : Nat)
  | modify (e : Nat) (page : β)
  | markDirty (e : Nat)
  | unlockPage (e : Nat)

abbrev PoolResult := Option (PageTag × Nat)

/-- The program of a call. -/
def PoolProg.ofCall {β : Type} [Inhabited β] (c : PoolBuild) : PoolCall β → PoolProg β PoolResult
  | .getBuffer tag => some <$> getBuffer c tag
  | .extendRelation relid => some <$> extendRelation c relid
  | .returnBuffer _ e => do
    returnBuffer c e
    return none
  | .lockPage e => do
    Prog.acquire (.page (← bufferOf e))
    return none
  | .modify e page => do
    check c.dbg (← read fun s => (s.buffer e).isSome)
    let b ← bufferOf e
    lift (.modified e b) (modify fun s => { s with contents := Function.update s.contents b page })
    return none
  | .markDirty e => do
    update (.marked e) e fun st => { st with dirty := true }
    return none
  | .unlockPage e => do
    Prog.release (.page (← bufferOf e))
    return none

abbrev PoolWorker (β : Type) := Worker PoolLock PoolEvent (SharedPool β) String PoolResult

/-- The buffer of an entry is set: the one it had, with the pins and changes of that moment. -/
structure Detach (W : Type) where
  entry : Nat
  buffer : Option Nat
  pins : W → List (PageTag × Nat)
  unwritten : Nat → Bool

structure PoolRecord (W : Type) where
  /-- The pins that `GetBuffer` returned and nobody has begun to return. -/
  pins : W → List (PageTag × Nat)
  /-- The entries through which a worker changed a page since it last marked it dirty. -/
  unmarked : W → List Nat
  /-- The buffers with changes that are not in the file. -/
  unwritten : Nat → Bool
  /-- The entries that `evictCacheEntry` took and that neither have a buffer nor are free again. -/
  taken : Nat → Bool
  detaches : List (Detach W)

structure PoolWorkers (W β : Type) where
  shared : SharedPool β
  worker : W → PoolWorker β
  calls : W → Option (PoolCall β)
  record : PoolRecord W
  aborted : Bool

inductive PoolStep (β : Type) where
  | begin (call : PoolCall β)
  -- the next step, with the outcomes of its file operations
  | run (io : List Bool)
  | finish

def Prog.isAbort {R L σ ε α : Type} : Prog R L σ ε α → Bool
  | .abort => true
  | _ => false

/-- The label of the next step. -/
def Prog.event {R σ ε α : Type} : Prog R PoolEvent σ ε α → PoolEvent
  | .access label _ _ => label
  | _ => .other

namespace PoolRecord

variable {W : Type} [DecidableEq W]

/-- What a step of a worker adds to the record. -/
def note {β : Type} (r : PoolRecord W) (w : W) (pool : BufferManager β) : PoolEvent → PoolRecord W
  | .tearDown e => { r with taken := Function.update r.taken e true }
  | .attach e => { r with
    taken := Function.update r.taken e false
    detaches := ⟨e, pool.buffer e, r.pins, r.unwritten⟩ :: r.detaches }
  | .freed e => { r with taken := Function.update r.taken e false }
  | .detach e => { r with detaches := ⟨e, pool.buffer e, r.pins, r.unwritten⟩ :: r.detaches }
  | .written b => { r with unwritten := Function.update r.unwritten b false }
  | .modified e b => { r with
    unwritten := Function.update r.unwritten b true
    unmarked := Function.update r.unmarked w (e :: r.unmarked w) }
  | .marked e => { r with unmarked := Function.update r.unmarked w ((r.unmarked w).filter (· ≠ e)) }
  | .other | .vacate _ _ | .store _ | .pin _ | .restart _ | .extension _ => r

end PoolRecord

namespace PoolWorkers

variable {W β : Type} [DecidableEq W]

def start (pool : BufferManager β) : PoolWorkers W β where
  shared := ⟨pool, fun _ => false, fun _ => false, fun _ => false⟩
  worker _ := ⟨.done none, [], false⟩
  calls _ := none
  record := ⟨fun _ => [], fun _ => [], fun _ => false, fun _ => false, []⟩
  aborted := false

def withIo (s : SharedPool β) (io : List Bool) : SharedPool β := { s with pool := { s.pool with io := io } }

/-- A worker uses the page of a pin under its latch; a change is marked before latch and pin are given back. -/
def permits (s : PoolWorkers W β) (w : W) : PoolCall β → Bool
  | .getBuffer _ | .extendRelation _ => true
  | .returnBuffer tag e => (s.record.pins w).contains (tag, e) && !(s.record.unmarked w).contains e
  | .lockPage e => (s.record.pins w).any fun pin => pin.2 == e
  | .modify e _ | .markDirty e =>
    ((s.record.pins w).any fun pin => pin.2 == e) &&
      (s.shared.pool.buffer e).any fun b => (s.worker w).held.contains (.page b)
  | .unlockPage e =>
    ((s.record.pins w).any fun pin => pin.2 == e) && !(s.record.unmarked w).contains e &&
      (s.shared.pool.buffer e).any fun b => (s.worker w).held.contains (.page b)

/-- The pin of `ReturnBuffer` is given up when the call begins. -/
def giveUp (r : PoolRecord W) (w : W) : PoolCall β → PoolRecord W
  | .returnBuffer tag e => { r with pins := Function.update r.pins w ((r.pins w).erase (tag, e)) }
  | _ => r

def step [Inhabited β] (c : PoolBuild) (s : PoolWorkers W β) : W × PoolStep β → Option (PoolWorkers W β)
  | (w, .begin call) =>
    if s.aborted = false ∧ (s.calls w).isNone ∧ s.permits w call = true then some { s with
      worker := Function.update s.worker w ⟨PoolProg.ofCall c call, (s.worker w).held, false⟩
      calls := Function.update s.calls w (some call)
      record := giveUp s.record w call
      aborted := (PoolProg.ofCall c call).isAbort }
    else none
  | (w, .run io) =>
    if s.aborted = false ∧ (s.calls w).isSome then
      ((s.worker w).step (withIo s.shared io)).map fun (shared, worker) => { s with
        shared := shared
        worker := Function.update s.worker w worker
        record := s.record.note w s.shared.pool (s.worker w).prog.event
        aborted := worker.prog.isAbort }
    else none
  | (w, .finish) =>
    if s.aborted = false ∧ (s.calls w).isSome then
      match (s.worker w).prog with
      | .done result => some { s with
        calls := Function.update s.calls w none
        record := { s.record with pins := Function.update s.record.pins w (result.toList ++ s.record.pins w) } }
      | .throw _ => some { s with calls := Function.update s.calls w none }
      | _ => none
    else none

end PoolWorkers

end Mimidb
