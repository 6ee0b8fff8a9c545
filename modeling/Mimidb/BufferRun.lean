import Mimidb.BufferCalls
import Mimidb.Run

/-!
# Runs of the buffer pool

Sequences of calls from the constructor. Beside the pool a run carries the
pins it was given and the pages as they would be without a cache.
-/

namespace Mimidb

open BufferManager

inductive PoolOp (β : Type) where
  | getBuffer (tag : PageTag) (io : List Bool)
  | extendRelation (relid : Nat) (io : List Bool)
  /-- A write through a pin, and `MarkDirty`. -/
  | write (tag : PageTag) (e : Nat) (page : β)
  | returnBuffer (tag : PageTag) (e : Nat)
  deriving DecidableEq, Repr

structure PoolRun (β : Type) where
  pool : BufferManager β
  /-- The page of every pin and the entry it is for. -/
  pins : List (PageTag × Nat)
  plain : PageTag → β
  /-- A call threw or did not return. -/
  failed : Bool
  /-- A call crashed or did not return. -/
  dead : Bool

namespace PoolRun

variable {β : Type}

def init (pool : BufferManager β) : PoolRun β := ⟨pool, [], pool.disk, false, false⟩

/-- A call that did not return a pin. -/
def fault (s : PoolRun β) (pool : BufferManager β) : Fault → PoolRun β
  | .runtimeError _ => { s with pool := pool, failed := true }
  | _ => { s with pool := pool, failed := true, dead := true }

def pinned (s : PoolRun β) (pool : BufferManager β) (tag : PageTag) (e : Nat) : PoolRun β :=
  { s with pool := pool, pins := (tag, e) :: s.pins }

/-- A pin for another page than the one asked for counts as a failure. -/
def gotBuffer (s : PoolRun β) (tag : PageTag) : Except Fault (PageTag × Nat) × BufferManager β → PoolRun β
  | (.ok (tag', e), t) => if tag' = tag then s.pinned t tag e else { s.pinned t tag' e with failed := true }
  | (.error err, t) => s.fault t err

def extended [Inhabited β] (s : PoolRun β) : Except Fault (PageTag × Nat) × BufferManager β → PoolRun β
  | (.ok (tag, e), t) => { s.pinned t tag e with plain := Function.update s.plain tag default }
  | (.error err, t) => s.fault t err

/-- `GetContents` of an entry without a buffer crashes. -/
def written (s : PoolRun β) (tag : PageTag) (e : Nat) (page : β) : PoolRun β :=
  match s.pool.buffer e with
  | none => s.fault s.pool .nullPointer
  | some b => { s with
    pool := { s.pool.withState e { s.pool.state e with dirty := true } with
      contents := Function.update s.pool.contents b page }
    plain := Function.update s.plain tag page }

def returned (s : PoolRun β) (tag : PageTag) (e : Nat) : Except Fault Unit × BufferManager β → PoolRun β
  | (.ok (), t) => { s with pool := t, pins := s.pins.erase (tag, e) }
  | (.error err, t) => s.fault t err

def step [Inhabited β] (dbg : Bool) (s : PoolRun β) (op : PoolOp β) : Option (PoolRun β) :=
  if s.dead then none
  else match op with
    | .getBuffer tag io => some (s.gotBuffer tag (getBuffer dbg tag { s.pool with io := io }))
    | .extendRelation relid io => some (s.extended (extendRelation dbg relid { s.pool with io := io }))
    | .write tag e page => if (tag, e) ∈ s.pins then some (s.written tag e page) else none
    | .returnBuffer tag e =>
      if (tag, e) ∈ s.pins then some (s.returned tag e (returnBuffer dbg e s.pool)) else none

section
variable {dbg : Bool} [Inhabited β] {s t : PoolRun β}

theorem step_getBuffer {tag : PageTag} {io : List Bool} (h : step dbg s (.getBuffer tag io) = some t) :
    t = s.gotBuffer tag (getBuffer dbg tag { s.pool with io := io }) := by
  simp only [step] at h
  split at h
  · cases h
  · exact (Option.some.inj h).symm

theorem step_extendRelation {relid : Nat} {io : List Bool} (h : step dbg s (.extendRelation relid io) = some t) :
    t = s.extended (extendRelation dbg relid { s.pool with io := io }) := by
  simp only [step] at h
  split at h
  · cases h
  · exact (Option.some.inj h).symm

theorem step_write {tag : PageTag} {e : Nat} {page : β} (h : step dbg s (.write tag e page) = some t) :
    (tag, e) ∈ s.pins ∧ t = s.written tag e page := by
  simp only [step] at h
  split at h
  · cases h
  · split at h
    · rename_i hp; exact ⟨hp, (Option.some.inj h).symm⟩
    · cases h

theorem step_returnBuffer {tag : PageTag} {e : Nat} (h : step dbg s (.returnBuffer tag e) = some t) :
    (tag, e) ∈ s.pins ∧ t = s.returned tag e (returnBuffer dbg e s.pool) := by
  simp only [step] at h
  split at h
  · cases h
  · split at h
    · rename_i hp; exact ⟨hp, (Option.some.inj h).symm⟩
    · cases h

end

end PoolRun

end Mimidb
