import Mimidb.Config
import Mimidb.Run

/-!
# Concurrent extensions of one relation

A step runs one section of `ExtendRelation` by one worker, or one access of a
worker to the page it got. The choices of the replacement policy are left
open: between the start of a call and its own entry, any unpinned page may
lose its buffer and any unpinned ghost entry its place in the map, and any
free entry or free buffer may be handed out. An assertion that fails ends
the process, so the step does not exist.
-/

namespace Mimidb

/-- Program points of a worker: each names the section that comes next. -/
inductive ExtendPc (E : Type) where
  | idle
  /-- `preinsertCleanup` and `evictCacheEntry`. -/
  | cleanup
  /-- `RelFile::Open` and `GetPagesCount`, with the evicted entry. -/
  | count (e : E)
  /-- The section under the partition lock of the map. -/
  | insert (e : E) (nblocks : Nat)
  /-- The entry is new in the map; `ShouldStartIO`. -/
  | inserted (e : E) (nblocks : Nat)
  -- the loop for an entry that was in the map
  | existing (e : E) (nblocks : Nat)
  | startIo (e : E) (nblocks : Nat)
  -- the latch of the buffer is held from here to the end of the call
  | extend (e : E) (nblocks : Nat)
  | zero (e : E) (nblocks : Nat)
  | finish (e : E) (nblocks : Nat)
  | makePin (e : E) (nblocks : Nat)
  /-- The call has returned; the caller holds the pin. -/
  | holds (e : E) (nblocks : Nat)
  deriving DecidableEq, Repr

structure ExtendPool (W E B τ : Type) where
  /-- Bytes of the relation file. -/
  size : Nat
  map : Nat → Option E
  tag : E → Nat
  dataValid : E → Bool
  ioInProgress : E → Bool
  /-- The reference count, by the workers that raised it. -/
  pins : E → List W
  buffer : E → Option B
  freeEntry : E → Bool
  freeBuffer : B → Bool
  latch : B → Bool
  /-- The tuples on an initialised page; `none` is a page of zeros. -/
  page : B → Option (List τ)
  pc : W → ExtendPc E
  /-- The pages of all calls that returned, the last one first. -/
  returned : List Nat
  /-- The tuples that were put on returned pages. -/
  stored : List (Nat × τ)

inductive ExtendOp (E B τ : Type) where
  | call
  | vacate (e : E)
  | forget (e : E)
  | evict (e : E)
  | noEntry
  | openFails
  | takeBuffer (b : B)
  | noBuffer
  /-- `pwrite64` of a page that writes `bytes` bytes. -/
  | write (bytes : Nat)
  | writeFails
  | initPage
  | insertTuple (x : τ)
  | returnBuffer
  | run
  deriving DecidableEq, Repr

namespace ExtendPool

variable {W E B τ : Type}

/-- An empty cache over a file of the given size. -/
def init (size : Nat) : ExtendPool W E B τ where
  size := size
  map _ := none
  tag _ := 0
  dataValid _ := false
  ioInProgress _ := false
  pins _ := []
  buffer _ := none
  freeEntry _ := true
  freeBuffer _ := true
  latch _ := false
  page _ := none
  pc _ := .idle
  returned := []
  stored := []

/-- `RelFile::GetPagesCount`. -/
def getPagesCount (s : ExtendPool W E B τ) : Nat := s.size / Config.PageSize % 2 ^ 32

variable [DecidableEq W] [DecidableEq E] [DecidableEq B]

@[simp] def goto (s : ExtendPool W E B τ) (w : W) (p : ExtendPc E) : ExtendPool W E B τ :=
  { s with pc := Function.update s.pc w p }

@[simp] def setMap (s : ExtendPool W E B τ) (n : Nat) (e : Option E) : ExtendPool W E B τ :=
  { s with map := Function.update s.map n e }

@[simp] def setTag (s : ExtendPool W E B τ) (e : E) (n : Nat) : ExtendPool W E B τ :=
  { s with tag := Function.update s.tag e n }

@[simp] def setValid (s : ExtendPool W E B τ) (e : E) (v : Bool) : ExtendPool W E B τ :=
  { s with dataValid := Function.update s.dataValid e v }

@[simp] def setIo (s : ExtendPool W E B τ) (e : E) (v : Bool) : ExtendPool W E B τ :=
  { s with ioInProgress := Function.update s.ioInProgress e v }

@[simp] def setPins (s : ExtendPool W E B τ) (e : E) (ws : List W) : ExtendPool W E B τ :=
  { s with pins := Function.update s.pins e ws }

@[simp] def setBuffer (s : ExtendPool W E B τ) (e : E) (b : Option B) : ExtendPool W E B τ :=
  { s with buffer := Function.update s.buffer e b }

@[simp] def setFreeEntry (s : ExtendPool W E B τ) (e : E) (v : Bool) : ExtendPool W E B τ :=
  { s with freeEntry := Function.update s.freeEntry e v }

@[simp] def setFreeBuffer (s : ExtendPool W E B τ) (b : B) (v : Bool) : ExtendPool W E B τ :=
  { s with freeBuffer := Function.update s.freeBuffer b v }

@[simp] def setLatch (s : ExtendPool W E B τ) (b : B) (v : Bool) : ExtendPool W E B τ :=
  { s with latch := Function.update s.latch b v }

@[simp] def setPage (s : ExtendPool W E B τ) (b : B) (p : Option (List τ)) : ExtendPool W E B τ :=
  { s with page := Function.update s.page b p }

/-- `ShouldStartIO(true)`: wait for the end of a running I/O, then
start one unless the data is valid. -/
def shouldStartIo (s : ExtendPool W E B τ) (e : E) : Option Bool :=
  if s.ioInProgress e then none else some (!s.dataValid e)

/-- Bytes of the file after `RelFile::Extend`; the offset is computed in 32 bits. -/
def extendedSize (s : ExtendPool W E B τ) (nblocks bytes : Nat) : Nat :=
  max s.size (Config.PageSize * nblocks % 2 ^ 32 + bytes)

/-- The next section of a call. -/
def runPc (s : ExtendPool W E B τ) (w : W) : ExtendPc E → Option (ExtendPool W E B τ)
  | .count e => some (s.goto w (.insert e s.getPagesCount))
  | .insert e n =>
    match s.map n with
    | none => none
    | some other =>
      some (((s.setPins other (w :: s.pins other)).setFreeEntry e true).goto w (.existing other n))
  | .inserted e n =>
    match s.shouldStartIo e with
    | some true => some ((s.setIo e true).goto w (.extend e n))
    | _ => none
  | .existing e n => some ((s.setValid e false).goto w (.startIo e n))
  | .startIo e n =>
    match s.shouldStartIo e with
    | some true => some ((s.setIo e true).goto w (.extend e n))
    | some false => some (s.goto w (.existing e n))
    | none => none
  | .zero e n =>
    (s.buffer e).map fun b => (s.setPage b none).goto w (.finish e n)
  | .finish e n => some (((s.setIo e false).setValid e true).goto w (.makePin e n))
  | .makePin e n =>
    if s.dataValid e ∧ s.pins e ≠ [] then
      (s.buffer e).map fun b =>
        ({ s with returned := s.tag e :: s.returned }.setLatch b false).goto w (.holds e n)
    else none
  | _ => none

def step (s : ExtendPool W E B τ) : W × ExtendOp E B τ → Option (ExtendPool W E B τ)
  | (w, op) =>
    match op, s.pc w with
    | .call, .idle => some (s.goto w .cleanup)
    | .vacate e, .cleanup =>
      match s.buffer e with
      | some b => if s.pins e = [] then some ((s.setBuffer e none).setFreeBuffer b true) else none
      | none => none
    | .forget e, .cleanup =>
      if s.pins e = [] ∧ s.buffer e = none ∧ s.map (s.tag e) = some e then
        some ((s.setMap (s.tag e) none).setFreeEntry e true)
      else none
    -- a ghost entry is evicted as if it had been forgotten before
    | .evict e, .cleanup =>
      if s.freeEntry e ∧ s.pins e = [] then
        some ((((s.setFreeEntry e false).setValid e false).setIo e false).goto w (.count e))
      else none
    | .noEntry, .cleanup => some (s.goto w .idle)
    | .openFails, .count _ => some (s.goto w .idle)
    | .takeBuffer b, .insert e n =>
      if s.map n = none ∧ s.freeBuffer b ∧ s.dataValid e = false then
        some (((((s.setMap n (some e)).setTag e n).setPins e (w :: s.pins e)).setBuffer e
          (some b)).setFreeBuffer b false |>.goto w (.inserted e n))
      else none
    | .noBuffer, .insert e n =>
      if s.map n = none then
        some ((((s.setTag e n).setPins e (w :: s.pins e)).setFreeEntry e true).goto w .idle)
      else none
    | .write bytes, .extend e n =>
      match s.buffer e with
      | some b =>
        if s.latch b = false ∧ n ≠ PageNumber.Invalid ∧ bytes ≤ Config.PageSize then
          some (({ s with size := s.extendedSize n bytes }.setLatch b true).goto w (.zero e n))
        else none
      | none => none
    | .writeFails, .extend e _ =>
      match s.buffer e with
      | some b => if s.latch b then none else some ((s.setIo e false).goto w .idle)
      | none => none
    | .initPage, .holds e _ =>
      (s.buffer e).bind fun b =>
        match s.page b with
        | none => some (s.setPage b (some []))
        | some _ => some s
    | .insertTuple x, .holds e _ =>
      (s.buffer e).bind fun b => (s.page b).map fun xs =>
        { s with stored := (s.tag e, x) :: s.stored }.setPage b (some (x :: xs))
    | .returnBuffer, .holds e _ => some ((s.setPins e ((s.pins e).erase w)).goto w .idle)
    | .run, p => s.runPc w p
    | _, _ => none

end ExtendPool

end Mimidb
