import Mimidb.BufferManager
import Mimidb.LockProgram

/-!
# The code of the buffer pool for many workers

The functions of the pool as programs: every latch, every access to a state
word and every list operation under its latch is a step of its own. The shared
mode of a latch is granted like the exclusive one, only while nobody holds it.
A wait for an I/O gives the page latch back and may end at any time.
-/

namespace Mimidb

inductive PoolLock where
  | list (l : ListId)
  -- of the page map
  | partition (i : Nat)
  -- the spin lock of an entry
  | entry (e : Nat)
  -- of a data buffer
  | page (b : Nat)
  deriving DecidableEq, Repr

/-- The steps that conditions and records speak of. -/
inductive PoolEvent where
  | other
  -- the pin of `tryVacateEntry`
  | vacate (e : Nat) (isFrequency : Bool)
  -- the `State.store(0)` of `TearDown`, and the `State.store(TagValid)` of `GetBuffer` after it
  | tearDown (e : Nat)
  | store (e : Nat)
  -- an entry that was taken gets a buffer, or goes back to `FreeList`
  | attach (e : Nat)
  | freed (e : Nat)
  | pin (e : Nat)
  | detach (e : Nat)
  | written (b : Nat)
  | modified (e b : Nat)
  | marked (e : Nat)
  -- `ExtendRelation` takes an entry over, and begins to write its page
  | restart (e : Nat)
  | extension (e : Nat)
  deriving DecidableEq, Repr

structure SharedPool (β : Type) where
  pool : BufferManager β
  listLatch : ListId → Bool
  partLatch : Nat → Bool
  pageLatch : Nat → Bool

def SharedPool.setState {β : Type} (s : SharedPool β) (e : Nat) (st : EntryState) : SharedPool β :=
  { s with pool := { s.pool with state := Function.update s.pool.state e st } }

instance {β : Type} : Locks PoolLock (SharedPool β) where
  free s
    | .list l => !s.listLatch l
    | .partition i => !s.partLatch i
    | .entry e => !(s.pool.state e).locked
    | .page b => !s.pageLatch b
  take
    | .list l, s => { s with listLatch := Function.update s.listLatch l true }
    | .partition i, s => { s with partLatch := Function.update s.partLatch i true }
    | .entry e, s => s.setState e { s.pool.state e with locked := true }
    | .page b, s => { s with pageLatch := Function.update s.pageLatch b true }
  give
    | .list l, s => { s with listLatch := Function.update s.listLatch l false }
    | .partition i, s => { s with partLatch := Function.update s.partLatch i false }
    -- `fetch_sub` of the highest bit flips it
    | .entry e, s => s.setState e { s.pool.state e with locked := !(s.pool.state e).locked }
    | .page b, s => { s with pageLatch := Function.update s.pageLatch b false }

abbrev PoolProg (β α : Type) := Prog PoolLock PoolEvent (SharedPool β) String α

/-- What the build and the standard library decide, and how often loops of the model go round. -/
structure PoolBuild where
  dbg : Bool
  hash : PageTag → Nat
  rounds : Nat

namespace PoolProg

open Prog (holding acquire release)

variable {β : Type}

/-! ## Steps -/

/-- A step of one worker as one access; a fault that is no exception ends the process. -/
def lift {α : Type} (label : PoolEvent) (m : BufferManager.PoolM β α) : PoolProg β α :=
  .access label
    (fun s => match (m s.pool).1 with
      | .ok a => .done a
      | .error (.runtimeError what) => .throw what
      | .error _ => .abort)
    fun s => { s with pool := (m s.pool).2 }

def read {α : Type} (f : BufferManager β → α) : PoolProg β α := .access .other (fun s => .done (f s.pool)) id

def check (dbg c : Bool) : PoolProg β Unit := if dbg && !c then .abort else return

def load (e : Nat) : PoolProg β EntryState := read fun s => s.state e

/-- `fetch_or`, `fetch_and` or a store. -/
def update (label : PoolEvent) (e : Nat) (f : EntryState → EntryState) : PoolProg β Unit :=
  .access label (fun _ => return) fun s => s.setState e (f (s.pool.state e))

def setBuffer (label : PoolEvent) (e : Nat) (b : Option Nat) : PoolProg β Unit :=
  lift label (BufferManager.setBuffer e b)

/-- The buffer of an entry where it is dereferenced. -/
def bufferOf (e : Nat) : PoolProg β Nat := lift .other do
  match (← get).buffer e with
  | some b => return b
  | none => throw .nullPointer

def insertMRU (c : PoolBuild) (l : ListId) (e : Nat) : PoolProg β Unit :=
  lift .other (BufferManager.insertMRU c.dbg l e)

def removeEntry (c : PoolBuild) (l : ListId) (e : Nat) : PoolProg β Unit :=
  lift .other (BufferManager.removeEntry c.dbg l e)

def moveMRU (c : PoolBuild) (l : ListId) (e : Nat) : PoolProg β Unit :=
  lift .other (BufferManager.moveMRU c.dbg l e)

def size (l : ListId) : PoolProg β Nat := read fun s => (s.lists l).size

/-- `Insert` of the page map: the entry that is there already. -/
def mapInsert (tag : PageTag) (e : Nat) : PoolProg β (Option Nat) :=
  .access .other (fun s => return s.pool.map tag) fun s =>
    if s.pool.map tag = none then { s with pool := { s.pool with map := Function.update s.pool.map tag (some e) } }
      else s

/-- `Remove` of the page map. -/
def mapRemove (tag : PageTag) : PoolProg β Bool :=
  .access .other (fun s => return (s.pool.map tag).isSome) fun s =>
    { s with pool := { s.pool with map := Function.update s.pool.map tag none } }

/-! ## Entries -/

def lockEntry (e : Nat) : PoolProg β EntryState :=
  .lock (.entry e) fun s => return { s.pool.state e with locked := true }

def unlockEntry (c : PoolBuild) (e : Nat) : PoolProg β Unit :=
  .unlock (.entry e) fun s => check c.dbg (s.pool.state e).locked

def pin (c : PoolBuild) (e : Nat) : PoolProg β Unit := lift (.pin e) (BufferManager.pin c.dbg e)

def unpin (c : PoolBuild) (e : Nat) : PoolProg β Unit := lift .other (BufferManager.unpin c.dbg e)

def tearDown (c : PoolBuild) (e : Nat) : PoolProg β Unit := do
  check c.dbg (!(← load e).isTopList)
  check c.dbg (!(← load e).locked)
  update (.tearDown e) e fun _ => .empty

def waitFor (c : PoolBuild) (e : Nat) : Nat → PoolProg β Unit
  | 0 => .forever
  | n + 1 => do
    let st ← lockEntry e
    unlockEntry c e
    if !st.ioInProgress then return
    let b ← bufferOf e
    acquire (.page b)
    if (← load e).ioInProgress then
      release (.page b)
      acquire (.page b)
    release (.page b)
    waitFor c e n

def waitIo (c : PoolBuild) (e : Nat) : PoolProg β Unit := do
  check c.dbg (← read fun s => (s.buffer e).isSome)
  waitFor c e c.rounds

def startIo (c : PoolBuild) (e : Nat) (forInput : Bool) : Nat → PoolProg β Bool
  | 0 => .forever
  | n + 1 => do
    let st ← lockEntry e
    if st.ioInProgress then
      unlockEntry c e
      waitIo c e
      startIo c e forInput n
    else if (if forInput then st.dataValid else !st.dirty) then
      unlockEntry c e
      return false
    else
      update .other e fun st => { st with ioInProgress := true }
      unlockEntry c e
      return true

def shouldStartIo (c : PoolBuild) (e : Nat) (forInput : Bool) : PoolProg β Bool := startIo c e forInput c.rounds

/-- `TerminateBufferIO(IoError, 0)`; `IoError` is the bit of `Dirty`. -/
def terminateIoError (c : PoolBuild) (e : Nat) : PoolProg β Unit := do
  check c.dbg (← lockEntry e).ioInProgress
  update .other e fun st => { st with ioInProgress := false, dirty := false }
  update .other e fun st => { st with dirty := true }
  unlockEntry c e
  check c.dbg (← read fun s => (s.buffer e).isSome)

/-- `TerminateBufferIO(DataValid, Dirty)` and `TerminateBufferIO(DataValid, 0)`. -/
def terminateIoValid (c : PoolBuild) (e : Nat) : PoolProg β Unit := do
  check c.dbg (← lockEntry e).ioInProgress
  update .other e fun st => { st with ioInProgress := false, dirty := false }
  update .other e fun st => { st with dataValid := true }
  unlockEntry c e
  check c.dbg (← read fun s => (s.buffer e).isSome)

def readBuffer (c : PoolBuild) (e : Nat) : PoolProg β Unit := do
  if (← load e).dataValid then return
  if !(← shouldStartIo c e true) then return
  check c.dbg (← read fun s => (s.buffer e).isSome)
  let b ← bufferOf e
  holding (.page b) do
    try
      lift .other BufferManager.nextIo
      let b ← bufferOf e
      lift .other do
        let page ← BufferManager.readPage ((← get).tag e)
        modify fun s => { s with contents := Function.update s.contents b page }
    catch err =>
      terminateIoError c e
      throw err
    terminateIoValid c e

/-- `RelFile::Write` of a whole page. -/
def writePage (label : PoolEvent) (tag : PageTag) (page : BufferManager β → β) : PoolProg β Unit := do
  lift .other do
    BufferManager.nextIo
    if tag.pageno = PageNumber.Invalid then throw (.runtimeError "could not write page: pageno is invalid")
  let offset := Config.PageSize * tag.pageno % BufferManager.counter
  lift label (modify fun s => { s with
    disk := Function.update s.disk ⟨tag.relid, offset / Config.PageSize⟩ (page s)
    fileSize := Function.update s.fileSize tag.relid (max (s.fileSize tag.relid) (offset + Config.PageSize)) })

def flushBuffer (c : PoolBuild) (e : Nat) : PoolProg β Unit := do
  if !(← shouldStartIo c e false) then return
  check c.dbg (← read fun s => (s.buffer e).isSome)
  let b ← bufferOf e
  holding (.page b) do
    try
      lift .other BufferManager.nextIo
      let b ← bufferOf e
      let tag ← read fun s => s.tag e
      writePage (.written b) tag fun s => s.contents b
      lift .other BufferManager.nextIo
    catch err =>
      terminateIoError c e
      throw err
    terminateIoValid c e

/-! ## Replacement -/

def tryVacateEntry (c : PoolBuild) (e : Nat) (isFrequency : Bool) : PoolProg β Bool := do
  let st ← lockEntry e
  if st.pinned then
    unlockEntry c e
    return false
  lift (.vacate e isFrequency) (BufferManager.pin c.dbg e)
  unlockEntry c e
  flushBuffer c e
  let st ← lockEntry e
  unlockEntry c e
  if st.refCount % 2 ^ 20 ≠ 1 then return false
  let list : ListId := if isFrequency then .B2 else .B1
  let b ← holding (.list list) do
    let st ← lockEntry e
    if st.refCount % 2 ^ 20 ≠ 1 then
      unlockEntry c e
      return none
    let b ← read fun s => s.buffer e
    check c.dbg b.isSome
    setBuffer (.detach e) e none
    unpin c e
    update .other e fun st => { st with isTopList := false }
    update .other e fun st => { st with isFrequencyList := isFrequency }
    insertMRU c list e
    unlockEntry c e
    return some b
  match b with
  | none => return false
  | some none => .abort
  | some (some b) =>
    lift .other (modify fun s => { s with freeBuffers := b :: s.freeBuffers })
    return true

/-- Vacate the first entry of a list, from its end, that can be vacated. -/
def vacateFrom (c : PoolBuild) (isFrequency : Bool) : Nat → Option Nat → PoolProg β Unit
  | _, none => return
  | 0, some _ => .forever
  | n + 1, some e => do
    if ← tryVacateEntry c e isFrequency then return
    vacateFrom c isFrequency n (← read fun s => s.prev e)

def adjust (c : PoolBuild) (p : Nat) (fromB2 : Bool) : PoolProg β Unit := do
  let t1size ← holding (.list .T1) (size .T1)
  let isFrequency : Bool := !decide (0 < t1size ∧ (p < t1size ∨ (t1size = p ∧ fromB2)))
  let list : ListId := if isFrequency then .T2 else .T1
  holding (.list list) do
    vacateFrom c isFrequency c.rounds (← read fun s => (s.lists list).tail)

/-- The loop of `PopTail`. -/
def popFrom (c : PoolBuild) (l : ListId) : Nat → Option Nat → PoolProg β (Option Nat)
  | _, none => return none
  | 0, some _ => .forever
  | n + 1, some e => do
    let st ← lockEntry e
    if st.pinned then
      unlockEntry c e
      popFrom c l n (← read fun s => s.prev e)
    else
      removeEntry c l e
      unlockEntry c e
      lift .other do
        let list := (← get).lists l
        BufferManager.setList l { list with size := (list.size + (BufferManager.counter - 1)) %
        BufferManager.counter }
      return some e

/-- The loop of `evictCacheEntry` over one ghost list. -/
def evictFrom (c : PoolBuild) (l : ListId) : Nat → Option Nat → PoolProg β (Option Nat)
  | _, none => return none
  | 0, some _ => .forever
  | n + 1, some e => do
    let st ← lockEntry e
    unlockEntry c e
    if st.pinned then evictFrom c l n (← read fun s => s.prev e)
    else
      let tag ← read fun s => s.tag e
      let evicted ← holding (.partition (c.hash tag % 8)) do
        if (← load e).pinned then return false
        if !(← mapRemove (← read fun s => s.tag e)) then
          throw "buffer page map is broken - entry is not presented in list"
        removeEntry c l e
        return true
      if evicted then return some e
      evictFrom c l n (← read fun s => s.prev e)

def evictCacheEntry (c : PoolBuild) : PoolProg β (Option Nat) := do
  let free ← holding (.list .FreeList) do
    match ← popFrom c .FreeList c.rounds (← read fun s => (s.lists .FreeList).tail) with
    | some e =>
      tearDown c e
      return some e
    | none => return none
  if let some e := free then return some e
  let recent ← holding (.list .B1) do evictFrom c .B1 c.rounds (← read fun s => (s.lists .B1).tail)
  if let some e := recent then
    tearDown c e
    return some e
  let frequent ← holding (.list .B2) do evictFrom c .B2 c.rounds (← read fun s => (s.lists .B2).tail)
  if let some e := frequent then
    tearDown c e
    return some e
  return none

/-- The loop of `forgetAnyEntry`: an entry that it took out of the page map. -/
def forgetFrom (c : PoolBuild) : Nat → Option Nat → PoolProg β (Option Nat)
  | _, none => return none
  | 0, some _ => .forever
  | n + 1, some e => do
    if (← load e).pinned then forgetFrom c n (← read fun s => s.prev e)
    else
      let tag ← read fun s => s.tag e
      let forgotten ← holding (.partition (c.hash tag % 8)) do
        if (← load e).pinned then return false
        if !(← mapRemove (← read fun s => s.tag e)) then
          throw "page table is broken - cache entry must be in map but absent"
        return true
      if forgotten then return some e
      forgetFrom c n (← read fun s => s.prev e)

/-- `listLock` is assigned the lock of `FreeList`, which is taken before the old one is given back. -/
def forgetAnyEntry (c : PoolBuild) (l : ListId) : PoolProg β Unit := do
  acquire (.list l)
  let forgotten ← tryCatch (do forgetFrom c c.rounds (← read fun s => (s.lists l).tail)) fun err => do
    release (.list l)
    throw err
  match forgotten with
  | none => release (.list l)
  | some e =>
    acquire (.list .FreeList)
    release (.list l)
    insertMRU c .FreeList e
    release (.list .FreeList)

def preinsertCleanup (c : PoolBuild) : PoolProg β Unit := do
  let npages ← read fun s => s.npages
  let (t1size, b1size) ← holding (.list .B1) (holding (.list .T1) do return (← size .T1, ← size .B1))
  if npages ≤ (t1size + b1size) % BufferManager.counter then
    if t1size < npages then
      forgetAnyEntry c .B1
      adjust c (← read fun s => s.P) false
    else holding (.list .T1) do
      vacateFrom c false c.rounds (← read fun s => (s.lists .T1).tail)
  else
    let (t2size, b2size) ← holding (.list .B2) (holding (.list .T2) do return (← size .T2, ← size .B2))
    let sum := (t1size + b1size + t2size + b2size) % BufferManager.counter
    if npages ≤ sum then
      if sum = npages * 2 % BufferManager.counter then forgetAnyEntry c .B2
      adjust c (← read fun s => s.P) false

/-! ## Hits -/

def handleCacheHit (c : PoolBuild) (e : Nat) : PoolProg β Unit := do
  let st ← load e
  check c.dbg st.isTopList
  if st.isFrequencyList then holding (.list .T2) do
    let st ← lockEntry e
    check c.dbg (st.isTopList && st.isFrequencyList)
    moveMRU c .T2 e
    unlockEntry c e
  else holding (.list .T1) <| holding (.list .T2) do
    let st ← lockEntry e
    if !(!st.isTopList && st.isFrequencyList) then
      removeEntry c .T1 e
      insertMRU c .T2 e
      update .other e fun st => { st with isFrequencyList := true }
    else moveMRU c .T2 e
    unlockEntry c e

/-- `compare_exchange_strong` of `P`; the value it found there. -/
def exchangeP (p newP : Nat) : PoolProg β Nat :=
  .access .other (fun s => return s.pool.P) fun s => if s.pool.P =
  p then { s with pool := { s.pool with P := newP } } else s

def delta (a b : Nat) : PoolProg β Nat :=
  match BufferManager.ghostDelta a b with
  | .ok d => return d
  | .error _ => .abort

def handleGhostHit (c : PoolBuild) (e : Nat) (isFrequency : Bool) : PoolProg β Unit := do
  let npages ← read fun s => s.npages
  let (b1size, b2size) ← holding (.list .B1) (holding (.list .B2) do return (← size .B1, ← size .B2))
  let p ← read fun s => s.P
  let newP ←
    if isFrequency then do
      let d ← delta b1size b2size
      pure (min ((p + d) % BufferManager.counter) npages)
    else do
      let d ← delta b2size b1size
      pure ((p + (BufferManager.counter - d % BufferManager.counter)) % BufferManager.counter)
  let p ← exchangeP p newP
  adjust c p isFrequency
  let oldList : ListId := if isFrequency then .B1 else .B2
  holding (.list oldList) <| holding (.list .T2) do
    let st ← lockEntry e
    if st.isTopList = false ∧ st.isFrequencyList = isFrequency then
      removeEntry c oldList e
      insertMRU c .T2 e
      update .other e fun st => { st with isTopList := true, isFrequencyList := true }
    unlockEntry c e

def handleHit (c : PoolBuild) (e : Nat) : PoolProg β Unit := do
  let _ ← lockEntry e
  unlockEntry c e
  let st ← load e
  if st.isTopList then handleCacheHit c e else handleGhostHit c e st.isFrequencyList

/-! ## Calls -/

def makeBufferPin (c : PoolBuild) (e : Nat) : PoolProg β (PageTag × Nat) :=
  lift .other (BufferManager.makeBufferPin c.dbg e)

/-- The end of `GetBuffer`. -/
def finishGet (c : PoolBuild) (e : Nat) : PoolProg β (PageTag × Nat) := do
  check c.dbg (← read fun s => (s.buffer e).isSome)
  if (← load e).dataValid then makeBufferPin c e
  else
    if !(← load e).dataValid then
      readBuffer c e
      check c.dbg (← load e).dataValid
    makeBufferPin c e

/-- How an entry for a new tag came into the page map. -/
inductive Inserted where
  | created
  | noBuffer
  | existing (e : Nat)

/-- The part of `GetBuffer` with the partition locked; a new entry stays locked. -/
def insertEntry (c : PoolBuild) (tag : PageTag) (e : Nat) : PoolProg β Inserted :=
  holding (.partition (c.hash tag % 8)) do
    match ← mapInsert tag e with
    | none =>
      update .other e fun st => { st with isTopList := true }
      pin c e
      match ← lift .other BufferManager.takeFreeBuffer with
      | none =>
        check c.dbg (← mapRemove tag)
        return .noBuffer
      | some b =>
        setBuffer (.attach e) e (some b)
        let _ ← lockEntry e
        return .created
    | some existing =>
      pin c existing
      return .existing existing

/-- The way of a taken entry back to `FreeList`. -/
def putBack (c : PoolBuild) (e : Nat) : PoolProg β Unit :=
  lift (.freed e) (BufferManager.insertMRU c.dbg .FreeList e)

/-- `GetBuffer` with an entry for a tag that was not in the page map. -/
def getWith (c : PoolBuild) (tag : PageTag) (e : Nat) : PoolProg β (PageTag × Nat) := do
  lift .other (modify fun s => { s with tag := Function.update s.tag e tag })
  update (.store e) e fun _ => { EntryState.empty with tagValid := true }
  check c.dbg (← read fun s => (s.buffer e).isNone)
  match ← insertEntry c tag e with
  | .created =>
    holding (.list .T1) do
      insertMRU c .T1 e
      unlockEntry c e
    finishGet c e
  | .noBuffer =>
    check c.dbg ((← load e).refCount % 2 ^ 20 = 1)
    holding (.list .FreeList) do
      putBack c e
      throw "can not get buffer: no free pages"
  | .existing existing =>
    holding (.list .FreeList) (putBack c e)
    handleHit c existing
    finishGet c existing

def getBuffer (c : PoolBuild) (tag : PageTag) : PoolProg β (PageTag × Nat) := do
  let found ← holding (.partition (c.hash tag % 8)) do
    match ← read fun s => s.map tag with
    | some e =>
      pin c e
      return some e
    | none => return none
  match found with
  | some e =>
    handleHit c e
    finishGet c e
  | none =>
    preinsertCleanup c
    match ← evictCacheEntry c with
    | some e => getWith c tag e
    | none =>
      -- the partition stays locked to the end
      holding (.partition (c.hash tag % 8)) do
        match ← read fun s => s.map tag with
        | none => throw "no free cache entries found"
        | some e =>
          pin c e
          handleHit c e
          finishGet c e

def returnBuffer (c : PoolBuild) (e : Nat) : PoolProg β Unit := do
  check c.dbg (← load e).pinned
  unpin c e

/-- The part of `ExtendRelation` with the partition locked; a new entry stays locked. -/
def insertExtension (c : PoolBuild) (tag : PageTag) (e : Nat) : PoolProg β Inserted :=
  holding (.partition (c.hash tag % 8)) do
    match ← mapInsert tag e with
    | none =>
      let st ← load e
      check c.dbg (!(st.dataValid || st.tagValid || st.dirty))
      lift .other (modify fun s => { s with tag := Function.update s.tag e tag })
      update .other e fun st => { st with tagValid := true }
      pin c e
      match ← lift .other BufferManager.takeFreeBuffer with
      | none =>
        check c.dbg (← mapRemove tag)
        return .noBuffer
      | some b =>
        setBuffer (.attach e) e (some b)
        holding (.list .T1) do
          insertMRU c .T1 e
          update .other e fun st => { st with isTopList := true }
        let _ ← lockEntry e
        return .created
    | some existing =>
      pin c existing
      return .existing existing

/-- The loop that takes an entry of a failed extension over. -/
def restartIo (c : PoolBuild) (e : Nat) : Nat → PoolProg β Unit
  | 0 => .forever
  | n + 1 => do
    let _ ← lockEntry e
    update (.restart e) e fun st => { st with dataValid := false }
    unlockEntry c e
    if ← shouldStartIo c e true then return
    restartIo c e n

def writeExtension [Inhabited β] (c : PoolBuild) (tag : PageTag) (e : Nat) : PoolProg β (PageTag × Nat) := do
  check c.dbg (← lift (.extension e) do return ((← get).buffer e).isSome)
  let b ← bufferOf e
  holding (.page b) do
    try writePage .other tag fun _ => default
    catch err =>
      terminateIoError c e
      throw err
    let b ← bufferOf e
    lift .other (modify fun s => { s with contents := Function.update s.contents b default })
    terminateIoValid c e
    makeBufferPin c e

def extendRelation [Inhabited β] (c : PoolBuild) (relid : Nat) : PoolProg β (PageTag × Nat) := do
  check c.dbg (relid ≠ 0)
  preinsertCleanup c
  match ← evictCacheEntry c with
  | none => throw "no free cache entry found"
  | some fresh =>
    lift .other BufferManager.nextIo
    let nblocks ← read fun s => s.fileSize relid / Config.PageSize % BufferManager.counter
    let tag : PageTag := ⟨relid, nblocks⟩
    match ← insertExtension c tag fresh with
    | .created =>
      holding (.list .T1) do
        insertMRU c .T1 fresh
        update .other fresh fun st => { st with isTopList := true }
      unlockEntry c fresh
      check c.dbg (← shouldStartIo c fresh true)
      writeExtension c tag fresh
    | .noBuffer =>
      holding (.list .FreeList) do
        putBack c fresh
        throw "could not get buffer: no free pages"
    | .existing existing =>
      holding (.list .FreeList) (putBack c fresh)
      let st ← load existing
      if !st.isTopList then handleGhostHit c existing st.isFrequencyList
      restartIo c existing c.rounds
      writeExtension c tag existing

end PoolProg

end Mimidb
