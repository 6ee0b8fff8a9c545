import Mimidb.Config
import Mimidb.DoublyLinked
import Mimidb.Fallible

/-!
# The buffer pool

The calls of one worker at a time. Entries, buffers and list nodes are
indices; the fields of an entry are functions of its index. The outcome of
every file operation comes from `io`. A worker that would wait for itself
(a locked entry, an I/O in progress) waits for ever.
-/

namespace Mimidb

structure PageTag where
  relid : Nat
  pageno : Nat
  deriving DecidableEq, Repr

/-- The state word of an entry. The count is its lowest 20 bits and may grow into the 5 above. -/
structure EntryState where
  refCount : Nat
  locked : Bool
  tagValid : Bool
  isTopList : Bool
  isFrequencyList : Bool
  ioInProgress : Bool
  /-- `Dirty` and `IoError` are one bit. -/
  dirty : Bool
  dataValid : Bool
  deriving DecidableEq, Repr

namespace EntryState

def empty : EntryState := ⟨0, false, false, false, false, false, false, false⟩

def refMask : Nat := 2 ^ 20 - 1

def pinned (st : EntryState) : Bool := st.refCount % 2 ^ 20 != 0

end EntryState

structure CacheEntryList where
  head : Option Nat
  tail : Option Nat
  size : Nat
  deriving DecidableEq, Repr

inductive ListId where
  | T1
  | T2
  | B1
  | B2
  | FreeList
  deriving DecidableEq, Repr

structure BufferManager (β : Type) where
  npages : Nat
  map : PageTag → Option Nat
  tag : Nat → PageTag
  state : Nat → EntryState
  buffer : Nat → Option Nat
  prev : Nat → Option Nat
  next : Nat → Option Nat
  lists : ListId → CacheEntryList
  /-- The stack of free buffers. -/
  freeBuffers : List Nat
  contents : Nat → β
  P : Nat
  /-- The pages of the relation files. -/
  disk : PageTag → β
  /-- Bytes of the relation files. -/
  fileSize : Nat → Nat
  /-- Whether the next file operations succeed; all do when the list is used up. -/
  io : List Bool

namespace BufferManager

variable {β : Type}

abbrev PoolM (β : Type) := Fallible (BufferManager β) Fault

def check (dbg c : Bool) : PoolM β Unit := Fallible.ofExcept (assert dbg c)

def counter : Nat := 2 ^ 32

/-! ## Entries -/

def setState (e : Nat) (st : EntryState) : PoolM β Unit :=
  modify fun s => { s with state := Function.update s.state e st }

def getState (e : Nat) : PoolM β EntryState := do return (← get).state e

def lockEntry (e : Nat) : PoolM β EntryState := do
  let st ← getState e
  if st.locked then throw .diverges
  setState e { st with locked := true }
  return { st with locked := true }

/-- `fetch_sub` of the highest bit flips it. -/
def unlockEntry (dbg : Bool) (e : Nat) : PoolM β Unit := do
  let st ← getState e
  setState e { st with locked := !st.locked }
  check dbg st.locked

def pin (dbg : Bool) (e : Nat) : PoolM β Unit := do
  let st ← getState e
  setState e { st with refCount := st.refCount + 1 }
  check dbg (st.refCount % 2 ^ 20 != EntryState.refMask)

def unpin (dbg : Bool) (e : Nat) : PoolM β Unit := do
  let st ← getState e
  setState e { st with refCount := st.refCount - 1 }
  check dbg st.pinned

def tearDown (dbg : Bool) (e : Nat) : PoolM β Unit := do
  let st ← getState e
  check dbg (!st.isTopList)
  check dbg (!st.locked)
  setState e .empty

def setBuffer (e : Nat) (b : Option Nat) : PoolM β Unit :=
  modify fun s => { s with buffer := Function.update s.buffer e b }

/-! ## Lists -/

def setList (l : ListId) (list : CacheEntryList) : PoolM β Unit :=
  modify fun s => { s with lists := Function.update s.lists l list }

def setLinks (prev next : Nat → Option Nat) : PoolM β Unit :=
  modify fun s => { s with prev := prev, next := next }

def isRouge (s : BufferManager β) (e : Nat) : Bool := s.prev e == none && s.next e == none

def insertMRU (dbg : Bool) (l : ListId) (e : Nat) : PoolM β Unit := do
  let s ← get
  check dbg (s.isRouge e)
  let list := s.lists l
  if list.size = 0 then setList l ⟨some e, some e, 1⟩
  else match list.head with
    | none => throw .nullPointer
    | some h =>
      setLinks (Function.update s.prev h (some e)) (Function.update s.next e (some h))
      setList l ⟨some e, list.tail, (list.size + 1) % counter⟩

def removeEntry (dbg : Bool) (l : ListId) (e : Nat) : PoolM β Unit := do
  let s ← get
  let list := s.lists l
  check dbg (0 < list.size)
  if list.size = 0 then throw (.runtimeError "can not remove entry from list: list is empty")
  if list.size = 1 then
    check dbg (s.isRouge e)
    check dbg (list.head = list.tail ∧ list.tail = some e)
    setLinks (Function.update s.prev e none) (Function.update s.next e none)
    setList l ⟨none, none, 0⟩
  else
    check dbg (!s.isRouge e)
    check dbg (if s.next e = none then list.tail = some e
      else if s.prev e = none then list.head = some e else true)
    setLinks (Linked.unlinkPrev s.prev s.next e) (Linked.unlinkNext s.prev s.next e)
    setList l ⟨if list.head = some e then s.next e else list.head,
      if list.head = some e then list.tail else if list.tail = some e then s.prev e else list.tail,
      list.size - 1⟩

def moveMRU (dbg : Bool) (l : ListId) (e : Nat) : PoolM β Unit := do
  let s ← get
  check dbg (0 < (s.lists l).size)
  if (s.lists l).size = 1 then check dbg (s.isRouge e)
  else
    check dbg (!s.isRouge e)
    removeEntry dbg l e
    insertMRU dbg l e

/-- A walk over more nodes than there are entries is in a cycle. -/
def walkBound (s : BufferManager β) : Nat := 2 * s.npages + 1

/-- The loop of `PopTail`; an entry taken out is counted twice. -/
def popFrom (dbg : Bool) (l : ListId) : Nat → Option Nat → PoolM β (Option Nat)
  | _, none => return none
  | 0, some _ => throw .diverges
  | fuel + 1, some e => do
    let st ← lockEntry e
    if st.pinned then
      unlockEntry dbg e
      popFrom dbg l fuel ((← get).prev e)
    else
      removeEntry dbg l e
      unlockEntry dbg e
      let list := (← get).lists l
      setList l { list with size := (list.size + (counter - 1)) % counter }
      return some e

def popTail (dbg : Bool) (l : ListId) : PoolM β (Option Nat) := do
  let s ← get
  popFrom dbg l s.walkBound (s.lists l).tail

/-! ## Files -/

def nextIo : PoolM β Unit := do
  let s ← get
  match s.io with
  | [] => return
  | ok :: io =>
    set { s with io := io }
    if !ok then throw (.runtimeError "file operation failed")

/-- `RelFile::Write` of a whole page; the offset is computed in 32 bits. -/
def writePage (tag : PageTag) (page : β) : PoolM β Unit := do
  nextIo
  if tag.pageno = PageNumber.Invalid then
    throw (.runtimeError "could not write page: pageno is invalid")
  let offset := Config.PageSize * tag.pageno % counter
  modify fun s => { s with
    disk := Function.update s.disk ⟨tag.relid, offset / Config.PageSize⟩ page
    fileSize := Function.update s.fileSize tag.relid (max (s.fileSize tag.relid) (offset + Config.PageSize)) }

def readPage (tag : PageTag) : PoolM β β := do
  nextIo
  if tag.pageno = PageNumber.Invalid then
    throw (.runtimeError "could not read page: pageno is invalid")
  return (← get).disk tag

def shouldStartIo (dbg : Bool) (e : Nat) (forInput : Bool) : PoolM β Bool := do
  let st ← lockEntry e
  if st.ioInProgress then throw .diverges
  if (if forInput then st.dataValid else !st.dirty) then
    unlockEntry dbg e
    return false
  setState e { st with ioInProgress := true }
  unlockEntry dbg e
  return true

/-- `TerminateBufferIO`; it clears `IoError` and with it `Dirty`. -/
def terminateBufferIo (dbg : Bool) (e : Nat) (setError setValid : Bool) : PoolM β Unit := do
  let st ← lockEntry e
  check dbg st.ioInProgress
  setState e { st with ioInProgress := false, dirty := setError, dataValid := st.dataValid || setValid }
  unlockEntry dbg e
  check dbg ((← get).buffer e).isSome

/-- The buffer of an entry, which has to have one. -/
def attached (dbg : Bool) (e : Nat) : PoolM β Nat := do
  let b := (← get).buffer e
  check dbg b.isSome
  match b with
  | some b => return b
  | none => throw .nullPointer

def readBuffer (dbg : Bool) (e : Nat) : PoolM β Unit := do
  if (← getState e).dataValid then return
  if !(← shouldStartIo dbg e true) then return
  let b ← attached dbg e
  try
    let page ← readPage ((← get).tag e)
    modify fun s => { s with contents := Function.update s.contents b page }
  catch err =>
    terminateBufferIo dbg e true false
    throw err
  terminateBufferIo dbg e false true

def flushBuffer (dbg : Bool) (e : Nat) : PoolM β Unit := do
  if !(← shouldStartIo dbg e false) then return
  let b ← attached dbg e
  try
    let s ← get
    writePage (s.tag e) (s.contents b)
    nextIo
  catch err =>
    terminateBufferIo dbg e true false
    throw err
  terminateBufferIo dbg e false true

/-! ## Replacement -/

/-- Remove a tag from the page map. -/
def mapRemove (tag : PageTag) (what : String) : PoolM β Unit := do
  let s ← get
  if s.map tag = none then throw (.runtimeError what)
  set { s with map := Function.update s.map tag none }

def tryVacateEntry (dbg : Bool) (e : Nat) (isFrequency : Bool) : PoolM β Bool := do
  let st ← lockEntry e
  if st.pinned then
    unlockEntry dbg e
    return false
  pin dbg e
  unlockEntry dbg e
  flushBuffer dbg e
  let st ← lockEntry e
  unlockEntry dbg e
  if st.refCount % 2 ^ 20 ≠ 1 then return false
  let _ ← lockEntry e
  let b ← attached dbg e
  setBuffer e none
  unpin dbg e
  let st ← getState e
  setState e { st with isTopList := false, isFrequencyList := isFrequency }
  -- the entry is still a node of its top list
  insertMRU dbg (if isFrequency then .B2 else .B1) e
  unlockEntry dbg e
  modify fun s => { s with freeBuffers := b :: s.freeBuffers }
  return true

/-- Vacate the first entry of a list, from its end, that nobody pins. -/
def vacateFrom (dbg isFrequency : Bool) : Nat → Option Nat → PoolM β Unit
  | _, none => return
  | 0, some _ => throw .diverges
  | fuel + 1, some e => do
    if ← tryVacateEntry dbg e isFrequency then return
    vacateFrom dbg isFrequency fuel ((← get).prev e)

def adjust (dbg : Bool) (p : Nat) (fromB2 : Bool) : PoolM β Unit := do
  let s ← get
  let t1size := (s.lists .T1).size
  if 0 < t1size ∧ (p < t1size ∨ (t1size = p ∧ fromB2)) then
    vacateFrom dbg false s.walkBound (s.lists .T1).tail
  else vacateFrom dbg true s.walkBound (s.lists .T2).tail

/-- The loop of `evictCacheEntry` over one ghost list. -/
def evictFrom (dbg : Bool) (l : ListId) : Nat → Option Nat → PoolM β (Option Nat)
  | _, none => return none
  | 0, some _ => throw .diverges
  | fuel + 1, some e => do
    let st ← lockEntry e
    unlockEntry dbg e
    if st.pinned then evictFrom dbg l fuel ((← get).prev e)
    else
      mapRemove ((← get).tag e) "buffer page map is broken - entry is not presented in list"
      removeEntry dbg l e
      tearDown dbg e
      return some e

def evictCacheEntry (dbg : Bool) : PoolM β (Option Nat) := do
  match ← popTail dbg .FreeList with
  | some e =>
    tearDown dbg e
    return some e
  | none =>
    let s ← get
    match ← evictFrom dbg .B1 s.walkBound (s.lists .B1).tail with
    | some e => return some e
    | none =>
      let s ← get
      evictFrom dbg .B2 s.walkBound (s.lists .B2).tail

/-- The loop of `forgetAnyEntry`; the entry stays in the ghost list. -/
def forgetFrom (dbg : Bool) : Nat → Option Nat → PoolM β Unit
  | _, none => return
  | 0, some _ => throw .diverges
  | fuel + 1, some e => do
    if (← getState e).pinned then forgetFrom dbg fuel ((← get).prev e)
    else
      mapRemove ((← get).tag e) "page table is broken - cache entry must be in map but absent"
      insertMRU dbg .FreeList e

def forgetAnyEntry (dbg : Bool) (l : ListId) : PoolM β Unit := do
  let s ← get
  forgetFrom dbg s.walkBound (s.lists l).tail

def preinsertCleanup (dbg : Bool) : PoolM β Unit := do
  let s ← get
  let t1size := (s.lists .T1).size
  let b1size := (s.lists .B1).size
  if s.npages ≤ (t1size + b1size) % counter then
    if t1size < s.npages then
      forgetAnyEntry dbg .B1
      adjust dbg (← get).P false
    else vacateFrom dbg false s.walkBound (s.lists .T1).tail
  else
    let sum := (t1size + b1size + (s.lists .T2).size + (s.lists .B2).size) % counter
    if s.npages ≤ sum then
      if sum = s.npages * 2 % counter then forgetAnyEntry dbg .B2
      adjust dbg (← get).P false

/-! ## Hits -/

def handleCacheHit (dbg : Bool) (e : Nat) : PoolM β Unit := do
  let st ← getState e
  check dbg st.isTopList
  if st.isFrequencyList then
    let st ← lockEntry e
    check dbg (st.isTopList && st.isFrequencyList)
    moveMRU dbg .T2 e
    unlockEntry dbg e
  else
    let st ← lockEntry e
    if !(!st.isTopList && st.isFrequencyList) then
      removeEntry dbg .T1 e
      insertMRU dbg .T2 e
      let st ← getState e
      setState e { st with isFrequencyList := true }
    else moveMRU dbg .T2 e
    unlockEntry dbg e

/-- The step of the parameter `P`. -/
def ghostDelta (a b : Nat) : Except Fault Nat :=
  if b ≤ a then .ok 1 else if a = 0 then .error .divisionByZero else .ok (b / a)

/-- `B1` is taken for the frequency list here. -/
def handleGhostHit (dbg : Bool) (e : Nat) (isFrequency : Bool) : PoolM β Unit := do
  let s ← get
  let b1size := (s.lists .B1).size
  let b2size := (s.lists .B2).size
  let p := s.P
  if isFrequency then
    let delta ← Fallible.ofExcept (ghostDelta b1size b2size)
    modify fun s => { s with P := min ((p + delta) % counter) s.npages }
  else
    let delta ← Fallible.ofExcept (ghostDelta b2size b1size)
    modify fun s => { s with P := (p + (counter - delta % counter)) % counter }
  adjust dbg p isFrequency
  let st ← lockEntry e
  if st.isTopList = false ∧ st.isFrequencyList = isFrequency then
    removeEntry dbg (if isFrequency then .B1 else .B2) e
    insertMRU dbg .T2 e
    let st ← getState e
    setState e { st with isTopList := true, isFrequencyList := true }
  unlockEntry dbg e

/-! ## Calls -/

/-- The tag of the page and its entry. -/
def makeBufferPin (dbg : Bool) (e : Nat) : PoolM β (PageTag × Nat) := do
  let s ← get
  check dbg (s.state e).dataValid
  check dbg (s.state e).pinned
  check dbg (s.buffer e).isSome
  return (s.tag e, e)

def takeFreeBuffer : PoolM β (Option Nat) := do
  let s ← get
  match s.freeBuffers with
  | [] => return none
  | b :: bs =>
    set { s with freeBuffers := bs }
    return some b

/-- A fresh entry for a tag that is not in the map, pinned and in `T1`. -/
def createEntry (dbg : Bool) (tag : PageTag) (e : Nat) : PoolM β Unit := do
  let st ← getState e
  setState e { st with isTopList := true }
  pin dbg e
  match ← takeFreeBuffer with
  | none =>
    mapRemove tag "removed"
    check dbg ((← getState e).refCount % 2 ^ 20 = 1)
    insertMRU dbg .FreeList e
    throw (.runtimeError "can not get buffer: no free pages")
  | some b =>
    setBuffer e (some b)
    let _ ← lockEntry e
    insertMRU dbg .T1 e
    unlockEntry dbg e

/-- The entry for a tag that was not in the map, and whether it is new. -/
def missEntry (dbg : Bool) (tag : PageTag) : PoolM β (Nat × Bool) := do
  preinsertCleanup dbg
  match ← evictCacheEntry dbg with
  | some e =>
    modify fun s => { s with tag := Function.update s.tag e tag }
    setState e { EntryState.empty with tagValid := true }
    check dbg ((← get).buffer e).isNone
    match (← get).map tag with
    | none =>
      modify fun s => { s with map := Function.update s.map tag (some e) }
      createEntry dbg tag e
      return (e, true)
    | some existing =>
      pin dbg existing
      insertMRU dbg .FreeList e
      return (existing, false)
  | none =>
    match (← get).map tag with
    | none => throw (.runtimeError "no free cache entries found")
    | some e =>
      pin dbg e
      return (e, false)

/-- The entry for a tag, pinned, and whether it is new. -/
def findEntry (dbg : Bool) (tag : PageTag) : PoolM β (Nat × Bool) := do
  match (← get).map tag with
  | some e =>
    pin dbg e
    return (e, false)
  | none => missEntry dbg tag

def handleHit (dbg : Bool) (e : Nat) : PoolM β Unit := do
  let _ ← lockEntry e
  unlockEntry dbg e
  let st ← getState e
  if st.isTopList then handleCacheHit dbg e else handleGhostHit dbg e st.isFrequencyList

def getBuffer (dbg : Bool) (tag : PageTag) : PoolM β (PageTag × Nat) := do
  let (e, created) ← findEntry dbg tag
  if !created then handleHit dbg e
  check dbg ((← get).buffer e).isSome
  if (← getState e).dataValid then makeBufferPin dbg e
  else
    readBuffer dbg e
    check dbg (← getState e).dataValid
    makeBufferPin dbg e

def returnBuffer (dbg : Bool) (e : Nat) : PoolM β Unit := do
  check dbg (← getState e).pinned
  unpin dbg e

/-- The loop that takes an entry of a failed extension over. -/
def restartIo (dbg : Bool) (e : Nat) : PoolM β Unit := do
  let st ← lockEntry e
  setState e { st with dataValid := false }
  unlockEntry dbg e
  -- with `DataValid` clear the first round starts the I/O
  let _ ← shouldStartIo dbg e true

/-- The new entry of `ExtendRelation`, which goes to `T1` twice. -/
def extendEntry (dbg : Bool) (tag : PageTag) (e : Nat) : PoolM β Unit := do
  let st ← getState e
  check dbg (!(st.dataValid || st.tagValid || st.dirty))
  modify fun s => { s with tag := Function.update s.tag e tag }
  setState e { st with tagValid := true }
  pin dbg e
  match ← takeFreeBuffer with
  | none =>
    mapRemove tag "removed"
    insertMRU dbg .FreeList e
    throw (.runtimeError "could not get buffer: no free pages")
  | some b =>
    setBuffer e (some b)
    insertMRU dbg .T1 e
    let st ← getState e
    setState e { st with isTopList := true }
    let _ ← lockEntry e
    insertMRU dbg .T1 e
    unlockEntry dbg e
    let started ← shouldStartIo dbg e true
    check dbg started

def takeOverEntry (dbg : Bool) (e existing : Nat) : PoolM β Unit := do
  pin dbg existing
  insertMRU dbg .FreeList e
  let st ← getState existing
  if !st.isTopList then handleGhostHit dbg existing st.isFrequencyList
  restartIo dbg existing

/-- The file is extended by a page of zeros and the buffer is filled with them. -/
def writeExtension [Inhabited β] (dbg : Bool) (tag : PageTag) (e : Nat) : PoolM β (PageTag × Nat) := do
  let b ← attached dbg e
  try writePage tag default
  catch err =>
    terminateBufferIo dbg e true false
    throw err
  modify fun s => { s with contents := Function.update s.contents b default }
  terminateBufferIo dbg e false true
  makeBufferPin dbg e

def extendRelation [Inhabited β] (dbg : Bool) (relid : Nat) : PoolM β (PageTag × Nat) := do
  check dbg (relid ≠ 0)
  preinsertCleanup dbg
  match ← evictCacheEntry dbg with
  | none => throw (.runtimeError "no free cache entry found")
  | some fresh =>
    -- `RelFile::Open`
    nextIo
    let nblocks := (← get).fileSize relid / Config.PageSize % counter
    let tag : PageTag := ⟨relid, nblocks⟩
    let e ← match (← get).map tag with
      | none => do
        modify fun s => { s with map := Function.update s.map tag (some fresh) }
        extendEntry dbg tag fresh
        pure fresh
      | some existing => do
        takeOverEntry dbg fresh existing
        pure existing
    writeExtension dbg tag e

/-! ## The constructor -/

def blank [Inhabited β] (npages : Nat) (disk : PageTag → β) (fileSize : Nat → Nat) : BufferManager β where
  npages := npages
  map _ := none
  tag _ := ⟨0, PageNumber.Invalid⟩
  state _ := .empty
  buffer _ := none
  prev _ := none
  next _ := none
  lists _ := ⟨none, none, 0⟩
  freeBuffers := []
  contents _ := default
  P := 0
  disk := disk
  fileSize := fileSize
  io := []

/-- The first `n` entries go to the free list in order. -/
def insertEntries (dbg : Bool) : Nat → PoolM β Unit
  | 0 => return
  | n + 1 => do
    insertEntries dbg n
    insertMRU dbg .FreeList n

/-- The constructor, over the given files. -/
def create [Inhabited β] (dbg : Bool) (npages : Nat) (disk : PageTag → β) (fileSize : Nat → Nat) :
    Except Fault (BufferManager β) :=
  if 2 ^ 32 - 1 ≤ npages * 2 then .error (.runtimeError "too many blocks in buffer")
  else
    let s := blank npages disk fileSize
    match insertEntries dbg (npages * 2) s with
    | (.error err, _) => .error err
    | (.ok (), s) => .ok { s with freeBuffers := (List.range npages).reverse }

end BufferManager

end Mimidb
