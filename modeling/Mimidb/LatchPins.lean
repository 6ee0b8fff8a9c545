import Mimidb.BufferPin
import Mimidb.HeapTable

/-!
# Latches and pins of the heap calls

The pins and the locks that `InsertTuple`, `UpdateTuple`, `DeleteTuple` and undo
declare, with every constructor, assignment and destructor in the order of the
source, while entries that nobody pins are evicted. A lock finds its latch through the
entry, so it needs the pin until it is given back; the second round of the loop of
`UpdateTuple` returns the pin of a page that it has latched.
-/

namespace Mimidb

/-- The header fields of a heap page that its free space comes from. -/
structure PageSpace where
  lower : Nat
  upper : Nat
  deriving DecidableEq

namespace PageSpace

/-- `GetFreeSpace` as `size_t`: it wraps when `lower` has passed `upper`. -/
def free (p : PageSpace) : Nat := (p.upper + (2 ^ 64 - p.lower)) % 2 ^ 64

theorem free_page (page : Memory) :
    (⟨HeapPage.lower page, HeapPage.upper page⟩ : PageSpace).free = HeapPage.getFreeSpace page :=
  rfl

def full (p : PageSpace) (size : Nat) : Bool := p.free < size + ItemId.size

def init (p : PageSpace) : PageSpace := if p.lower = 0 then ⟨HeapPage.SizeOfHeapPageHeader, Config.PageSize⟩ else p

/-- `InsertTuple`. -/
def insert (p : PageSpace) (size : Nat) : PageSpace :=
  ⟨(p.lower + ItemId.size) % 2 ^ 16, (p.upper + (2 ^ 16 - BitUtils.maxAlign size % 2 ^ 16)) % 2 ^ 16⟩

/-- `UpdateTuple`, which does not lower `upper`. -/
def relocate (p : PageSpace) : PageSpace := { p with lower := (p.lower + ItemId.size) % 2 ^ 16 }

end PageSpace

inductive PinSlot where
  /-- `oldPin`, or the pin of `DeleteTuple` and of undo on one page. -/
  | old
  /-- `newPin`, or the pin of `InsertTuple`. -/
  | new
  /-- The pin of `searchPageFreeSpace`. -/
  | loc
  /-- What `searchPageFreeSpace` returns to `UpdateTuple`. -/
  | temp
  deriving DecidableEq, Repr

/-- The locks, named like the pins; `temp` is the one that `newLock` is assigned. -/
inductive LockSlot where
  | old
  | new
  | loc
  | temp
  deriving DecidableEq, Repr

structure BufferLock where
  /-- The entry of the buffer. -/
  buffer : Option Nat
  shared : Bool
  locked : Bool
  /-- The buffer data whose latch was locked. -/
  data : Nat
  deriving DecidableEq, Repr

def BufferLock.default : BufferLock := ⟨none, false, false, 0⟩

/-- The holders of a latch. -/
structure LatchHold where
  sharers : Nat
  exclusive : Bool
  deriving DecidableEq, Repr

namespace LatchHold

def lock (x : LatchHold) (shared : Bool) : Option LatchHold :=
  if x.exclusive ∨ shared = false ∧ x.sharers ≠ 0 then none
  else some (if shared then { x with sharers := x.sharers + 1 } else { x with exclusive := true })

def unlock (x : LatchHold) (shared : Bool) : LatchHold :=
  if shared then { x with sharers := x.sharers - 1 } else { x with exclusive := false }

end LatchHold

inductive Searcher where
  | insertTuple
  | updateTuple
  deriving DecidableEq, Repr

structure Search where
  caller : Searcher
  relid : Nat
  size : Nat
  deriving DecidableEq, Repr

/-- The calls that begin with a page they are given. -/
inductive OldCall where
  | updateTuple (size : Nat)
  | deleteTuple
  | undo
  /-- The undo of an update to another page. -/
  | undoMove (new : PageTag)
  deriving DecidableEq, Repr

/-- The calls that wait for the transaction a tuple is by. -/
def OldCall.waits : OldCall → Bool
  | .updateTuple _ | .deleteTuple => true
  | .undo | .undoMove _ => false

/-- Program points: each names the operation that comes next. -/
inductive HeapPc where
  | idle
  | getOld (tag : PageTag) (c : OldCall)
  | lockOld (c : OldCall)
  /-- The tuple may be by another transaction. -/
  | checkOld (c : OldCall)
  | waitEnd (c : OldCall)
  | lockAgain (c : OldCall)
  | useOld (c : OldCall)
  | getNew (tag : PageTag)
  | lockNew
  -- `searchPageFreeSpace`
  | probe (k : Search) (pageno npages : Nat)
  | lockProbe (k : Search) (pageno npages : Nat)
  | testProbe (k : Search) (pageno npages : Nat)
  | dropProbe (k : Search) (pageno npages : Nat)
  | extend (k : Search)
  | lockExtend (k : Search)
  | initPage (k : Search)
  | lockShared (k : Search)
  | checkNew (k : Search)
  | give (k : Search)
  | leaveSearch (k : Search)
  -- the loop of `UpdateTuple`
  | assign (relid size : Nat)
  | dropTemp (relid size : Nat)
  | lockTemp (relid size : Nat)
  | moveLock (relid size : Nat)
  -- the loop of `InsertTuple`
  | lockPlace (relid size : Nat)
  | dropPlace (relid size : Nat)
  | place (k : Search)
  -- the destructors
  | unlockNew
  | dropNew
  | unlockOld
  | dropOld
  deriving DecidableEq, Repr

structure LatchPinRun where
  pins : PinTable
  /-- The page of an entry and its buffer data. -/
  page : Nat → PageTag
  data : Nat → Option Nat
  freeData : List Nat
  /-- The latch of a buffer data. -/
  latch : Nat → LatchHold
  lock : Nat → LockSlot → BufferLock
  space : PageTag → PageSpace
  /-- The page counts of the tables. -/
  count : Nat → Nat
  pc : Nat → HeapPc
  /-- A lock or an unlock found no buffer data, or an unlock found another one. -/
  astray : Bool

inductive LatchPinOp where
  | insertTuple (relid size : Nat)
  | call (tag : PageTag) (c : OldCall)
  /-- `GetBuffer` or `ExtendRelation` gives the entry. -/
  | getBuffer (e : Nat)
  | run
  /-- The check of the old page asks for a wait. -/
  | wait
  /-- The new tuple goes to the old page. -/
  | relocate
  /-- The new tuple needs another page. -/
  | move
  /-- An exception. -/
  | fail
  -- the pool
  | evict (e : Nat)
  | load (e : Nat) (tag : PageTag) (d : Nat)
  deriving DecidableEq, Repr

namespace LatchPinRun

/-- The pins of a worker among all objects. -/
def object (w : Nat) : PinSlot → Nat
  | .old => 4 * w
  | .new => 4 * w + 1
  | .loc => 4 * w + 2
  | .temp => 4 * w + 3

/-- Where `searchPageFreeSpace` puts its result. -/
def result : Searcher → PinSlot
  | .insertTuple => .new
  | .updateTuple => .temp

def pin (s : LatchPinRun) (w : Nat) (p : PinSlot) : BufferPin := s.pins.pin (object w p)

def has (s : LatchPinRun) (w : Nat) (p : PinSlot) : Prop := object w p ∈ s.pins.objects

instance (s : LatchPinRun) (w : Nat) (p : PinSlot) : Decidable (s.has w p) := inferInstanceAs (Decidable (_ ∈ _))

def goto (s : LatchPinRun) (w : Nat) (pc : HeapPc) : LatchPinRun := { s with pc := Function.update s.pc w pc }

def setLock (s : LatchPinRun) (w : Nat) (l : LockSlot) (x : BufferLock) : LatchPinRun :=
  { s with lock := Function.update s.lock w (Function.update (s.lock w) l x) }

/-- `Buffer::Lock` through the buffer of a pin; the worker waits for the latch. -/
def lockBuffer (s : LatchPinRun) (w : Nat) (shared : Bool) (l : LockSlot) (p : PinSlot) (pc : HeapPc) :
    Option LatchPinRun :=
  match (s.pin w p).buffer with
  | none => some { s with astray := true }
  | some e =>
    match s.data e with
    | none => some { s with astray := true }
    | some d =>
      (LatchHold.lock (s.latch d) shared).map fun x =>
        ({ s with latch := Function.update s.latch d x }.setLock w l ⟨some e, shared, true, d⟩).goto w pc

/-- `Buffer::Unlock` of a lock that is locked. -/
def unlockBuffer (s : LatchPinRun) (w : Nat) (l : LockSlot) : LatchPinRun :=
  let x := s.lock w l
  if x.locked then
    match x.buffer.bind s.data with
    | none => { s.setLock w l { x with locked := false } with astray := true }
    | some d => { s.setLock w l { x with locked := false } with
      latch := Function.update s.latch d ((s.latch d).unlock x.shared)
      astray := s.astray || d ≠ x.data }
  else s

/-- `BufferLock::operator=` with a temporary, which is destroyed. -/
def moveLock (s : LatchPinRun) (w : Nat) : LatchPinRun :=
  let t := s.unlockBuffer w .new
  (t.setLock w .new (t.lock w .temp)).setLock w .temp { t.lock w .new with locked := false }

/-- The destructor of a pin, where there is one. -/
def dropPin (dbg : Bool) (s : LatchPinRun) (w : Nat) (p : PinSlot) : LatchPinRun :=
  if s.has w p then { s with pins := s.pins.destroy dbg (object w p) } else s

/-- The loop of `searchPageFreeSpace` from a page on. -/
def searchFrom (k : Search) (pageno npages : Nat) : HeapPc :=
  if pageno < npages then .probe k pageno npages else .extend k

def search (s : LatchPinRun) (k : Search) : HeapPc := searchFrom k 0 (s.count k.relid)

def setSpace (s : LatchPinRun) (tag : PageTag) (p : PageSpace) : LatchPinRun :=
  { s with space := Function.update s.space tag p }

/-- The page and the program point after `GetBuffer`. -/
def wanted (s : LatchPinRun) : HeapPc → Option (PageTag × PinSlot × HeapPc)
  | .getOld tag c => some (tag, .old, .lockOld c)
  | .getNew tag => some (tag, .new, .lockNew)
  | .probe k pageno npages => some (⟨k.relid, pageno⟩, .loc, .lockProbe k pageno npages)
  | .extend k => some (⟨k.relid, s.count k.relid⟩, .loc, .lockExtend k)
  | _ => none

/-- `ExtendRelation` adds a page of zeros. -/
def grow (s : LatchPinRun) : HeapPc → LatchPinRun
  | .extend k => { s with
    space := Function.update s.space ⟨k.relid, s.count k.relid⟩ ⟨0, 0⟩
    count := Function.update s.count k.relid (s.count k.relid + 1) }
  | _ => s

def runPc (dbg : Bool) (s : LatchPinRun) (w : Nat) : HeapPc → Option LatchPinRun
  | .idle | .getOld _ _ | .getNew _ | .probe _ _ _ | .extend _ => none
  | .lockOld c => s.lockBuffer w false .old .old (.checkOld c)
  | .checkOld c => some (s.goto w (.useOld c))
  | .waitEnd c => some (s.goto w (.lockAgain c))
  | .lockAgain c => s.lockBuffer w false .old .old (.useOld c)
  | .useOld (.undoMove new) => some (s.goto w (.getNew new))
  | .useOld _ => some (s.goto w .unlockNew)
  | .lockNew => s.lockBuffer w false .new .new .unlockNew
  | .lockProbe k pageno npages => s.lockBuffer w true .loc .loc (.testProbe k pageno npages)
  | .testProbe k pageno npages =>
    if (s.space ⟨k.relid, pageno⟩).full k.size then some
      ((s.unlockBuffer w .loc).goto w (.dropProbe k pageno npages))
    else some (s.goto w (.give k))
  | .dropProbe k pageno npages => some ((s.dropPin dbg w .loc).goto w (searchFrom k (pageno + 1) npages))
  | .lockExtend k => s.lockBuffer w false .loc .loc (.initPage k)
  | .initPage k =>
    let tag := (s.pin w .loc).tag
    some (((s.setSpace tag (s.space tag).init).unlockBuffer w .loc).goto w (.lockShared k))
  | .lockShared k => s.lockBuffer w true .loc .loc (.checkNew k)
  -- the assertion wants the page to be full
  | .checkNew k =>
    if dbg ∧ (s.space (s.pin w .loc).tag).full k.size = false then none else some (s.goto w (.give k))
  | .give k =>
    some ({ s with pins := s.pins.moveConstruct dbg (object w (result k.caller)) (object w .loc) }.goto w
      (.leaveSearch k))
  | .leaveSearch k =>
    some (((s.unlockBuffer w .loc).dropPin dbg w .loc).goto w (match k.caller with
      | .insertTuple => .lockPlace k.relid k.size
      | .updateTuple => .assign k.relid k.size))
  | .assign relid size =>
    some ({ s with pins := s.pins.moveAssign dbg (object w .new) (object w .temp) }.goto w (.dropTemp relid size))
  | .dropTemp relid size => some ((s.dropPin dbg w .temp).goto w (.lockTemp relid size))
  | .lockTemp relid size => s.lockBuffer w false .temp .new (.moveLock relid size)
  | .moveLock relid size => some ((s.moveLock w).goto w (.place ⟨.updateTuple, relid, size⟩))
  | .lockPlace relid size => s.lockBuffer w false .new .new (.place ⟨.insertTuple, relid, size⟩)
  | .place k =>
    let tag := (s.pin w .new).tag
    if (s.space tag).full k.size then
      match k.caller with
      | .insertTuple => some ((s.unlockBuffer w .new).goto w (.dropPlace k.relid k.size))
      | .updateTuple => some (s.goto w (s.search k))
    else
      some ((s.setSpace tag (match k.caller with
        | .insertTuple => (s.space tag).insert k.size
        | .updateTuple => (s.space tag).relocate)).goto w .unlockNew)
  | .dropPlace relid size => some ((s.dropPin dbg w .new).goto w (s.search ⟨.insertTuple, relid, size⟩))
  | .unlockNew => some ((s.unlockBuffer w .new).goto w .dropNew)
  | .dropNew => some ((s.dropPin dbg w .new).goto w .unlockOld)
  | .unlockOld => some ((s.unlockBuffer w .old).goto w .dropOld)
  | .dropOld => some ((s.dropPin dbg w .old).goto w .idle)

/-- Calls that throw, between their locks. -/
def throws : HeapPc → Bool
  | .getOld _ _ | .waitEnd _ | .useOld _ | .getNew _ | .probe _ _ _ | .extend _ | .place _ => true
  | _ => false

def step (dbg : Bool) (s : LatchPinRun) (a : Nat × LatchPinOp) : Option LatchPinRun :=
  let w := a.1
  -- a failed assertion or a null pointer ends the process
  if s.pins.failed ∨ s.astray then none
  else match a.2, s.pc w with
  | .insertTuple relid size, .idle => some (s.goto w (s.search ⟨.insertTuple, relid, size⟩))
  | .call tag c, .idle => some (s.goto w (.getOld tag c))
  | .getBuffer e, pc =>
    match s.wanted pc with
    | some (tag, p, next) =>
      if s.page e = tag ∧ s.data e ≠ none then
        some ({ s.grow pc with pins := s.pins.obtain dbg (object w p) tag e }.goto w next)
      else none
    | none => none
  | .run, pc => s.runPc dbg w pc
  | .wait, .checkOld c => if c.waits then some ((s.unlockBuffer w .old).goto w (.waitEnd c)) else none
  | .relocate, .useOld (.updateTuple size) =>
    let tag := (s.pin w .old).tag
    if (s.space tag).full size then none else some ((s.setSpace tag (s.space tag).relocate).goto w .unlockNew)
  | .move, .useOld (.updateTuple size) =>
    let tag := (s.pin w .old).tag
    if (s.space tag).full size then
      some ({ s with pins := s.pins.construct (object w .new) }.goto w (s.search ⟨.updateTuple, tag.relid, size⟩))
    else none
  | .fail, pc => if throws pc then some (s.goto w .unlockNew) else none
  | .evict e, _ =>
    match s.data e with
    | some d =>
      if s.pins.refCount e = 0 then some { s with
        data := Function.update s.data e none, freeData := d :: s.freeData } else none
    | none => none
  | .load e tag d, _ =>
    if s.data e = none ∧ s.pins.refCount e = 0 ∧ d ∈ s.freeData then
      some { s with
        page := Function.update s.page e tag, data := Function.update s.data e (some d),
        freeData := s.freeData.erase d }
    else none
  | _, _ => none

/-- Nobody runs a call, and no entry is pinned. -/
structure AtRest (s : LatchPinRun) : Prop where
  pins : ∃ flags, s.pins = PinTable.init flags
  lock : ∀ w l, (s.lock w l).locked = false
  pc : ∀ w, s.pc w = .idle
  sound : s.astray = false

/-- Every latch is held with a pin of the entry it was found through, which has the same buffer data still. -/
structure LatchedPinned (s : LatchPinRun) : Prop where
  pinned : ∀ w l, (s.lock w l).locked = true → ∃ e p, (s.lock w l).buffer = some e ∧ s.has w p ∧
    (s.pin w p).buffer = some e ∧
    0 < s.pins.refCount e ∧ s.data e = some (s.lock w l).data
  sound : s.astray = false

/-- `newPin` is assigned in the first round only, and the counts of pins do not overflow. -/
def FirstRound (s : LatchPinRun) (a : Nat × LatchPinOp) : Prop :=
  match a.2, s.pc a.1 with
  | .getBuffer e, _ => s.pins.refCount e + 1 < 2 ^ 20
  | .run, .assign _ _ => (s.pin a.1 .new).isValid = false
  | _, _ => True

instance (s : LatchPinRun) (a : Nat × LatchPinOp) : Decidable (FirstRound s a) := by
  unfold FirstRound
  split <;> infer_instance

end LatchPinRun

/-! ## What a program point says about the pins and locks of its worker -/

namespace HeapPc

def update (k : Search) : Bool := k.caller == .updateTuple

/-- Whether the object of a pin exists; the destructors do not know. -/
def expects : HeapPc → PinSlot → Option Bool
  | .idle, _ | .getOld _ _, _ => some false
  | .lockOld _, p | .checkOld _, p | .waitEnd _, p | .lockAgain _, p | .useOld _, p | .getNew _, p =>
    some (p == .old)
  | .lockNew, p => some (p == .old || p == .new)
  | .probe k _ _, p | .extend k, p => some ((p == .old || p == .new) && update k)
  | .lockProbe k _ _, p | .testProbe k _ _, p | .dropProbe k _ _, p | .lockExtend k, p | .initPage k, p
  | .lockShared k, p
  | .checkNew k, p | .give k, p => some (p == .loc || (p == .old || p == .new) && update k)
  | .leaveSearch k, p => some (p == .loc || p == .new || update k)
  | .assign _ _, p | .dropTemp _ _, p => some (p != .loc)
  | .lockTemp _ _, p | .moveLock _ _, p => some (p == .old || p == .new)
  | .lockPlace _ _, p | .dropPlace _ _, p => some (p == .new)
  | .place k, p => some (p == .new || p == .old && update k)
  | .unlockNew, p | .dropNew, p => if p = .loc ∨ p = .temp then some false else none
  | .unlockOld, p | .dropOld, p => if p = .old then none else some false

/-- The pin has a buffer. -/
def needs : HeapPc → PinSlot → Bool
  | .lockOld _, p | .checkOld _, p | .waitEnd _, p | .lockAgain _, p | .useOld _, p => p == .old
  | .lockNew, p | .dropTemp _ _, p | .lockTemp _ _, p | .lockPlace _ _, p => p == .new
  | .lockProbe _ _ _, p | .testProbe _ _ _, p | .dropProbe _ _ _, p | .lockExtend _, p | .initPage _, p
  | .lockShared _, p
  | .checkNew _, p | .give _, p => p == .loc
  | .leaveSearch k, p => p == LatchPinRun.result k.caller
  | .assign _ _, p => p == .temp
  | _, _ => false

def mayLock : HeapPc → LockSlot → Bool
  | .idle, .old | .getOld _ _, .old | .lockOld _, .old | .waitEnd _, .old | .lockAgain _, .old | .dropOld, .old =>
    false
  | _, .old => true
  | .probe k _ _, .new | .lockProbe k _ _, .new | .testProbe k _ _, .new | .dropProbe k _ _, .new | .extend k, .new
  | .lockExtend k, .new | .initPage k, .new | .lockShared k, .new | .checkNew k, .new | .give k, .new
  | .leaveSearch k, .new => update k
  | .assign _ _, .new | .place _, .new | .unlockNew, .new => true
  | _, .new => false
  | .testProbe _ _ _, .loc | .initPage _, .loc | .checkNew _, .loc | .give _, .loc | .leaveSearch _, .loc => true
  | _, .loc => false
  | .moveLock _ _, .temp => true
  | _, .temp => false

/-- The pin that a lock needs. -/
def guard : HeapPc → LockSlot → PinSlot
  | _, .old => .old
  | _, .new | _, .temp => .new
  | .leaveSearch k, .loc => LatchPinRun.result k.caller
  | _, .loc => .loc

/-- What holds of the pins outside `ps` and the locks outside `ls` at `pc` holds at `pc'`,
while the pins of `ps` change. -/
def passes (pc pc' : HeapPc) (ps : List PinSlot) (ls : List LockSlot) : Bool :=
  [PinSlot.old, .new, .loc, .temp].all (fun q => ps.contains q ||
    (pc'.expects q == none || pc'.expects q == pc.expects q) && (!pc'.needs q || pc.needs q)) &&
  [LockSlot.old, .new, .loc, .temp].all fun m => ls.contains m || !pc.mayLock m ||
    (pc'.mayLock m && pc'.guard m == pc.guard m) && !ps.contains (pc.guard m)

section
variable {pc pc' : HeapPc} {ps : List PinSlot} {ls : List LockSlot}

theorem passes_refl (pc : HeapPc) (ls : List LockSlot) : passes pc pc [] ls = true := by
  unfold passes
  rw [Bool.and_eq_true, List.all_eq_true, List.all_eq_true]
  refine ⟨fun q _ => ?_, fun m _ => ?_⟩
  · cases pc.needs q <;> simp
  · cases pc.mayLock m <;> simp

theorem passes_pin (h : passes pc pc' ps ls = true) {q : PinSlot} (hq : q ∉ ps) :
    (pc'.expects q = none ∨ pc'.expects q = pc.expects q) ∧ (pc'.needs q = true → pc.needs q = true) := by
  unfold passes at h
  rw [Bool.and_eq_true, List.all_eq_true] at h
  have hall := h.1 q (by cases q <;> simp)
  simp only [Bool.or_eq_true, beq_iff_eq, Bool.and_eq_true, Bool.not_eq_true', List.contains_iff_mem] at hall
  rcases hall with he | ⟨he, hn⟩
  · exact absurd he hq
  · refine ⟨he, fun hneed => ?_⟩
    rcases hn with hn | hn
    · rw [hneed] at hn; cases hn
    · exact hn

theorem passes_lock (h : passes pc pc' ps ls = true) {m : LockSlot} (hm : m ∉ ls) (hl : pc.mayLock m = true) :
    pc'.mayLock m = true ∧ pc'.guard m = pc.guard m ∧ pc.guard m ∉ ps := by
  unfold passes at h
  rw [Bool.and_eq_true, List.all_eq_true] at h
  have hall := List.all_eq_true.1 h.2 m (by cases m <;> simp)
  simp only [Bool.or_eq_true, beq_iff_eq, Bool.and_eq_true, Bool.not_eq_true', List.contains_iff_mem] at hall
  rcases hall with (he | hn) | ⟨⟨hmay, hg⟩, hps⟩
  · exact absurd he hm
  · rw [hl] at hn; cases hn
  · refine ⟨hmay, hg, fun hmem => ?_⟩
    rw [List.contains_iff_mem.2 hmem] at hps
    cases hps

end

end HeapPc

namespace LatchPinRun

/-! ## The invariant -/

structure PinFits (s : LatchPinRun) (w : Nat) (pc : HeapPc) (p : PinSlot) : Prop where
  exists_ : ∀ b, pc.expects p = some b → (s.has w p ↔ b = true)
  valid : pc.needs p = true → ∃ e, (s.pin w p).buffer = some e

/-- A lock that is locked is for the buffer of the pin that guards it. -/
def LockFits (s : LatchPinRun) (w : Nat) (pc : HeapPc) (l : LockSlot) : Prop :=
  (s.lock w l).locked = true → pc.mayLock l = true ∧ s.has w (pc.guard l) ∧
    ∃ e, (s.lock w l).buffer = some e ∧ (s.pin w (pc.guard l)).buffer = some e ∧ s.data e = some (s.lock w l).data

structure Fits (s : LatchPinRun) (w : Nat) (pc : HeapPc) : Prop where
  pins : ∀ p, s.PinFits w pc p
  locks : ∀ l, s.LockFits w pc l

/-- A pinned entry has its buffer data. -/
def Attached (s : LatchPinRun) : Prop := ∀ o ∈ s.pins.objects, ∀ e, (s.pins.pin o).buffer = some e → s.data e ≠ none

/-- The invariant, with the worker `w` at `pc`. -/
structure PinnedAt (s : LatchPinRun) (w : Nat) (pc : HeapPc) : Prop where
  conserved : s.pins.Conserved
  attached : s.Attached
  others : ∀ v, v ≠ w → s.Fits v (s.pc v)
  own : s.Fits w pc
  sound : s.astray = false

structure PinnedInv (s : LatchPinRun) : Prop where
  conserved : s.pins.Conserved
  attached : s.Attached
  fits : ∀ w, s.Fits w (s.pc w)
  sound : s.astray = false

theorem object_inj {w v : Nat} {p q : PinSlot} (h : object w p = object v q) : w = v ∧ p = q := by
  cases p <;> cases q <;> simp only [object] at h <;> first | exact ⟨by omega, rfl⟩ | omega

theorem object_ne {w v : Nat} {p q : PinSlot} (h : v ≠ w ∨ q ≠ p) : object v q ≠ object w p := by
  intro he
  obtain ⟨hv, hq⟩ := object_inj he
  rcases h with h | h
  · exact h hv
  · exact h hq

/-- `t` differs from `s` in the pins `ps` and the locks `ls` of `w` only. -/
structure Local (s t : LatchPinRun) (w : Nat) (ps : List PinSlot) (ls : List LockSlot) : Prop where
  has : ∀ v q, v ≠ w ∨ q ∉ ps → (t.has v q ↔ s.has v q)
  pin : ∀ v q, v ≠ w ∨ q ∉ ps → t.pin v q = s.pin v q
  lock : ∀ v m, v ≠ w ∨ m ∉ ls → t.lock v m = s.lock v m
  data : t.data = s.data
  pc : t.pc = s.pc

section
variable {s t : LatchPinRun} {dbg : Bool} {w v e : Nat} {pc pc' : HeapPc} {p q : PinSlot} {l m : LockSlot}
  {ps : List PinSlot} {ls : List LockSlot}

theorem Local.pinFits (h : Local s t w ps ls) (hv : v ≠ w ∨ q ∉ ps) (hf : s.PinFits v pc q) : t.PinFits v pc q := by
  refine ⟨fun b hb => ?_, fun hn => ?_⟩
  · rw [h.has v q hv]
    exact hf.exists_ b hb
  · rw [h.pin v q hv]
    exact hf.valid hn

theorem Local.lockFits (h : Local s t w ps ls) (hm : v ≠ w ∨ m ∉ ls) (hg : v ≠ w ∨ pc.guard m ∉ ps)
    (hf : s.LockFits v pc m) : t.LockFits v pc m := by
  unfold LockFits at hf ⊢
  rw [h.lock v m hm, h.has v _ hg, h.pin v _ hg, h.data]
  exact hf

/-- A step of one worker keeps the invariant if it does so for the pins and locks it changes. -/
theorem PinnedAt.local_step (ps : List PinSlot) (ls : List LockSlot) (h : s.PinnedAt w pc) (hl : Local s t w ps ls)
    (hp : HeapPc.passes pc pc' ps ls = true) (hc : t.pins.Conserved) (ha : t.Attached) (hs : t.astray = false)
    (hpins : ∀ q ∈ ps, t.PinFits w pc' q) (hlocks : ∀ m ∈ ls, t.LockFits w pc' m) : t.PinnedAt w pc' := by
  refine ⟨hc, ha, fun v hv => ?_, ⟨fun q => ?_, fun m => ?_⟩, hs⟩
  · rw [hl.pc]
    have hf := h.others v hv
    exact ⟨fun q => hl.pinFits (.inl hv) (hf.pins q), fun m => hl.lockFits (.inl hv) (.inl hv) (hf.locks m)⟩
  · by_cases hq : q ∈ ps
    · exact hpins q hq
    · obtain ⟨he, hn⟩ := HeapPc.passes_pin hp hq
      have hf := hl.pinFits (.inr hq) (h.own.pins q)
      refine ⟨fun b hb => ?_, fun hneed => hf.valid (hn hneed)⟩
      rcases he with he | he
      · rw [he] at hb; cases hb
      · exact hf.exists_ b (he ▸ hb)
  · by_cases hm : m ∈ ls
    · exact hlocks m hm
    · intro hlocked
      rw [hl.lock w m (.inr hm)] at hlocked
      obtain ⟨hmay, hhas, hpin⟩ := h.own.locks m hlocked
      obtain ⟨hmay', hg, hps⟩ := HeapPc.passes_lock hp hm hmay
      rw [hl.lock w m (.inr hm), hg, hl.has w _ (.inr hps), hl.pin w _ (.inr hps), hl.data]
      exact ⟨hmay', hhas, hpin⟩

theorem PinnedInv.at (h : s.PinnedInv) (w : Nat) : s.PinnedAt w (s.pc w) :=
  ⟨h.conserved, h.attached, fun v _ => h.fits v, h.fits w, h.sound⟩

theorem Fits.goto {pc'' : HeapPc} (h : s.Fits v pc) : (s.goto w pc'').Fits v pc :=
  ⟨fun q => ⟨(h.pins q).exists_, (h.pins q).valid⟩, h.locks⟩

theorem PinnedAt.goto (h : s.PinnedAt w pc) : (s.goto w pc).PinnedInv := by
  refine ⟨h.conserved, h.attached, fun v => ?_, h.sound⟩
  by_cases hv : v = w
  · subst hv
    have hpc : (s.goto v pc).pc v = pc := by simp [LatchPinRun.goto]
    rw [hpc]
    exact h.own.goto
  · have hpc : (s.goto w pc).pc v = s.pc v := by simp [LatchPinRun.goto, hv]
    rw [hpc]
    exact (h.others v hv).goto

theorem Local.refl (s : LatchPinRun) (w : Nat) (ps : List PinSlot) (ls : List LockSlot) : Local s s w ps ls :=
  ⟨fun _ _ _ => Iff.rfl, fun _ _ _ => rfl, fun _ _ _ => rfl, rfl, rfl⟩

theorem LockFits.of_unlocked (h : (s.lock w l).locked = false) : s.LockFits w pc l := by
  intro hl
  rw [h] at hl
  cases hl

theorem PinnedAt.pass (h : s.PinnedAt w pc) (pc' : HeapPc) (hp : HeapPc.passes pc pc' [] [] = true) :
    s.PinnedAt w pc' :=
  h.local_step [] [] (Local.refl s w [] []) hp h.conserved h.attached h.sound
    (fun _ hq => absurd hq List.not_mem_nil)
    fun _ hm => absurd hm List.not_mem_nil

/-! ## One instruction -/

@[simp] theorem setLock_lock_self {x : BufferLock} : (s.setLock w l x).lock w l = x := by
  simp [setLock]

theorem setLock_lock_ne {x : BufferLock} (h : v ≠ w ∨ m ≠ l) : (s.setLock w l x).lock v m = s.lock v m := by
  unfold setLock
  by_cases hv : v = w
  · subst hv
    have hm : m ≠ l := h.resolve_left fun hne => hne rfl
    simp [hm]
  · simp [hv]

theorem Local.of_pins {pins : PinTable} (ho : ∀ o, (∀ q ∈ ps, o ≠ object w q) →
    (o ∈ pins.objects ↔ o ∈ s.pins.objects) ∧ pins.pin o = s.pins.pin o) : Local s { s with pins :=
      pins } w ps ls := by
  have hne : ∀ v q, v ≠ w ∨ q ∉ ps → ∀ q' ∈ ps, object v q ≠ object w q' := fun v q hv q' hq' =>
    object_ne (hv.imp_right fun hq he => hq (he ▸ hq'))
  exact ⟨fun v q hv => (ho _ (hne v q hv)).1, fun v q hv => (ho _ (hne v q hv)).2, fun _ _ _ => rfl, rfl, rfl⟩

/-- An unlock of a guarded lock unlocks the latch that was locked. -/
theorem unlockBuffer_guarded (hl : s.LockFits w pc l) (hs : s.astray = false) :
    Local s (s.unlockBuffer w l) w [] [l] ∧ (s.unlockBuffer w l).pins = s.pins ∧
      ((s.unlockBuffer w l).lock w l).locked = false ∧ (s.unlockBuffer w l).astray = false := by
  unfold unlockBuffer
  by_cases h : (s.lock w l).locked = true
  · obtain ⟨-, -, e, hb, -, hd⟩ := hl h
    simp only [h, if_true, hb, hd, Option.bind_some]
    refine ⟨⟨fun _ _ _ => Iff.rfl, fun _ _ _ => rfl, fun v m hv => ?_, rfl, rfl⟩, rfl, ?_, ?_⟩
    · exact setLock_lock_ne (hv.imp_right fun hm he => hm (he ▸ List.mem_cons_self))
    · show ((s.setLock w l _).lock w l).locked = false
      rw [setLock_lock_self]
    · simp [hs]
  · simp only [h]
    exact ⟨Local.refl s w [] [l], rfl, by simpa using h, hs⟩

theorem PinnedAt.unlock (h : s.PinnedAt w pc) (l : LockSlot) (pc' : HeapPc)
    (hp : HeapPc.passes pc pc' [] [l] = true) :
    (s.unlockBuffer w l).PinnedAt w pc' := by
  obtain ⟨hlocal, hpins, hunlocked, hs⟩ := unlockBuffer_guarded (h.own.locks l) h.sound
  refine h.local_step [] [l] hlocal hp (hpins ▸ h.conserved) ?_ hs (fun _ hq => absurd hq List.not_mem_nil)
    fun m hm => ?_
  · unfold Attached
    rw [hpins, hlocal.data]
    exact h.attached
  · obtain rfl := List.mem_singleton.1 hm
    exact .of_unlocked hunlocked

theorem PinnedAt.lock (h : s.PinnedAt w pc) {shared : Bool} (ht : s.lockBuffer w shared l p pc' = some t)
    (hp : HeapPc.passes pc pc' [] [l] = true) (hneed : pc.needs p = true) (hex : pc.expects p = some true)
    (hmay : pc'.mayLock l = true) (hg : pc'.guard l = p) : t.PinnedInv := by
  have hhas : s.has w p := ((h.own.pins p).exists_ true hex).2 rfl
  obtain ⟨e, he⟩ := (h.own.pins p).valid hneed
  obtain ⟨d, hd⟩ := Option.ne_none_iff_exists'.1 (h.attached _ hhas e he)
  unfold lockBuffer at ht
  simp only [he, hd, Option.map_eq_some_iff] at ht
  obtain ⟨x, -, rfl⟩ := ht
  refine PinnedAt.goto (h.local_step [] [l] ?_ hp h.conserved h.attached h.sound
    (fun _ hq => absurd hq List.not_mem_nil) fun m hm => ?_)
  · refine ⟨fun _ _ _ => Iff.rfl, fun _ _ _ => rfl, fun v m hv => ?_, rfl, rfl⟩
    exact setLock_lock_ne (hv.imp_right fun hm he => hm (he ▸ List.mem_cons_self))
  · obtain rfl := List.mem_singleton.1 hm
    intro _
    rw [hg]
    refine ⟨hmay, hhas, e, ?_, he, ?_⟩
    · rw [setLock_lock_self]
    · rw [setLock_lock_self]; exact hd

theorem Attached.of_moved {pins : PinTable} (h : s.Attached)
    (hm : ∀ o ∈ pins.objects, ∀ e, (pins.pin o).buffer = some e →
    ∃ o' ∈ s.pins.objects, (s.pins.pin o').buffer = some e) : ({ s with pins := pins } : LatchPinRun).Attached := by
  intro o ho e he
  obtain ⟨o', ho', he'⟩ := hm o ho e he
  exact h o' ho' e he'

theorem PinnedAt.drop (h : s.PinnedAt w pc) (p : PinSlot) (ls : List LockSlot)
    (hl : ∀ m ∈ ls, (s.lock w m).locked = false) (pc' : HeapPc) (hp : HeapPc.passes pc pc' [p] ls = true)
    (hex : (pc'.expects p != some true) = true) (hneed : pc'.needs p = false) :
    (s.dropPin dbg w p).PinnedAt w pc' := by
  unfold dropPin
  by_cases hhas : s.has w p
  · rw [if_pos hhas]
    refine h.local_step [p] ls (.of_pins fun o ho => ?_) hp (h.conserved.destroy_step hhas) ?_ h.sound
      (fun q hq => ?_)
      fun m hm => .of_unlocked (hl m hm)
    · have hne : o ≠ object w p := ho p List.mem_cons_self
      exact ⟨by simp [PinTable.destroy, hne], by simp [PinTable.destroy]⟩
    · refine h.attached.of_moved fun o ho e he => ⟨o, ?_, ?_⟩
      · exact Finset.mem_of_mem_erase (by simpa [PinTable.destroy] using ho)
      · simpa [PinTable.destroy] using he
    · obtain rfl := List.mem_singleton.1 hq
      refine ⟨fun b hb => ?_, fun hn => by rw [hneed] at hn; cases hn⟩
      cases b with
      | true => exact absurd hb (bne_iff_ne.1 hex)
      | false => simp [has, PinTable.destroy]
  · rw [if_neg hhas]
    refine h.local_step [p] ls (Local.refl s w [p] ls) hp h.conserved h.attached h.sound (fun q hq => ?_)
      fun m hm => .of_unlocked (hl m hm)
    obtain rfl := List.mem_singleton.1 hq
    refine ⟨fun b hb => ?_, fun hn => by rw [hneed] at hn; cases hn⟩
    cases b with
    | true => exact absurd hb (bne_iff_ne.1 hex)
    | false => simpa using hhas

theorem PinnedAt.obtain {tag : PageTag} (h : s.PinnedAt w pc) (hp : HeapPc.passes pc pc' [p] [] = true)
    (hex : pc.expects p = some false) (hex' : (pc'.expects p != some false) = true)
    (hc : s.pins.refCount e + 1 < 2 ^ 20)
    (hd : s.data e ≠ none) :
    ({ s with pins := s.pins.obtain dbg (object w p) tag e } : LatchPinRun).PinnedAt w pc' := by
  have hhas : ¬ s.has w p := fun hhas => by
    have := ((h.own.pins p).exists_ false hex).1 hhas
    cases this
  refine h.local_step [p] [] (.of_pins fun o ho => ?_) hp ((h.conserved.obtain_step hhas).2 hc) ?_ h.sound
    (fun q hq => ?_) fun _ hm => absurd hm List.not_mem_nil
  · have hne : o ≠ object w p := ho p List.mem_cons_self
    exact ⟨by simp [PinTable.obtain, hne], by simp [PinTable.obtain, hne]⟩
  · intro o ho e' he'
    by_cases hne : o = object w p
    · subst hne
      simp only [PinTable.obtain, Function.update_self, Option.some.injEq] at he'
      exact he' ▸ hd
    · simp only [PinTable.obtain, Function.update_of_ne hne] at he'
      exact h.attached o (Finset.mem_of_mem_insert_of_ne ho hne) e' he'
  · obtain rfl := List.mem_singleton.1 hq
    refine ⟨fun b hb => ?_, fun _ => ⟨e, by simp [pin, PinTable.obtain]⟩⟩
    cases b with
    | false => exact absurd hb (bne_iff_ne.1 hex')
    | true => simp [has, PinTable.obtain]

theorem PinnedAt.construct (h : s.PinnedAt w pc) (pc' : HeapPc) (hp : HeapPc.passes pc pc' [p] [] = true)
    (hex : pc.expects p = some false) (hex' : (pc'.expects p != some false) = true) (hneed : pc'.needs p = false) :
    ({ s with pins := s.pins.construct (object w p) } : LatchPinRun).PinnedAt w pc' := by
  have hhas : ¬ s.has w p := fun hhas => by
    have := ((h.own.pins p).exists_ false hex).1 hhas
    cases this
  refine h.local_step [p] [] (.of_pins fun o ho => ?_) hp (h.conserved.construct_step hhas) ?_ h.sound
    (fun q hq => ?_) fun _ hm => absurd hm List.not_mem_nil
  · have hne : o ≠ object w p := ho p List.mem_cons_self
    exact ⟨by simp [PinTable.construct, hne], by simp [PinTable.construct, hne]⟩
  · refine h.attached.of_moved fun o ho e he => ?_
    by_cases hne : o = object w p
    · subst hne
      simp [PinTable.construct, BufferPin.default] at he
    · simp only [PinTable.construct, Function.update_of_ne hne] at he
      exact ⟨o, Finset.mem_of_mem_insert_of_ne ho hne, he⟩
  · obtain rfl := List.mem_singleton.1 hq
    refine ⟨fun b hb => ?_, fun hn => by rw [hneed] at hn; cases hn⟩
    cases b with
    | false => exact absurd hb (bne_iff_ne.1 hex')
    | true => simp [has, PinTable.construct]

/-- The result of `searchPageFreeSpace` takes over the pin and so guards the lock. -/
theorem PinnedAt.give {k : Search} (h : s.PinnedAt w (.give k)) :
    ({ s with pins := s.pins.moveConstruct dbg (object w (result k.caller)) (object w .loc) } :
    LatchPinRun).PinnedAt w
      (.leaveSearch k) := by
  have hex : (HeapPc.give k).expects (result k.caller) = some false := by
    obtain ⟨caller, _, _⟩ := k
    cases caller <;> rfl
  have hex' : (HeapPc.leaveSearch k).expects (result k.caller) = some true := by
    obtain ⟨caller, _, _⟩ := k
    cases caller <;> rfl
  have hres : result k.caller ≠ .loc := by
    cases k.caller <;> exact PinSlot.noConfusion
  have hhas : ¬ s.has w (result k.caller) := fun hhas => by
    have := ((h.own.pins _).exists_ false hex).1 hhas
    cases this
  have hloc : s.has w .loc := ((h.own.pins .loc).exists_ true rfl).2 rfl
  obtain ⟨e, he⟩ := (h.own.pins .loc).valid rfl
  have hne : object w (result k.caller) ≠ object w .loc := object_ne (.inr hres)
  have hpin :
    (s.pins.moveConstruct dbg (object w (result k.caller)) (object w .loc)).pin (object w (result k.caller)) =
      s.pin w .loc := PinTable.moveConstruct_pin_self hne
  refine h.local_step [result k.caller, .loc] [.loc] (.of_pins fun o ho => ?_) ?_
    (h.conserved.moveConstruct_step hhas hloc) ?_ h.sound (fun q hq => ?_) fun m hm => ?_
  · have hne' := ho _ List.mem_cons_self
    have hne'' : o ≠ object w .loc := ho .loc (by simp)
    exact ⟨by simp [PinTable.moveConstruct_objects, hne'], PinTable.moveConstruct_pin_ne hne' hne''⟩
  · obtain ⟨caller, _, _⟩ := k
    cases caller <;> rfl
  · refine h.attached.of_moved fun o ho e' he' => ?_
    by_cases ho' : o = object w (result k.caller)
    · subst ho'
      rw [hpin] at he'
      exact ⟨object w .loc, hloc, he'⟩
    · by_cases hol : o = object w .loc
      · subst hol
        rw [PinTable.moveConstruct_pin_other] at he'
        cases he'
      · rw [PinTable.moveConstruct_pin_ne ho' hol] at he'
        rw [PinTable.moveConstruct_objects] at ho
        exact ⟨o, Finset.mem_of_mem_insert_of_ne ho ho', he'⟩
  · simp only [List.mem_cons, List.not_mem_nil, or_false] at hq
    rcases hq with rfl | rfl
    · refine ⟨fun b hb => ?_, fun _ => ⟨e, by rw [← he, ← hpin]; rfl⟩⟩
      obtain rfl : true = b := Option.some.inj (hex'.symm.trans hb)
      simp [has, PinTable.moveConstruct_objects]
    · refine ⟨fun b hb => ?_, fun hn => ?_⟩
      · obtain rfl : true = b := Option.some.inj hb
        simp only [has, PinTable.moveConstruct_objects, Finset.mem_insert, iff_true]
        exact .inr hloc
      · obtain ⟨caller, _, _⟩ := k
        cases caller <;> cases hn
  · obtain rfl := List.mem_singleton.1 hm
    intro hlocked
    obtain ⟨-, -, e', hb, hpe, hd⟩ := h.own.locks .loc hlocked
    refine ⟨rfl, ?_, e', hb, ?_, hd⟩
    · simp [has, HeapPc.guard, PinTable.moveConstruct_objects]
    · show (PinTable.pin _ _).buffer = _
      rw [show (HeapPc.leaveSearch k).guard .loc = result k.caller from rfl, hpin]
      exact hpe

/-- `newPin` is assigned while it has no buffer, and so `newLock` is not locked. -/
theorem PinnedAt.assign {relid size : Nat} (h : s.PinnedAt w (.assign relid size))
    (hv : (s.pin w .new).isValid = false) :
    ({ s with pins := s.pins.moveAssign dbg (object w .new) (object w .temp) } : LatchPinRun).PinnedAt w
      (.dropTemp relid size) := by
  have hnew : s.has w .new := ((h.own.pins .new).exists_ true rfl).2 rfl
  have htemp : s.has w .temp := ((h.own.pins .temp).exists_ true rfl).2 rfl
  obtain ⟨e, he⟩ := (h.own.pins .temp).valid rfl
  have hne : object w .new ≠ object w .temp := object_ne (.inr PinSlot.noConfusion)
  have hunlocked : (s.lock w .new).locked = false := by
    by_contra hl
    obtain ⟨-, -, e', -, hpe, -⟩ := h.own.locks .new (by simpa using hl)
    have hpe : (s.pin w .new).buffer = some e' := hpe
    simp [BufferPin.isValid, hpe] at hv
  have hc : (s.pins.moveAssign dbg (object w .new) (object w .temp)).Conserved :=
    (h.conserved.moveAssign_step hnew htemp).2 ⟨hv, fun _ => hne⟩
  rw [PinTable.moveAssign_invalid hv hne] at hc ⊢
  refine h.local_step [.new, .temp] [.new] (.of_pins fun o ho => ?_) rfl hc ?_ h.sound (fun q hq => ?_)
    fun m hm => ?_
  · exact ⟨Iff.rfl, PinTable.swap_pin_ne (ho .new (by simp)) (ho .temp (by simp))⟩
  · refine h.attached.of_moved fun o ho e' he' => ?_
    by_cases hon : o = object w .new
    · subst hon
      rw [PinTable.swap_pin_self hne] at he'
      exact ⟨_, htemp, he'⟩
    · by_cases hot : o = object w .temp
      · subst hot
        rw [PinTable.swap_pin_other] at he'
        exact ⟨_, hnew, he'⟩
      · rw [PinTable.swap_pin_ne hon hot] at he'
        exact ⟨o, ho, he'⟩
  · simp only [List.mem_cons, List.not_mem_nil, or_false] at hq
    rcases hq with rfl | rfl
    · refine ⟨fun b hb => ?_, fun _ => ⟨e, ?_⟩⟩
      · obtain rfl : true = b := Option.some.inj hb
        exact iff_of_true hnew rfl
      · show (PinTable.pin _ _).buffer = _
        rw [PinTable.swap_pin_self hne]
        exact he
    · refine ⟨fun b hb => ?_, fun hn => by cases hn⟩
      obtain rfl : true = b := Option.some.inj hb
      exact iff_of_true htemp rfl
  · obtain rfl := List.mem_singleton.1 hm
    exact .of_unlocked hunlocked

/-- `newLock` takes over the lock of the temporary. -/
theorem PinnedAt.moveLock {relid size : Nat} (h : s.PinnedAt w (.moveLock relid size)) :
    (s.moveLock w).PinnedAt w (.place ⟨.updateTuple, relid, size⟩) := by
  have hunlocked : (s.lock w .new).locked = false := by
    by_contra hl
    obtain ⟨hmay, -⟩ := h.own.locks .new (by simpa using hl)
    cases hmay
  have hu : s.unlockBuffer w .new = s := by simp [unlockBuffer, hunlocked]
  unfold LatchPinRun.moveLock
  rw [hu]
  have htemp : LockSlot.temp ≠ .new := LockSlot.noConfusion
  refine h.local_step [] [.new, .temp] ?_ rfl h.conserved h.attached h.sound
    (fun _ hq => absurd hq List.not_mem_nil) fun m hm => ?_
  · refine ⟨fun _ _ _ => Iff.rfl, fun _ _ _ => rfl, fun v m hv => ?_, rfl, rfl⟩
    rw [setLock_lock_ne (hv.imp_right fun hm he => hm (by simp [he])),
      setLock_lock_ne (hv.imp_right fun hm he => hm (by simp [he]))]
  · simp only [List.mem_cons, List.not_mem_nil, or_false] at hm
    rcases hm with rfl | rfl
    · intro hlocked
      rw [setLock_lock_ne (.inr htemp.symm), setLock_lock_self] at hlocked ⊢
      obtain ⟨-, hrest⟩ := h.own.locks .temp hlocked
      exact ⟨rfl, hrest⟩
    · refine .of_unlocked ?_
      rw [setLock_lock_self]

/-- Eviction and loading touch entries that nobody pins. -/
theorem PinnedInv.changeData (h : s.PinnedInv) (hr : s.pins.refCount e = 0) (page : Nat → PageTag) (d : Option Nat)
    (freeData : List Nat) :
    ({ s with page := page, data := Function.update s.data e d, freeData := freeData } :
    LatchPinRun).PinnedInv := by
  have hkeep : ∀ o ∈ s.pins.objects, ∀ e', (s.pins.pin o).buffer = some e' →
      Function.update s.data e d e' = s.data e' := by
    intro o ho e' he'
    apply Function.update_of_ne
    intro heq
    have hpos := h.conserved.pinned ho he'
    rw [heq, hr] at hpos
    exact Nat.lt_irrefl 0 hpos
  refine ⟨h.conserved, fun o ho e' he' => ?_, fun w => ⟨fun p => ?_, fun l hl => ?_⟩, h.sound⟩
  · show Function.update s.data e d e' ≠ none
    rw [hkeep o ho e' he']
    exact h.attached o ho e' he'
  · exact ⟨((h.fits w).pins p).exists_, ((h.fits w).pins p).valid⟩
  · obtain ⟨hmay, hhas, e', hb, hpe, hd⟩ := (h.fits w).locks l hl
    refine ⟨hmay, hhas, e', hb, hpe, ?_⟩
    show Function.update s.data e d e' = _
    rw [hkeep _ hhas e' hpe]
    exact hd

theorem PinnedAt.setSpace {tag : PageTag} {x : PageSpace} (h : s.PinnedAt w pc) :
    (s.setSpace tag x).PinnedAt w pc :=
  h.local_step [] [] ⟨fun _ _ _ => Iff.rfl, fun _ _ _ => rfl, fun _ _ _ => rfl, rfl, rfl⟩
    (HeapPc.passes_refl pc []) h.conserved h.attached h.sound (fun _ hq => absurd hq List.not_mem_nil)
    fun _ hm => absurd hm List.not_mem_nil

theorem grow_pins (s : LatchPinRun) (pc : HeapPc) : (s.grow pc).pins = s.pins := by
  unfold grow
  split <;> rfl

theorem PinnedAt.grow (h : s.PinnedAt w pc) : (s.grow pc').PinnedAt w pc := by
  unfold LatchPinRun.grow
  split
  · exact h.local_step [] [] ⟨fun _ _ _ => Iff.rfl, fun _ _ _ => rfl, fun _ _ _ => rfl, rfl, rfl⟩
      (HeapPc.passes_refl pc []) h.conserved h.attached h.sound (fun _ hq => absurd hq List.not_mem_nil)
      fun _ hm => absurd hm List.not_mem_nil
  · exact h

theorem PinnedAt.search {k : Search} {pageno npages : Nat} (h : s.PinnedAt w (.extend k)) :
    (s.goto w (searchFrom k pageno npages)).PinnedInv := by
  unfold searchFrom
  split
  · refine (h.pass _ ?_).goto
    obtain ⟨caller, _, _⟩ := k
    cases caller <;> rfl
  · exact h.goto

/-! ## One step -/

theorem PinnedAt.runPc (h : s.PinnedAt w pc) (hfirst : ∀ relid size, pc = .assign relid size →
      (s.pin w .new).isValid = false)
    (ht : s.runPc dbg w pc = some t) : t.PinnedInv := by
  have hnone : ∀ m ∈ ([] : List LockSlot), (s.lock w m).locked = false := fun _ hm => absurd hm List.not_mem_nil
  cases pc with
  | idle => cases ht
  | getOld tag c => cases ht
  | getNew tag => cases ht
  | probe k pageno npages => cases ht
  | extend k => cases ht
  | lockOld c => exact h.lock ht rfl rfl rfl rfl rfl
  | checkOld c =>
    obtain rfl := Option.some.inj ht
    exact (h.pass _ rfl).goto
  | waitEnd c =>
    obtain rfl := Option.some.inj ht
    exact (h.pass _ rfl).goto
  | lockAgain c => exact h.lock ht rfl rfl rfl rfl rfl
  | useOld c =>
    cases c with
    | undoMove new =>
      obtain rfl := Option.some.inj ht
      exact (h.pass _ rfl).goto
    | updateTuple size | deleteTuple | undo =>
      obtain rfl := Option.some.inj ht
      exact (h.pass _ rfl).goto
  | lockNew => exact h.lock ht rfl rfl rfl rfl rfl
  | lockProbe k pageno npages =>
    exact h.lock ht (by obtain ⟨caller, _, _⟩ := k; cases caller <;> rfl) rfl rfl rfl rfl
  | testProbe k pageno npages =>
    simp only [LatchPinRun.runPc] at ht
    split at ht
    · obtain rfl := Option.some.inj ht
      exact (h.unlock .loc _ (by obtain ⟨caller, _, _⟩ := k; cases caller <;> rfl)).goto
    · obtain rfl := Option.some.inj ht
      exact (h.pass _ (by obtain ⟨caller, _, _⟩ := k; cases caller <;> rfl)).goto
  | dropProbe k pageno npages =>
    obtain rfl := Option.some.inj ht
    refine (h.drop .loc [] hnone (.extend k) ?_ ?_ rfl).search
    · obtain ⟨caller, _, _⟩ := k; cases caller <;> rfl
    · obtain ⟨caller, _, _⟩ := k; cases caller <;> rfl
  | lockExtend k => exact h.lock ht (by obtain ⟨caller, _, _⟩ := k; cases caller <;> rfl) rfl rfl rfl rfl
  | initPage k =>
    obtain rfl := Option.some.inj ht
    exact (h.setSpace.unlock .loc _ (by obtain ⟨caller, _, _⟩ := k; cases caller <;> rfl)).goto
  | lockShared k => exact h.lock ht (by obtain ⟨caller, _, _⟩ := k; cases caller <;> rfl) rfl rfl rfl rfl
  | checkNew k =>
    simp only [LatchPinRun.runPc, Option.ite_none_left_eq_some] at ht
    obtain rfl := Option.some.inj ht.2
    exact (h.pass _ (by obtain ⟨caller, _, _⟩ := k; cases caller <;> rfl)).goto
  | give k =>
    obtain rfl := Option.some.inj ht
    exact h.give.goto
  | leaveSearch k =>
    obtain rfl := Option.some.inj ht
    have hu := (unlockBuffer_guarded (h.own.locks .loc) h.sound).2.2.1
    have hunlocked : ∀ m ∈ [LockSlot.loc], ((s.unlockBuffer w .loc).lock w m).locked = false := fun m hm => by
      rw [List.mem_singleton.1 hm]; exact hu
    have hu' := h.unlock .loc _ (HeapPc.passes_refl _ [.loc])
    obtain ⟨caller, relid, size⟩ := k
    cases caller with
    | insertTuple => exact (hu'.drop .loc [.loc] hunlocked _ rfl rfl rfl).goto
    | updateTuple => exact (hu'.drop .loc [.loc] hunlocked _ rfl rfl rfl).goto
  | assign relid size =>
    obtain rfl := Option.some.inj ht
    exact (h.assign (hfirst relid size rfl)).goto
  | dropTemp relid size =>
    obtain rfl := Option.some.inj ht
    exact (h.drop .temp [] hnone _ rfl rfl rfl).goto
  | lockTemp relid size => exact h.lock ht rfl rfl rfl rfl rfl
  | moveLock relid size =>
    obtain rfl := Option.some.inj ht
    exact h.moveLock.goto
  | lockPlace relid size => exact h.lock ht rfl rfl rfl rfl rfl
  | place k =>
    simp only [LatchPinRun.runPc] at ht
    obtain ⟨caller, relid, size⟩ := k
    split at ht
    · cases caller with
      | insertTuple =>
        obtain rfl := Option.some.inj ht
        exact (h.unlock .new _ rfl).goto
      | updateTuple =>
        obtain rfl := Option.some.inj ht
        exact (h.pass (.extend ⟨.updateTuple, relid, size⟩) rfl).search
    · obtain rfl := Option.some.inj ht
      cases caller <;> exact (h.setSpace.pass _ rfl).goto
  | dropPlace relid size =>
    obtain rfl := Option.some.inj ht
    exact (h.drop .new [] hnone (.extend ⟨.insertTuple, relid, size⟩) rfl rfl rfl).search
  | unlockNew =>
    obtain rfl := Option.some.inj ht
    exact (h.unlock .new _ rfl).goto
  | dropNew =>
    obtain rfl := Option.some.inj ht
    exact (h.drop .new [] hnone _ rfl rfl rfl).goto
  | unlockOld =>
    obtain rfl := Option.some.inj ht
    exact (h.unlock .old _ rfl).goto
  | dropOld =>
    obtain rfl := Option.some.inj ht
    exact (h.drop .old [] hnone _ rfl rfl rfl).goto

theorem PinnedAt.getBuffer {tag : PageTag} (h : s.PinnedAt w pc) (hw : s.wanted pc = some (tag, p, pc'))
    (hc : s.pins.refCount e + 1 < 2 ^ 20) (hd : s.data e ≠ none) :
    ({ s.grow pc with pins := s.pins.obtain dbg (object w p) tag e }.goto w pc').PinnedInv := by
  have hdata : (s.grow pc).data e ≠ none := by
    unfold LatchPinRun.grow
    split <;> exact hd
  rw [← grow_pins s pc] at hc ⊢
  unfold wanted at hw
  split at hw
  · cases hw
    exact (h.grow.obtain rfl rfl rfl hc hdata).goto
  · cases hw
    exact (h.grow.obtain rfl rfl rfl hc hdata).goto
  · cases hw
    rename_i k _ _
    exact (h.grow.obtain (by obtain ⟨caller, _, _⟩ := k; cases caller <;> rfl) rfl rfl hc hdata).goto
  · cases hw
    rename_i k
    exact (h.grow.obtain (by obtain ⟨caller, _, _⟩ := k; cases caller <;> rfl) rfl rfl hc hdata).goto
  · cases hw

theorem PinnedAt.throw (h : s.PinnedAt w pc) (ht : throws pc = true) : (s.goto w .unlockNew).PinnedInv := by
  cases pc with
  | getOld _ _ | waitEnd _ | useOld _ | getNew _ => exact (h.pass _ rfl).goto
  | probe k _ _ | extend k | place k =>
    obtain ⟨caller, _, _⟩ := k
    cases caller <;> exact (h.pass _ rfl).goto
  | _ => cases ht

theorem PinnedInv.step {a : Nat × LatchPinOp} (h : s.PinnedInv) (hc : FirstRound s a) (hs : step dbg s a = some t) :
    t.PinnedInv := by
  obtain ⟨w, op⟩ := a
  have hat := h.at w
  simp only [LatchPinRun.step] at hs
  split at hs
  · cases hs
  split at hs
  · -- `insertTuple`
    rename_i relid size hpc
    obtain rfl := Option.some.inj hs
    rw [hpc] at hat
    exact (hat.pass (.extend ⟨.insertTuple, relid, size⟩) rfl).search
  · -- `call`
    rename_i tag c hpc
    obtain rfl := Option.some.inj hs
    rw [hpc] at hat
    exact (hat.pass (.getOld tag c) rfl).goto
  · -- `getBuffer`
    split at hs
    · rename_i tag p next hw
      simp only [Option.ite_none_right_eq_some, Option.some.injEq] at hs
      obtain ⟨⟨-, hd⟩, rfl⟩ := hs
      exact hat.getBuffer hw hc hd
    · cases hs
  · -- `run`
    refine hat.runPc (fun relid size hpc => ?_) hs
    simpa only [FirstRound, hpc] using hc
  · -- `wait`
    rename_i c hpc
    simp only [Option.ite_none_right_eq_some, Option.some.injEq] at hs
    obtain ⟨-, rfl⟩ := hs
    rw [hpc] at hat
    exact (hat.unlock .old (.waitEnd c) rfl).goto
  · -- `relocate`
    rename_i size hpc
    simp only [Option.ite_none_left_eq_some, Option.some.injEq] at hs
    obtain ⟨-, rfl⟩ := hs
    rw [hpc] at hat
    exact (hat.setSpace.pass .unlockNew rfl).goto
  · -- `move`
    rename_i size hpc
    simp only [Option.ite_none_right_eq_some, Option.some.injEq] at hs
    obtain ⟨-, rfl⟩ := hs
    rw [hpc] at hat
    exact (hat.construct (.extend ⟨.updateTuple, (s.pin w .old).tag.relid, size⟩) rfl rfl rfl rfl).search
  · -- `fail`
    simp only [Option.ite_none_right_eq_some, Option.some.injEq] at hs
    obtain ⟨ht, rfl⟩ := hs
    exact hat.throw ht
  · -- `evict`
    split at hs
    · simp only [Option.ite_none_right_eq_some, Option.some.injEq] at hs
      obtain ⟨hr, rfl⟩ := hs
      exact h.changeData hr s.page none _
    · cases hs
  · -- `load`
    rename_i e tag d
    simp only [Option.ite_none_right_eq_some, Option.some.injEq] at hs
    obtain ⟨⟨-, hr, -⟩, rfl⟩ := hs
    exact h.changeData hr _ (some d) _
  · cases hs

theorem AtRest.inv (h : s.AtRest) : s.PinnedInv := by
  obtain ⟨flags, hpins⟩ := h.pins
  refine ⟨hpins ▸ PinTable.init_conserved flags, fun o ho => ?_, fun w => ?_, h.sound⟩
  · rw [hpins] at ho
    exact absurd ho (Finset.notMem_empty o)
  · rw [h.pc w]
    refine ⟨fun p => ⟨fun b hb => ?_, fun hn => by cases hn⟩, fun l => .of_unlocked (h.lock w l)⟩
    obtain rfl : false = b := Option.some.inj hb
    unfold has
    rw [hpins]
    exact iff_of_false (Finset.notMem_empty _) Bool.false_ne_true

theorem PinnedInv.latched (h : s.PinnedInv) : s.LatchedPinned := by
  refine ⟨fun w l hl => ?_, h.sound⟩
  obtain ⟨-, hhas, e, hb, hpe, hd⟩ := (h.fits w).locks l hl
  exact ⟨e, _, hb, hhas, hpe, h.conserved.pinned hhas hpe, hd⟩

end

/-! ## Runs -/

/-- While `newPin` is assigned in the first round only, every latch is held with a pin of its entry
and unlocked through the buffer data it was locked through. -/
theorem latched_pinned {dbg : Bool} {s₀ s : LatchPinRun} (h0 : s₀.AtRest) (h : Reach (step dbg) FirstRound s₀ s) :
    s.LatchedPinned :=
  (h.inv (fun _ _ _ hs hc ht => hs.step hc ht) h0.inv).latched

/-- Pages 0 and 2 have room for a tuple of 36 bytes, page 1 for one of 100. -/
def nearlyFull : LatchPinRun where
  pins := PinTable.init fun _ => 0
  page e := ⟨1, e⟩
  data e := if e < 3 then some e else none
  freeData := []
  latch _ := ⟨0, false⟩
  lock _ _ := .default
  space tag := if tag.pageno = 1 then ⟨824, 984⟩ else ⟨824, 864⟩
  count _ := 3
  pc _ := .idle
  astray := false

theorem nearlyFull_atRest : nearlyFull.AtRest := ⟨⟨_, rfl⟩, fun _ _ => rfl, fun _ => rfl, rfl⟩

/-- `GetBuffer` and `n` operations of a worker. -/
def visit (w e n : Nat) : List (Nat × LatchPinOp) := (w, .getBuffer e) :: List.replicate n (w, .run)

/-- An update finds page 1. -/
def firstRound : List (Nat × LatchPinOp) :=
  (0, .call ⟨1, 2⟩ (.updateTuple 100)) :: visit 0 2 2 ++ (0, .move) :: visit 0 0 3 ++ visit 0 1 6

/-- Another worker fills it, and a third one takes the last bytes of page 0, whose `upper` passes below `lower`. -/
def otherInserts : List (Nat × LatchPinOp) :=
  (1, .insertTuple 1 100) :: visit 1 0 3 ++ visit 1 1 10 ++ (2, .insertTuple 1 36) :: visit 2 0 10

/-- The update comes back to page 0, while it has page 1 latched. -/
def secondRound : List (Nat × LatchPinOp) := [(0, .run), (0, .run), (0, .run)] ++ visit 0 0 5

theorem latched_pinned_relocate : ∃ s, Reach (step true) FirstRound nearlyFull s ∧
    (s.lock 0 .old).locked = true ∧ (s.lock 0 .new).locked = true ∧ s.LatchedPinned := by
  have h : (exec (guarded FirstRound (step true)) nearlyFull (firstRound ++ [(0, .run), (0, .run)])).map
      (fun s => (s.lock 0 .old).locked && (s.lock 0 .new).locked) = some true := by decide +kernel
  obtain ⟨s, hr, ht⟩ := reach_of_test h
  rw [Bool.and_eq_true] at ht
  exact ⟨s, hr.of_guarded, ht.1, ht.2, latched_pinned nearlyFull_atRest hr.of_guarded⟩

/-- The second round returns the pin of the page that `newLock` has latched; when the entry is evicted,
the unlock finds no buffer data. -/
theorem second_round_unpins : nearlyFull.AtRest ∧
    (∀ dbg, ∃ s, Reach (step dbg) anyStep nearlyFull s ∧ (s.lock 0 .new).locked = true ∧
      (s.lock 0 .new).buffer = some 1 ∧
      s.pins.refCount 1 = 0 ∧ ¬ s.LatchedPinned) ∧
    ∃ s, Reach (step false) anyStep nearlyFull s ∧ s.astray = true := by
  have h : ∀ dbg, (exec (step dbg) nearlyFull (firstRound ++ otherInserts ++ secondRound)).map
      (fun s => (s.lock 0 .new).locked && (s.lock 0 .new).buffer == some 1 && s.pins.refCount 1 == 0) =
      some true := by
    decide +kernel
  have h' : (exec (step false) nearlyFull (firstRound ++ otherInserts ++ secondRound ++
      [(3, .evict 1), (0, .run), (0, .run), (0, .run)])).map (fun s => s.astray) = some true := by
    decide +kernel
  refine ⟨nearlyFull_atRest, fun dbg => ?_, reach_of_test h'⟩
  obtain ⟨s, hr, ht⟩ := reach_of_test (h dbg)
  simp only [Bool.and_eq_true, beq_iff_eq] at ht
  obtain ⟨⟨hl, hb⟩, hc⟩ := ht
  refine ⟨s, hr, hl, hb, hc, fun hp => ?_⟩
  obtain ⟨e, _, hb', -, -, hpos, -⟩ := hp.pinned 0 .new hl
  obtain rfl : 1 = e := Option.some.inj (hb.symm.trans hb')
  rw [hc] at hpos
  exact Nat.lt_irrefl 0 hpos

end LatchPinRun

end Mimidb
