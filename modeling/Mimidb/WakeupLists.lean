import Mathlib.Data.Fin.VecNotation
import Mimidb.DoublyLinked
import Mimidb.LWLatchSound

/-!
# The two lists of `wakeup`

`wakeup` takes workers from the queue of a latch, which it iterates over, and
pushes the same nodes to a list of its own; then it takes them from there and
wakes them. A step runs one operation of `wakeup`, or other workers change the
word of the latch. Of the other workers nothing else is seen.
-/

namespace Mimidb

/-! ## Lists of workers -/

structure LockNodes (W : Type) where
  next : W → Option W
  prev : W → Option W

structure LockListHead (W : Type) where
  head : Option W
  tail : Option W

structure LockListIterator (W : Type) where
  current : Option W
  next : Option W

namespace LockListHead

variable {W : Type}

def isEmpty (l : LockListHead W) : Bool := l.head.isNone

/-- `begin`. -/
def start (l : LockListHead W) (nodes : LockNodes W) : LockListIterator W := ⟨l.head, l.head.bind nodes.next⟩

variable [DecidableEq W]

def pushTail (l : LockListHead W) (nodes : LockNodes W) (id : W) : LockListHead W × LockNodes W :=
  match l.tail with
  | none => (⟨some id, some id⟩, ⟨Function.update nodes.next id none, Function.update nodes.prev id none⟩)
  | some last =>
    (⟨l.head, some id⟩,
      ⟨Function.update (Function.update nodes.next id none) last (some id),
      Function.update nodes.prev id (some last)⟩)

def delete (l : LockListHead W) (nodes : LockNodes W) (id : W) : LockListHead W × LockNodes W :=
  let (head, nodes) := match nodes.prev id with
    | none => (nodes.next id, nodes)
    | some p => (l.head, { nodes with next := Function.update nodes.next p (nodes.next id) })
  let (tail, nodes) := match nodes.next id with
    | none => (nodes.prev id, nodes)
    | some n => (l.tail, { nodes with prev := Function.update nodes.prev n (nodes.prev id) })
  (⟨head, tail⟩, ⟨Function.update nodes.next id none, Function.update nodes.prev id none⟩)

/-- The assertions of `Delete`. -/
def deletes (l : LockListHead W) (nodes : LockNodes W) (id : W) : Bool :=
  ((nodes.prev id).isSome || l.head == some id) && ((nodes.next id).isSome || l.tail == some id)

end LockListHead

/-- `operator++`. -/
def LockListIterator.advance {W : Type} (it : LockListIterator W) (nodes : LockNodes W) : LockListIterator W :=
  match it.next with
  | some x => ⟨some x, nodes.next x⟩
  | none => ⟨none, none⟩

/-! ## The program -/

/-- Program points: each names the operation that comes next. -/
inductive WakeupPc (W : Type) where
  | lock
  -- the loop over the queue
  | select (it : LockListIterator W) (wokeupSomebody : Bool)
  | push (it : LockListIterator W)
  | pending (it : LockListIterator W)
  -- the word
  | load
  | exchange (old : BitVec 32)
  -- the loop over the list of those to wake
  | unlink (it : LockListIterator W)
  | notWaiting (it : LockListIterator W)
  | release (it : LockListIterator W)
  | done

structure WakeupRun (W : Type) where
  nodes : LockNodes W
  waiters : LockListHead W
  wakeup : LockListHead W
  word : BitVec 32
  lockState : W → WorkerLockState
  lockMode : W → LockMode
  sema : W → Nat
  pc : WakeupPc W
  failed : Bool

inductive WakeupOp where
  | run
  | others (word : BitVec 32)

/-- Between `wait_list_lock` and the exchange. -/
def WakeupPc.holdsList {W : Type} : WakeupPc W → Bool
  | select .. | push _ | pending _ | load | exchange _ => true
  | lock | unlink _ | notWaiting _ | release _ | done => false

namespace WakeupRun

variable {W : Type} [DecidableEq W]

/-- One operation of `wakeup`. An iterator at the end has no worker. -/
def runPc (s : WakeupRun W) : WakeupPc W → Option (WakeupRun W)
  | .lock =>
    if hasFlag s.word LWLatchFlag.ListLocked then some s
    else some { s with word := s.word ||| LWLatchFlag.ListLocked, pc := .select (s.waiters.start s.nodes) false }
  | .select it wokeupSomebody =>
    match it.current with
    | none => some { s with pc := .load }
    | some v =>
      if wokeupSomebody ∧ s.lockMode v = .Exclusive then some
        { s with pc := .select (it.advance s.nodes) wokeupSomebody }
      else some { s with
        waiters := (s.waiters.delete s.nodes v).1, nodes := (s.waiters.delete s.nodes v).2
        failed := s.failed || !s.waiters.deletes s.nodes v, pc := .push it }
  | .push it => it.current.map fun v =>
    { s with
      wakeup := (s.wakeup.pushTail s.nodes v).1, nodes := (s.wakeup.pushTail s.nodes v).2, pc := .pending it }
  | .pending it => it.current.map fun v =>
    { s with
      lockState := Function.update s.lockState v .PendingWakeup
      failed := s.failed || s.lockState v != .Waiting
      pc := if s.lockMode v = .Exclusive then .load else .select (it.advance s.nodes) true }
  | .load =>
    some { s with
      failed := s.failed || !(s.wakeup.isEmpty || hasFlag s.word LWLatchFlag.HasWaiters)
      pc := .exchange s.word }
  | .exchange old =>
    if s.word = old then
      some { s with word := Latches.wakeWord s.waiters.isEmpty old, pc := .unlink (s.wakeup.start s.nodes) }
    else some { s with pc := .exchange s.word }
  | .unlink it =>
    match it.current with
    | none => some { s with pc := .done }
    | some v =>
      some { s with
        wakeup := (s.wakeup.delete s.nodes v).1, nodes := (s.wakeup.delete s.nodes v).2
        failed := s.failed || !s.wakeup.deletes s.nodes v, pc := .notWaiting it }
  | .notWaiting it => it.current.map fun v =>
    { s with lockState := Function.update s.lockState v .NotWaiting, pc := .release it }
  | .release it => it.current.map fun v =>
    { s with sema := Function.update s.sema v (s.sema v + 1), pc := .unlink (it.advance s.nodes) }
  | .done => none

/-- `HasWaiters` changes with the queue only, and the lock of the list while nobody else has it. -/
def step (s : WakeupRun W) : WakeupOp → Option (WakeupRun W)
  | .run => s.runPc s.pc
  | .others word =>
    if hasFlag word LWLatchFlag.HasWaiters = hasFlag s.word LWLatchFlag.HasWaiters ∧
      (s.pc.holdsList → hasFlag word LWLatchFlag.ListLocked = hasFlag s.word LWLatchFlag.ListLocked) then
      some { s with word := word }
    else none

end WakeupRun

/-! ## Linked lists -/

section
variable {W : Type} {nodes : LockNodes W} {l : LockListHead W} {as bs xs : List W} {x : W}

/-- The nodes `xs` are the list. -/
def LockListHead.Holds (l : LockListHead W) (nodes : LockNodes W) (xs : List W) : Prop :=
  Linked nodes.prev nodes.next l.head l.tail xs

theorem LockListHead.Holds.next_eq (h : l.Holds nodes (as ++ x :: bs)) : nodes.next x = bs.head? := by
  obtain ⟨-, -, hnext, -⟩ := Segment.append.1 h.links
  rw [hnext, Option.or_none]

theorem LockListHead.Holds.prev_eq (h : l.Holds nodes (as ++ x :: bs)) : nodes.prev x = as.getLast? := by
  obtain ⟨-, hprev, -⟩ := Segment.append.1 h.links
  rw [hprev, Option.or_none]

theorem LockListHead.Holds.isEmpty_eq (h : l.Holds nodes xs) : l.isEmpty = xs.isEmpty := by
  rw [LockListHead.isEmpty, h.head]
  cases xs <;> rfl

variable [DecidableEq W]

theorem LockListHead.Holds.deletes (h : l.Holds nodes (as ++ x :: bs)) : l.deletes nodes x = true := by
  unfold LockListHead.deletes
  rw [h.prev_eq, h.next_eq, h.head, h.tail]
  cases as with
  | nil =>
    cases bs with
    | nil => simp
    | cons b bs => simp
  | cons a as =>
    cases bs with
    | nil =>
      rw [List.getLast?_concat]
      simp
    | cons b bs => simp

theorem LockListHead.delete_eq (h : nodes.prev x ≠ some x) : l.delete nodes x =
    (⟨match nodes.prev x with
      | none => nodes.next x
      | some _ => l.head,
      match nodes.next x with
      | none => nodes.prev x
      | some _ =>
        l.tail⟩, ⟨Linked.unlinkNext nodes.prev nodes.next x, Linked.unlinkPrev nodes.prev nodes.next x⟩) := by
  unfold LockListHead.delete Linked.unlinkNext Linked.unlinkPrev
  cases hp : nodes.prev x with
  | none => cases hn : nodes.next x <;> simp [hp, hn]
  | some p =>
    have hpx : x ≠ p := fun e => h (by rw [hp, e])
    cases hn : nodes.next x <;> simp [hp, hn, Function.update_of_ne hpx]

theorem LockListHead.Holds.delete (h : l.Holds nodes (as ++ x :: bs)) :
    (l.delete nodes x).1.Holds (l.delete nodes x).2 (as ++ bs) := by
  have hnodup := List.nodup_append.1 h.nodup
  have hself : nodes.prev x ≠ some x := by
    rw [h.prev_eq]
    exact fun e => hnodup.2.2 x (List.mem_of_getLast? e) x List.mem_cons_self rfl
  rw [LockListHead.delete_eq hself, h.prev_eq, h.next_eq]
  by_cases hne : as ++ bs = []
  · obtain ⟨rfl, rfl⟩ := List.append_eq_nil_iff.1 hne
    exact Linked.empty
  · have hunlinked := Linked.unlink h hne
    refine ⟨hunlinked.nodup, ?_, ?_, hunlinked.links⟩
    · cases as with
      | nil => rfl
      | cons a as => simp [List.getLast?_cons, h.head]
    · cases bs with
      | nil => simp
      | cons b bs => simp [h.tail, List.getLast?_append, List.getLast?_cons]

theorem LockListHead.Holds.delete_other (h : l.Holds nodes (as ++ x :: bs)) {y : W} (hy : y ∉ as ++ x :: bs) :
    (l.delete nodes x).2.prev y = nodes.prev y ∧ (l.delete nodes x).2.next y = nodes.next y := by
  have hself : nodes.prev x ≠ some x := by
    rw [h.prev_eq]
    exact fun e => (List.nodup_append.1 h.nodup).2.2 x (List.mem_of_getLast? e) x List.mem_cons_self rfl
  have hyx : y ≠ x := fun e => hy (e ▸ List.mem_append_right _ List.mem_cons_self)
  rw [LockListHead.delete_eq hself]
  simp only [Linked.unlinkPrev, Linked.unlinkNext, Function.update_of_ne hyx, h.prev_eq, h.next_eq]
  constructor
  · cases hn : bs.head? with
    | none => rfl
    | some n =>
      have hyn : y ≠ n := fun e => hy (List.mem_append_right _ (List.mem_cons_of_mem _ (e ▸ List.mem_of_head? hn)))
      exact Function.update_of_ne hyn _ _
  · cases hp : as.getLast? with
    | none => rfl
    | some p =>
      have hyp : y ≠ p := fun e => hy (List.mem_append_left _ (e ▸ List.mem_of_getLast? hp))
      exact Function.update_of_ne hyp _ _

theorem LockListHead.pushTail_none (h : l.tail = none) : l.pushTail nodes x =
    (⟨some x, some x⟩, ⟨Function.update nodes.next x none, Function.update nodes.prev x none⟩) := by
  rw [LockListHead.pushTail, h]

theorem LockListHead.pushTail_some {last : W} (h : l.tail = some last) : l.pushTail nodes x =
    (⟨l.head, some x⟩, ⟨Function.update (Function.update nodes.next x none) last (some x),
      Function.update nodes.prev x (some last)⟩) := by
  rw [LockListHead.pushTail, h]

theorem LockListHead.Holds.pushTail (h : l.Holds nodes xs) (hx : x ∉ xs) :
    (l.pushTail nodes x).1.Holds (l.pushTail nodes x).2 (xs ++ [x]) := by
  cases hlast : xs.getLast? with
  | none =>
    obtain rfl := List.getLast?_eq_none_iff.1 hlast
    rw [LockListHead.pushTail_none h.tail]
    exact Linked.single (Function.update_self ..) (Function.update_self ..)
  | some last =>
    have hne : xs ≠ [] := fun e => by simp [e] at hlast
    have hxlast : x ≠ last := fun e => hx (e ▸ List.mem_of_getLast? hlast)
    have hfresh : ∀ z ∈ xs, z ≠ x := fun z hz e => hx (e ▸ hz)
    have hnodup : (xs ++ [x]).Nodup :=
      List.nodup_append.2 ⟨h.nodup, List.nodup_singleton x, fun a ha b hb => List.mem_singleton.1 hb ▸ hfresh a ha⟩
    rw [LockListHead.pushTail_some (h.tail.trans hlast)]
    refine ⟨hnodup, ?_, List.getLast?_concat.symm, Segment.append.2 ⟨?_, ?_⟩⟩
    · rw [List.head?_append, Option.or_of_isSome (by rw [List.isSome_head?]; exact hne)]
      exact h.head
    · refine (h.links.relinkLast h.nodup hlast).congr (fun z hz => Function.update_of_ne (hfresh z hz) _ _)
        fun z hz => ?_
      by_cases hz' : z = last
      · subst hz'
        simp only [Function.update_self]
        rfl
      · exact (Function.update_of_ne hz' _ _).trans
          ((Function.update_of_ne (hfresh z hz) _ _).trans (Function.update_of_ne hz' _ _).symm)
    · rw [hlast]
      exact ⟨Function.update_self .., (Function.update_of_ne hxlast _ _).trans (Function.update_self ..), trivial⟩

theorem LockListHead.Holds.pushTail_other (h : l.Holds nodes xs) {y : W} (hyx : y ≠ x) (hy : y ∉ xs) :
    (l.pushTail nodes x).2.prev y = nodes.prev y ∧ (l.pushTail nodes x).2.next y = nodes.next y := by
  cases hlast : xs.getLast? with
  | none =>
    rw [LockListHead.pushTail_none (h.tail.trans hlast)]
    exact ⟨Function.update_of_ne hyx _ _, Function.update_of_ne hyx _ _⟩
  | some last =>
    have hyl : y ≠ last := fun e => hy (e ▸ List.mem_of_getLast? hlast)
    rw [LockListHead.pushTail_some (h.tail.trans hlast)]
    exact ⟨Function.update_of_ne hyx _ _, (Function.update_of_ne hyl _ _).trans (Function.update_of_ne hyx _ _)⟩

end

/-! ## Who is woken -/

section
variable {W : Type} {mode : W → LockMode}

/-- The first waiter alone if it waits for Exclusive, and otherwise all that wait for Share. -/
def wokenOf (mode : W → LockMode) : List W → List W
  | [] => []
  | v :: vs => if mode v = .Exclusive then [v] else (v :: vs).filter fun u => mode u = .Share

def remainingOf [DecidableEq W] (mode : W → LockMode) (queue : List W) : List W :=
  queue.filter fun v => v ∉ wokenOf mode queue

theorem pickWaiters_true (vs : List W) :
    pickWaiters mode true vs = (vs.filter fun u => mode u = .Share, vs.filter fun u => mode u = .Exclusive) := by
  induction vs with
  | nil => rfl
  | cons v vs ih =>
    cases hv : mode v with
    | Share => simp [pickWaiters, hv, ih]
    | Exclusive => simp [pickWaiters, hv, ih]

theorem wokenOf_exclusive {v : W} (h : mode v = .Exclusive) (vs : List W) : wokenOf mode (v :: vs) = [v] := if_pos h

theorem wokenOf_share {v : W} (h : mode v = .Share) (vs : List W) :
    wokenOf mode (v :: vs) = (v :: vs).filter fun u => mode u = .Share := if_neg (by rw [h]; nofun)

theorem pickWaiters_eq [DecidableEq W] {queue : List W} (hnodup : queue.Nodup) :
    pickWaiters mode false queue = (wokenOf mode queue, remainingOf mode queue) := by
  cases queue with
  | nil => rfl
  | cons v vs =>
    obtain ⟨hv, -⟩ := List.nodup_cons.1 hnodup
    unfold remainingOf
    cases hmode : mode v with
    | Exclusive =>
      have hrest : (v :: vs).filter (fun u => u ∉ [v]) = vs := by
        rw [List.filter_cons_of_neg (by simp)]
        refine List.filter_eq_self.2 fun u hu => ?_
        have hne : u ≠ v := fun e => hv (e ▸ hu)
        simp [hne]
      rw [wokenOf_exclusive hmode, hrest]
      simp [pickWaiters, hmode]
    | Share =>
      have hiff :
          ∀ u ∈ v :: vs, decide (u ∉ (v :: vs).filter fun u => mode u = .Share) = decide (mode u = .Exclusive) := by
        intro u hu
        rw [decide_eq_decide, List.mem_filter]
        cases mode u <;> simp [hu]
      rw [wokenOf_share hmode, List.filter_congr hiff]
      simp [pickWaiters, hmode, pickWaiters_true]

/-- What the loop over the queue has done, and what it will do with `todo`. -/
def Splits (mode : W → LockMode) (queue picked kept : List W) (wokeupSomebody : Bool) (todo : List W) : Prop :=
  pickWaiters mode false queue = (picked ++ (pickWaiters mode wokeupSomebody todo).1,
  kept ++ (pickWaiters mode wokeupSomebody todo).2)

variable {queue picked kept todo : List W} {wokeupSomebody : Bool} {v : W}

theorem Splits.skip (h : Splits mode queue picked kept wokeupSomebody (v :: todo))
    (hv : wokeupSomebody = true ∧ mode v = .Exclusive) :
    Splits mode queue picked (kept ++ [v]) wokeupSomebody todo := by
  unfold Splits at h ⊢
  rw [h, pickWaiters, if_pos hv, List.append_assoc]
  rfl

theorem Splits.last (h : Splits mode queue picked kept wokeupSomebody (v :: todo))
    (hv : ¬ (wokeupSomebody = true ∧ mode v = .Exclusive)) (hmode : mode v = .Exclusive) :
    pickWaiters mode false queue = (picked ++ [v], kept ++ todo) := by
  unfold Splits at h
  rw [h, pickWaiters, if_neg hv, if_pos hmode]

theorem Splits.take (h : Splits mode queue picked kept wokeupSomebody (v :: todo))
    (hv : ¬ (wokeupSomebody = true ∧ mode v = .Exclusive)) (hmode : mode v ≠ .Exclusive) :
    Splits mode queue (picked ++ [v]) kept true todo := by
  unfold Splits at h ⊢
  rw [h, pickWaiters, if_neg hv, if_neg hmode, List.append_assoc]
  rfl

theorem Splits.mem (h : Splits mode queue picked kept wokeupSomebody (v :: todo)) : v ∈ queue := by
  have hperm := Latches.pickWaiters_perm mode false queue
  unfold Splits at h
  rw [h] at hperm
  refine hperm.subset ?_
  have hv :
    v ∈ (pickWaiters mode wokeupSomebody (v :: todo)).1 ++ (pickWaiters mode wokeupSomebody (v :: todo)).2 :=
    (Latches.pickWaiters_perm mode wokeupSomebody (v :: todo)).symm.subset List.mem_cons_self
  rcases List.mem_append.1 hv with hv | hv
  · exact List.mem_append_left _ (List.mem_append_right _ hv)
  · exact List.mem_append_right _ (List.mem_append_right _ hv)

end

/-! ## Iterators -/

section
variable {W : Type} {nodes : LockNodes W} {l : LockListHead W} {it : LockListIterator W} {kept todo : List W}

/-- The iterator comes to `todo`; it knows the second worker already. -/
structure LockListIterator.At (it : LockListIterator W) (todo : List W) : Prop where
  current : it.current = todo.head?
  next : it.next = todo.tail.head?

theorem LockListHead.Holds.start_at (h : l.Holds nodes todo) : (l.start nodes).At todo := by
  cases todo with
  | nil => exact ⟨h.head, by rw [LockListHead.start, h.head]; rfl⟩
  | cons v todo =>
    refine ⟨h.head, ?_⟩
    rw [LockListHead.start, h.head]
    have happend : l.Holds nodes ([] ++ v :: todo) := h
    exact happend.next_eq

theorem LockListHead.Holds.advance_at (h : l.Holds nodes (kept ++ todo)) (hnext : it.next = todo.head?) :
    (it.advance nodes).At todo := by
  unfold LockListIterator.advance
  rw [hnext]
  cases todo with
  | nil => exact ⟨rfl, rfl⟩
  | cons v todo => exact ⟨rfl, h.next_eq⟩

end

/-! ## Phases -/

namespace WakeupRun

variable {W : Type}

/-- Before the exchange: `inQueue` and `inWakeup` are the lists, and `marked` are pending. -/
structure Before [DecidableEq W] (s₀ s : WakeupRun W) (inQueue inWakeup marked : List W) : Prop where
  waiters : s.waiters.Holds s.nodes inQueue
  wakeup : s.wakeup.Holds s.nodes inWakeup
  disjoint : inQueue.Disjoint inWakeup
  mode : s.lockMode = s₀.lockMode
  sema : s.sema = s₀.sema
  state : ∀ v, s.lockState v = if v ∈ marked then .PendingWakeup else s₀.lockState v
  flag : hasFlag s.word LWLatchFlag.HasWaiters = hasFlag s₀.word LWLatchFlag.HasWaiters
  sound : s.failed = false

/-- After the exchange: `inWakeup` are left of `woken`, of which `told` do not
wait and `released` have their release. -/
structure After [DecidableEq W] (s₀ s : WakeupRun W) (woken rest inWakeup told released : List W) : Prop where
  waiters : s.waiters.Holds s.nodes rest
  wakeup : s.wakeup.Holds s.nodes inWakeup
  disjoint : rest.Disjoint inWakeup
  state : ∀ v, s.lockState v = if v ∈ told then .NotWaiting else if v ∈ woken then .PendingWakeup
    else s₀.lockState v
  sema : ∀ v, s.sema v = s₀.sema v + if v ∈ released then 1 else 0
  flag : hasFlag s.word LWLatchFlag.HasWaiters = (hasFlag s₀.word LWLatchFlag.HasWaiters && !rest.isEmpty)
  sound : s.failed = false

/-- A queue whose workers wait, before `wakeup`. -/
structure Waiting (s : WakeupRun W) (queue : List W) : Prop where
  pc : s.pc = .lock
  wakeup : s.wakeup = ⟨none, none⟩
  waiters : s.waiters.Holds s.nodes queue
  state : ∀ v ∈ queue, s.lockState v = .Waiting
  flag : queue ≠ [] → hasFlag s.word LWLatchFlag.HasWaiters = true
  sound : s.failed = false

variable [DecidableEq W]

/-- Where a run is, at most `n` operations before its end. -/
inductive Phase (s₀ : WakeupRun W) (queue woken rest : List W) (s : WakeupRun W) : Nat → Prop where
  | lock :
      s.pc = .lock → Before s₀ s queue [] [] → Phase s₀ queue woken rest s (3 * woken.length + 3 * queue.length + 7)
  | select {it wokeupSomebody} (kept picked todo) :
      s.pc = .select it wokeupSomebody → Before s₀ s (kept ++ todo) picked picked →
    it.At todo → Splits s₀.lockMode queue picked kept wokeupSomebody todo →
    Phase s₀ queue woken rest s (3 * woken.length + 3 * todo.length + 6)
  | push {it} (kept picked v todo wokeupSomebody) : s.pc = .push it → Before s₀ s (kept ++ todo) picked picked →
    v ∉ kept ++ todo → v ∉ picked → it.At (v :: todo) →
    Splits s₀.lockMode queue picked kept wokeupSomebody (v :: todo) →
    ¬ (wokeupSomebody = true ∧ s₀.lockMode v = .Exclusive) →
    Phase s₀ queue woken rest s (3 * woken.length + 3 * todo.length + 8)
  | pending {it} (kept picked v todo wokeupSomebody) :
      s.pc = .pending it → Before s₀ s (kept ++ todo) (picked ++ [v]) picked →
    it.At (v :: todo) → Splits s₀.lockMode queue picked kept wokeupSomebody (v :: todo) →
    ¬ (wokeupSomebody = true ∧ s₀.lockMode v = .Exclusive) →
    Phase s₀ queue woken rest s (3 * woken.length + 3 * todo.length + 7)
  | load : s.pc = .load → Before s₀ s rest woken woken → Phase s₀ queue woken rest s (3 * woken.length + 5)
  | exchange {old} : s.pc = .exchange old → Before s₀ s rest woken woken →
    Phase s₀ queue woken rest s (3 * woken.length + if s.word = old then 3 else 4)
  | unlink {it} (sent todo) :
      s.pc = .unlink it → woken = sent ++ todo → it.At todo → After s₀ s woken rest todo sent sent →
    Phase s₀ queue woken rest s (3 * todo.length + 1)
  | notWaiting {it} (sent v todo) : s.pc = .notWaiting it → woken = sent ++ v :: todo → it.At (v :: todo) →
    After s₀ s woken rest todo sent sent → Phase s₀ queue woken rest s (3 * todo.length + 3)
  | release {it} (sent v todo) : s.pc = .release it → woken = sent ++ v :: todo → it.At (v :: todo) →
    After s₀ s woken rest todo (sent ++ [v]) sent → Phase s₀ queue woken rest s (3 * todo.length + 2)
  | done : s.pc = .done → After s₀ s woken rest [] woken woken → Phase s₀ queue woken rest s 0

section
variable {s₀ s t : WakeupRun W} {queue woken rest : List W} {n : Nat}

theorem Before.goto {q w m : List W} (h : Before s₀ s q w m) (pc : WakeupPc W) :
    Before s₀ { s with pc := pc } q w m :=
  ⟨h.waiters, h.wakeup, h.disjoint, h.mode, h.sema, h.state, h.flag, h.sound⟩

theorem Before.setWord {q w m : List W} (h : Before s₀ s q w m) {word : BitVec 32}
    (hf : hasFlag word LWLatchFlag.HasWaiters = hasFlag s.word LWLatchFlag.HasWaiters) :
    Before s₀ { s with word := word } q w m :=
  ⟨h.waiters, h.wakeup, h.disjoint, h.mode, h.sema, h.state, hf.trans h.flag, h.sound⟩

theorem After.goto {w r i told released : List W} (h : After s₀ s w r i told released) (pc : WakeupPc W) :
    After s₀ { s with pc := pc } w r i told released :=
  ⟨h.waiters, h.wakeup, h.disjoint, h.state, h.sema, h.flag, h.sound⟩

theorem After.setWord {w r i told released : List W} (h : After s₀ s w r i told released) {word : BitVec 32}
    (hf : hasFlag word LWLatchFlag.HasWaiters = hasFlag s.word LWLatchFlag.HasWaiters) :
    After s₀ { s with word := word } w r i told released :=
  ⟨h.waiters, h.wakeup, h.disjoint, h.state, h.sema, hf.trans h.flag, h.sound⟩

/-- Other workers change nothing that matters. -/
theorem Phase.others (h : Phase s₀ queue woken rest s n) {word : BitVec 32}
    (hf : hasFlag word LWLatchFlag.HasWaiters = hasFlag s.word LWLatchFlag.HasWaiters) :
    ∃ m, Phase s₀ queue woken rest { s with word := word } m := by
  cases h with
  | lock hpc hb => exact ⟨_, .lock hpc (hb.setWord hf)⟩
  | select kept picked todo hpc hb hat hs => exact ⟨_, .select kept picked todo hpc (hb.setWord hf) hat hs⟩
  | push kept picked v todo b hpc hb h1 h2 hat hs hv =>
    exact ⟨_, .push kept picked v todo b hpc (hb.setWord hf) h1 h2 hat hs hv⟩
  | pending kept picked v todo b hpc hb hat hs hv =>
    exact ⟨_, .pending kept picked v todo b hpc (hb.setWord hf) hat hs hv⟩
  | load hpc hb => exact ⟨_, .load hpc (hb.setWord hf)⟩
  | exchange hpc hb => exact ⟨_, .exchange hpc (hb.setWord hf)⟩
  | unlink sent todo hpc hw hat ha => exact ⟨_, .unlink sent todo hpc hw hat (ha.setWord hf)⟩
  | notWaiting sent v todo hpc hw hat ha => exact ⟨_, .notWaiting sent v todo hpc hw hat (ha.setWord hf)⟩
  | release sent v todo hpc hw hat ha => exact ⟨_, .release sent v todo hpc hw hat (ha.setWord hf)⟩
  | done hpc ha => exact ⟨_, .done hpc (ha.setWord hf)⟩

/-! ### The loop over the queue -/

theorem Before.deleted {kept todo picked : List W} {v : W} (h : Before s₀ s (kept ++ v :: todo) picked picked)
    (pc : WakeupPc W) :
    Before s₀ { s with
      waiters := (s.waiters.delete s.nodes v).1, nodes := (s.waiters.delete s.nodes v).2
      failed := s.failed || !s.waiters.deletes s.nodes v, pc := pc } (kept ++ todo) picked picked := by
  have hsub : ∀ u ∈ kept ++ todo, u ∈ kept ++ v :: todo := fun u hu => by
    rcases List.mem_append.1 hu with hu | hu
    · exact List.mem_append_left _ hu
    · exact List.mem_append_right _ (List.mem_cons_of_mem _ hu)
  have hother : ∀ u ∈ picked, u ∉ kept ++ v :: todo := fun u hu hq => h.disjoint hq hu
  refine ⟨h.waiters.delete, ?_, fun u hu => h.disjoint (hsub u hu), h.mode, h.sema, h.state, h.flag, ?_⟩
  · exact h.wakeup.congr (fun u hu => (h.waiters.delete_other (hother u hu)).1) fun u hu =>
      (h.waiters.delete_other (hother u hu)).2
  · show (s.failed || !s.waiters.deletes s.nodes v) = false
    rw [h.sound, h.waiters.deletes]
    rfl

theorem Before.pushed {q picked : List W} {v : W} (h : Before s₀ s q picked picked) (hq : v ∉ q) (hp : v ∉ picked)
    (pc : WakeupPc W) : Before s₀ { s with
      wakeup := (s.wakeup.pushTail s.nodes v).1, nodes := (s.wakeup.pushTail s.nodes v).2,
      pc := pc } q (picked ++ [v]) picked := by
  have hother : ∀ u ∈ q, u ≠ v ∧ u ∉ picked := fun u hu => ⟨fun e => hq (e ▸ hu), h.disjoint hu⟩
  refine ⟨?_, h.wakeup.pushTail hp, fun u hu hm => ?_, h.mode, h.sema, h.state, h.flag, h.sound⟩
  · exact h.waiters.congr (fun u hu => (h.wakeup.pushTail_other (hother u hu).1 (hother u hu).2).1)
      fun u hu => (h.wakeup.pushTail_other (hother u hu).1 (hother u hu).2).2
  · rcases List.mem_append.1 hm with hm | hm
    · exact (hother u hu).2 hm
    · exact (hother u hu).1 (List.mem_singleton.1 hm)

theorem Before.marked {q picked : List W} {v : W} (h : Before s₀ s q (picked ++ [v]) picked)
    (hw : s₀.lockState v = .Waiting) (pc : WakeupPc W) : Before s₀ { s with
      lockState := Function.update s.lockState v .PendingWakeup
      failed := s.failed || s.lockState v != .Waiting, pc := pc } q (picked ++ [v]) (picked ++ [v]) := by
  have hv : v ∉ picked := fun hm => (List.nodup_append.1 h.wakeup.nodup).2.2 v hm v (List.mem_singleton_self v) rfl
  have hstate := h.state v
  rw [if_neg hv, hw] at hstate
  refine ⟨h.waiters, h.wakeup, h.disjoint, h.mode, h.sema, fun u => ?_, h.flag, ?_⟩
  · show Function.update s.lockState v .PendingWakeup u = _
    by_cases hu : u = v
    · subst hu
      rw [Function.update_self, if_pos (List.mem_append_right _ (List.mem_singleton_self u))]
    · rw [Function.update_of_ne hu, h.state u]
      simp [hu]
  · show (s.failed || s.lockState v != .Waiting) = false
    rw [h.sound, hstate]
    rfl

/-! ### The exchange and the loop over those to wake -/

omit [DecidableEq W] in
theorem hasWaiters_wakeWord (empty : Bool) (old : BitVec 32) :
    hasFlag (Latches.wakeWord empty old) LWLatchFlag.HasWaiters =
    (hasFlag old LWLatchFlag.HasWaiters && !empty) := by
  unfold Latches.wakeWord
  cases empty with
  | false =>
    rw [hasFlag_andNot_ne (by decide), if_neg (by decide), hasFlag_andNot_ne (by decide)]
    simp
  | true =>
    rw [hasFlag_andNot_ne (by decide), if_pos rfl, hasFlag_andNot_self]
    simp

theorem Before.exchanged (h : Before s₀ s rest woken woken) (pc : WakeupPc W) :
    After s₀ { s with word := Latches.wakeWord s.waiters.isEmpty s.word, pc := pc } woken rest woken [] [] := by
  refine ⟨h.waiters, h.wakeup, h.disjoint, fun v => ?_, fun v => ?_, ?_, h.sound⟩
  · rw [if_neg List.not_mem_nil]
    exact h.state v
  · rw [if_neg List.not_mem_nil]
    exact congrFun h.sema v
  · show hasFlag (Latches.wakeWord s.waiters.isEmpty s.word) LWLatchFlag.HasWaiters = _
    rw [hasWaiters_wakeWord, h.flag, h.waiters.isEmpty_eq]

theorem After.deleted {todo told : List W} {v : W} (h : After s₀ s woken rest (v :: todo) told told)
    (pc : WakeupPc W) :
    After s₀ { s with
      wakeup := (s.wakeup.delete s.nodes v).1, nodes := (s.wakeup.delete s.nodes v).2
      failed := s.failed || !s.wakeup.deletes s.nodes v, pc := pc } woken rest todo told told := by
  have hwakeup : s.wakeup.Holds s.nodes ([] ++ v :: todo) := h.wakeup
  have hother : ∀ u ∈ rest, u ∉ [] ++ v :: todo := fun u hu hm => h.disjoint hu hm
  refine ⟨?_, hwakeup.delete, fun u hu hm => h.disjoint hu (List.mem_cons_of_mem _ hm), h.state, h.sema, h.flag, ?_⟩
  · exact h.waiters.congr (fun u hu => (hwakeup.delete_other (hother u hu)).1) fun u hu =>
      (hwakeup.delete_other (hother u hu)).2
  · show (s.failed || !s.wakeup.deletes s.nodes v) = false
    rw [h.sound, hwakeup.deletes]
    rfl

theorem After.told {todo sent released : List W} {v : W} (h : After s₀ s woken rest todo sent released)
    (pc : WakeupPc W) :
    After s₀ { s with lockState := Function.update s.lockState v .NotWaiting, pc := pc } woken rest todo
      (sent ++ [v]) released := by
  refine ⟨h.waiters, h.wakeup, h.disjoint, fun u => ?_, h.sema, h.flag, h.sound⟩
  show Function.update s.lockState v .NotWaiting u = _
  by_cases hu : u = v
  · subst hu
    rw [Function.update_self, if_pos (List.mem_append_right _ (List.mem_singleton_self u))]
  · rw [Function.update_of_ne hu, h.state u]
    simp [hu]

theorem After.released {todo told sent : List W} {v : W} (h : After s₀ s woken rest todo told sent) (hv : v ∉ sent)
    (pc : WakeupPc W) :
    After s₀ { s with sema := Function.update s.sema v (s.sema v + 1), pc := pc } woken rest todo told
      (sent ++ [v]) := by
  refine ⟨h.waiters, h.wakeup, h.disjoint, h.state, fun u => ?_, h.flag, h.sound⟩
  show Function.update s.sema v (s.sema v + 1) u = _
  by_cases hu : u = v
  · subst hu
    rw [Function.update_self, if_pos (List.mem_append_right _ (List.mem_singleton_self u)), h.sema u, if_neg hv]
  · rw [Function.update_of_ne hu, h.sema u]
    simp [hu]

/-! ### Every operation -/

/-- An operation keeps the phases, and it comes closer to the end unless it waits for the lock of the list. -/
theorem Phase.run (h₀ : Waiting s₀ queue) (hpicks : pickWaiters s₀.lockMode false queue = (woken, rest))
    (h : Phase s₀ queue woken rest s n) (hs : s.step .run = some t) :
    ∃ m, Phase s₀ queue woken rest t m ∧
    (m < n ∧ t.pc ≠ .lock ∨ s.pc = .lock ∧ hasFlag s.word LWLatchFlag.ListLocked = true) := by
  have hrun : s.runPc s.pc = some t := hs
  have hwoken : woken.Nodup := by
    have hperm := Latches.pickWaiters_perm s₀.lockMode false queue
    rw [hpicks] at hperm
    exact (List.nodup_append.1 (hperm.nodup_iff.2 h₀.waiters.nodup)).1
  cases h with
  | lock hpc hb =>
    rw [hpc, runPc] at hrun
    by_cases hlocked : hasFlag s.word LWLatchFlag.ListLocked = true
    · rw [if_pos hlocked] at hrun
      cases hrun
      exact ⟨_, .lock hpc hb, .inr ⟨hpc, hlocked⟩⟩
    · rw [if_neg hlocked] at hrun
      cases hrun
      exact ⟨_, .select [] [] queue rfl ((hb.setWord (hasFlag_or_ne (by decide) _)).goto _) hb.waiters.start_at rfl,
        .inl ⟨by omega, by simp⟩⟩
  | @select it wokeupSomebody kept picked todo hpc hb hat hsplit =>
    rw [hpc, runPc] at hrun
    cases todo with
    | nil =>
      rw [hat.current] at hrun
      cases hrun
      obtain ⟨hw, hr⟩ := Prod.mk.inj (hpicks.symm.trans hsplit)
      rw [pickWaiters, List.append_nil] at hw hr
      subst hw hr
      rw [List.append_nil] at hb
      exact ⟨_, .load rfl (hb.goto _), .inl ⟨by rw [List.length_nil]; omega, by simp⟩⟩
    | cons v todo =>
      rw [hat.current] at hrun
      simp only [List.head?_cons] at hrun
      rw [congrFun hb.mode v] at hrun
      have hassoc : kept ++ v :: todo = kept ++ [v] ++ todo := by simp
      by_cases hv : wokeupSomebody = true ∧ s₀.lockMode v = .Exclusive
      · rw [if_pos hv] at hrun
        cases hrun
        rw [hassoc] at hb
        exact ⟨_, .select (kept ++ [v]) picked todo rfl (hb.goto _) (hb.waiters.advance_at hat.next)
          (hsplit.skip hv), .inl ⟨by rw [List.length_cons]; omega, by simp⟩⟩
      · rw [if_neg hv] at hrun
        cases hrun
        have hkept : v ∉ kept ++ todo := (List.nodup_middle.1 hb.waiters.nodup |> List.nodup_cons.1).1
        have hpicked : v ∉ picked := hb.disjoint (List.mem_append_right _ List.mem_cons_self)
        exact ⟨_, .push kept picked v todo wokeupSomebody rfl (hb.deleted _) hkept hpicked hat hsplit hv,
          .inl ⟨by rw [List.length_cons]; omega, by simp⟩⟩
  | @push it kept picked v todo wokeupSomebody hpc hb hkept hpicked hat hsplit hv =>
    rw [hpc, runPc, hat.current] at hrun
    cases hrun
    exact ⟨_, .pending kept picked v todo wokeupSomebody rfl (hb.pushed hkept hpicked _) hat hsplit hv,
      .inl ⟨by omega, by simp⟩⟩
  | @pending it kept picked v todo wokeupSomebody hpc hb hat hsplit hv =>
    rw [hpc, runPc, hat.current] at hrun
    simp only [List.head?_cons, Option.map_some] at hrun
    rw [congrFun hb.mode v] at hrun
    have hwaits := h₀.state v hsplit.mem
    by_cases hmode : s₀.lockMode v = .Exclusive
    · rw [if_pos hmode] at hrun
      cases hrun
      obtain ⟨rfl, rfl⟩ := Prod.mk.inj (hpicks.symm.trans (hsplit.last hv hmode))
      exact ⟨_, .load rfl (hb.marked hwaits _), .inl ⟨by omega, by simp⟩⟩
    · rw [if_neg hmode] at hrun
      cases hrun
      exact ⟨_, .select kept (picked ++ [v]) todo rfl (hb.marked hwaits _) (hb.waiters.advance_at hat.next)
        (hsplit.take hv hmode), .inl ⟨by omega, by simp⟩⟩
  | load hpc hb =>
    rw [hpc, runPc] at hrun
    cases hrun
    have hflag : (s.wakeup.isEmpty || hasFlag s.word LWLatchFlag.HasWaiters) = true := by
      rw [hb.wakeup.isEmpty_eq, hb.flag]
      cases hqueue : queue with
      | nil =>
        rw [hqueue] at hpicks
        obtain ⟨rfl, -⟩ := Prod.mk.inj hpicks
        rfl
      | cons v vs => rw [h₀.flag (by rw [hqueue]; exact List.cons_ne_nil _ _), Bool.or_true]
    have hsound : (s.failed || !(s.wakeup.isEmpty || hasFlag s.word LWLatchFlag.HasWaiters)) = false := by
      rw [hb.sound, hflag]
      rfl
    refine ⟨_, .exchange rfl ⟨hb.waiters, hb.wakeup, hb.disjoint, hb.mode, hb.sema, hb.state, hb.flag, hsound⟩,
      .inl ⟨?_, by simp⟩⟩
    rw [if_pos rfl]
    omega
  | @exchange old hpc hb =>
    rw [hpc, runPc] at hrun
    by_cases hold : s.word = old
    · rw [if_pos hold] at hrun
      cases hrun
      rw [if_pos hold, ← hold]
      exact ⟨_, .unlink [] woken rfl rfl hb.wakeup.start_at (hb.exchanged _), .inl ⟨by omega, by simp⟩⟩
    · rw [if_neg hold] at hrun
      cases hrun
      refine ⟨_, .exchange rfl (hb.goto _), .inl ⟨?_, by simp⟩⟩
      rw [if_neg hold, if_pos rfl]
      omega
  | @unlink it sent todo hpc hw hat ha =>
    rw [hpc, runPc] at hrun
    cases todo with
    | nil =>
      rw [hat.current] at hrun
      cases hrun
      rw [List.append_nil] at hw
      subst hw
      exact ⟨_, .done rfl (ha.goto _), .inl ⟨by omega, by simp⟩⟩
    | cons v todo =>
      rw [hat.current] at hrun
      cases hrun
      exact ⟨_, .notWaiting sent v todo rfl hw hat (ha.deleted _), .inl ⟨by rw [List.length_cons]; omega, by simp⟩⟩
  | @notWaiting it sent v todo hpc hw hat ha =>
    rw [hpc, runPc, hat.current] at hrun
    cases hrun
    exact ⟨_, .release sent v todo rfl hw hat (ha.told _), .inl ⟨by omega, by simp⟩⟩
  | @release it sent v todo hpc hw hat ha =>
    rw [hpc, runPc, hat.current] at hrun
    cases hrun
    rw [hw] at hwoken
    have hv : v ∉ sent := fun hm => (List.nodup_append.1 hwoken).2.2 v hm v List.mem_cons_self rfl
    have hlist : s.wakeup.Holds s.nodes ([] ++ todo) := ha.wakeup
    exact ⟨_, .unlink (sent ++ [v]) todo rfl (by rw [hw]; simp) (hlist.advance_at hat.next) (ha.released hv _),
      .inl ⟨by omega, by simp⟩⟩
  | done hpc ha =>
    rw [hpc, runPc] at hrun
    cases hrun

end

/-! ## Runs -/

/-- The queue and the list of those to wake are well formed and have no node in common. -/
def WellFormed (s : WakeupRun W) : Prop :=
  ∃ queue wakeup, s.waiters.Holds s.nodes queue ∧ s.wakeup.Holds s.nodes wakeup ∧ queue.Disjoint wakeup

/-- What `wakeup` leaves behind. -/
structure Delivered (s₀ : WakeupRun W) (queue : List W) (s : WakeupRun W) : Prop where
  waiters : s.waiters.Holds s.nodes (remainingOf s₀.lockMode queue)
  wakeup : s.wakeup.Holds s.nodes []
  woken : ∀ v ∈ wokenOf s₀.lockMode queue, s.lockState v = .NotWaiting ∧ s.sema v = s₀.sema v + 1
  others : ∀ v ∉ wokenOf s₀.lockMode queue, s.lockState v = s₀.lockState v ∧ s.sema v = s₀.sema v
  flag : hasFlag s.word LWLatchFlag.HasWaiters =
    (hasFlag s₀.word LWLatchFlag.HasWaiters && !(remainingOf s₀.lockMode queue).isEmpty)

section
variable {s₀ s t : WakeupRun W} {queue woken rest : List W} {n : Nat}

theorem Waiting.phase (h : Waiting s₀ queue) : ∃ n, Phase s₀ queue woken rest s₀ n := by
  have hwakeup : s₀.wakeup.Holds s₀.nodes [] := h.wakeup ▸ Linked.empty
  exact ⟨_, .lock h.pc ⟨h.waiters, hwakeup, List.disjoint_nil_right _, rfl, rfl,
    fun v => (if_neg List.not_mem_nil).symm, rfl, h.sound⟩⟩

theorem Phase.step (h₀ : Waiting s₀ queue) (hpicks : pickWaiters s₀.lockMode false queue = (woken, rest))
    (h : ∃ n, Phase s₀ queue woken rest s n) {op : WakeupOp} (hs : s.step op = some t) :
    ∃ n, Phase s₀ queue woken rest t n := by
  obtain ⟨n, h⟩ := h
  cases op with
  | run =>
    obtain ⟨m, hm, -⟩ := h.run h₀ hpicks hs
    exact ⟨m, hm⟩
  | others word =>
    unfold WakeupRun.step at hs
    simp only at hs
    split_ifs at hs with hf
    cases hs
    exact h.others hf.1

theorem Phase.wellFormed (h : Phase s₀ queue woken rest s n) : s.WellFormed ∧ s.failed = false := by
  cases h with
  | lock _ hb => exact ⟨⟨_, _, hb.waiters, hb.wakeup, hb.disjoint⟩, hb.sound⟩
  | select _ _ _ _ hb => exact ⟨⟨_, _, hb.waiters, hb.wakeup, hb.disjoint⟩, hb.sound⟩
  | push _ _ _ _ _ _ hb => exact ⟨⟨_, _, hb.waiters, hb.wakeup, hb.disjoint⟩, hb.sound⟩
  | pending _ _ _ _ _ _ hb => exact ⟨⟨_, _, hb.waiters, hb.wakeup, hb.disjoint⟩, hb.sound⟩
  | load _ hb => exact ⟨⟨_, _, hb.waiters, hb.wakeup, hb.disjoint⟩, hb.sound⟩
  | exchange _ hb => exact ⟨⟨_, _, hb.waiters, hb.wakeup, hb.disjoint⟩, hb.sound⟩
  | unlink _ _ _ _ _ ha => exact ⟨⟨_, _, ha.waiters, ha.wakeup, ha.disjoint⟩, ha.sound⟩
  | notWaiting _ _ _ _ _ _ ha => exact ⟨⟨_, _, ha.waiters, ha.wakeup, ha.disjoint⟩, ha.sound⟩
  | release _ _ _ _ _ _ ha => exact ⟨⟨_, _, ha.waiters, ha.wakeup, ha.disjoint⟩, ha.sound⟩
  | done _ ha => exact ⟨⟨_, _, ha.waiters, ha.wakeup, ha.disjoint⟩, ha.sound⟩

theorem Phase.delivered (h : Phase s₀ queue (wokenOf s₀.lockMode queue) (remainingOf s₀.lockMode queue) s n)
    (hpc : s.pc = .done) :
    Delivered s₀ queue s := by
  cases h with
  | done _ ha =>
    refine ⟨ha.waiters, ha.wakeup, fun v hv => ?_, fun v hv => ?_, ha.flag⟩
    · rw [ha.state, ha.sema, if_pos hv, if_pos hv]
      exact ⟨rfl, rfl⟩
    · rw [ha.state, ha.sema, if_neg hv, if_neg hv, if_neg hv]
      exact ⟨rfl, rfl⟩
  | lock h' => cases hpc.symm.trans h'
  | select _ _ _ h' => cases hpc.symm.trans h'
  | push _ _ _ _ _ h' => cases hpc.symm.trans h'
  | pending _ _ _ _ _ h' => cases hpc.symm.trans h'
  | load h' => cases hpc.symm.trans h'
  | exchange h' => cases hpc.symm.trans h'
  | unlink _ _ h' => cases hpc.symm.trans h'
  | notWaiting _ _ _ h' => cases hpc.symm.trans h'
  | release _ _ _ h' => cases hpc.symm.trans h'

/-- Only at its end `wakeup` has no operation. -/
theorem Phase.enabled (h : Phase s₀ queue woken rest s n) (hpc : s.pc ≠ .done) : ∃ t, s.step .run = some t := by
  suffices h : (s.runPc s.pc).isSome from Option.isSome_iff_exists.1 h
  cases h with
  | lock h' =>
    rw [h', runPc]
    split_ifs <;> rfl
  | @select it wokeupSomebody _ _ _ h' =>
    rw [h', runPc]
    cases it.current with
    | none => rfl
    | some v =>
      simp only
      split_ifs <;> rfl
  | push _ _ _ _ _ h' _ _ _ hat =>
    rw [h', runPc, hat.current]
    rfl
  | pending _ _ _ _ _ h' _ hat =>
    rw [h', runPc, hat.current]
    rfl
  | load h' =>
    rw [h', runPc]
    rfl
  | exchange h' =>
    rw [h', runPc]
    split_ifs <;> rfl
  | @unlink it _ _ h' =>
    rw [h', runPc]
    cases it.current <;> rfl
  | notWaiting _ _ _ h' _ hat =>
    rw [h', runPc, hat.current]
    rfl
  | release _ _ _ h' _ hat =>
    rw [h', runPc, hat.current]
    rfl
  | done h' => exact absurd h' hpc

/-- Alone `wakeup` comes to its end once the list is not locked. -/
theorem Phase.ends (h₀ : Waiting s₀ queue) (hpicks : pickWaiters s₀.lockMode false queue = (woken, rest))
    (h : Phase s₀ queue woken rest s n) (hlock : s.pc = .lock → hasFlag s.word LWLatchFlag.ListLocked = false) :
    ∃ t, Reach WakeupRun.step (fun _ op => op = .run) s t ∧ t.pc = .done := by
  induction n using Nat.strong_induction_on generalizing s with
  | _ n ih =>
    by_cases hpc : s.pc = .done
    · exact ⟨s, .refl, hpc⟩
    · obtain ⟨t, ht⟩ := h.enabled hpc
      obtain ⟨m, hm, ⟨hlt, hne⟩ | ⟨hl, hlocked⟩⟩ := h.run h₀ hpicks ht
      · obtain ⟨u, hu, hdone⟩ := ih m hlt hm fun e => absurd e hne
        have hfirst : Reach WakeupRun.step (fun _ op => op = WakeupOp.run) s t :=
          Reach.refl.tail WakeupOp.run rfl ht
        exact ⟨u, hfirst.trans hu, hdone⟩
      · rw [hlock hl] at hlocked
        cases hlocked

/-- From a queue of waiting workers, whatever others do to the word: the lists stay well formed and no assertion
fails, at its end `wakeup` has woken those it should, and it comes to its end. -/
theorem wakeup_wakes (h : Waiting s₀ queue) :
    (∀ s, Reach step anyStep s₀ s → s.WellFormed ∧ s.failed = false ∧ (s.pc = .done → Delivered s₀ queue s)) ∧
    ∀ s, Reach step anyStep s₀ s → (s.pc = .lock → hasFlag s.word LWLatchFlag.ListLocked = false) →
      ∃ t, Reach step (fun _ op => op = .run) s t ∧ t.pc = .done := by
  have hpicks : pickWaiters s₀.lockMode false queue = (wokenOf s₀.lockMode queue, remainingOf s₀.lockMode queue) :=
    pickWaiters_eq h.waiters.nodup
  have hphase : ∀ s, Reach step anyStep s₀ s →
      ∃ n, Phase s₀ queue (wokenOf s₀.lockMode queue) (remainingOf s₀.lockMode queue) s n :=
    fun s hr => hr.inv (fun _ _ _ hi _ hs => Phase.step h hpicks hi hs) h.phase
  refine ⟨fun s hr => ?_, fun s hr hlock => ?_⟩
  · obtain ⟨n, hn⟩ := hphase s hr
    exact ⟨hn.wellFormed.1, hn.wellFormed.2, hn.delivered⟩
  · obtain ⟨n, hn⟩ := hphase s hr
    exact hn.ends h hpicks hlock

end

/-- Three workers, of which the second waits for Exclusive. -/
def threeWaiters : WakeupRun (Fin 3) where
  nodes := ⟨![some 1, some 2, none], ![none, some 0, some 1]⟩
  waiters := ⟨some 0, some 2⟩
  wakeup := ⟨none, none⟩
  word := LWLatchFlag.HasWaiters ||| LWLatchFlag.UnlockWaiter
  lockState _ := .Waiting
  lockMode := ![.Share, .Exclusive, .Share]
  sema _ := 0
  pc := .lock
  failed := false

/-- The first and the third are woken. -/
theorem wakeup_wakes_three :
    wokenOf threeWaiters.lockMode [0, 1, 2] = [0, 2] ∧ ∃ t, Reach step anyStep threeWaiters t ∧
    t.pc = .done ∧ Delivered threeWaiters [0, 1, 2] t := by
  have hlinked : threeWaiters.waiters.Holds threeWaiters.nodes [0, 1, 2] :=
    ⟨by decide, rfl, rfl, rfl, rfl, rfl, rfl, rfl, rfl, trivial⟩
  obtain ⟨hall, hends⟩ := wakeup_wakes ⟨rfl, rfl, hlinked, fun _ _ => rfl, fun _ => by decide, rfl⟩
  obtain ⟨t, ht, hdone⟩ := hends _ .refl fun _ => by decide
  exact ⟨by decide, t, ht.any, hdone, (hall t ht.any).2.2 hdone⟩

end WakeupRun

end Mimidb
