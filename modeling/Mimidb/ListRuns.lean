import Mimidb.ListNodes
import Mimidb.Run

/-!
# Lists of entries

Any sequence of the operations of `CacheEntryList` on the lists of a pool, beside
the members as a list operation would have them. Only `PopTail` is not what it is
for: it takes the entry that it removes from the size twice.
-/

namespace Mimidb

open BufferManager

inductive ListOp where
  | insertMRU (l : ListId) (e : Nat)
  | removeEntry (l : ListId) (e : Nat)
  | moveMRU (l : ListId) (e : Nat)
  | popTail (l : ListId)
  -- workers pin and unpin the entry
  | setRefCount (e n : Nat)
  deriving DecidableEq, Repr

structure ListRun (β : Type) where
  pool : BufferManager β
  /-- The members of the lists, the one inserted or moved last first. -/
  nodes : ListId → List Nat
  /-- An operation threw, crashed or returned something else. -/
  failed : Bool

namespace ListRun

variable {β : Type}

/-- The entry in no list. -/
def Loose (s : ListRun β) (e : Nat) : Prop := ∀ l, e ∉ s.nodes l

instance (s : ListRun β) (e : Nat) : Decidable (s.Loose e) :=
  decidable_of_iff (∀ l ∈ [ListId.T1, .T2, .B1, .B2, .FreeList], e ∉ s.nodes l)
    ⟨fun h l => h l (by cases l <;> simp), fun h l _ => h l⟩

/-- The entry that `PopTail` is to take: the last one that nobody pins. -/
def victim (s : ListRun β) (l : ListId) : Option Nat := (s.nodes l).reverse.find? fun e => !(s.pool.state e).pinned

def ran {α : Type} [DecidableEq α] (s : ListRun β) (l : ListId) (xs : List Nat) (a : α)
    (r : Except Fault α × BufferManager β) : ListRun β where
  pool := r.2
  nodes := Function.update s.nodes l xs
  failed := match r.1 with
    | .ok b => s.failed || b ≠ a
    | .error _ => true

/-- `InsertMRU` is called for an entry in no list, `RemoveEntry` and `MoveMRU` for a member. -/
def step (dbg : Bool) (s : ListRun β) : ListOp → Option (ListRun β)
  | .insertMRU l e =>
    if e < s.pool.npages * 2 ∧ s.Loose e then some (s.ran l (e :: s.nodes l) () (insertMRU dbg l e s.pool))
      else none
  | .removeEntry l e =>
    if e ∈ s.nodes l then some (s.ran l ((s.nodes l).erase e) () (removeEntry dbg l e s.pool)) else none
  | .moveMRU l e =>
    if e ∈ s.nodes l then some (s.ran l (e :: (s.nodes l).erase e) () (moveMRU dbg l e s.pool)) else none
  | .popTail l =>
    let xs := match s.victim l with
      | none => s.nodes l
      | some e => (s.nodes l).erase e
    some (s.ran l xs (s.victim l) (popTail dbg l s.pool))
  | .setRefCount e n => some { s with pool := s.pool.withState e { s.pool.state e with refCount := n } }

/-- `PopTail` is called for a list without an entry that it could take. -/
def PopsNothing (s : ListRun β) (op : ListOp) : Prop := ∀ l, op = .popTail l → s.victim l = none

instance (s : ListRun β) : ∀ op, Decidable (PopsNothing s op)
  | .popTail l => decidable_of_iff (s.victim l = none) ⟨fun h _ e => by cases e; exact h, fun h => h l rfl⟩
  | .insertMRU .. | .removeEntry .. | .moveMRU .. | .setRefCount .. => isTrue fun _ h => nomatch h

/-- The lists are what their members say. -/
structure Represents (s : ListRun β) : Prop where
  chain : ∀ l, s.pool.Chain l (s.nodes l)
  size : ∀ l, (s.pool.lists l).size = (s.nodes l).length
  forward : ∀ l, follow s.pool.next s.pool.walkBound (s.pool.lists l).head = s.nodes l
  backward : ∀ l, follow s.pool.prev s.pool.walkBound (s.pool.lists l).tail = (s.nodes l).reverse
  one : ∀ l l' e, e ∈ s.nodes l → e ∈ s.nodes l' → l = l'
  loose : ∀ e, s.Loose e → s.pool.prev e = none ∧ s.pool.next e = none
  passed : s.failed = false

/-- The lists of a pool before the first operation. -/
structure Unlinked (s : BufferManager β) : Prop where
  lists : ∀ l, s.lists l = ⟨none, none, 0⟩
  links : ∀ e, s.prev e = none ∧ s.next e = none
  unlocked : ∀ e, (s.state e).locked = false
  small : s.npages * 2 < counter

structure Tidy (s : ListRun β) : Prop where
  listed : s.pool.Listed s.nodes
  unlocked : ∀ e, (s.pool.state e).locked = false
  passed : s.failed = false

section
variable {dbg : Bool} {s t : ListRun β} {l : ListId} {e : Nat}

theorem Unlinked.tidy {p : BufferManager β} (h : Unlinked p) : Tidy ⟨p, fun _ => [], false⟩ := by
  refine ⟨⟨fun l => ?_, fun l => ?_, (fun _ _ _ he => nomatch he), fun e _ => isRouge_iff.2 (h.links e),
    (fun _ _ he => nomatch he), h.small⟩, h.unlocked, rfl⟩
  · unfold Chain
    rw [h.lists]
    exact .empty
  · rw [h.lists]
    rfl

theorem Tidy.represents (h : Tidy s) : Represents s where
  chain := h.listed.chain
  size := h.listed.size
  forward l := by
    rw [(h.listed.chain l).head]
    exact (h.listed.chain l).links.follow_next
      (Nat.le_succ_of_le (by rw [Nat.mul_comm]; exact h.listed.length_le l))
  backward l := by
    rw [(h.listed.chain l).tail]
    exact (h.listed.chain l).links.follow_prev
      (Nat.le_succ_of_le (by rw [Nat.mul_comm]; exact h.listed.length_le l))
  one := h.listed.one
  loose e he := isRouge_iff.1 (h.listed.loose e he)
  passed := h.passed

/-! ## Operations -/

theorem popFrom_pinned {p : BufferManager β} {n : Option Nat} {as : List Nat} {k : Nat} (hk : as.length ≤ k)
    (hseg : Segment p.prev p.next none as n) (hpin : ∀ e ∈ as, (p.state e).pinned = true)
    (hun : ∀ e, (p.state e).locked = false) : popFrom dbg l k as.getLast? p = (.ok none, p) := by
  induction as using List.reverseRecOn generalizing n k with
  | nil => cases k <;> rfl
  | append_singleton as e ih =>
    obtain ⟨has, he, -⟩ := Segment.append.1 hseg
    rw [List.length_append] at hk
    cases k with
    | zero => cases hk
    | succ k =>
      have hprev : p.prev e = as.getLast? := by rw [he, Option.or_none]
      have hpinned : EntryState.pinned { p.state e with locked := true } = true :=
        hpin e (List.mem_append_right _ List.mem_cons_self)
      rw [List.getLast?_concat, popFrom, Fallible.bind_ok (lockEntry_free (hun e)), if_pos hpinned,
        Fallible.bind_ok (unlockEntry_back (hun e))]
      simp only [Fallible.bind_apply, Fallible.get_apply, hprev]
      exact ih (Nat.le_of_succ_le_succ hk) has fun z hz => hpin z (List.mem_append_left _ hz)

theorem Tidy.pop (h : Tidy s) (hv : s.victim l = none) : popTail dbg l s.pool = (.ok none, s.pool) := by
  have hk : (s.nodes l).length ≤ s.pool.walkBound :=
    Nat.le_succ_of_le (by rw [Nat.mul_comm]; exact h.listed.length_le l)
  have hpin : ∀ e ∈ s.nodes l, (s.pool.state e).pinned = true := by
    intro e he
    have hnone := List.find?_eq_none.1 hv e (List.mem_reverse.2 he)
    simpa using hnone
  unfold popTail
  rw [Fallible.bind_ok (Fallible.get_apply s.pool), (h.listed.chain l).tail]
  exact popFrom_pinned hk (h.listed.chain l).links hpin h.unlocked

theorem Tidy.step {op : ListOp} (h : Tidy s) (hp : PopsNothing s op) (hs : step dbg s op = some t) : Tidy t := by
  cases op with
  | insertMRU l e =>
    simp only [ListRun.step] at hs
    split at hs
    · rename_i he
      obtain ⟨u, hu, hsame, ht⟩ := h.listed.insert dbg l he.1 he.2
      simp only [ran, hu, ne_eq, not_true_eq_false, decide_false, Bool.or_false] at hs
      cases hs
      exact ⟨ht, hsame.state ▸ h.unlocked, h.passed⟩
    · cases hs
  | removeEntry l e =>
    simp only [ListRun.step] at hs
    split at hs
    · rename_i he
      obtain ⟨u, hu, hsame, ht⟩ := h.listed.remove dbg he
      simp only [ran, hu, ne_eq, not_true_eq_false, decide_false, Bool.or_false] at hs
      cases hs
      exact ⟨ht, hsame.state ▸ h.unlocked, h.passed⟩
    · cases hs
  | moveMRU l e =>
    simp only [ListRun.step] at hs
    split at hs
    · rename_i he
      obtain ⟨u, hu, hsame, ht⟩ := h.listed.move dbg he
      simp only [ran, hu, ne_eq, not_true_eq_false, decide_false, Bool.or_false] at hs
      cases hs
      exact ⟨ht, hsame.state ▸ h.unlocked, h.passed⟩
    · cases hs
  | popTail l =>
    have hv := hp l rfl
    simp only [ListRun.step, hv, ran, h.pop hv, Function.update_eq_self, ne_eq, not_true_eq_false, decide_false,
      Bool.or_false] at hs
    cases hs
    exact h
  | setRefCount e n =>
    simp only [ListRun.step] at hs
    cases hs
    refine ⟨⟨h.listed.chain, h.listed.size, h.listed.one, h.listed.loose, h.listed.entry, h.listed.small⟩,
      fun z => ?_, h.passed⟩
    show (Function.update s.pool.state e { s.pool.state e with refCount := n } z).locked = false
    by_cases hz : z = e
    · subst hz
      rw [Function.update_self]
      exact h.unlocked z
    · rw [Function.update_of_ne hz]
      exact h.unlocked z

/-- Sequences of operations on the lists of a pool keep the representation as long as `PopTail` takes nothing. -/
theorem lists_represented {p : BufferManager β} (hu : Unlinked p)
    (h : Reach (ListRun.step dbg) PopsNothing ⟨p, fun _ => [], false⟩ s) :
    Represents s := (h.inv (fun _ _ _ hs hp hstep => hs.step hp hstep) hu.tidy).represents

end

/-- A pool of two pages and four entries, which are in no list. -/
def unlinked : BufferManager Nat where
  npages := 2
  map := fun _ => none
  tag := fun _ => ⟨0, PageNumber.Invalid⟩
  state := fun _ => .empty
  buffer := fun _ => none
  prev := fun _ => none
  next := fun _ => none
  lists := fun _ => ⟨none, none, 0⟩
  freeBuffers := [1, 0]
  contents := fun _ => 0
  P := 0
  disk := fun _ => 0
  fileSize := fun _ => 0
  io := []

def threeFree : List ListOp := [.insertMRU .FreeList 0, .insertMRU .FreeList 1, .insertMRU .FreeList 2]

theorem moved_to_front : ∃ s : ListRun Nat, Reach (step true) PopsNothing ⟨unlinked, fun _ => [], false⟩ s ∧
    s.nodes .T1 = [0, 1] ∧ Represents s := by
  have h0 : Unlinked unlinked := ⟨fun _ => rfl, fun _ => ⟨rfl, rfl⟩, fun _ => rfl, by decide⟩
  have h : (exec (guarded PopsNothing (step true)) ⟨unlinked, fun _ => [], false⟩
      [.insertMRU .T1 0, .insertMRU .T1 1, .moveMRU .T1 0, .setRefCount 1 1, .setRefCount 0 1, .popTail .T1]).map
        (fun s => decide (s.nodes .T1 = [0, 1])) = some true := by
    decide +kernel
  obtain ⟨s, hr, hs⟩ := reach_of_test h
  exact ⟨s, hr.of_guarded, of_decide_eq_true hs, lists_represented h0 hr.of_guarded⟩

/-- `PopTail` leaves two entries and a size of one, with which a removal loses the other one. -/
theorem pop_counts_twice :
    (exec (step false) ⟨unlinked, fun _ => [], false⟩ (threeFree ++ [.popTail .FreeList])).map
      (fun s => (s.nodes .FreeList, (s.pool.lists .FreeList).size)) = some ([2, 1], 1) ∧
    (exec (step false) ⟨unlinked, fun _ => [], false⟩
      (threeFree ++ [.popTail .FreeList, .removeEntry .FreeList 1])).map
      (fun s => (s.nodes .FreeList, (s.pool.lists .FreeList).head)) = some ([2], none) := by
  constructor <;> decide +kernel

end ListRun

end Mimidb
