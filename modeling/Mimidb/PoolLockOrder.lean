import Mimidb.PoolWorkers
import Mimidb.WaitCycle

/-!
# The order of the pool's locks

The programs of the pool ask for their locks in one order, `B1`, `B2`, the
partitions of the page map, `T1`, `T2`, `FreeList` and the entries, but for a
few places. Where none of these has to wait, no cycle of workers waits for
itself.
-/

namespace Mimidb

namespace PoolLock

def rank : PoolLock → Nat
  | .list .B1 => 0
  | .list .B2 => 1
  | .partition _ => 2
  | .list .T1 => 3
  | .list .T2 => 4
  | .list .FreeList => 5
  | .entry _ => 6
  | .page _ => 7

/-- The latch of a data buffer is not one of the pool's. -/
def listed : PoolLock → Bool
  | .page _ => false
  | _ => true

/-- The order is not kept: by `tryVacateEntry`, by a hit with the partition
still locked, and with an entry locked. -/
def against : (held asked : PoolLock) → Bool
  | .list .T1, .list .B1 | .list .T2, .list .B2 => true
  | .partition _, .list .B1 | .partition _, .list .B2 => true
  | .entry _, .page _ => false
  | .entry _, _ => true
  | _, _ => false

def After (r r' : PoolLock) : Prop := r'.rank < r.rank

instance : IsTrans PoolLock After := ⟨fun _ _ _ h h' => Nat.lt_trans h' h⟩

instance : Std.Irrefl After := ⟨fun _ h => Nat.lt_irrefl _ h⟩

/-- What the programs hold when they ask for a lock. -/
def InOrder (held : List PoolLock) (r : PoolLock) : Prop :=
  ∀ r' ∈ held, r'.listed = true → r.listed = true → r'.rank < r.rank ∨ against r' r = true

def IsEntry : PoolLock → Prop
  | .entry _ => True
  | _ => False

end PoolLock

namespace PoolProg

open Prog PoolLock

variable {β α : Type} {c : PoolBuild} {held base : List PoolLock} {e : Nat} {l : ListId}
  {Q : Except String α → List PoolLock → Prop}

/-! ## Steps -/

theorem inOrder_page {b : Nat} : InOrder held (.page b) := fun _ _ _ h => nomatch h

theorem inOrder_entry : InOrder held (.entry e) := by
  intro r _ hr _
  cases r with
  | list l =>
    refine .inl ?_
    cases l <;> simp [rank]
  | partition i => exact .inl (by simp [rank])
  | entry e' => exact .inr rfl
  | page b => cases hr

theorem leaves_entry : Leaves IsEntry held (.entry e :: held) := .cons trivial .rfl

theorem lift_asks {label : PoolEvent} {m : BufferManager.PoolM β α} :
    (lift label m).Asks InOrder held (Back IsEntry held) := by
  intro s
  dsimp only
  split
  · exact rfl
  · exact .rfl
  · trivial

theorem access_bind {label : PoolEvent} {γ : Type} {next : SharedPool β → γ} {upd : SharedPool β → SharedPool β}
    {f : γ → PoolProg β α} (h : ∀ a, (f a).Asks InOrder held Q) :
    ((.access label (fun s => .done (next s)) upd : PoolProg β γ) >>= f).Asks InOrder held Q :=
  fun s => h (next s)

theorem read_bind {γ : Type} {g : BufferManager β → γ} {f : γ → PoolProg β α} (h : ∀ a, (f a).Asks InOrder held Q) :
    (read g >>= f).Asks InOrder held Q := access_bind h

theorem check_bind {dbg b : Bool} {f : Unit → PoolProg β α} (h : (f ()).Asks InOrder held Q) :
    (check dbg b >>= f).Asks InOrder held Q := by
  unfold check
  split
  · trivial
  · exact h

theorem check_end {dbg b : Bool} {Q : Except String Unit → List PoolLock → Prop} (h : Q (.ok ()) held) :
    (check (β := β) dbg b).Asks InOrder held Q := by
  unfold check
  split
  · trivial
  · exact h

theorem bufferOf_bind {f : Nat → PoolProg β α} (h : ∀ b, (f b).Asks InOrder held Q) :
    (bufferOf e >>= f).Asks InOrder held Q := by
  refine Asks.bind fun s => ?_
  dsimp only [Fallible.bind_apply, Fallible.get_apply]
  cases s.pool.buffer e with
  | some b => exact h b
  | none => trivial

theorem lockEntry_bind {f : EntryState → PoolProg β α} (h : ∀ st, (f st).Asks InOrder (.entry e :: held) Q) :
    (lockEntry e >>= f).Asks InOrder held Q := ⟨inOrder_entry, fun _ => h _⟩

theorem unlockEntry_bind {f : Unit → PoolProg β α} (h : (f ()).Asks InOrder held Q) :
    (unlockEntry c e >>= f).Asks InOrder (.entry e :: held) Q := by
  intro s
  rw [List.erase_cons_head]
  exact check_bind h

theorem unlockEntry_asks : (unlockEntry (β := β) c e).Asks InOrder (.entry e :: held) (Back IsEntry held) := by
  intro s
  rw [List.erase_cons_head]
  exact check_end rfl

/-! ## Input and output -/

theorem waitFor_asks (n : Nat) : (waitFor (β := β) c e n).Asks InOrder held (Back IsEntry held) := by
  induction n with
  | zero => trivial
  | succ n ih =>
    refine lockEntry_bind fun st => unlockEntry_bind (Asks.ite (fun _ => .pureBack) fun _ => ?_)
    refine bufferOf_bind fun b => Asks.acquire inOrder_page (read_bind fun st => Asks.ite (fun _ => ?_) fun _ => ?_)
    · exact Asks.release (Asks.acquire inOrder_page (Asks.release ih))
    · exact Asks.release ih

theorem waitIo_asks : (waitIo (β := β) c e).Asks InOrder held (Back IsEntry held) :=
  read_bind fun _ => check_bind (waitFor_asks _)

theorem startIo_asks (forInput : Bool) (n : Nat) :
    (startIo (β := β) c e forInput n).Asks InOrder held (Back IsEntry held) := by
  induction n with
  | zero => trivial
  | succ n ih =>
    refine lockEntry_bind fun st => Asks.ite (fun _ => ?_) fun _ => Asks.ite (fun _ => ?_) fun _ => ?_
    · exact unlockEntry_bind (Asks.bindBack waitIo_asks .rfl fun _ => ih)
    · exact unlockEntry_bind .pureBack
    · exact access_bind fun _ => unlockEntry_bind .pureBack

theorem shouldStartIo_asks {forInput : Bool} :
    (shouldStartIo (β := β) c e forInput).Asks InOrder held (Back IsEntry held) :=
  startIo_asks _ _

theorem terminateIoError_asks : (terminateIoError (β := β) c e).Asks InOrder held (Back IsEntry held) :=
  lockEntry_bind fun _ => check_bind <| access_bind fun _ => access_bind fun _ => unlockEntry_bind <| read_bind
    fun _ => check_end rfl

theorem terminateIoValid_asks : (terminateIoValid (β := β) c e).Asks InOrder held (Back IsEntry held) :=
  lockEntry_bind fun _ => check_bind <| access_bind fun _ => access_bind fun _ => unlockEntry_bind <| read_bind
    fun _ => check_end rfl

theorem readBuffer_asks : (readBuffer (β := β) c e).Asks InOrder held (Back IsEntry held) := by
  refine read_bind fun st => Asks.ite (fun _ => .pureBack) fun _ => ?_
  refine Asks.bindBack shouldStartIo_asks .rfl fun started => Asks.ite (fun _ => .pureBack) fun _ => ?_
  refine read_bind fun _ => check_bind <| bufferOf_bind fun b => ?_
  refine Asks.holdingBack id inOrder_page (Asks.bindBack (Asks.rethrow ?_ fun _ _ _ => terminateIoError_asks) .rfl
    fun _ => ?_)
  · exact Asks.bindBack lift_asks .rfl fun _ => bufferOf_bind fun b => lift_asks
  · exact terminateIoValid_asks

theorem writePage_asks {label : PoolEvent} {tag : PageTag} {page : BufferManager β → β} :
    (writePage label tag page).Asks InOrder held (Back IsEntry held) :=
  Asks.bindBack lift_asks .rfl fun _ => lift_asks

theorem flushBuffer_asks : (flushBuffer (β := β) c e).Asks InOrder held (Back IsEntry held) := by
  refine Asks.bindBack shouldStartIo_asks .rfl fun started => Asks.ite (fun _ => .pureBack) fun _ => ?_
  refine read_bind fun _ => check_bind <| bufferOf_bind fun b => ?_
  refine Asks.holdingBack id inOrder_page (Asks.bindBack (Asks.rethrow ?_ fun _ _ _ => terminateIoError_asks) .rfl
    fun _ => ?_)
  · refine Asks.bindBack lift_asks .rfl fun _ => bufferOf_bind fun b => read_bind fun tag => ?_
    exact Asks.bindBack writePage_asks .rfl fun _ => lift_asks
  · exact terminateIoValid_asks

/-! ## Replacement -/

/-- No latch of a list, and none of the page map, is held. -/
def NoList (held : List PoolLock) : Prop := ∀ l, .list l ∉ held

def NoPartition (held : List PoolLock) : Prop := ∀ i, .partition i ∉ held

/-- The latch that `tryVacateEntry` is called under. -/
def topList (isFrequency : Bool) : ListId := if isFrequency then .T2 else .T1

theorem inOrder_alone (h : NoList held) (hp : NoPartition held ∨ l ≠ .FreeList) : InOrder held (.list l) := by
  intro r hr _ _
  cases r with
  | list l' => exact absurd hr (h l')
  | partition i =>
    rcases hp with hp | hp
    · exact absurd hr (hp i)
    · cases l with
      | FreeList => exact absurd rfl hp
      | B1 => exact .inr rfl
      | B2 => exact .inr rfl
      | T1 => exact .inl (by simp [rank])
      | T2 => exact .inl (by simp [rank])
  | entry e => exact .inr rfl
  | page b => contradiction

theorem inOrder_under {l' : ListId} (h : NoList held)
    (hl : (list l').rank < (list l).rank ∨ against (.list l') (.list l) = true)
    (hp : l ≠ .FreeList) : InOrder (.list l' :: held) (.list l) := by
  intro r hr hlr hll
  rcases List.mem_cons.1 hr with rfl | hr
  · exact hl
  · exact inOrder_alone h (.inr hp) r hr hlr hll

theorem tryVacateEntry_asks {isFrequency : Bool} (h : NoList held) :
    (tryVacateEntry (β := β) c e isFrequency).Asks InOrder (.list (topList isFrequency) :: held)
      (Back IsEntry (.list (topList isFrequency) :: held)) := by
  refine lockEntry_bind fun st => Asks.ite (fun _ => unlockEntry_bind .pureBack) fun _ => ?_
  refine Asks.bindBack lift_asks leaves_entry fun _ =>
    unlockEntry_bind (Asks.bindBack flushBuffer_asks .rfl fun _ => ?_)
  refine lockEntry_bind fun st => unlockEntry_bind (Asks.ite (fun _ => .pureBack) fun _ => ?_)
  have hlist : InOrder (.list (topList isFrequency) :: held) (.list (if isFrequency then .B2 else .B1)) := by
    cases isFrequency <;> exact inOrder_under h (.inr rfl) nofun
  refine Asks.bindBack (Asks.holdingBack id hlist ?_) .rfl fun b => ?_
  · refine lockEntry_bind fun st => Asks.ite (fun _ => unlockEntry_bind .pureBack) fun _ => read_bind fun b =>
      check_bind ?_
    refine Asks.bindBack lift_asks leaves_entry fun _ => Asks.bindBack lift_asks leaves_entry fun _ => ?_
    refine access_bind fun _ => access_bind fun _ => Asks.bindBack lift_asks leaves_entry fun _ =>
      unlockEntry_bind .pureBack
  · cases b with
    | none => exact .pureBack
    | some b =>
      cases b with
      | none => trivial
      | some b => exact Asks.bindBack lift_asks .rfl fun _ => .pureBack

theorem vacateFrom_asks {isFrequency : Bool} (h : NoList held) (n : Nat) : ∀ o,
    (vacateFrom (β := β) c isFrequency n o).Asks InOrder (.list (topList isFrequency) :: held)
      (Back IsEntry (.list (topList isFrequency) :: held)) := by
  induction n with
  | zero =>
    intro o
    cases o <;> trivial
  | succ n ih =>
    intro o
    cases o with
    | none => exact .pureBack
    | some e =>
      refine Asks.bindBack (tryVacateEntry_asks h) .rfl fun done => Asks.ite (fun _ => .pureBack) fun _ => ?_
      exact read_bind fun prev => ih prev

theorem adjust_asks {p : Nat} {fromB2 : Bool} (h : NoList held) :
    (adjust (β := β) c p fromB2).Asks InOrder held (Back IsEntry held) := by
  refine Asks.bindBack (Asks.holdingBack id (inOrder_alone h (.inr nofun)) fun _ => rfl) .rfl fun t1size => ?_
  have hlist : ∀ isFrequency : Bool, (holding (.list (if isFrequency then .T2 else .T1)) do
      vacateFrom (β := β) c isFrequency c.rounds
        (← read fun s => (s.lists (if isFrequency then .T2 else .T1)).tail)).Asks InOrder held
        (Back IsEntry held) := fun isFrequency => by
    refine Asks.holdingBack id ?_ (read_bind fun tail => vacateFrom_asks h _ _)
    cases isFrequency <;> exact inOrder_alone h (.inr nofun)
  exact hlist _

/-! ## Taking an entry -/

theorem popFrom_asks (n : Nat) : ∀ o, (popFrom (β := β) c l n o).Asks InOrder held (Back IsEntry held) := by
  induction n with
  | zero =>
    intro o
    cases o with
    | none => exact .pureBack
    | some e => trivial
  | succ n ih =>
    intro o
    cases o with
    | none => exact .pureBack
    | some e =>
      refine lockEntry_bind fun st => Asks.ite (fun _ => unlockEntry_bind (read_bind fun prev => ih prev)) fun _ =>
        ?_
      refine Asks.bindBack lift_asks leaves_entry fun _ => unlockEntry_bind ?_
      exact Asks.bindBack lift_asks .rfl fun _ => .pureBack

theorem tearDown_asks : (tearDown (β := β) c e).Asks InOrder held (Back IsEntry held) :=
  read_bind fun _ => check_bind <| read_bind fun _ => check_bind fun _ => rfl

/-- A ghost list. -/
def IsGhost (l : ListId) : Prop := l = .B1 ∨ l = .B2

theorem inOrder_partition {i : Nat} (hl : IsGhost l) (h : NoList held) (hp : NoPartition held) :
    InOrder (.list l :: held) (.partition i) := by
  intro r hr hlr _
  rcases List.mem_cons.1 hr with rfl | hr
  · rcases hl with rfl | rfl <;> exact .inl (by simp [rank])
  · cases r with
    | list l' => exact absurd hr (h l')
    | partition i' => exact absurd hr (hp i')
    | entry e => exact .inr rfl
    | page b => cases hlr

theorem evictFrom_asks (hl : IsGhost l) (h : NoList held) (hp : NoPartition held) (n : Nat) : ∀ o,
    (evictFrom (β := β) c l n o).Asks InOrder (.list l :: held) (Back IsEntry (.list l :: held)) := by
  induction n with
  | zero =>
    intro o
    cases o with
    | none => exact .pureBack
    | some e => trivial
  | succ n ih =>
    intro o
    cases o with
    | none => exact .pureBack
    | some e =>
      have hnext : ∀ f : BufferManager β → Option Nat, (read f >>= fun prev => evictFrom c l n prev).Asks InOrder
        (.list l :: held)
          (Back IsEntry (.list l :: held)) := fun f => read_bind fun prev => ih prev
      refine lockEntry_bind fun st => unlockEntry_bind
        (Asks.ite (fun _ => hnext _) fun _ => read_bind fun tag => ?_)
      refine Asks.bindBack (Asks.holdingBack id (inOrder_partition hl h hp) ?_) .rfl fun evicted => ?_
      · refine read_bind fun st => Asks.ite (fun _ => .pureBack) fun _ => read_bind fun tag =>
          access_bind fun removed => ?_
        exact Asks.ite (fun _ => .rfl) fun _ => Asks.bindBack lift_asks .rfl fun _ => .pureBack
      · exact Asks.ite (fun _ => .pureBack) fun _ => hnext _

theorem evictCacheEntry_asks (h : NoList held) (hp : NoPartition held) :
    (evictCacheEntry (β := β) c).Asks InOrder held (Back IsEntry held) := by
  refine Asks.bindBack (Asks.holdingBack id (inOrder_alone h (.inl hp)) (read_bind fun tail => ?_)) .rfl fun free =>
    ?_
  · refine Asks.bindBack (popFrom_asks _ _) .rfl fun o => ?_
    cases o with
    | none => exact .pureBack
    | some e => exact Asks.bindBack tearDown_asks .rfl fun _ => .pureBack
  have hevict : ∀ l, IsGhost l → (holding (.list l) do
      evictFrom (β := β) c l c.rounds (← read fun s => (s.lists l).tail)).Asks InOrder held (Back IsEntry held) :=
      fun l hl =>
    Asks.holdingBack id (inOrder_alone h (.inl hp)) (read_bind fun tail => evictFrom_asks hl h hp _ _)
  have htake : ∀ e, (do tearDown (β := β) c e; return some e).Asks InOrder held (Back IsEntry held) := fun e =>
    Asks.bindBack tearDown_asks .rfl fun _ => .pureBack
  cases free with
  | some e => exact .pureBack
  | none =>
    refine Asks.bindBack (hevict .B1 (.inl rfl)) .rfl fun recent => ?_
    cases recent with
    | some e => exact htake e
    | none =>
      refine Asks.bindBack (hevict .B2 (.inr rfl)) .rfl fun frequent => ?_
      cases frequent with
      | some e => exact htake e
      | none => exact .pureBack

theorem forgetFrom_asks (hl : IsGhost l) (h : NoList held) (hp : NoPartition held) (n : Nat) : ∀ o,
    (forgetFrom (β := β) c n o).Asks InOrder (.list l :: held) (Back IsEntry (.list l :: held)) := by
  induction n with
  | zero =>
    intro o
    cases o with
    | none => exact .pureBack
    | some e => trivial
  | succ n ih =>
    intro o
    cases o with
    | none => exact .pureBack
    | some e =>
      have hnext : ∀ f : BufferManager β → Option Nat, (read f >>= fun prev => forgetFrom c n prev).Asks InOrder
        (.list l :: held)
          (Back IsEntry (.list l :: held)) := fun f => read_bind fun prev => ih prev
      refine read_bind fun st => Asks.ite (fun _ => hnext _) fun _ => read_bind fun tag => ?_
      refine Asks.bindBack (Asks.holdingBack id (inOrder_partition hl h hp) ?_) .rfl fun forgotten => ?_
      · refine read_bind fun st => Asks.ite (fun _ => .pureBack) fun _ => read_bind fun tag =>
          access_bind fun removed => ?_
        exact Asks.ite (fun _ => .rfl) fun _ => .pureBack
      · exact Asks.ite (fun _ => .pureBack) fun _ => hnext _

theorem insertMRU_silent (dbg : Bool) (l : ListId) (e : Nat) :
    Fallible.Spec (fun _ => True) (BufferManager.insertMRU (β := β) dbg l e)
    (fun _ _ => True) fun err _ => ∀ what, err ≠ .runtimeError what := by
  unfold BufferManager.insertMRU
  refine Fallible.Spec.bind (R := fun _ _ => True) (Fallible.Spec.get fun _ => id) fun s => ?_
  refine Fallible.Spec.bind (R := fun _ _ => True) (fun t _ => ?_) fun _ => Fallible.Spec.ite (fun _ _ _ => trivial)
    fun _ => ?_
  · cases dbg <;> cases s.isRouge e <;> first | trivial | exact fun _ => nofun
  · cases (s.lists l).head with
    | none => exact fun _ _ => nofun
    | some h => exact fun _ _ => trivial

theorem insertMRU_bind {f : Unit → PoolProg β α} (h : (f ()).Asks InOrder held Q) :
    (insertMRU c l e >>= f).Asks InOrder held Q := by
  have hspec := insertMRU_silent (β := β) c.dbg l e
  refine Asks.bind fun s => ?_
  dsimp only
  split
  · exact h
  · next what hm => exact absurd rfl (hspec.error trivial (Prod.ext hm rfl) what)
  · trivial

theorem forgetAnyEntry_asks (hl : IsGhost l) (h : NoList held) (hp : NoPartition held) :
    (forgetAnyEntry (β := β) c l).Asks InOrder held (Back IsEntry held) := by
  refine Asks.acquire (inOrder_alone h (.inl hp)) (Asks.bind (Asks.tryCatch ?_))
  refine (read_bind fun tail => forgetFrom_asks hl h hp _ _ : Asks _ _ _ (Back IsEntry (.list l :: held))).mono
    fun res held' hres => ?_
  cases res with
  | error err =>
    refine Asks.bind (show Asks _ _ _ _ from fun _ => ?_)
    exact Leaves.erase id hres
  | ok forgotten =>
    obtain rfl : held' = .list l :: held := hres
    cases forgotten with
    | none =>
      intro _
      exact List.erase_cons_head _ _
    | some e =>
      have hfree : InOrder (.list l :: held) (.list .FreeList) := by
        intro r hr hlr hlf
        rcases List.mem_cons.1 hr with rfl | hr
        · rcases hl with rfl | rfl <;> exact .inl (by simp [rank])
        · exact inOrder_alone h (.inl hp) r hr hlr hlf
      have hne : l ≠ .FreeList := by rcases hl with rfl | rfl <;> nofun
      refine Asks.acquire hfree fun _ => insertMRU_bind fun _ => ?_
      rw [List.erase_cons_tail (by simpa using fun e => hne e.symm), List.erase_cons_head, List.erase_cons_head]
      rfl

theorem sizes_asks {l' : ListId} (h : NoList held) (hl : (list l').rank < (list l).rank)
    (hf : l ≠ .FreeList ∧ l' ≠ .FreeList) :
    (holding (.list l') (holding (.list l) do
      return (← size (β := β) l, ← size l'))).Asks InOrder held (Back IsEntry held) := by
  refine Asks.holdingBack id (inOrder_alone h (.inr hf.2)) (Asks.holdingBack id (inOrder_under h (.inl hl) hf.1) ?_)
  exact read_bind fun _ => read_bind fun _ => .pureBack

theorem preinsertCleanup_asks (h : NoList held) (hp : NoPartition held) :
    (preinsertCleanup (β := β) c).Asks InOrder held (Back IsEntry held) := by
  refine read_bind fun npages => Asks.bindBack (sizes_asks h (by simp [rank]) ⟨nofun, nofun⟩) .rfl fun sizes => ?_
  have hadjust : (do adjust (β := β) c (← read fun s => s.P) false).Asks InOrder held (Back IsEntry held) :=
    read_bind fun p => adjust_asks h
  refine Asks.ite (fun _ => Asks.ite (fun _ => ?_) fun _ => ?_) fun _ => ?_
  · exact Asks.bindBack (forgetAnyEntry_asks (.inl rfl) h hp) .rfl fun _ => hadjust
  · exact Asks.holdingBack id (inOrder_alone h (.inr nofun)) (read_bind fun tail => vacateFrom_asks h _ _)
  · refine Asks.bindBack (sizes_asks h (by simp [rank]) ⟨nofun, nofun⟩) .rfl fun sizes => ?_
    refine Asks.ite (fun _ => Asks.ite (fun _ => ?_) fun _ => hadjust) fun _ => .pureBack
    exact Asks.bindBack (forgetAnyEntry_asks (.inr rfl) h hp) .rfl fun _ => hadjust

/-! ## Hits -/

theorem handleCacheHit_asks (h : NoList held) :
    (handleCacheHit (β := β) c e).Asks InOrder held (Back IsEntry held) := by
  refine read_bind fun st => check_bind (Asks.ite (fun _ => ?_) fun _ => ?_)
  · refine Asks.holdingBack id (inOrder_alone h (.inr nofun)) (lockEntry_bind fun st => check_bind ?_)
    exact Asks.bindBack lift_asks leaves_entry fun _ => unlockEntry_asks
  · refine Asks.holdingBack id (inOrder_alone h (.inr nofun)) ?_
    refine Asks.holdingBack id (inOrder_under h (.inl (by simp [rank])) nofun) ?_
    refine lockEntry_bind fun st => Asks.ite (fun _ => ?_) fun _ => ?_
    · refine Asks.bindBack lift_asks leaves_entry fun _ => Asks.bindBack lift_asks leaves_entry fun _ => ?_
      exact access_bind fun _ => unlockEntry_asks
    · exact Asks.bindBack lift_asks leaves_entry fun _ => unlockEntry_asks

theorem delta_bind {a b : Nat} {f : Nat → PoolProg β α} (h : ∀ d, (f d).Asks InOrder held Q) :
    (delta a b >>= f).Asks InOrder held Q := by
  unfold delta
  cases BufferManager.ghostDelta a b with
  | ok d => exact h d
  | error err => trivial

theorem handleGhostHit_asks (h : NoList held) (isFrequency : Bool) :
    (handleGhostHit (β := β) c e isFrequency).Asks InOrder held (Back IsEntry held) := by
  have hmove : ∀ l, l ≠ .FreeList → (list l).rank < (list .T2).rank → (holding (.list l) <| holding (.list .T2) do
      let st ← lockEntry (β := β) e
      if st.isTopList = false ∧ st.isFrequencyList = isFrequency then
        removeEntry c l e
        insertMRU c .T2 e
        update .other e fun st => { st with isTopList := true, isFrequencyList := true }
      unlockEntry c e).Asks InOrder held (Back IsEntry held) := fun l hl hlt => by
    refine Asks.holdingBack id (inOrder_alone h (.inr hl))
      (Asks.holdingBack id (inOrder_under h (.inl hlt) nofun) ?_)
    refine lockEntry_bind fun st => Asks.ite (fun _ => ?_) fun _ => unlockEntry_asks
    refine Asks.bindBack lift_asks leaves_entry fun _ => Asks.bindBack lift_asks leaves_entry fun _ => ?_
    exact access_bind fun _ => unlockEntry_asks
  have hold : ∀ p, (do
      adjust c p isFrequency
      let oldList : ListId := if isFrequency then .B1 else .B2
      holding (.list oldList) <| holding (.list .T2) do
        let st ← lockEntry (β := β) e
        if st.isTopList = false ∧ st.isFrequencyList = isFrequency then
          removeEntry c oldList e
          insertMRU c .T2 e
          update .other e fun st => { st with isTopList := true, isFrequencyList := true }
        unlockEntry c e).Asks InOrder held (Back IsEntry held) := fun p => by
    refine Asks.bindBack (adjust_asks h) .rfl fun _ => ?_
    cases isFrequency
    · exact hmove .B2 nofun (by simp [rank])
    · exact hmove .B1 nofun (by simp [rank])
  refine read_bind fun npages => Asks.bindBack ?_ .rfl fun sizes => read_bind fun p => ?_
  · refine Asks.holdingBack id (inOrder_alone h (.inr nofun))
      (Asks.holdingBack id (inOrder_under h (.inl (by simp [rank])) nofun) ?_)
    exact read_bind fun _ => read_bind fun _ => .pureBack
  · exact Asks.ite (fun _ => delta_bind fun _ => access_bind fun p => hold p) fun _ => delta_bind fun _ =>
      access_bind fun p => hold p

theorem handleHit_asks (h : NoList held) : (handleHit (β := β) c e).Asks InOrder held (Back IsEntry held) := by
  refine lockEntry_bind fun st => unlockEntry_bind (read_bind fun st => ?_)
  exact Asks.ite (fun _ => handleCacheHit_asks h) fun _ => handleGhostHit_asks h _

/-! ## Calls -/

theorem finishGet_asks : (finishGet (β := β) c e).Asks InOrder held (Back IsEntry held) := by
  refine read_bind fun _ => check_bind <| read_bind fun st => Asks.ite (fun _ => lift_asks) fun _ => ?_
  refine read_bind fun st => Asks.ite (fun _ => ?_) fun _ => lift_asks
  exact Asks.bindBack readBuffer_asks .rfl fun _ => read_bind fun st => check_bind lift_asks

/-- The end of `insertEntry`: a new entry stays locked. -/
def InsertEnd (held : List PoolLock) (e : Nat) : Except String Inserted → List PoolLock → Prop
  | .ok .created, held' => held' = .entry e :: held
  | .ok _, held' => held' = held
  | .error _, held' => Leaves IsEntry held held'

theorem inOrder_unlisted (h : NoList held) (hp : NoPartition held) {i : Nat} : InOrder held (.partition i) := by
  intro r hr hlr _
  cases r with
  | list l => exact absurd hr (h l)
  | partition i => exact absurd hr (hp i)
  | entry e => exact .inr rfl
  | page b => cases hlr

/-- What is done with the partition locked, before it is given back. -/
theorem inserting_bind {i : Nat} {m : PoolProg β α} {f : α → PoolProg β Inserted}
    (hm : m.Asks InOrder (.partition i :: held) (Back IsEntry (.partition i :: held)))
    (hf : ∀ a, (f a).Asks InOrder (.partition i :: held) fun res held' =>
      InsertEnd held e res (held'.erase (.partition i))) :
    (m >>= f).Asks InOrder (.partition i :: held) fun res held' =>
    InsertEnd held e res (held'.erase (.partition i)) := by
  refine Asks.bind (hm.mono fun res held' h => ?_)
  cases res with
  | ok a =>
    obtain rfl : held' = .partition i :: held := h
    exact hf a
  | error err => exact Leaves.erase id h

theorem inserting_end {i : Nat} {r : Inserted} (h : InsertEnd held e (.ok r) held) :
    (pure r : PoolProg β Inserted).Asks InOrder (.partition i :: held) fun res held' =>
      InsertEnd held e res (held'.erase (.partition i)) := by
  show InsertEnd held e (.ok r) ((PoolLock.partition i :: held).erase (.partition i))
  rw [List.erase_cons_head]
  exact h

theorem inserting_created {i : Nat} : (do let _ ← lockEntry (β := β) e; return Inserted.created).Asks InOrder
    (.partition i :: held) fun res held' => InsertEnd held e res (held'.erase (.partition i)) := by
  refine lockEntry_bind fun st => ?_
  show (PoolLock.entry e :: .partition i :: held).erase (.partition i) = .entry e :: held
  rw [List.erase_cons_tail (by simp), List.erase_cons_head]

theorem inserting_noBuffer {i : Nat} {tag : PageTag} : (do
    check c.dbg (← mapRemove (β := β) tag)
    return Inserted.noBuffer).Asks InOrder (.partition i :: held) fun res held' =>
      InsertEnd held e res (held'.erase (.partition i)) :=
  access_bind fun _ => check_bind (inserting_end rfl)

theorem insertEntry_asks {tag : PageTag} (h : NoList held) (hp : NoPartition held) :
    (insertEntry (β := β) c tag e).Asks InOrder held (InsertEnd held e) := by
  refine Asks.holding (inOrder_unlisted h hp) (access_bind fun o => ?_)
  cases o with
  | some existing => exact inserting_bind lift_asks fun _ => inserting_end rfl
  | none =>
    refine access_bind fun _ => inserting_bind lift_asks fun _ => inserting_bind lift_asks fun o => ?_
    cases o with
    | none => exact inserting_noBuffer
    | some b => exact inserting_bind lift_asks fun _ => inserting_created

theorem insertExtension_asks {tag : PageTag} (h : NoList held) (hp : NoPartition held) :
    (insertExtension (β := β) c tag e).Asks InOrder held (InsertEnd held e) := by
  refine Asks.holding (inOrder_unlisted h hp) (access_bind fun o => ?_)
  cases o with
  | some existing => exact inserting_bind lift_asks fun _ => inserting_end rfl
  | none =>
    refine read_bind fun st => check_bind <| inserting_bind lift_asks fun _ => access_bind fun _ => ?_
    refine inserting_bind lift_asks fun _ => inserting_bind lift_asks fun o => ?_
    cases o with
    | none => exact inserting_noBuffer
    | some b =>
      refine inserting_bind lift_asks fun _ => inserting_bind (Asks.holdingBack id ?_ ?_) fun _ => inserting_created
      · intro r hr hlr hl
        rcases List.mem_cons.1 hr with rfl | hr
        · exact .inl (by simp [rank])
        · exact inOrder_alone h (.inl hp) r hr hlr hl
      · exact Asks.bindBack lift_asks .rfl fun _ _ => rfl

theorem InsertEnd.bind {m : PoolProg β Inserted} {f : Inserted → PoolProg β α}
    (hm : m.Asks InOrder held (InsertEnd held e))
    (hc : (f .created).Asks InOrder (.entry e :: held) (Back IsEntry held))
    (hn : (f .noBuffer).Asks InOrder held (Back IsEntry held))
    (he : ∀ existing, (f (.existing existing)).Asks InOrder held (Back IsEntry held)) :
    (m >>= f).Asks InOrder held (Back IsEntry held) := by
  refine Asks.bind (hm.mono fun res held' h => ?_)
  cases res with
  | error err => exact h
  | ok r =>
    cases r with
    | created =>
      obtain rfl : held' = .entry e :: held := h
      exact hc
    | noBuffer =>
      obtain rfl : held' = held := h
      exact hn
    | existing existing =>
      obtain rfl : held' = held := h
      exact he existing

theorem NoList.entry (h : NoList held) : NoList (.entry e :: held) := fun l hl =>
  (List.mem_cons.1 hl).elim nofun (h l)

theorem putBack_asks (h : NoList held) (hp : NoPartition held) :
    (holding (.list .FreeList) (putBack (β := β) c e)).Asks InOrder held (Back IsEntry held) :=
  Asks.holdingBack id (inOrder_alone h (.inl hp)) lift_asks

theorem noBuffer_asks {what : String} (h : NoList held) (hp : NoPartition held) : (holding (.list .FreeList) do
    putBack (β := β) c e
    MonadExcept.throw what : PoolProg β α).Asks InOrder held (Back IsEntry held) :=
  Asks.holdingBack id (inOrder_alone h (.inl hp)) (Asks.bindBack lift_asks .rfl fun _ => .rfl)

theorem insertFirst_asks (h : NoList held) : (holding (.list .T1) do
    insertMRU (β := β) c .T1 e
    unlockEntry c e).Asks InOrder (.entry e :: held) (Back IsEntry held) := by
  refine Asks.holding (inOrder_alone h.entry (.inr nofun)) (insertMRU_bind fun s => ?_)
  rw [List.erase_cons_tail (by simp), List.erase_cons_head]
  exact check_end (List.erase_cons_head _ _)

theorem getWith_asks {tag : PageTag} (h : NoList held) (hp : NoPartition held) :
    (getWith (β := β) c tag e).Asks InOrder held (Back IsEntry held) := by
  refine Asks.bindBack lift_asks .rfl fun _ => access_bind fun _ => read_bind fun _ => check_bind ?_
  refine InsertEnd.bind (insertEntry_asks h hp) ?_ (read_bind fun st => check_bind (noBuffer_asks h hp))
    fun existing => ?_
  · exact Asks.thenBack (insertFirst_asks h) fun _ => finishGet_asks
  · exact Asks.bindBack (putBack_asks h hp) .rfl fun _ => Asks.bindBack (handleHit_asks h) .rfl fun _ =>
      finishGet_asks

theorem NoList.partition {i : Nat} (h : NoList held) : NoList (.partition i :: held) := fun l hl =>
  (List.mem_cons.1 hl).elim nofun (h l)

theorem getBuffer_asks {tag : PageTag} (h : NoList held) (hp : NoPartition held) :
    (getBuffer (β := β) c tag).Asks InOrder held (Back IsEntry held) := by
  have hhit :
    ∀ e held, NoList held → (do handleHit (β := β) c e; finishGet c e).Asks InOrder held (Back IsEntry held) :=
    fun e held h => Asks.bindBack (handleHit_asks h) .rfl fun _ => finishGet_asks
  refine Asks.bindBack (Asks.holdingBack id (inOrder_unlisted h hp) (read_bind fun o => ?_)) .rfl fun found => ?_
  · cases o with
    | none => exact .pureBack
    | some e => exact Asks.bindBack lift_asks .rfl fun _ => .pureBack
  cases found with
  | some e => exact hhit e held h
  | none =>
    refine Asks.bindBack (preinsertCleanup_asks h hp) .rfl fun _ => Asks.bindBack (evictCacheEntry_asks h hp) .rfl
      fun o => ?_
    cases o with
    | some e => exact getWith_asks h hp
    | none =>
      refine Asks.holdingBack id (inOrder_unlisted h hp) (read_bind fun o => ?_)
      cases o with
      | none => exact .rfl
      | some e => exact Asks.bindBack lift_asks .rfl fun _ => hhit e _ h.partition

theorem restartIo_asks (n : Nat) : (restartIo (β := β) c e n).Asks InOrder held (Back IsEntry held) := by
  induction n with
  | zero => trivial
  | succ n ih =>
    refine lockEntry_bind fun st => access_bind fun _ => unlockEntry_bind ?_
    exact Asks.bindBack shouldStartIo_asks .rfl fun started => Asks.ite (fun _ => .pureBack) fun _ => ih

theorem writeExtension_asks [Inhabited β] {tag : PageTag} :
    (writeExtension (β := β) c tag e).Asks InOrder held (Back IsEntry held) := by
  refine Asks.bindBack lift_asks .rfl fun _ => check_bind <| bufferOf_bind fun b =>
    Asks.holdingBack id inOrder_page ?_
  refine Asks.bindBack (Asks.rethrow writePage_asks fun _ _ _ => terminateIoError_asks) .rfl fun _ =>
    bufferOf_bind fun b => ?_
  exact Asks.bindBack lift_asks .rfl fun _ => Asks.bindBack terminateIoValid_asks .rfl fun _ => lift_asks

theorem extendRelation_asks [Inhabited β] {relid : Nat} (h : NoList held) (hp : NoPartition held) :
    (extendRelation (β := β) c relid).Asks InOrder held (Back IsEntry held) := by
  refine check_bind (Asks.bindBack (preinsertCleanup_asks h hp) .rfl fun _ =>
    Asks.bindBack (evictCacheEntry_asks h hp) .rfl fun o => ?_)
  cases o with
  | none => exact .rfl
  | some fresh =>
    refine Asks.bindBack lift_asks .rfl fun _ => read_bind fun nblocks => ?_
    refine InsertEnd.bind (insertExtension_asks h hp) ?_ (noBuffer_asks h hp) fun existing => ?_
    · refine Asks.bindBack (Asks.holdingBack id (inOrder_alone h.entry (.inr nofun)) ?_) leaves_entry fun _ => ?_
      · exact Asks.bindBack lift_asks .rfl fun _ _ => rfl
      · refine unlockEntry_bind (Asks.bindBack shouldStartIo_asks .rfl fun started =>
          check_bind writeExtension_asks)
    · refine Asks.bindBack (putBack_asks h hp) .rfl fun _ => read_bind fun st => ?_
      have hrest :
        (do restartIo (β := β) c existing c.rounds; writeExtension c ⟨relid, nblocks⟩ existing).Asks InOrder held
          (Back IsEntry held) := Asks.bindBack (restartIo_asks _) .rfl fun _ => writeExtension_asks
      exact Asks.ite (fun _ => Asks.bindBack (handleGhostHit_asks h _) .rfl fun _ => hrest) fun _ => hrest

/-- Between its calls a worker has no latch of a list and none of the page map. -/
def Rests (held : List PoolLock) : Prop := NoList held ∧ NoPartition held

theorem Back.rests {res : Except String α} {held' : List PoolLock} (hr : Rests held)
    (h : Back IsEntry held res held') : Rests held' := by
  cases res with
  | ok a =>
    obtain rfl : held' = held := h
    exact hr
  | error err =>
    exact ⟨fun l hl => (Leaves.mem h hl).elim id (hr.1 l), fun i hi => (Leaves.mem h hi).elim id (hr.2 i)⟩

theorem ofCall_asks [Inhabited β] (call : PoolCall β) (h : Rests held) :
    (ofCall c call).Asks InOrder held fun _ held' => Rests held' := by
  have hsome : ∀ p : PoolProg β (PageTag × Nat), p.Asks InOrder held (Back IsEntry held) →
      (some <$> p).Asks InOrder held fun _ held' => Rests held' := fun p hp =>
    Asks.bind (hp.mono fun res held' hres => by cases res <;> exact Back.rests h hres)
  have hnone : ∀ p : PoolProg β Unit, p.Asks InOrder held (fun _ held' => Rests held') →
      (p >>= fun _ => return (none : PoolResult)).Asks InOrder held fun _ held' => Rests held' := fun p hp =>
    Asks.bind (hp.mono fun res held' hres => by cases res <;> exact hres)
  cases call with
  | getBuffer tag => exact hsome _ (getBuffer_asks h.1 h.2)
  | extendRelation relid => exact hsome _ (extendRelation_asks h.1 h.2)
  | returnBuffer tag e =>
    exact hnone _ (read_bind fun st => check_bind (Asks.mono (fun _ _ => Back.rests h) lift_asks))
  | lockPage e =>
    refine bufferOf_bind fun b => Asks.acquire inOrder_page ⟨fun l hl => ?_, fun i hi => ?_⟩
    · exact (List.mem_cons.1 hl).elim nofun (h.1 l)
    · exact (List.mem_cons.1 hi).elim nofun (h.2 i)
  | modify e page =>
    refine read_bind fun _ => check_bind <| bufferOf_bind fun b =>
      hnone _ (Asks.mono (fun _ _ => Back.rests h) lift_asks)
  | markDirty e => exact access_bind fun _ => h
  | unlockPage e => exact bufferOf_bind fun b _ =>
    ⟨fun l hl => h.1 l (List.mem_of_mem_erase hl), fun i hi => h.2 i (List.mem_of_mem_erase hi)⟩

end PoolProg

/-! ## Runs -/

open PoolLock PoolProg

namespace PoolWorkers

variable {W β : Type} {c : PoolBuild} {pool : BufferManager β}

/-- The lock of the pool that a worker was refused. -/
def wants (s : PoolWorkers W β) (w : W) : Option PoolLock :=
  if (s.worker w).waiting = true then (s.worker w).prog.asked.filter listed else none

def holds (s : PoolWorkers W β) (w : W) : List PoolLock := (s.worker w).held.filter listed

/-- No cycle of workers waits for itself. -/
def NoDeadlock (s : PoolWorkers W β) : Prop := ∀ w, ¬ Relation.TransGen (WaitsFor s.wants s.holds) w w

/-- A lock that is asked for against the order is free. -/
def GetsAtOnce (s : PoolWorkers W β) : W × PoolStep β → Prop
  | (w, .run _) =>
    ∀ r ∈ (s.worker w).prog.asked, Locks.free s.shared r = false → ∀ r' ∈ (s.worker w).held, against r' r = false
  | _ => True

structure Ordered (s : PoolWorkers W β) : Prop where
  progs : ∀ w, (s.worker w).prog.Asks InOrder (s.worker w).held fun _ held => Rests held
  idle : ∀ w, s.calls w = none → Rests (s.worker w).held
  waits : ∀ w r, s.wants w = some r → ∀ r' ∈ s.holds w, After r r'

theorem Ordered.noDeadlock {s : PoolWorkers W β} (h : Ordered s) : NoDeadlock s := fun w => no_cycle h.waits w

theorem start_ordered (pool : BufferManager β) : Ordered (start pool : PoolWorkers W β) :=
  ⟨fun _ => ⟨nofun, nofun⟩, fun _ _ => ⟨nofun, nofun⟩, nofun⟩

theorem Ordered.finish {s t : PoolWorkers W β} (h : Ordered s) {w : W} (hw : t.worker = s.worker)
    (hc : ∀ u, u ≠ w → t.calls u = s.calls u) (hr : Rests (s.worker w).held) : Ordered t := by
  refine ⟨fun u => hw ▸ h.progs u, fun u hu => ?_, fun u => ?_⟩
  · rw [hw]
    by_cases e : u = w
    · exact e ▸ hr
    · exact h.idle u (hc u e ▸ hu)
  · simp only [wants, holds, hw]
    exact h.waits u

variable [DecidableEq W] {s t : PoolWorkers W β}

theorem Ordered.of_other (h : Ordered s) {w : W} {v : PoolWorker β} (hw : t.worker = Function.update s.worker w v)
    (hc : ∀ u, u ≠ w → t.calls u = s.calls u) (hp : v.prog.Asks InOrder v.held fun _ held => Rests held)
    (hi : t.calls w = none → Rests v.held) (hv : ∀ r, t.wants w = some r → ∀ r' ∈ t.holds w, After r r') :
    Ordered t := by
  have hself : t.worker w = v := by rw [hw, Function.update_self]
  have hother : ∀ u, u ≠ w → t.worker u = s.worker u := fun u hu => by rw [hw, Function.update_of_ne hu]
  refine ⟨fun u => ?_, fun u hu => ?_, fun u => ?_⟩
  · by_cases e : u = w
    · rw [e, hself]
      exact hp
    · rw [hother u e]
      exact h.progs u
  · by_cases e : u = w
    · rw [e, hself]
      exact hi (e ▸ hu)
    · rw [hother u e]
      exact h.idle u (hc u e ▸ hu)
  · by_cases e : u = w
    · rw [e]
      exact hv
    · have hwants : t.wants u = s.wants u := by simp only [wants, hother u e]
      have hholds : t.holds u = s.holds u := by simp only [holds, hother u e]
      rw [hwants, hholds]
      exact h.waits u

variable [Inhabited β]

theorem Ordered.step {op : W × PoolStep β} (h : Ordered s) (hg : GetsAtOnce s op)
    (hs : PoolWorkers.step c s op = some t) :
    Ordered t := by
  obtain ⟨w, op⟩ := op
  cases op with
  | begin call =>
    obtain ⟨⟨-, hidle, -⟩, hs⟩ := Option.ite_none_right_eq_some.1 hs
    cases hs
    have hrest : Rests (s.worker w).held := h.idle w (Option.isNone_iff_eq_none.1 hidle)
    refine h.of_other rfl (fun u hu => Function.update_of_ne hu _ _) (ofCall_asks call hrest) (fun _ => hrest)
      fun r hr => ?_
    simp only [wants, Function.update_self, Bool.false_eq_true, if_false] at hr
    cases hr
  | run io =>
    obtain ⟨⟨-, hcall⟩, hs⟩ := Option.ite_none_right_eq_some.1 hs
    obtain ⟨⟨shared, v⟩, hv, rfl⟩ := Option.map_eq_some_iff.1 hs
    refine h.of_other rfl (fun _ _ => rfl) (Worker.step_asks (h.progs w) hv) (fun hn => ?_) fun r hr r' hr' => ?_
    · rw [show s.calls w = none from hn] at hcall
      cases hcall
    · simp only [wants, holds, Function.update_self] at hr hr'
      obtain ⟨hwait, hr⟩ := Option.ite_none_right_eq_some.1 hr
      obtain ⟨r0, next, hprog, hfree, -, rfl⟩ := Worker.step_waiting hv hwait
      obtain ⟨hasked, hlisted⟩ := Option.filter_eq_some_iff.1 hr
      simp only [hprog, Prog.asked, Option.some.injEq] at hasked
      subst hasked
      obtain ⟨hm, hlr⟩ := List.mem_filter.1 hr'
      have hasks := h.progs w
      rw [hprog] at hasks
      refine (hasks.1 r' hm hlr hlisted).resolve_right fun hag => ?_
      rw [hg r0 (by rw [hprog]; rfl) hfree r' hm] at hag
      cases hag
  | finish =>
    obtain ⟨-, hs⟩ := Option.ite_none_right_eq_some.1 hs
    have hend := h.progs w
    cases hprog : (s.worker w).prog with
    | done r =>
      simp only [hprog] at hs hend
      cases hs
      exact h.finish rfl (fun u hu => Function.update_of_ne hu _ _) hend
    | throw err =>
      simp only [hprog] at hs hend
      cases hs
      exact h.finish rfl (fun u hu => Function.update_of_ne hu _ _) hend
    | _ =>
      simp only [hprog] at hs
      cases hs

/-- While every lock that is asked for against the order is free, nobody waits in a cycle. -/
theorem pool_no_deadlock (h : Reach (step c) GetsAtOnce (start pool) s) : NoDeadlock s :=
  Ordered.noDeadlock (h.inv (fun _ _ _ hs hg ht => hs.step hg ht) (start_ordered pool))

instance (s : PoolWorkers W β) : ∀ op : W × PoolStep β, Decidable (GetsAtOnce s op)
  | (w, .run _) => inferInstanceAs
      (Decidable (∀ r ∈ (s.worker w).prog.asked, _ = _ → ∀ r' ∈ (s.worker w).held, against r' r = false))
  | (_, .begin _) | (_, .finish) => inferInstanceAs (Decidable True)

/-- A pool of one page over files of zeros. -/
def onePage (dbg : Bool) : BufferManager Nat :=
  (BufferManager.create dbg 1 (fun _ => 0) (fun _ => 24576)).toOption.getD
    (BufferManager.blank 1 (fun _ => 0) (fun _ => 24576))

/-- A build with assertions; the hash of a tag is that of its numbers. -/
def build : PoolBuild := ⟨true, fun tag => tag.relid ^^^ (tag.pageno <<< 1), 8⟩

/-- The next steps of a worker. -/
def steps (w n : Nat) : List (Nat × PoolStep Nat) := List.replicate n (w, .run [])

/-- Two workers ask for the same page, and one of them waits for the page map. -/
theorem pool_no_deadlock_wait : ∃ s, Reach (step build) GetsAtOnce (start (onePage true)) s ∧
    s.wants 1 = some (.partition 1) ∧ s.holds 0 = [.partition 1] ∧ NoDeadlock s := by
  have h : (exec (guarded GetsAtOnce (step build)) (start (onePage true))
      ([(0, .begin (.getBuffer ⟨1, 0⟩)), (1, .begin (.getBuffer ⟨1, 0⟩))] ++ steps 0 1 ++ steps 1 1)).map (fun s =>
        decide (s.wants 1 = some (.partition 1) ∧ s.holds 0 = [.partition 1])) = some true := by decide +kernel
  obtain ⟨s, hr, hs⟩ := reach_of_test h
  obtain ⟨hw, hh⟩ := of_decide_eq_true hs
  exact ⟨s, hr.of_guarded, hw, hh, pool_no_deadlock hr.of_guarded⟩

/-- A miss vacates the only entry and asks for `B1` with `T1`; another one reads the sizes of both. -/
theorem misses_deadlock : ∃ s, Reach (step build) anyStep (start (onePage true)) s ∧
    (s.wants 0 = some (.list .B1) ∧ s.holds 0 = [.list .T1] ∧ s.wants 1 = some (.list .T1) ∧
      s.holds 1 = [.list .B1]) ∧
    ¬ NoDeadlock s := by
  have h : (exec (step build) (start (onePage true))
      ([(0, .begin (.getBuffer ⟨1, 0⟩))] ++ steps 0 62 ++ [(0, .finish), (0, .begin (.returnBuffer ⟨1, 0⟩ 0))] ++
        steps 0 2 ++
        [(0, .finish), (0, .begin (.getBuffer ⟨1, 1⟩))] ++ steps 0 19 ++ [(1, .begin (.getBuffer ⟨1, 2⟩))] ++
        steps 1 6 ++
        steps 0 1)).map (fun s => decide (s.wants 0 = some (.list .B1) ∧ s.holds 0 = [.list .T1] ∧
          s.wants 1 = some (.list .T1) ∧ s.holds 1 = [.list .B1])) = some true := by decide +kernel
  obtain ⟨s, hr, hs⟩ := reach_of_test h
  obtain ⟨hw0, hh0, hw1, hh1⟩ := of_decide_eq_true hs
  have h01 : WaitsFor s.wants s.holds 0 1 :=
    ⟨by rw [hh0]; nofun, .list .B1, hw0, by rw [hh1]; exact List.mem_singleton_self _⟩
  have h10 : WaitsFor s.wants s.holds 1 0 :=
    ⟨by rw [hh1]; nofun, .list .T1, hw1, by rw [hh0]; exact List.mem_singleton_self _⟩
  exact ⟨s, hr, ⟨hw0, hh0, hw1, hh1⟩, fun hn => hn 0 (.tail (.single h01) h10)⟩

end PoolWorkers

end Mimidb
