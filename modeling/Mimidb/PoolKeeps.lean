import Mimidb.BufferLedger
import Mimidb.PoolSteps

/-!
# The code of the pool keeps the invariant

The programs of the pool, from the locks and the state words up to reading,
writing and vacating a page: what each of them notes when it returns.
-/

namespace Mimidb

open PoolLock Prog

/-! ## Conditions -/

/-- Nobody has the entry pinned or locked. -/
def SharedPool.Unused {β : Type} (s : SharedPool β) (e : Nat) : Prop :=
  (s.pool.state e).refCount = 0 ∧ (s.pool.state e).locked = false

/-- The lists tell where an entry is: one that is vacated is on the list that it was found in, and one
that is evicted is in nobody's hands until it has a new buffer. No count overflows, and
`ExtendRelation` has the entry to itself that it takes over. -/
def Orderly {W β : Type} (s : SharedPool β) (r : PoolRecord W) : PoolEvent → Prop
  | .vacate e f =>
    (s.pool.state e).isTopList = true ∧ (s.pool.state e).isFrequencyList = f ∧ (s.pool.buffer e).isSome = true ∧
    (s.pool.state e).refCount + 1 < 2 ^ 20
  | .tearDown e => s.Unused e ∧ s.pool.buffer e = none ∧ r.taken e = false
  | .store e => s.Unused e
  | .attach e => (s.pool.state e).locked = false
  | .pin e => (s.pool.state e).refCount + 1 < 2 ^ 20
  | .restart e =>
    (s.pool.state e).refCount = 1 ∧ ((s.pool.state e).dataValid = true → (s.pool.state e).dirty = false)
  | .extension e => (s.pool.state e).dataValid = false
  | _ => True

instance {β : Type} (s : SharedPool β) (e : Nat) : Decidable (s.Unused e) :=
  inferInstanceAs (Decidable ((s.pool.state e).refCount = 0 ∧ (s.pool.state e).locked = false))

instance {W β : Type} (s : SharedPool β) (r : PoolRecord W) (label : PoolEvent) :
    Decidable (Orderly s r label) := by
  cases label <;> dsimp only [Orderly] <;> infer_instance

def poolLogic (W β : Type) [DecidableEq W] :
    LockLogic W PoolLock PoolEvent (SharedPool β) (PoolRecord W) PoolNote where
  inv s r H γ := PoolInv s.view r H γ
  note r w s label := r.note w s.pool label
  cond s r label := Orderly s r label

/-! ## The view of a step -/

section
variable {β : Type} {s : SharedPool β} {e : Nat}

theorem view_setState (st : EntryState) : (s.setState e st).view = { s.view with
    refCount := Function.update s.view.refCount e st.refCount
    top := Function.update s.view.top e st.isTopList
    freq := Function.update s.view.freq e st.isFrequencyList
    io := Function.update s.view.io e st.ioInProgress
    dirty := Function.update s.view.dirty e st.dirty
    valid := Function.update s.view.valid e st.dataValid
    isFree := Function.update s.view.isFree (.entry e) (!st.locked) } := by
  have hupd : ∀ {X : Type} (f : EntryState → X), (fun x => f (Function.update s.pool.state e st x)) =
      Function.update (fun x => f (s.pool.state x)) e (f st) := fun f => Function.comp_update f _ _ _
  have hfree : (Locks.free (s.setState e st) : PoolLock → Bool) = Function.update (Locks.free s) (.entry e)
      (!st.locked) := by
    funext r
    cases r with
    | entry x =>
      by_cases hx : x = e
      · subst hx
        rw [Function.update_self]
        exact congrArg (fun y : EntryState => !y.locked) (Function.update_self ..)
      · rw [Function.update_of_ne (by simpa using hx)]
        exact congrArg (fun y : EntryState => !y.locked) (Function.update_of_ne hx ..)
    | list l => exact (Function.update_of_ne (by simp) ..).symm
    | partition i => exact (Function.update_of_ne (by simp) ..).symm
    | page b => exact (Function.update_of_ne (by simp) ..).symm
  simp only [SharedPool.view, SharedPool.setState, hupd]
  exact congrArg _ hfree

theorem view_refCount (n : Nat) :
    (s.setState e { s.pool.state e with refCount := n }).view =
    { s.view with refCount := Function.update s.view.refCount e n } :=
  (view_setState _).trans (by simp [SharedPool.view, Locks.free])

theorem view_flags (t f : Bool) : (s.setState e { s.pool.state e with isTopList := t, isFrequencyList := f }).view =
    { s.view with top := Function.update s.view.top e t, freq := Function.update s.view.freq e f } :=
  (view_setState _).trans (by simp [SharedPool.view, Locks.free])

theorem view_io (b : Bool) :
    (s.setState e { s.pool.state e with ioInProgress := b }).view =
    { s.view with io := Function.update s.view.io e b } :=
  (view_setState _).trans (by simp [SharedPool.view, Locks.free])

theorem view_endIo (b b' : Bool) : (s.setState e { s.pool.state e with ioInProgress := b, dirty := b' }).view =
    { s.view with io := Function.update s.view.io e b, dirty := Function.update s.view.dirty e b' } :=
  (view_setState _).trans (by simp [SharedPool.view, Locks.free])

theorem view_dirty (b : Bool) :
    (s.setState e { s.pool.state e with dirty := b }).view =
    { s.view with dirty := Function.update s.view.dirty e b } :=
  (view_setState _).trans (by simp [SharedPool.view, Locks.free])

theorem view_valid (b : Bool) :
    (s.setState e { s.pool.state e with dataValid := b }).view =
    { s.view with valid := Function.update s.view.valid e b } :=
  (view_setState _).trans (by simp [SharedPool.view, Locks.free])

theorem view_blank (b : Bool) : (s.setState e { EntryState.empty with tagValid := b }).view = s.view.blank e :=
  view_setState _

theorem view_tagValid (b : Bool) : (s.setState e { s.pool.state e with tagValid := b }).view = s.view :=
  (view_setState _).trans (by simp [SharedPool.view, Locks.free])

theorem free_take (l r : PoolLock) : Locks.free (Locks.take l s) r = Function.update (Locks.free s) l false r := by
  cases l <;> cases r <;> simp [Locks.free, Locks.take, SharedPool.setState, Function.update_apply]
  grind

theorem free_give (l r : PoolLock) (h : l.listed = true → s.view.isFree l = false) :
    Locks.free (Locks.give l s) r = Function.update (Locks.free s) l true r := by
  cases l <;> cases r <;> simp_all [Locks.free, Locks.give, SharedPool.setState, SharedPool.view, listed,
    Function.update_apply]
  grind

theorem view_take (l : PoolLock) :
    (Locks.take l s).view = { s.view with isFree := Function.update s.view.isFree l false } := by
  have hf : (Locks.free (Locks.take l s) : PoolLock → Bool) = Function.update (Locks.free s) l false :=
    funext (free_take l)
  cases l with
  | entry e => exact (view_setState _).trans (by simp [SharedPool.view])
  | list l => exact congrArg (fun f => { s.view with isFree := f }) hf
  | partition i => exact congrArg (fun f => { s.view with isFree := f }) hf
  | page b => exact congrArg (fun f => { s.view with isFree := f }) hf

theorem view_give (l : PoolLock) (h : l.listed = true → s.view.isFree l = false) :
    (Locks.give l s).view = { s.view with isFree := Function.update s.view.isFree l true } := by
  have hf : (Locks.free (Locks.give l s) : PoolLock → Bool) = Function.update (Locks.free s) l true :=
    funext fun r => free_give l r h
  cases l with
  | entry e =>
    have hl : (s.pool.state e).locked = true := by simpa [SharedPool.view, Locks.free] using h rfl
    exact (view_setState _).trans (by simp [SharedPool.view, hl])
  | list l => exact congrArg (fun f => { s.view with isFree := f }) hf
  | partition i => exact congrArg (fun f => { s.view with isFree := f }) hf
  | page b => exact congrArg (fun f => { s.view with isFree := f }) hf

end

/-! ## Rules -/

/-- Nothing that the invariant speaks of has changed. -/
def BufferManager.Alike {β : Type} (s t : BufferManager β) : Prop :=
  t.state = s.state ∧ t.buffer = s.buffer ∧ t.freeBuffers = s.freeBuffers

theorem BufferManager.Alike.view {β : Type} {s : SharedPool β} {t : BufferManager β}
    (h : BufferManager.Alike s.pool t) :
    ({ s with pool := t } : SharedPool β).view = s.view := by
  obtain ⟨hs, hb, hf⟩ := h
  have hfree : (Locks.free ({ s with pool := t } : SharedPool β) : PoolLock → Bool) = Locks.free s := by
    funext r
    cases r with
    | entry e => exact congrArg (fun st => !(EntryState.locked (st e))) hs
    | _ => rfl
  simp only [SharedPool.view, hs, hb, hf]
  exact congrArg _ hfree

/-- Whatever it does, it leaves the entries and the buffers alone. -/
def BufferManager.Quiet {β α : Type} (m : BufferManager.PoolM β α) : Prop :=
  ∀ s, Fallible.Maintains (BufferManager.Alike s) m

theorem BufferManager.Quiet.view {β α : Type} {m : BufferManager.PoolM β α} (hm : BufferManager.Quiet m)
    (s : SharedPool β) :
    ({ s with pool := (m s.pool).2 } : SharedPool β).view = s.view :=
      BufferManager.Alike.view ((hm s.pool).exec ⟨rfl, rfl, rfl⟩)

namespace BufferManager

variable {β : Type} {dbg : Bool} {l : ListId} {e : Nat}

theorem alike_offLists {s : BufferManager β} : OffLists (Alike s) := fun _ _ _ _ h => h

theorem quiet_insertMRU : Quiet (insertMRU (β := β) dbg l e) := fun _ => insertMRU_maintains alike_offLists

theorem quiet_removeEntry : Quiet (removeEntry (β := β) dbg l e) := fun _ => removeEntry_maintains alike_offLists

theorem quiet_moveMRU : Quiet (moveMRU (β := β) dbg l e) := fun _ => moveMRU_maintains alike_offLists

theorem quiet_nextIo : Quiet (nextIo (β := β)) := by
  intro s t ht
  obtain ⟨io, h | ⟨h, -⟩⟩ := nextIo_cases t
  · rw [h]
    exact ht
  · rw [h]
    exact ht

theorem quiet_modify {f : BufferManager β → BufferManager β} (h : ∀ s, Alike s (f s)) : Quiet (modify f) := fun _ =>
  .modify fun t ht => ⟨(h t).1.trans ht.1, (h t).2.1.trans ht.2.1, (h t).2.2.trans ht.2.2⟩

theorem quiet_readPage {tag : PageTag} : Quiet (readPage (β := β) tag) := fun s => by
  unfold readPage
  exact .bind (quiet_nextIo s) fun _ => .ite (fun _ _ hs => hs) fun _ => .bind .get fun _ => .pure

theorem quiet_makeBufferPin : Quiet (makeBufferPin (β := β) dbg e) := fun _ =>
  .bind .get fun _ => .bind (check_ledger _) fun _ => .bind (check_ledger _) fun _ => .bind (check_ledger _)
    fun _ => .pure

end BufferManager

/-- The note has nothing to do with the lock of the entry. -/
structure PoolNote.Frees (g : PoolNote) (e : Nat) : Prop where
  vac : ∀ x, g.vac = some x → ¬ x.needs (.entry e)
  hand : g.hand ≠ some (e, .ready)

def PoolNote.drop (g : PoolNote) : PoolNote := { g with vac := none }

theorem PoolNote.Within.rfl {g : PoolNote} : g.Within g :=
  ⟨.inr (by rfl), .inr (by rfl), .inr (by rfl), .inr (by rfl), .inr (by rfl)⟩

section
variable {g : PoolNote} {e : Nat}

theorem PoolNote.drop_calm (g : PoolNote) : g.drop.calm := nofun

theorem PoolNote.calm_of_vac (hv : g.vac = none) : g.calm := fun e f b h => by
  rw [hv] at h
  cases h

theorem PoolNote.frees_of_vac (hv : g.vac = none) (hh : g.hand ≠ some (e, .ready)) : g.Frees e where
  vac x hx := by
    rw [hv] at hx
    cases hx
  hand := hh

theorem PoolNote.calm_of_pinned {f : Bool} {b : Nat} {fl : Flush} (hx : g.vac = some (.pinned e f b fl))
    (hfl : fl ≠ .failing) : g.calm := by
  intro e' f' b' h
  rw [hx] at h
  cases h
  exact hfl rfl

theorem PoolNote.frees_of_pinned {f : Bool} {b : Nat} {fl : Flush} (hx : g.vac = some (.pinned e f b fl))
    (hfl : fl ≠ .failing) (hh : g.hand ≠ some (e, .ready)) : g.Frees e where
  vac x hx' := by
    rw [hx] at hx'
    cases hx'
    rintro (h | ⟨h, -⟩)
    · cases h
    · exact hfl h
  hand := hh

/-- Nothing is noted that a part of the replacement has to look at. -/
structure PoolNote.Light (g : PoolNote) : Prop where
  vac : g.vac = none
  data : g.data = none
  hand : ∀ e, g.hand ≠ some (e, .ready)

theorem PoolNote.Light.calm (h : g.Light) : g.calm := PoolNote.calm_of_vac h.vac

theorem PoolNote.Light.frees (h : g.Light) (e : Nat) : g.Frees e := PoolNote.frees_of_vac h.vac (h.hand e)

theorem PoolNote.Light.forget (h : g.Light) : { g with data := none } = g := by
  obtain ⟨hand, vac, took, data, uses⟩ := g
  obtain rfl : data = none := h.data
  rfl

theorem PoolNote.Light.drop (h : g.Light) : g.drop = g := by
  obtain ⟨hand, vac, took, data, uses⟩ := g
  obtain rfl : vac = none := h.vac
  rfl

end

namespace PoolProg

open PoolNote

section
variable {W β α : Type} [DecidableEq W] {w : W} {c : PoolBuild} {held base : List PoolLock} {g g' : PoolNote}
  {e : Nat}
  {Q : Except String α → List PoolLock → PoolNote → Prop} {F : PoolNote → Prop}

/-- The program of `w` keeps the invariant of the pool. -/
abbrev Kept (w : W) (p : PoolProg β α) (held : List PoolLock) (g : PoolNote)
    (Q : Except String α → List PoolLock → PoolNote → Prop) :
    Prop := p.Keeps (poolLogic W β) w held g Q

/-- It returns with the locks it was called with. -/
abbrev Does (w : W) (p : PoolProg β α) (held : List PoolLock) (g : PoolNote) (φ : α → PoolNote → Prop) : Prop :=
  Kept w p held g (Ends IsEntry PoolNote.calm held φ)

theorem inv_same {v : PoolView} {r : PoolRecord W} {H : W → List PoolLock} {γ : W → PoolNote}
    (h : PoolInv v r H γ) :
    PoolInv v r H (Function.update γ w (γ w)) := by rwa [Function.update_eq_self]

theorem read_kept {X : Type} {f : BufferManager β → X} {k : X → PoolProg β α} (h : ∀ a, Kept w (k a) held g Q) :
    Kept w (read f >>= k) held g Q := by
  rintro s r H γ hI - rfl -
  exact ⟨γ w, inv_same hI, h _⟩

theorem read_ends {f : BufferManager β → α} : Kept w (read f) held g (Ends IsEntry F held fun _ g' => g' = g) := by
  rintro s r H γ hI - rfl -
  exact ⟨γ w, inv_same hI, rfl, rfl⟩

theorem read_noted {X : Type} {f : BufferManager β → X} {k : X → PoolProg β α}
    (h : ∀ (s : SharedPool β) r H γ, PoolInv s.view r H γ → H w = held → γ w = g →
      ∃ g', PoolInv s.view r H (Function.update γ w g') ∧ Kept w (k (f s.pool)) held g' Q) :
    Kept w (read f >>= k) held g Q := fun s r H γ hI hH hγ _ => h s r H γ hI hH hγ

theorem update_kept {label : PoolEvent} {f : EntryState → EntryState} {k : Unit → PoolProg β α}
    (h : ∀ (s : SharedPool β) r H γ, PoolInv s.view r H γ → H w = held → γ w = g → Orderly s r label →
      ∃ g', PoolInv (s.setState e (f (s.pool.state e))).view (r.note w s.pool label) H (Function.update γ w g') ∧
      Kept w (k ()) held g' Q) :
    Kept w (update label e f >>= k) held g Q := fun s r H γ hI hH hγ ho => h s r H γ hI hH hγ ho

theorem check_kept {dbg b : Bool} {k : Unit → PoolProg β α} (h : Kept w (k ()) held g Q) :
    Kept w (check dbg b >>= k) held g Q := by
  unfold check
  split
  · trivial
  · exact h

theorem check_last {dbg b : Bool} {Q : Except String Unit → List PoolLock → PoolNote → Prop}
    (h : Q (.ok ()) held g) :
    Kept w (check (β := β) dbg b) held g Q := by
  unfold check
  split
  · trivial
  · exact h

theorem check_ends {dbg b : Bool} {φ : Unit → PoolNote → Prop} (h : φ () g) :
    Kept w (check (β := β) dbg b) held g (Ends IsEntry F held φ) := check_last ⟨rfl, h⟩

theorem lift_noted {X : Type} {m : BufferManager.PoolM β X} {k : X → PoolProg β α} (hm : BufferManager.Quiet m)
    (hk : ∀ (s : SharedPool β) r H γ, PoolInv s.view r H γ → H w = held → γ w = g →
      ∃ g', PoolInv s.view r H (Function.update γ w g') ∧ match (m s.pool).1 with
        | .ok a => Kept w (k a) held g' Q
        | .error (.runtimeError what) => Q (.error what) held g'
        | .error _ => True) : Kept w (lift .other m >>= k) held g Q := by
  rintro s r H γ hI rfl rfl -
  obtain ⟨g', hI', hk⟩ := hk s r H γ hI rfl rfl
  refine ⟨g', ?_, ?_⟩
  · show PoolInv (SharedPool.view { s with pool := (m s.pool).2 }) r H (Function.update γ w g')
    rw [hm.view s]
    exact hI'
  · dsimp only
    generalize (m s.pool).1 = res at hk ⊢
    cases res with
    | ok a => exact hk
    | error err => cases err <;> exact hk

theorem lift_ends {m : BufferManager.PoolM β α} (hm : BufferManager.Quiet m) (hg : F g) :
    Kept w (lift .other m) held g (Ends IsEntry F held fun _ g' => g' = g) := by
  rintro s r H γ hI rfl rfl -
  refine ⟨γ w, ?_, ?_⟩
  · show PoolInv (SharedPool.view { s with pool := (m s.pool).2 }) r H (Function.update γ w (γ w))
    rw [hm.view s]
    exact inv_same hI
  · dsimp only
    split
    · exact ⟨rfl, rfl⟩
    · exact ⟨.rfl, hg⟩
    · trivial

theorem quiet_bufferOf : BufferManager.Quiet (β := β) (do
    match (← get).buffer e with
    | some b => return b
    | none => throw .nullPointer) := fun _ => .bind .get fun s => by
  cases s.buffer e with
  | some b => exact .pure
  | none => exact .throw

theorem bufferOf_noted {k : Nat → PoolProg β α}
    (h : ∀ (s : SharedPool β) r H γ b, PoolInv s.view r H γ → H w = held → γ w = g → s.pool.buffer e = some b →
      ∃ g', PoolInv s.view r H (Function.update γ w g') ∧ Kept w (k b) held g' Q) : Kept w (bufferOf e >>= k) held g
        Q := by
  refine lift_noted quiet_bufferOf fun s r H γ hI hH hγ => ?_
  simp only [Fallible.bind_apply, Fallible.get_apply]
  cases hb : s.pool.buffer e with
  | some b => exact h s r H γ b hI hH hγ hb
  | none => exact ⟨g, hγ ▸ inv_same hI, trivial⟩

theorem bufferOf_kept {k : Nat → PoolProg β α} (h : ∀ b, Kept w (k b) held g Q) :
    Kept w (bufferOf e >>= k) held g Q :=
  bufferOf_noted fun _ _ _ _ b hI _ hγ _ => ⟨g, hγ ▸ inv_same hI, h b⟩

theorem bufferOf_vac {f : Bool} {b : Nat} {fl : Flush} {k : Nat → PoolProg β α}
    (hx : g.vac = some (.pinned e f b fl)) (h : Kept w (k b) held g Q) : Kept w (bufferOf e >>= k) held g Q :=
  bufferOf_noted fun s r H γ b' hI _ hγ hb' => by
    obtain ⟨-, -, hb⟩ := hI.vacating.listed w e f b fl (hγ ▸ hx)
    obtain rfl : b = b' := Option.some.inj (hb.symm.trans hb')
    exact ⟨g, hγ ▸ inv_same hI, h⟩

/-! ### Pins -/

theorem pin_run (dbg : Bool) (s : BufferManager β) :
    (BufferManager.pin dbg e s).2 =
    { s with state := Function.update s.state e { s.state e with refCount := (s.state e).refCount + 1 } } ∧
      ((BufferManager.pin dbg e s).1 = .ok () ∨ (BufferManager.pin dbg e s).1 = .error .assertion) := by
  unfold BufferManager.pin
  simp only [Fallible.bind_apply, BufferManager.getState, BufferManager.setState, Fallible.get_apply,
    Fallible.pure_apply, Fallible.modify_apply, BufferManager.check, Fallible.ofExcept, assert]
  split
  · exact ⟨trivial, .inr rfl⟩
  · exact ⟨trivial, .inl rfl⟩

theorem unpin_run (dbg : Bool) (s : BufferManager β) :
    (BufferManager.unpin dbg e s).2 =
    { s with state := Function.update s.state e { s.state e with refCount := (s.state e).refCount - 1 } } ∧
      ((BufferManager.unpin dbg e s).1 = .ok () ∨ (BufferManager.unpin dbg e s).1 = .error .assertion) := by
  unfold BufferManager.unpin
  simp only [Fallible.bind_apply, BufferManager.getState, BufferManager.setState, Fallible.get_apply,
    Fallible.pure_apply, Fallible.modify_apply, BufferManager.check, Fallible.ofExcept, assert]
  split
  · exact ⟨trivial, .inr rfl⟩
  · exact ⟨trivial, .inl rfl⟩

/-- A step that only counts; its assertion ends the process. -/
theorem count_last {label : PoolEvent} {m : BufferManager.PoolM β Unit} {n : Nat → Nat}
    {Q : Except String Unit → List PoolLock → PoolNote → Prop}
    (hm : ∀ s, (m s).2 =
      { s with state := Function.update s.state e { s.state e with refCount := n (s.state e).refCount } } ∧
      ((m s).1 = .ok () ∨ (m s).1 = .error .assertion))
    (h : ∀ (s : SharedPool β) r H γ, PoolInv s.view r H γ → H w = held → γ w = g → Orderly s r label →
      ∃ g', PoolInv { s.view with refCount := Function.update s.view.refCount e (n (s.view.refCount e)) }
        (r.note w s.pool label) H
        (Function.update γ w g') ∧ Q (.ok ()) held g') : Kept w (lift label m) held g Q := by
  intro s r H γ hI hH hγ ho
  obtain ⟨g', hI', hq⟩ := h s r H γ hI hH hγ ho
  obtain ⟨hs, hr⟩ := hm s.pool
  refine ⟨g', ?_, ?_⟩
  · show PoolInv (SharedPool.view { s with pool := (m s.pool).2 }) _ _ _
    rw [hs]
    exact (view_refCount (n (s.pool.state e).refCount)).symm ▸ hI'
  · dsimp only
    rcases hr with hr | hr
    · rw [hr]
      exact hq
    · rw [hr]
      trivial

theorem count_kept {label : PoolEvent} {m : BufferManager.PoolM β Unit} {n : Nat → Nat} {k : Unit → PoolProg β α}
    (hm : ∀ s, (m s).2 =
      { s with state := Function.update s.state e { s.state e with refCount := n (s.state e).refCount } } ∧
      ((m s).1 = .ok () ∨ (m s).1 = .error .assertion))
    (h : ∀ (s : SharedPool β) r H γ, PoolInv s.view r H γ → H w = held → γ w = g → Orderly s r label →
      ∃ g', PoolInv { s.view with refCount := Function.update s.view.refCount e (n (s.view.refCount e)) }
        (r.note w s.pool label) H
        (Function.update γ w g') ∧ Kept w (k ()) held g' Q) : Kept w (lift label m >>= k) held g Q :=
  Keeps.bind (count_last hm h)

/-! ### Locks -/

theorem takes_lock {l : PoolLock} : Takes (poolLogic W β) w l held g g := by
  rintro s r H γ hI rfl rfl hf
  show PoolInv (Locks.take l s).view r _ _
  rw [view_take]
  exact inv_same (hI.take hf)

theorem give_inv {s : SharedPool β} {r : PoolRecord W} {H : W → List PoolLock} {γ : W → PoolNote} {l : PoolLock}
    (hI : PoolInv s.view r H γ) (hl : l.listed = true → l ∈ H w) (hg : g.Within (γ w)) (hc : (γ w).calm)
    (hv : ∀ x, g.vac = some x → ¬ x.needs l) (hh : ∀ e, g.hand = some (e, .ready) → l ≠ .entry e) :
    PoolInv (Locks.give l s).view r (Function.update H w ((H w).erase l)) (Function.update γ w g) := by
  rw [view_give l fun h => hI.locks.taken w l h (hl h)]
  refine (hI.forget hg hc).give hl ?_ ?_
  · rwa [Function.update_self]
  · rwa [Function.update_self]

theorem gives_list {l : ListId} (hm : .list l ∈ held) (hc : g.calm) :
    Gives (poolLogic W β) w (.list l) held g g.drop := by
  rintro s r H γ hI rfl rfl
  exact give_inv hI (fun _ => hm) { PoolNote.Within.rfl with vac := .inl rfl } hc nofun nofun

theorem gives_partition {i : Nat} (hm : .partition i ∈ held) (hc : g.calm) :
    Gives (poolLogic W β) w (.partition i) held g g := by
  rintro s r H γ hI rfl rfl
  exact give_inv hI (fun _ => hm) .rfl hc (fun x _ => by cases x <;> simp [Vac.needs]) nofun

theorem gives_page {b : Nat} (hc : g.calm) : Gives (poolLogic W β) w (.page b) held g g := by
  rintro s r H γ hI rfl rfl
  exact give_inv hI nofun .rfl hc (fun x _ => by cases x <;> simp [Vac.needs]) nofun

theorem holding_list {l : ListId} {p : PoolProg β α} {φ : α → PoolNote → Prop}
    (hp : Kept w p (.list l :: held) g (Ends IsEntry PoolNote.calm (.list l :: held) fun a g => g.calm ∧
      φ a g.drop)) :
    Does w (holding (.list l) p) held g φ :=
  Keeps.holdingEnds id takes_lock (fun _ _ hm hc => gives_list hm hc) (fun g _ => g.drop_calm) hp

theorem holding_partition {i : Nat} {p : PoolProg β α} {φ : α → PoolNote → Prop}
    (hp : Kept w p (.partition i :: held) g (Ends IsEntry PoolNote.calm (.partition i :: held) fun a g => g.calm ∧
      φ a g)) :
    Does w (holding (.partition i) p) held g φ :=
  Keeps.holdingEnds (D := id) id takes_lock (fun _ _ hm hc => gives_partition hm hc) (fun _ hc => hc) hp

theorem holding_page {b : Nat} {p : PoolProg β α} {φ : α → PoolNote → Prop}
    (hp : Kept w p (.page b :: held) g (Ends IsEntry PoolNote.calm (.page b :: held) fun a g => g.calm ∧ φ a g)) :
    Does w (holding (.page b) p) held g φ :=
  Keeps.holdingEnds (D := id) id takes_lock (fun _ _ _ hc => gives_page hc) (fun _ hc => hc) hp

theorem lockEntry_kept {k : EntryState → PoolProg β α} (h : ∀ st, Kept w (k st) (.entry e :: held) g Q) :
    Kept w (lockEntry e >>= k) held g Q := fun s r H γ hI hH hγ hf => ⟨g, takes_lock s r H γ hI hH hγ hf, h _⟩

theorem lockEntry_noted {k : EntryState → PoolProg β α}
    (h : ∀ (s : SharedPool β) r H γ, PoolInv s.view r H γ → H w = .entry e :: held → γ w = g →
      (s.pool.state e).locked = true →
      ∃ g', PoolInv s.view r H (Function.update γ w g') ∧ Kept w (k (s.pool.state e)) (.entry e :: held) g' Q) :
    Kept w (lockEntry e >>= k) held g Q := by
  rintro s r H γ hI rfl rfl hf
  have hI' : PoolInv (Locks.take (PoolLock.entry e) s).view r (Function.update H w (.entry e :: H w)) γ := by
    rw [view_take]
    exact PoolInv.take hI hf
  have hst : (Locks.take (PoolLock.entry e) s).pool.state e = { s.pool.state e with locked := true } :=
    Function.update_self ..
  obtain ⟨g', hg, hk⟩ := h _ r _ γ hI' (Function.update_self ..) rfl (by rw [hst])
  exact ⟨g', hg, by rw [hst] at hk; exact hk⟩

theorem unlockEntry_forget {k : Unit → PoolProg β α} (hm : .entry e ∈ held) (hg : g'.Within g) (hc : g.calm)
    (hf : g'.Frees e)
    (h : Kept w (k ()) (held.erase (.entry e)) g' Q) : Kept w (unlockEntry c e >>= k) held g Q := by
  rintro s r H γ hI rfl rfl
  refine ⟨g', give_inv hI (fun _ => hm) hg hc hf.vac ?_, check_kept h⟩
  rintro e' he' ⟨⟩
  exact hf.hand he'

theorem unlockEntry_kept {k : Unit → PoolProg β α} (hc : g.calm) (hf : g.Frees e) (h : Kept w (k ()) held g Q) :
    Kept w (unlockEntry c e >>= k) (.entry e :: held) g Q :=
  unlockEntry_forget List.mem_cons_self .rfl hc hf (by rwa [List.erase_cons_head])

theorem unlockEntry_last {Q : Except String Unit → List PoolLock → PoolNote → Prop} (hm : .entry e ∈ held)
    (hc : g.calm) (hf : g.Frees e)
    (h : Q (.ok ()) (held.erase (.entry e)) g) : Kept w (unlockEntry (β := β) c e) held g Q := by
  rintro s r H γ hI rfl rfl
  refine ⟨γ w, give_inv hI (fun _ => hm) .rfl hc hf.vac ?_, check_last h⟩
  rintro e' he' ⟨⟩
  exact hf.hand he'

theorem unlockEntry_ends {φ : Unit → PoolNote → Prop} (hc : g.calm) (hf : g.Frees e) (h : φ () g) :
    Kept w (unlockEntry (β := β) c e) (.entry e :: held) g (Ends IsEntry F held φ) :=
  unlockEntry_last List.mem_cons_self hc hf ⟨List.erase_cons_head _ _, h⟩

/-! ## Input and output -/

theorem waitFor_does (hg : g.calm) (hf : g.Frees e) (n : Nat) :
    Kept w (waitFor (β := β) c e n) held g (Ends IsEntry F held fun _ g' => g' = g) := by
  induction n with
  | zero => trivial
  | succ n ih =>
    refine lockEntry_kept fun st => unlockEntry_kept hg hf
      (Keeps.ite (fun _ => ⟨rfl, rfl⟩) fun _ => bufferOf_kept fun b => ?_)
    refine Keeps.acquire takes_lock (read_kept fun st => Keeps.ite (fun _ => ?_) fun _ => ?_)
    · refine Keeps.release (gives_page hg) (Keeps.acquire takes_lock (Keeps.release (gives_page hg) ?_))
      rwa [List.erase_cons_head, List.erase_cons_head]
    · refine Keeps.release (gives_page hg) ?_
      rwa [List.erase_cons_head]

theorem waitIo_does (hg : g.calm) (hf : g.Frees e) :
    Kept w (waitIo (β := β) c e) held g (Ends IsEntry F held fun _ g' => g' = g) :=
  read_kept fun _ => check_kept (waitFor_does hg hf _)

theorem startRead_does (hh : g.hand = some (e, .passed)) (hv : g.vac = none) (n : Nat) :
    Does w (startIo (β := β) c e true n) held g fun started g' =>
      g' = { g with hand := some (e, if started then .input else .valid) } := by
  have hf : g.Frees e := frees_of_vac hv (by rw [hh]; nofun)
  induction n with
  | zero => trivial
  | succ n ih =>
    refine lockEntry_noted fun s r H γ hI hH hγ _ => ?_
    subst hγ
    cases hio : (s.pool.state e).ioInProgress with
    | true =>
      refine ⟨γ w, inv_same hI, unlockEntry_kept (calm_of_vac hv) hf ?_⟩
      refine Keeps.bindEnds (waitIo_does (calm_of_vac hv) hf) .rfl ?_
      rintro _ _ rfl
      exact ih
    | false =>
      cases hd : (s.pool.state e).dataValid with
      | true => exact ⟨_, hI.read hh rfl hd, unlockEntry_kept (calm_of_vac hv) (frees_of_vac hv nofun) ⟨rfl, rfl⟩⟩
      | false =>
        have hl : .entry e ∈ H w := hH ▸ List.mem_cons_self
        refine ⟨_, hI.ready hh rfl hl hio hd, ?_⟩
        rintro s r H γ' hI - hγ -
        have hI' := PoolInv.startInput hI (w := w) (e := e) (by rw [hγ])
        rw [← view_io, hγ] at hI'
        exact ⟨_, hI', unlockEntry_kept (calm_of_vac hv) (frees_of_vac hv nofun) ⟨rfl, rfl⟩⟩

theorem startWrite_does {f : Bool} {b : Nat} (hx : g.vac = some (.pinned e f b .secure))
    (hh : g.hand ≠ some (e, .ready)) (n : Nat) :
    Does w (startIo (β := β) c e false n) held g fun started g' =>
      g' = if started then g else { g with vac := some (.pinned e f b .clean) } := by
  have hg : g.calm := calm_of_pinned hx nofun
  have hf : g.Frees e := frees_of_pinned hx nofun hh
  induction n with
  | zero => trivial
  | succ n ih =>
    refine lockEntry_noted fun s r H γ hI hH hγ _ => ?_
    subst hγ
    cases hio : (s.pool.state e).ioInProgress with
    | true =>
      refine ⟨γ w, inv_same hI, unlockEntry_kept hg hf (Keeps.bindEnds (waitIo_does hg hf) .rfl ?_)⟩
      rintro _ _ rfl
      exact ih
    | false =>
      have hl : .entry e ∈ H w := hH ▸ List.mem_cons_self
      cases hd : (s.pool.state e).dirty with
      | false =>
        exact ⟨_, hI.cleaned hx hl hd, unlockEntry_kept (calm_of_pinned rfl nofun) (frees_of_pinned rfl nofun hh)
          ⟨rfl, rfl⟩⟩
      | true =>
        refine ⟨γ w, inv_same hI, ?_⟩
        rintro s r H γ' hI - hγ -
        have hI' := inv_same (w := w) (PoolInv.startWrite hI (w := w) (hγ ▸ hx))
        rw [← view_io, hγ] at hI'
        exact ⟨_, hI', unlockEntry_kept hg hf ⟨rfl, rfl⟩⟩

theorem endRead_error (hh : g.hand = some (e, .input)) (hv : g.vac = none) :
    Does w (terminateIoError (β := β) c e) held g fun _ g' => g' = { g with hand := some (e, .passed) } := by
  refine lockEntry_kept fun st => check_kept ?_
  rintro s r H γ hI hH hγ -
  have hI' := PoolInv.endRead hI (w := w) (e := e) (by rw [hγ, hh]) (hH ▸ List.mem_cons_self)
  rw [← view_endIo, hγ] at hI'
  refine ⟨_, hI', ?_⟩
  rintro s r H γ hI hH hγ -
  have hI' := (PoolInv.soil hI (e := e)).back (w := w) (e := e) (k := .ready) (by rw [hγ]) rfl
  rw [← view_dirty, hγ] at hI'
  exact ⟨_, hI', unlockEntry_kept (calm_of_vac hv) (frees_of_vac hv nofun) (read_kept fun _ => check_ends rfl)⟩

theorem endRead_valid (hh : g.hand = some (e, .input)) (hv : g.vac = none) :
    Does w (terminateIoValid (β := β) c e) held g fun _ g' => g' = { g with hand := some (e, .valid) } := by
  refine lockEntry_kept fun st => check_kept ?_
  rintro s r H γ hI hH hγ -
  have hI' := PoolInv.endRead hI (w := w) (e := e) (by rw [hγ, hh]) (hH ▸ List.mem_cons_self)
  rw [← view_endIo, hγ] at hI'
  refine ⟨_, hI', ?_⟩
  rintro s r H γ hI hH hγ -
  have hI' := PoolInv.readIn hI (w := w) (e := e) (by rw [hγ])
  rw [← view_valid, hγ] at hI'
  exact ⟨_, hI', unlockEntry_kept (calm_of_vac hv) (frees_of_vac hv nofun) (read_kept fun _ => check_ends rfl)⟩

theorem endWrite_error {f : Bool} {b : Nat} {fl : Flush} (hx : g.vac = some (.pinned e f b fl))
    (hfl : fl ≠ .failing) (hh : g.hand ≠ some (e, .ready)) :
    Does w (terminateIoError (β := β) c e) held g fun _ g' => g'.calm := by
  refine lockEntry_kept fun st => check_kept ?_
  rintro s r H γ hI hH hγ -
  cases fl with
  | secure =>
    have hI' := PoolInv.failWrite hI (w := w) (hγ ▸ hx) (hH ▸ List.mem_cons_self)
    rw [← view_endIo, hγ] at hI'
    refine ⟨_, hI', ?_⟩
    rintro s r H γ hI hH hγ -
    have hI' := PoolInv.failed hI (w := w) (e := e) (f := f) (b := b) (by rw [hγ])
    rw [← view_dirty, hγ] at hI'
    refine ⟨_, hI', unlockEntry_kept (calm_of_pinned rfl nofun) (frees_of_pinned rfl nofun hh)
      (read_kept fun _ => check_ends ?_)⟩
    exact calm_of_pinned rfl nofun
  | clean =>
    have hI' := inv_same (w := w) (PoolInv.endWrite hI (w := w) (hγ ▸ hx))
    rw [← view_endIo, hγ] at hI'
    refine ⟨_, hI', ?_⟩
    rintro s r H γ hI hH hγ -
    have hI' := inv_same (w := w) (PoolInv.soil hI (e := e))
    rw [← view_dirty, hγ] at hI'
    refine ⟨_, hI', unlockEntry_kept (calm_of_pinned hx nofun) (frees_of_pinned hx nofun hh)
      (read_kept fun _ => check_ends ?_)⟩
    exact calm_of_pinned hx nofun
  | failing => exact absurd rfl hfl

theorem endWrite_valid {f : Bool} {b : Nat} (hx : g.vac = some (.pinned e f b .clean))
    (hh : g.hand ≠ some (e, .ready)) :
    Does w (terminateIoValid (β := β) c e) held g fun _ g' => g' = g := by
  refine lockEntry_kept fun st => check_kept ?_
  rintro s r H γ hI hH hγ -
  have hI' := inv_same (w := w) (PoolInv.endWrite hI (w := w) (hγ ▸ hx))
  rw [← view_endIo, hγ] at hI'
  refine ⟨_, hI', ?_⟩
  rintro s r H γ hI hH hγ -
  have hI' := inv_same (w := w) (PoolInv.validate hI (e := e) fun u =>
    ⟨fun hu => (nomatch hI.behind (w := w) (hγ ▸ hx) hu), fun hu => (nomatch hI.behind (w := w) (hγ ▸ hx) hu)⟩)
  rw [← view_valid, hγ] at hI'
  exact ⟨_, hI', unlockEntry_kept (calm_of_pinned hx nofun) (frees_of_pinned hx nofun hh)
    (read_kept fun _ => check_ends rfl)⟩

theorem shouldRead_does (hh : g.hand = some (e, .passed)) (hv : g.vac = none) :
    Does w (shouldStartIo (β := β) c e true) held g fun started g' =>
      g' = { g with hand := some (e, if started then .input else .valid) } := startRead_does hh hv _

theorem readBuffer_does (hh : g.hand = some (e, .passed)) (hv : g.vac = none) :
    Does w (readBuffer (β := β) c e) held g fun _ g' => g' = { g with hand := some (e, .valid) } := by
  refine read_noted fun s r H γ hI _ hγ => ?_
  subst hγ
  cases hd : (s.pool.state e).dataValid with
  | true => exact ⟨_, hI.read hh rfl hd, Keeps.ite (fun _ => ⟨rfl, rfl⟩) fun hn => absurd rfl hn⟩
  | false =>
    refine ⟨γ w, inv_same hI, Keeps.ite (fun hn => (nomatch hn)) fun _ => ?_⟩
    refine Keeps.bindEnds (shouldRead_does hh hv) .rfl fun started g hg => Keeps.ite (fun hs => ?_) fun hs => ?_
    · obtain rfl : started = false := by simpa using hs
      exact ⟨rfl, hg⟩
    · obtain rfl : started = true := by simpa using hs
      have hh : g.hand = some (e, .input) := by rw [hg]; rfl
      have hv : g.vac = none := by rw [hg]; exact hv
      refine read_kept fun _ => check_kept <| bufferOf_kept fun b =>
        holding_page (Keeps.bindEnds (φ := fun _ g' => g' = g) ?_ .rfl ?_)
      · refine Keeps.rethrow (F := (· = g)) ?_ ?_
        · refine Keeps.bindEnds (lift_ends BufferManager.quiet_nextIo rfl) .rfl ?_
          rintro _ _ rfl
          refine bufferOf_kept fun b => lift_ends
            (fun t => .bind .get fun _ => .bind (BufferManager.quiet_readPage t) fun _ => ?_) rfl
          exact BufferManager.quiet_modify (fun _ => ⟨rfl, rfl, rfl⟩) t
        · rintro err held' _ rfl
          exact (endRead_error hh hv).monoEnds fun _ g' hg' => calm_of_vac (by rw [hg']; exact hv)
      · rintro _ _ rfl
        exact (endRead_valid hh hv).monoEnds fun _ g' hg' => ⟨calm_of_vac (by rw [hg']; exact hv), by rw [hg', hg]⟩

theorem writePage_vac {f : Bool} {b : Nat} {tag : PageTag} {page : BufferManager β → β}
    (hx : g.vac = some (.pinned e f b .secure)) (hg : F g) : Kept w (writePage (.written b) tag page) held g
      (Ends IsEntry F held fun _ g' => g' = { g with vac := some (.pinned e f b .clean) }) := by
  have hq : BufferManager.Quiet (β := β) (do
      BufferManager.nextIo
      if tag.pageno = PageNumber.Invalid then throw (.runtimeError "could not write page: pageno is invalid")) :=
        fun t =>
    .bind (BufferManager.quiet_nextIo t) fun _ => .ite (fun _ => .throw) fun _ => .pure
  refine Keeps.bindEnds (lift_ends hq hg) .rfl ?_
  rintro _ _ rfl s r H γ hI rfl rfl -
  exact ⟨_, PoolInv.write hI hx, rfl, rfl⟩

/-- What is known while the page of an entry is written. -/
def Flushing (g : PoolNote) (e b : Nat) (f : Bool) (g' : PoolNote) : Prop :=
  g'.hand = g.hand ∧ ∃ fl, fl ≠ .failing ∧ g'.vac = some (.pinned e f b fl)

theorem flushBuffer_does {f : Bool} {b : Nat} (hx : g.vac = some (.pinned e f b .secure))
    (hh : g.hand ≠ some (e, .ready)) :
    Does w (flushBuffer (β := β) c e) held g fun _ g' => g' = { g with vac := some (.pinned e f b .clean) } := by
  have hsec : Flushing g e b f g := ⟨rfl, .secure, nofun, hx⟩
  refine Keeps.bindEnds (startWrite_does hx hh _) .rfl fun started g' hg' => Keeps.ite (fun hs => ?_) fun hs => ?_
  · obtain rfl : started = false := by simpa using hs
    exact ⟨rfl, hg'⟩
  · obtain rfl : started = true := by simpa using hs
    obtain rfl : g' = g := hg'
    refine read_kept fun _ => check_kept <| bufferOf_vac hx <| holding_page ?_
    refine Keeps.bindEnds (φ := fun _ g'' => g'' = { g' with vac := some (.pinned e f b .clean) }) ?_ .rfl ?_
    · refine Keeps.rethrow (F := Flushing g' e b f) ?_ ?_
      · refine Keeps.bindEnds (lift_ends BufferManager.quiet_nextIo hsec) .rfl ?_
        rintro _ _ rfl
        refine bufferOf_vac hx <| read_kept fun tag => Keeps.bindEnds (writePage_vac hx hsec) .rfl ?_
        rintro _ _ rfl
        exact lift_ends BufferManager.quiet_nextIo ⟨rfl, .clean, nofun, rfl⟩
      · rintro err held' g'' ⟨hh', fl, hfl, hx'⟩
        exact endWrite_error hx' hfl (by rwa [hh'])
    · rintro _ _ rfl
      refine (endWrite_valid (g := { g' with vac := some (.pinned e f b .clean) }) rfl hh).monoEnds ?_
      rintro _ _ rfl
      exact ⟨calm_of_pinned rfl nofun, rfl⟩

/-! ## Replacement -/

/-- What comes of a detachment: nothing, or the buffer `b` in the hand of the worker. -/
def Detaches (g : PoolNote) (b : Nat) : Option (Option Nat) → PoolNote → Prop
  | none, g' => g' = g
  | some o, g' => o = some b ∧ g' = { g with data := some b }

/-- With the latch of the ghost list: the buffer of an entry that is clean is detached. -/
theorem detachEntry_does {f : Bool} {b : Nat} {l : ListId} (hg : g.Light) :
    Kept w (do
        let st ← lockEntry e
        if st.refCount % 2 ^ 20 ≠ 1 then
          unlockEntry c e
          return none
        let b ← read fun s => s.buffer e
        check c.dbg b.isSome
        setBuffer (.detach e) e none
        unpin c e
        update .other e fun st => { st with isTopList := false }
        update .other e fun st => { st with isFrequencyList := f }
        insertMRU c l e
        unlockEntry c e
        return some b :
          PoolProg β (Option (Option Nat))) (.list l :: held) { g with vac := some (.pinned e f b .clean) }
      (Ends IsEntry PoolNote.calm (.list l :: held) fun o g' => g'.calm ∧ Detaches g b o g'.drop) := by
  have hclean : PoolNote.calm { g with vac := some (.pinned e f b .clean) } := calm_of_pinned rfl nofun
  refine lockEntry_kept fun st => Keeps.ite (fun _ => ?_) fun _ => ?_
  · exact unlockEntry_kept hclean (frees_of_pinned rfl nofun (hg.hand e)) ⟨rfl, hclean, hg.drop⟩
  refine read_noted fun s r H γ hI hH hγ => ⟨γ w, inv_same hI, ?_⟩
  obtain ⟨-, -, hb⟩ := hI.vacating.listed w e f b .clean (by rw [hγ])
  have hb : s.pool.buffer e = some b := hb
  rw [hb, hγ]
  refine check_kept ?_
  rintro s r H γ hI hH hγ -
  have hI' := PoolInv.detach hI (w := w) (e := e) (f := f) (b := b) (by rw [hγ]) (hH ▸ List.mem_cons_self)
  rw [hγ] at hI'
  refine ⟨_, hI', ?_⟩
  refine count_kept (n := (· - 1)) (unpin_run c.dbg) fun s r H γ hI hH hγ _ => ?_
  have hI' := hI.unpinVac (w := w) (e := e) (by rw [hγ])
  rw [hγ] at hI'
  refine ⟨_, hI', update_kept fun s r H γ hI hH hγ _ => ?_⟩
  have hI' :=
    inv_same (w := w) (hI.lastFlags (w := w) (e := e) (t := false) (f := s.view.freq e) (by rw [hγ]) rfl rfl)
  rw [← view_flags, hγ] at hI'
  refine ⟨_, hI', update_kept fun s r H γ hI hH hγ _ => ?_⟩
  have hI' := inv_same (w := w) (hI.lastFlags (w := w) (e := e) (t := s.view.top e) (f := f) (by rw [hγ]) rfl rfl)
  rw [← view_flags, hγ] at hI'
  refine ⟨_, hI', Keeps.bindEnds (lift_ends BufferManager.quiet_insertMRU ?_) leaves_entry ?_⟩
  · nofun
  · rintro _ _ rfl
    have hback :
      PoolNote.Within { g with vac := none, data := some b } { g with vac := some (.unpinned e), data := some b } :=
      { PoolNote.Within.rfl with vac := .inl rfl }
    refine unlockEntry_forget List.mem_cons_self hback nofun ⟨nofun, hg.hand e⟩
      ⟨List.erase_cons_head _ _, nofun, rfl, ?_⟩
    exact congrArg (fun x => { g with vac := x, data := some b }) hg.vac.symm

/-- An entry without pins is pinned and written, and its buffer detached, or the eviction is given up. -/
theorem tryVacateEntry_does {f : Bool} (hg : g.Light) (hl : .list (topList f) ∈ held) :
    Does w (tryVacateEntry (β := β) c e f) held g fun _ g' => g' = g := by
  refine lockEntry_noted fun s r H γ hI hH hγ _ => ?_
  subst hγ
  cases hp : (s.pool.state e).pinned with
  | true =>
    exact ⟨γ w, inv_same hI, unlockEntry_kept hg.calm (hg.frees e) ⟨rfl, rfl⟩⟩
  | false =>
    have h0 : (s.pool.state e).refCount = 0 := by
      have hs : (s.pool.state e).refCount < 2 ^ 20 := hI.counts.small e
      simp only [EntryState.pinned, bne_eq_false_iff_eq] at hp
      omega
    refine ⟨_, hI.observe hg.vac (hH ▸ List.mem_cons_self) h0, Keeps.ite (fun hn => by cases hn) fun _ => ?_⟩
    refine count_kept (n := (· + 1)) (pin_run c.dbg) fun s r H γ' hI hH hγ ho => ?_
    obtain ⟨ht, hf, hb, hs⟩ := ho
    obtain ⟨b, hb⟩ := Option.isSome_iff_exists.1 hb
    have hI' := hI.vacate (w := w) (e := e) (by rw [hγ]) (hH ▸ List.mem_cons_of_mem _ hl) ht hf hb hs
    rw [hγ] at hI'
    refine ⟨_, hI', unlockEntry_kept (calm_of_pinned rfl (by simp)) (frees_of_pinned rfl (by simp) (hg.hand e)) ?_⟩
    refine Keeps.bindEnds (flushBuffer_does rfl (hg.hand e)) .rfl ?_
    rintro _ _ rfl
    have hback : (γ w).Within { γ w with vac := some (.pinned e f b .clean) } :=
      { PoolNote.Within.rfl with vac := .inl hg.vac }
    have hclean : PoolNote.calm { γ w with vac := some (.pinned e f b .clean) } := calm_of_pinned rfl (by simp)
    refine lockEntry_kept fun st => ?_
    by_cases hst : st.refCount % 2 ^ 20 ≠ 1
    · refine unlockEntry_forget List.mem_cons_self hback hclean (hg.frees e)
        (Keeps.ite (fun _ => ?_) fun hn => absurd hst hn)
      exact ⟨List.erase_cons_head _ _, rfl⟩
    · refine unlockEntry_kept hclean (frees_of_pinned rfl (by simp) (hg.hand e))
        (Keeps.ite (fun hn => absurd hn hst) fun _ => ?_)
      refine Keeps.bindEnds (φ := Detaches (γ w) b) (holding_list ?_) .rfl fun o g' ho => ?_
      · exact detachEntry_does hg
      · cases o with
        | none => exact ⟨rfl, ho⟩
        | some o =>
          obtain ⟨rfl, rfl⟩ := ho
          rintro s r H γ' hI - hγ -
          have hI' := PoolInv.pushBuffer hI (w := w) (b := b) (by rw [hγ])
          rw [hγ] at hI'
          refine ⟨γ w, ?_, rfl, rfl⟩
          have hback : ({ γ w with data := none } : PoolNote) = γ w := hg.forget
          rw [← hback]
          exact hI'

end

end PoolProg

end Mimidb
