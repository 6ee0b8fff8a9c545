import Mimidb.ListNodes
import Mimidb.Run

/-!
# Concurrent hits on one entry

Any number of workers in `handleCacheHit` with the same entry, which is in `T1` at
first. Whether the entry is still in `T1` is checked again under the latches, but the
test takes every entry of a top list for one of `T1`.
-/

namespace Mimidb

open BufferManager

/-- Program points of `handleCacheHit`: each names the operation that comes next. -/
inductive HitPc where
  | idle
  /-- Other code that has locked the entry. -/
  | holding
  -- the entry was found in `T2`
  | takeT2
  | lockInT2
  | moveInT2
  | unlockInT2
  | giveT2
  -- the entry was found in `T1`
  | takeT1
  | takeBoth
  | lockInT1
  | remove
  | insert
  | mark
  | moveLate
  | unlockInT1
  | giveBoth
  | giveT1
  /-- An assertion failed or an exception was thrown. -/
  | failed
  deriving DecidableEq, Repr

namespace HitPc

/-- The worker has locked the entry. -/
def spins : HitPc → Bool
  | .holding | .moveInT2 | .unlockInT2 | .remove | .insert | .mark | .moveLate | .unlockInT1 => true
  | _ => false

/-- The entry is on its way from `T1` to `T2`. -/
def moving : HitPc → Bool
  | .insert | .mark => true
  | _ => false

/-- The worker has seen the entry in `T2` or has moved it there. -/
def late : HitPc → Bool
  | .takeT2 | .lockInT2 | .moveInT2 | .unlockInT2 | .giveT2 | .unlockInT1 | .giveBoth | .giveT1 => true
  | _ => false

def failing : HitPc → Bool
  | .moveLate | .failed => true
  | _ => false

theorem spins_of_moving {p : HitPc} (h : p.moving = true) : p.spins = true := by
  cases p <;> first | rfl | cases h

end HitPc

structure HitRun (W β : Type) where
  pool : BufferManager β
  /-- The holders of the latches of `T1` and `T2`. -/
  t1 : Option W
  t2 : Option W
  pc : W → HitPc
  /-- Calls of `T1.RemoveEntry` that returned, and calls of `handleCacheHit` that did. -/
  removed : Nat
  hits : Nat

inductive HitOp where
  | call
  | run
  -- other code locks the entry, or changes other bits of its state
  | lockEntry
  | change (state : EntryState)
  deriving DecidableEq, Repr

namespace HitRun

variable {W β : Type} [DecidableEq W]

def goto (s : HitRun W β) (w : W) (p : HitPc) : HitRun W β := { s with pc := Function.update s.pc w p }

/-- An exception gives the latches back, but the entry stays locked. -/
def ran (s : HitRun W β) (w : W) (p : HitPc) (r : Except Fault Unit × BufferManager β) : HitRun W β :=
  match r.1 with
  | .ok _ => { s with pool := r.2 }.goto w p
  | .error _ => { s with
      pool := r.2
      t1 := if s.t1 = some w then none else s.t1
      t2 := if s.t2 = some w then none else s.t2 }.goto w .failed

/-- `CacheEntry::Lock`; a worker that finds the entry locked tries again. -/
def spinLock (s : HitRun W β) (e : Nat) (w : W) (p : EntryState → HitPc) : HitRun W β :=
  if (s.pool.state e).locked then s
  else { s with pool := s.pool.withState e { s.pool.state e with locked := true } }.goto w
    (p { s.pool.state e with locked := true })

def runPc (dbg : Bool) (e : Nat) (s : HitRun W β) (w : W) : HitPc → Option (HitRun W β)
  | .idle | .failed => none
  | .holding => some (s.ran w .idle (unlockEntry dbg e s.pool))
  | .takeT2 => if s.t2 = none then some ({ s with t2 := some w }.goto w .lockInT2) else none
  | .lockInT2 => some (s.spinLock e w fun st =>
      if dbg ∧ ¬ (st.isTopList = true ∧ st.isFrequencyList = true) then .failed else .moveInT2)
  | .moveInT2 => some (s.ran w .unlockInT2 (moveMRU dbg .T2 e s.pool))
  | .unlockInT2 => some (s.ran w .giveT2 (unlockEntry dbg e s.pool))
  | .giveT2 => some ({ s with t2 := none, hits := s.hits + 1 }.goto w .idle)
  | .takeT1 => if s.t1 = none then some ({ s with t1 := some w }.goto w .takeBoth) else none
  | .takeBoth => if s.t2 = none then some ({ s with t2 := some w }.goto w .lockInT1) else none
  -- the mask has both list bits, and only an entry of `B2` has just the second one
  | .lockInT1 =>
    some (s.spinLock e w fun st => if st.isTopList = false ∧ st.isFrequencyList = true then .moveLate else .remove)
  | .remove =>
    let r := removeEntry dbg .T1 e s.pool
    some ({ s with removed := if r.1.isOk then s.removed + 1 else s.removed }.ran w .insert r)
  | .insert => some (s.ran w .mark (insertMRU dbg .T2 e s.pool))
  | .mark =>
    some ({ s with pool := s.pool.withState e { s.pool.state e with isFrequencyList := true } }.goto w .unlockInT1)
  | .moveLate => some (s.ran w .unlockInT1 (moveMRU dbg .T2 e s.pool))
  | .unlockInT1 => some (s.ran w .giveBoth (unlockEntry dbg e s.pool))
  | .giveBoth => some ({ s with t2 := none }.goto w .giveT1)
  | .giveT1 => some ({ s with t1 := none, hits := s.hits + 1 }.goto w .idle)

def step (dbg : Bool) (e : Nat) (s : HitRun W β) : W × HitOp → Option (HitRun W β)
  | (w, .call) =>
    if s.pc w = .idle then
      let st := s.pool.state e
      some (s.goto w (if dbg ∧ st.isTopList = false then .failed else if st.isFrequencyList then .takeT2
        else .takeT1))
    else none
  | (w, .run) => s.runPc dbg e w (s.pc w)
  | (w, .lockEntry) => if s.pc w = .idle then some (s.spinLock e w fun _ => .holding) else none
  | (_, .change st) =>
    if st.locked = (s.pool.state e).locked ∧ st.isTopList = (s.pool.state e).isTopList ∧
        st.isFrequencyList = (s.pool.state e).isFrequencyList then
      some { s with pool := s.pool.withState e st }
    else none

/-- The lists with the entry in `T2`. -/
def moved (nodes : ListId → List Nat) (e : Nat) : ListId → List Nat :=
  Function.update (Function.update nodes .T1 ((nodes .T1).erase e)) .T2 (e :: nodes .T2)

/-- Nobody works on the entry, which is in `T1`. -/
structure Ready (nodes : ListId → List Nat) (e : Nat) (s : HitRun W β) : Prop where
  listed : s.pool.Listed nodes
  inT1 : e ∈ nodes .T1
  unlocked : (s.pool.state e).locked = false
  top : (s.pool.state e).isTopList = true
  recent : (s.pool.state e).isFrequencyList = false
  idle : ∀ w, s.pc w = .idle
  count : s.removed = 0 ∧ s.hits = 0

/-- The check under the latches finds the entry in `T1`, where it was before. -/
def StillInT1 (e : Nat) (s : HitRun W β) (a : W × HitOp) : Prop :=
  a.2 = .run → s.pc a.1 = .lockInT1 → (s.pool.state e).locked = false → (s.pool.state e).isFrequencyList = false

instance (e : Nat) (s : HitRun W β) (a : W × HitOp) : Decidable (StillInT1 e s a) :=
  inferInstanceAs (Decidable (_ → _ → _ → _))

/-- Every list has as many entries as its size says, and only the entry that is hit changes its list, once. -/
structure HitsOnce (nodes : ListId → List Nat) (e : Nat) (s : HitRun W β) : Prop where
  passed : ∀ w, s.pc w ≠ .failed
  removed : s.removed ≤ 1
  others : ∃ ns, s.pool.Listed ns ∧ ∀ x, x ≠ e → ∀ l, x ∈ ns l ↔ x ∈ nodes l
  moved : 0 < s.hits → s.removed = 1 ∧ s.pool.Listed (moved nodes e)

/-! ## The invariant -/

/-- The lists while the entry is in none of them. -/
def out (nodes : ListId → List Nat) (e : Nat) : ListId → List Nat := Function.update nodes .T1 ((nodes .T1).erase e)

/-- The entry is in `T1` until its flag is set and in `T2` from then on, after `n` removals. -/
structure Settled (nodes : ListId → List Nat) (e n : Nat) (pool : BufferManager β) : Prop where
  before : (pool.state e).isFrequencyList = false → n = 0 ∧ pool.Listed nodes
  after : (pool.state e).isFrequencyList = true → n = 1 ∧ pool.Listed (moved nodes e)

/-- What holds when the worker that has locked the entry is at a program point. -/
def Phase (nodes : ListId → List Nat) (e n : Nat) (pool : BufferManager β) : HitPc → Prop
  | .insert => (pool.state e).isFrequencyList = false ∧ n = 1 ∧ pool.Listed (out nodes e)
  | .mark => (pool.state e).isFrequencyList = false ∧ n = 1 ∧ pool.Listed (moved nodes e)
  | _ => Settled nodes e n pool

structure HitInv (nodes : ListId → List Nat) (e : Nat) (s : HitRun W β) : Prop where
  spin : ∀ w, (s.pc w).spins = true → (s.pool.state e).locked = true
  spinOne : ∀ w v, (s.pc w).spins = true → (s.pc v).spins = true → w = v
  top : (s.pool.state e).isTopList = true
  entry : e < s.pool.npages * 2
  passed : ∀ w, (s.pc w).failing = false
  settled : (∀ w, (s.pc w).moving = false) → Settled nodes e s.removed s.pool
  moving : ∀ w, (s.pc w).moving = true → Phase nodes e s.removed s.pool (s.pc w)
  chosen : ∀ w, s.pc w = .remove → (s.pool.state e).isFrequencyList = false
  late : ∀ w, (s.pc w).late = true → (s.pool.state e).isFrequencyList = true
  hits : 0 < s.hits → (s.pool.state e).isFrequencyList = true

section
variable {nodes : ListId → List Nat} {dbg : Bool} {s t : HitRun W β} {w : W} {e : Nat} {p q : HitPc}

omit [DecidableEq W] in
/-- The worker that has locked the entry knows where the entry is. -/
theorem HitInv.phase (hi : HitInv nodes e s) (hpc : s.pc w = q) (hq : q.spins = true) :
    Phase nodes e s.removed s.pool q := by
  subst hpc
  cases hm : (s.pc w).moving with
  | true => exact hi.moving w hm
  | false =>
    have hnone : ∀ v, (s.pc v).moving = false := by
      intro v
      cases hv : (s.pc v).moving with
      | false => rfl
      | true =>
        rw [hi.spinOne v w (HitPc.spins_of_moving hv) hq, hm] at hv
        cases hv
    have hset := hi.settled hnone
    cases hp : s.pc w <;> first | exact hset | (rw [hp] at hm; cases hm)

theorem Settled.withState {n : Nat} {pool : BufferManager β} {st : EntryState} (h : Settled nodes e n pool)
    (hst : st.isFrequencyList = (pool.state e).isFrequencyList) : Settled nodes e n (pool.withState e st) := by
  have hf : ((pool.withState e st).state e).isFrequencyList = (pool.state e).isFrequencyList := by
    rw [withState_state, Function.update_self, hst]
  constructor
  · intro h0
    exact ⟨(h.before (hf.symm.trans h0)).1, (h.before (hf.symm.trans h0)).2.withState e st⟩
  · intro h1
    exact ⟨(h.after (hf.symm.trans h1)).1, (h.after (hf.symm.trans h1)).2.withState e st⟩

theorem Phase.withState {n : Nat} {pool : BufferManager β} {st : EntryState} (h : Phase nodes e n pool p)
    (hst : st.isFrequencyList = (pool.state e).isFrequencyList) : Phase nodes e n (pool.withState e st) p := by
  have hf : ((pool.withState e st).state e).isFrequencyList = (pool.state e).isFrequencyList := by
    rw [withState_state, Function.update_self, hst]
  cases p
  case insert => exact ⟨hf.trans h.1, h.2.1, h.2.2.withState e st⟩
  case mark => exact ⟨hf.trans h.1, h.2.1, h.2.2.withState e st⟩
  all_goals exact Settled.withState h hst

/-- A step of a worker that is not moving the entry changes neither a list nor a list bit. -/
theorem HitInv.quiet {st : EntryState} {o₁ o₂ : Option W} {n : Nat} (hi : HitInv nodes e s) (hpc : s.pc w = q)
    (hst : st.isTopList = (s.pool.state e).isTopList ∧ st.isFrequencyList = (s.pool.state e).isFrequencyList)
    (hs : p.spins = true → st.locked = true ∧ (q.spins = true ∨ (s.pool.state e).locked = false))
    (hlock : st.locked = (s.pool.state e).locked ∨ q.spins = true ∨ (s.pool.state e).locked = false)
    (hm : q.moving = false ∧ p.moving = false) (hp : p.failing = false)
    (hc : p = .remove → (s.pool.state e).isFrequencyList = false)
    (hl : p.late = true → (s.pool.state e).isFrequencyList = true)
    (hn : 0 < n → (s.pool.state e).isFrequencyList = true) :
    HitInv nodes e ⟨s.pool.withState e st, o₁, o₂, Function.update s.pc w p, s.removed, n⟩ := by
  have hother : ∀ v, v ≠ w → Function.update s.pc w p v = s.pc v := fun v hv => Function.update_of_ne hv ..
  have hself : Function.update s.pc w p w = p := Function.update_self ..
  have hstate : (s.pool.withState e st).state e = st := by rw [withState_state, Function.update_self]
  subst hpc
  have hspin : ∀ v, v ≠ w → (s.pc v).spins = true → st.locked = true ∧ (s.pc w).spins = false := by
    intro v hv hs
    have hlocked := hi.spin v hs
    have hw : (s.pc w).spins = false := Bool.eq_false_iff.2 fun hw => hv (hi.spinOne v w hs hw)
    rcases hlock with h | h | h
    · exact ⟨h.trans hlocked, hw⟩
    · rw [hw] at h; cases h
    · rw [hlocked] at h; cases h
  -- what holds at all program points but `p` holds at those of the new state
  have hcases : ∀ P : HitPc → Prop, (∀ v, P (s.pc v)) → P p → ∀ v, P (Function.update s.pc w p v) := by
    intro P hP hpw v
    by_cases ev : v = w
    · rw [ev, hself]
      exact hpw
    · rw [hother v ev]
      exact hP v
  constructor
  case spin =>
    intro v hv
    change (Function.update s.pc w p v).spins = true at hv
    rw [hstate]
    by_cases ev : v = w
    · rw [ev, hself] at hv
      exact (hs hv).1
    · rw [hother v ev] at hv
      exact (hspin v ev hv).1
  case spinOne =>
    intro v u hv hu
    change (Function.update s.pc w p v).spins = true at hv
    change (Function.update s.pc w p u).spins = true at hu
    have key : ∀ x, x ≠ w → (s.pc x).spins = true → p.spins = true → False := by
      intro x hx hxs hps
      rcases (hs hps).2 with h | h
      · rw [(hspin x hx hxs).2] at h; cases h
      · rw [hi.spin x hxs] at h; cases h
    by_cases ev : v = w <;> by_cases eu : u = w
    · rw [ev, eu]
    · rw [ev, hself] at hv
      rw [hother u eu] at hu
      exact (key u eu hu hv).elim
    · rw [hother v ev] at hv
      rw [eu, hself] at hu
      exact (key v ev hv hu).elim
    · rw [hother v ev] at hv
      rw [hother u eu] at hu
      exact hi.spinOne v u hv hu
  case top =>
    rw [hstate, hst.1]
    exact hi.top
  case entry => exact hi.entry
  case passed => exact hcases (fun p => p.failing = false) hi.passed hp
  case settled =>
    intro hnone
    have hall : ∀ v, (s.pc v).moving = false := by
      intro v
      by_cases ev : v = w
      · rw [ev]
        exact hm.1
      · have hv := hnone v
        change (Function.update s.pc w p v).moving = false at hv
        rwa [hother v ev] at hv
    exact (hi.settled hall).withState hst.2
  case moving =>
    exact hcases (fun p => p.moving = true → Phase nodes e s.removed (s.pool.withState e st) p)
      (fun v hv => (hi.moving v hv).withState hst.2)
      fun h => absurd h (Bool.eq_false_iff.1 hm.2)
  case chosen =>
    rw [hstate, hst.2]
    exact hcases (fun p => p = .remove → (s.pool.state e).isFrequencyList = false) hi.chosen hc
  case late =>
    rw [hstate, hst.2]
    exact hcases (fun p => p.late = true → (s.pool.state e).isFrequencyList = true) hi.late hl
  case hits =>
    rw [hstate, hst.2]
    exact hn

theorem HitInv.holder {u : BufferManager β} {n : Nat} (hi : HitInv nodes e s) (hpc : s.pc w = q)
    (hq : q.spins = true) (hp : p.spins = true) (hlock : (u.state e).locked = true)
    (htop : (u.state e).isTopList = true) (hnp : u.npages = s.pool.npages)
    (hmono : (s.pool.state e).isFrequencyList = true → (u.state e).isFrequencyList = true)
    (hph : Phase nodes e n u p)
    (hf : p.failing = false) (hc : p ≠ .remove) (hl : p.late = true → (u.state e).isFrequencyList = true) :
    HitInv nodes e ⟨u, s.t1, s.t2, Function.update s.pc w p, n, s.hits⟩ := by
  have hother : ∀ v, v ≠ w → Function.update s.pc w p v = s.pc v := fun v hv => Function.update_of_ne hv ..
  have hself : Function.update s.pc w p w = p := Function.update_self ..
  subst hpc
  have hrest : ∀ v, v ≠ w → (s.pc v).spins = false :=
    fun v hv => Bool.eq_false_iff.2 fun h => hv (hi.spinOne v w h hq)
  have honly : ∀ v, (Function.update s.pc w p v).spins = true → v = w := by
    intro v hv
    by_contra ev
    rw [hother v ev, hrest v ev] at hv
    cases hv
  constructor
  case spin => exact fun _ _ => hlock
  case spinOne => exact fun v x hv hx => (honly v hv).trans (honly x hx).symm
  case top => exact htop
  case entry => exact hnp.symm ▸ hi.entry
  case passed =>
    intro v
    show (Function.update s.pc w p v).failing = false
    by_cases ev : v = w
    · rw [ev, hself]
      exact hf
    · rw [hother v ev]
      exact hi.passed v
  case settled =>
    intro hnone
    have hm : p.moving = false := by
      have h := hnone w
      change (Function.update s.pc w p w).moving = false at h
      rwa [hself] at h
    cases p <;> first | exact hph | cases hm
  case moving =>
    intro v hv
    change (Function.update s.pc w p v).moving = true at hv
    show Phase nodes e n u (Function.update s.pc w p v)
    by_cases ev : v = w
    · rw [ev, hself]
      exact hph
    · rw [hother v ev] at hv
      have hs := hrest v ev
      rw [HitPc.spins_of_moving hv] at hs
      cases hs
  case chosen =>
    intro v hv
    change Function.update s.pc w p v = .remove at hv
    by_cases ev : v = w
    · rw [ev, hself] at hv
      exact absurd hv hc
    · rw [hother v ev] at hv
      have hs := hrest v ev
      rw [hv] at hs
      cases hs
  case late =>
    intro v hv
    change (Function.update s.pc w p v).late = true at hv
    by_cases ev : v = w
    · rw [ev, hself] at hv
      exact hl hv
    · rw [hother v ev] at hv
      exact hmono (hi.late v hv)
  case hits => exact fun h => hmono (hi.hits h)

/-! ## Steps -/

theorem HitInv.spinLock {p : EntryState → HitPc} (hi : HitInv nodes e s) (hpc : s.pc w = q) (hq : q.moving = false)
    (hp : ∀ st, st.isTopList = true → st.isFrequencyList = (s.pool.state e).isFrequencyList →
      (p st).moving = false ∧ (p st).failing = false ∧ (p st = .remove → (s.pool.state e).isFrequencyList = false) ∧
        ((p st).late = true → (s.pool.state e).isFrequencyList = true)) : HitInv nodes e (s.spinLock e w p) := by
  unfold HitRun.spinLock
  split
  · exact hi
  · rename_i hfree
    have hfree' : (s.pool.state e).locked = false := Bool.eq_false_iff.2 hfree
    obtain ⟨hm, hf, hc, hl⟩ := hp { s.pool.state e with locked := true } hi.top rfl
    exact hi.quiet hpc ⟨rfl, rfl⟩ (fun _ => ⟨rfl, .inr hfree'⟩) (.inr (.inr hfree')) ⟨hq, hm⟩ hf hc hl hi.hits

theorem HitInv.unlock (dbg : Bool) (hi : HitInv nodes e s) (hpc : s.pc w = q)
    (hq : q.spins = true ∧ q.moving = false) (hp : p.spins = false ∧ p.moving = false ∧ p.failing = false)
    (hl : p.late = true → q.late = true) :
    HitInv nodes e (s.ran w p (unlockEntry dbg e s.pool)) := by
  have hlocked : (s.pool.state e).locked = true := hi.spin w (by rw [hpc]; exact hq.1)
  rw [unlockEntry_ok hlocked]
  show HitInv nodes e ⟨s.pool.withState e { s.pool.state e with locked := false }, s.t1, s.t2,
    Function.update s.pc w p, s.removed, s.hits⟩
  have hnr : p ≠ .remove := by
    intro h
    rw [h] at hp
    cases hp.1
  exact hi.quiet hpc ⟨rfl, rfl⟩ (fun h => absurd h (Bool.eq_false_iff.1 hp.1)) (.inr (.inl hq.1))
    ⟨hq.2, hp.2.1⟩ hp.2.2
    (fun h => absurd h hnr) (fun h => hi.late w (by rw [hpc]; exact hl h)) hi.hits

theorem HitInv.goto {o₁ o₂ : Option W} {n : Nat} (hi : HitInv nodes e s) (hpc : s.pc w = q)
    (hq : q.moving = false) (hp : p.spins = false ∧ p.moving = false ∧ p.failing = false)
    (hl : p.late = true → (s.pool.state e).isFrequencyList = true)
    (hn : 0 < n → (s.pool.state e).isFrequencyList = true) :
    HitInv nodes e ⟨s.pool, o₁, o₂, Function.update s.pc w p, s.removed, n⟩ := by
  have hnr : p = .remove → (s.pool.state e).isFrequencyList = false := by
    intro h
    rw [h] at hp
    cases hp.1
  have h : HitInv nodes e ⟨s.pool.withState e (s.pool.state e), o₁, o₂, Function.update s.pc w p, s.removed, n⟩ :=
    hi.quiet hpc ⟨rfl, rfl⟩ (fun h => absurd h (Bool.eq_false_iff.1 hp.1)) (.inl rfl) ⟨hq, hp.2.1⟩ hp.2.2 hnr hl hn
  rwa [withState_eq rfl] at h

/-- The lists as they are at first: the entry is in `T1` only. -/
structure Home (nodes : ListId → List Nat) (e : Nat) : Prop where
  inT1 : e ∈ nodes .T1
  nodup : (nodes .T1).Nodup
  only : ∀ l, e ∈ nodes l → l = .T1

omit [DecidableEq W] in
theorem Ready.home (hr : Ready nodes e s) : Home nodes e where
  inT1 := hr.inT1
  nodup := (hr.listed.chain .T1).nodup
  only l hl := hr.listed.one l .T1 e hl hr.inT1

theorem Home.out_loose (hh : Home nodes e) (l : ListId) : e ∉ out nodes e l := by
  intro hmem
  unfold out at hmem
  by_cases hl : l = .T1
  · rw [hl, Function.update_self] at hmem
    exact hh.nodup.not_mem_erase hmem
  · rw [Function.update_of_ne hl] at hmem
    exact hl (hh.only l hmem)

theorem mem_moved : e ∈ moved nodes e .T2 := by
  unfold moved
  rw [Function.update_self]
  exact List.mem_cons_self

theorem moved_again : Function.update (moved nodes e) .T2 (e :: (moved nodes e .T2).erase e) = moved nodes e := by
  have h : moved nodes e .T2 = e :: nodes .T2 := by unfold moved; rw [Function.update_self]
  rw [h, List.erase_cons_head, ← h, Function.update_eq_self]

theorem HitInv.remove (dbg : Bool) (hi : HitInv nodes e s) (hh : Home nodes e) (hpc : s.pc w = .remove) :
    HitInv nodes e ({ s with removed := if (removeEntry dbg .T1 e s.pool).1.isOk then s.removed + 1
      else s.removed }.ran w .insert
      (removeEntry dbg .T1 e s.pool)) := by
  have hfirst := hi.chosen w hpc
  obtain ⟨hcount, hlisted⟩ := (hi.phase hpc rfl).before hfirst
  obtain ⟨u, hu, honly, hout⟩ := hlisted.remove dbg hh.inT1
  rw [hu, hcount]
  have hlock : (u.state e).locked = true := by rw [honly.state]; exact hi.spin w (by rw [hpc]; rfl)
  have hfirst' : (u.state e).isFrequencyList = false := by rw [honly.state]; exact hfirst
  refine hi.holder hpc rfl rfl hlock (by rw [honly.state]; exact hi.top) honly.npages ?_ ⟨hfirst', rfl, hout⟩ rfl
    (by decide) ?_
  · rw [honly.state]
    exact id
  · intro h
    cases h

theorem HitInv.insert (dbg : Bool) (hi : HitInv nodes e s) (hh : Home nodes e) (hpc : s.pc w = .insert) :
    HitInv nodes e (s.ran w .mark (insertMRU dbg .T2 e s.pool)) := by
  obtain ⟨hfirst, hcount, hlisted⟩ := hi.phase hpc rfl
  obtain ⟨u, hu, honly, hin⟩ := hlisted.insert dbg .T2 hi.entry hh.out_loose
  rw [hu]
  have hlock : (u.state e).locked = true := by rw [honly.state]; exact hi.spin w (by rw [hpc]; rfl)
  have hfirst' : (u.state e).isFrequencyList = false := by rw [honly.state]; exact hfirst
  refine hi.holder hpc rfl rfl hlock (by rw [honly.state]; exact hi.top) honly.npages ?_ ⟨hfirst', hcount, hin⟩ rfl
    (by decide) ?_
  · rw [honly.state]
    exact id
  · intro h
    cases h

theorem HitInv.mark (hi : HitInv nodes e s) (hpc : s.pc w = .mark) : HitInv nodes e
    ({ s with pool := s.pool.withState e { s.pool.state e with isFrequencyList := true } }.goto w .unlockInT1) := by
  obtain ⟨hfirst, hcount, hlisted⟩ := hi.phase hpc rfl
  have hstate : (s.pool.withState e { s.pool.state e with isFrequencyList := true }).state e =
      { s.pool.state e with isFrequencyList := true } := by rw [withState_state, Function.update_self]
  refine hi.holder hpc rfl rfl ?_ ?_ rfl ?_ ⟨?_, ?_⟩ rfl (by decide) ?_
  · rw [hstate]
    exact hi.spin w (by rw [hpc]; rfl)
  · rw [hstate]
    exact hi.top
  · intro _
    rw [hstate]
  · intro h
    rw [hstate] at h
    cases h
  · exact fun _ => ⟨hcount, hlisted.withState e _⟩
  · intro _
    rw [hstate]

theorem HitInv.moveAgain (dbg : Bool) (hi : HitInv nodes e s) (hpc : s.pc w = .moveInT2) :
    HitInv nodes e (s.ran w .unlockInT2 (moveMRU dbg .T2 e s.pool)) := by
  have hfreq := hi.late w (by rw [hpc]; rfl)
  obtain ⟨hcount, hlisted⟩ := (hi.phase hpc rfl).after hfreq
  obtain ⟨u, hu, honly, hmove⟩ := hlisted.move dbg mem_moved
  rw [moved_again] at hmove
  rw [hu]
  have hfreq' : (u.state e).isFrequencyList = true := by rw [honly.state]; exact hfreq
  refine hi.holder hpc rfl rfl ?_ (by rw [honly.state]; exact hi.top) honly.npages (fun _ => hfreq') ⟨?_, ?_⟩ rfl
    (by decide)
    fun _ => hfreq'
  · rw [honly.state]
    exact hi.spin w (by rw [hpc]; rfl)
  · intro h
    rw [hfreq'] at h
    cases h
  · exact fun _ => ⟨hcount, hmove⟩

theorem HitInv.runPc (hi : HitInv nodes e s) (hh : Home nodes e) (hc : StillInT1 e s (w, .run)) (hpc : s.pc w = p)
    (hs : s.runPc dbg e w p = some t) : HitInv nodes e t := by
  cases p
  case idle => cases hs
  case failed => cases hs
  case holding => exact Option.some.inj hs ▸ hi.unlock dbg hpc ⟨rfl, rfl⟩ ⟨rfl, rfl, rfl⟩ nofun
  case takeT2 =>
    have hl := hi.late w (by rw [hpc]; rfl)
    simp only [HitRun.runPc, Option.ite_none_right_eq_some, Option.some.injEq] at hs
    obtain ⟨-, rfl⟩ := hs
    exact hi.goto hpc rfl ⟨rfl, rfl, rfl⟩ (fun _ => hl) hi.hits
  case lockInT2 =>
    have hl := hi.late w (by rw [hpc]; rfl)
    obtain rfl := Option.some.inj hs
    apply hi.spinLock hpc rfl
    intro st htop hfreq
    rw [hl] at hfreq
    rw [htop, hfreq, if_neg (by simp)]
    exact ⟨rfl, rfl, nofun, fun _ => hl⟩
  case moveInT2 => exact Option.some.inj hs ▸ hi.moveAgain dbg hpc
  case unlockInT2 => exact Option.some.inj hs ▸ hi.unlock dbg hpc ⟨rfl, rfl⟩ ⟨rfl, rfl, rfl⟩ fun _ => rfl
  case giveT2 =>
    have hl := hi.late w (by rw [hpc]; rfl)
    exact Option.some.inj hs ▸ hi.goto hpc rfl ⟨rfl, rfl, rfl⟩ nofun fun _ => hl
  case takeT1 =>
    simp only [HitRun.runPc, Option.ite_none_right_eq_some, Option.some.injEq] at hs
    obtain ⟨-, rfl⟩ := hs
    exact hi.goto hpc rfl ⟨rfl, rfl, rfl⟩ nofun hi.hits
  case takeBoth =>
    simp only [HitRun.runPc, Option.ite_none_right_eq_some, Option.some.injEq] at hs
    obtain ⟨-, rfl⟩ := hs
    exact hi.goto hpc rfl ⟨rfl, rfl, rfl⟩ nofun hi.hits
  case lockInT1 =>
    obtain rfl := Option.some.inj hs
    by_cases hlocked : (s.pool.state e).locked = true
    · rw [HitRun.spinLock, if_pos hlocked]
      exact hi
    · -- the condition on the check
      have hfirst := hc rfl hpc (Bool.eq_false_iff.2 hlocked)
      apply hi.spinLock hpc rfl
      intro st htop _
      rw [htop, if_neg (by simp)]
      exact ⟨rfl, rfl, fun _ => hfirst, nofun⟩
  case remove => exact Option.some.inj hs ▸ hi.remove dbg hh hpc
  case insert => exact Option.some.inj hs ▸ hi.insert dbg hh hpc
  case mark => exact Option.some.inj hs ▸ hi.mark hpc
  case moveLate =>
    have hp := hi.passed w
    rw [hpc] at hp
    cases hp
  case unlockInT1 => exact Option.some.inj hs ▸ hi.unlock dbg hpc ⟨rfl, rfl⟩ ⟨rfl, rfl, rfl⟩ fun _ => rfl
  case giveBoth =>
    have hl := hi.late w (by rw [hpc]; rfl)
    exact Option.some.inj hs ▸ hi.goto hpc rfl ⟨rfl, rfl, rfl⟩ (fun _ => hl) hi.hits
  case giveT1 =>
    have hl := hi.late w (by rw [hpc]; rfl)
    exact Option.some.inj hs ▸ hi.goto hpc rfl ⟨rfl, rfl, rfl⟩ nofun fun _ => hl

theorem HitInv.step {a : W × HitOp} (hi : HitInv nodes e s) (hh : Home nodes e) (hc : StillInT1 e s a)
    (hs : s.step dbg e a = some t) : HitInv nodes e t := by
  obtain ⟨w, op⟩ := a
  cases op <;> simp only [HitRun.step] at hs
  case run => exact hi.runPc hh hc rfl hs
  case call =>
    split at hs
    · rename_i hpc
      cases hs
      have htop : ¬ (dbg = true ∧ (s.pool.state e).isTopList = false) := by simp [hi.top]
      rw [if_neg htop]
      split
      · rename_i hfreq
        exact hi.goto hpc rfl ⟨rfl, rfl, rfl⟩ (fun _ => hfreq) hi.hits
      · exact hi.goto hpc rfl ⟨rfl, rfl, rfl⟩ nofun hi.hits
    · cases hs
  case lockEntry =>
    split at hs
    · rename_i hpc
      cases hs
      exact hi.spinLock hpc rfl fun _ _ _ => ⟨rfl, rfl, nofun, nofun⟩
    · cases hs
  case change st =>
    split at hs
    · rename_i hst
      cases hs
      have hstate : (s.pool.withState e st).state e = st := by rw [withState_state, Function.update_self]
      constructor
      case spin =>
        rw [hstate, hst.1]
        exact hi.spin
      case spinOne => exact hi.spinOne
      case top =>
        rw [hstate, hst.2.1]
        exact hi.top
      case entry => exact hi.entry
      case passed => exact hi.passed
      case settled => exact fun h => (hi.settled h).withState hst.2.2
      case moving => exact fun v hv => (hi.moving v hv).withState hst.2.2
      case chosen =>
        rw [hstate, hst.2.2]
        exact hi.chosen
      case late =>
        rw [hstate, hst.2.2]
        exact hi.late
      case hits =>
        rw [hstate, hst.2.2]
        exact hi.hits
    · cases hs

omit [DecidableEq W] in
theorem Ready.hitInv (hr : Ready nodes e s) : HitInv nodes e s where
  spin w h := by
    rw [hr.idle] at h
    cases h
  spinOne w _ h := by
    rw [hr.idle] at h
    cases h
  top := hr.top
  entry := hr.listed.entry .T1 e hr.inT1
  passed w := by rw [hr.idle]; rfl
  settled _ := ⟨fun _ => ⟨hr.count.1, hr.listed⟩, fun h => by rw [hr.recent] at h; cases h⟩
  moving w h := by
    rw [hr.idle] at h
    cases h
  chosen w h := by
    rw [hr.idle] at h
    cases h
  late w h := by
    rw [hr.idle] at h
    cases h
  hits h := by
    rw [hr.count.2] at h
    cases h

theorem mem_out {x : Nat} (hx : x ≠ e) (l : ListId) : x ∈ out nodes e l ↔ x ∈ nodes l := by
  unfold out
  by_cases hl : l = .T1
  · rw [hl, Function.update_self]
    exact List.mem_erase_of_ne hx
  · rw [Function.update_of_ne hl]

theorem mem_moved_iff {x : Nat} (hx : x ≠ e) (l : ListId) : x ∈ moved nodes e l ↔ x ∈ nodes l := by
  have hout : ∀ l, x ∈ out nodes e l ↔ x ∈ nodes l := mem_out hx
  unfold moved
  by_cases hl : l = .T2
  · rw [hl, Function.update_self, List.mem_cons]
    exact ⟨fun h => h.resolve_left hx, .inr⟩
  · rw [Function.update_of_ne hl]
    exact hout l

omit [DecidableEq W] in
theorem HitInv.hitsOnce (hi : HitInv nodes e s) : HitsOnce nodes e s := by
  have hsettled : Settled nodes e s.removed s.pool → s.removed ≤ 1 ∧
      ∃ ns, s.pool.Listed ns ∧ ∀ x, x ≠ e → ∀ l, x ∈ ns l ↔ x ∈ nodes l := by
    intro h
    cases hf : (s.pool.state e).isFrequencyList with
    | false => exact ⟨by rw [(h.before hf).1]; decide, nodes, (h.before hf).2, fun _ _ _ => Iff.rfl⟩
    | true => exact ⟨Nat.le_of_eq (h.after hf).1, moved nodes e, (h.after hf).2, fun _ hx => mem_moved_iff hx⟩
  have hlists : s.removed ≤ 1 ∧ ∃ ns, s.pool.Listed ns ∧ ∀ x, x ≠ e → ∀ l, x ∈ ns l ↔ x ∈ nodes l := by
    by_cases hnone : ∀ w, (s.pc w).moving = false
    · exact hsettled (hi.settled hnone)
    · obtain ⟨w, hw⟩ := not_forall.1 hnone
      have hph := hi.moving w (Bool.not_eq_false _ ▸ hw)
      cases hpc : s.pc w <;> rw [hpc] at hph hw
      case insert => exact ⟨Nat.le_of_eq hph.2.1, out nodes e, hph.2.2, fun _ hx => mem_out hx⟩
      case mark => exact ⟨Nat.le_of_eq hph.2.1, moved nodes e, hph.2.2, fun _ hx => mem_moved_iff hx⟩
      all_goals exact absurd rfl hw
  refine ⟨fun w hw => ?_, hlists.1, hlists.2, fun hn => ?_⟩
  · have hp := hi.passed w
    rw [hw] at hp
    cases hp
  · have hfreq := hi.hits hn
    have hnone : ∀ w, (s.pc w).moving = false := by
      intro w
      apply Bool.eq_false_iff.2
      intro hw
      have hph := hi.moving w hw
      cases hpc : s.pc w <;> rw [hpc] at hph hw
      case insert => exact absurd (hfreq.symm.trans hph.1) (by decide)
      case mark => exact absurd (hfreq.symm.trans hph.1) (by decide)
      all_goals cases hw
    exact (hi.settled hnone).after hfreq

theorem hit_moves_once {s₀ : HitRun W β} (hr : Ready nodes e s₀)
    (h : Reach (HitRun.step dbg e) (StillInT1 e) s₀ s) :
    HitsOnce nodes e s := (h.inv (fun _ _ _ hi hc hs => hi.step hr.home hc hs) hr.hitInv).hitsOnce

end

/-! ## Two workers -/

/-- Two pages, with entry 1 before entry 0 in `T1`; two workers have pinned entry 1. -/
def twoRecent : BufferManager Nat where
  npages := 2
  map := fun _ => none
  tag := fun e => ⟨0, e⟩
  state := fun e => if e < 2 then { EntryState.empty with refCount := 2 * e, tagValid := true, isTopList := true }
    else .empty
  buffer := fun e => if e < 2 then some e else none
  prev := fun e => if e = 0 then some 1 else none
  next := fun e => if e = 1 then some 0 else none
  lists := fun l => if l = .T1 then ⟨some 1, some 0, 2⟩ else ⟨none, none, 0⟩
  freeBuffers := []
  contents := fun _ => 0
  P := 0
  disk := fun _ => 0
  fileSize := fun _ => 0
  io := []

def recent : ListId → List Nat := fun l => if l = .T1 then [1, 0] else []

def twoWorkers : HitRun (Fin 2) Nat := ⟨twoRecent, none, none, fun _ => .idle, 0, 0⟩

theorem mem_recent {l : ListId} {x : Nat} (h : x ∈ recent l) : l = .T1 := by
  unfold recent at h
  split at h
  · assumption
  · cases h

theorem twoRecent_listed : twoRecent.Listed recent where
  chain l := by
    cases l
    case T1 => exact ⟨by decide, rfl, rfl, rfl, rfl, rfl, rfl, trivial⟩
    all_goals exact .empty
  size l := by cases l <;> rfl
  one _ _ _ h h' := (mem_recent h).trans (mem_recent h').symm
  loose e h := by
    have he : e ∉ [1, 0] := h .T1
    have h1 : e ≠ 1 := fun heq => he (heq ▸ List.mem_cons_self)
    have h0 : e ≠ 0 := fun heq => he (heq ▸ List.mem_cons_of_mem _ List.mem_cons_self)
    exact isRouge_iff.2 ⟨if_neg h0, if_neg h1⟩
  entry l e h := by
    cases l
    case T1 =>
      have he : e = 1 ∨ e = 0 := by simpa [recent] using h
      rcases he with rfl | rfl <;> decide
    all_goals cases h
  small := by decide

theorem twoWorkers_ready : Ready recent 1 twoWorkers :=
  ⟨twoRecent_listed, List.mem_cons_self, rfl, rfl, rfl, fun _ => rfl, rfl, rfl⟩

theorem hit_after_hit : ∃ s : HitRun (Fin 2) Nat, Reach (step true 1) (StillInT1 1) twoWorkers s ∧ s.hits = 2 ∧
    HitsOnce recent 1 s := by
  have h : (exec (guarded (StillInT1 1) (step true 1)) twoWorkers ((0, .call) :: List.replicate 9 (0, .run) ++
      (1, .call) :: List.replicate 5 (1, .run))).map (fun s => decide (s.hits = 2)) = some true := by
    decide +kernel
  obtain ⟨s, hr, hs⟩ := reach_of_test h
  exact ⟨s, hr.of_guarded, of_decide_eq_true hs, hit_moves_once twoWorkers_ready hr.of_guarded⟩

/-- Both workers see the entry in `T1`. The second one removes it from `T1` again, which loses entry 0. -/
theorem hits_lose_entry :
    (∃ s : HitRun (Fin 2) Nat, Reach (step false 1) anyStep twoWorkers s ∧
      (s.hits = 2 ∧ s.pool.lists .T1 = ⟨none, none, 0⟩ ∧ (s.pool.lists .T2).size = 2 ∧ s.pool.next 1 = some 1) ∧
        ¬ HitsOnce recent 1 s) ∧
    ∃ s : HitRun (Fin 2) Nat, Reach (step true 1) anyStep twoWorkers s ∧ s.pc 1 = .failed ∧
    ¬ HitsOnce recent 1 s := by
  let race : List (Fin 2 × HitOp) := [(0, .call), (1, .call)] ++ List.replicate 9 (0, .run)
  constructor
  · have h :
      (exec (step false 1) twoWorkers (race ++ List.replicate 9 (1, .run))).map (fun s => decide ((s.hits = 2 ∧
        s.pool.lists .T1 = ⟨none, none, 0⟩ ∧ (s.pool.lists .T2).size = 2 ∧ s.pool.next 1 = some 1) ∧
        s.removed = 2)) =
          some true := by
      decide +kernel
    obtain ⟨s, hr, hs⟩ := reach_of_test h
    have hs' := of_decide_eq_true hs
    refine ⟨s, hr, hs'.1, fun ho => ?_⟩
    have hle := ho.removed
    rw [hs'.2] at hle
    exact absurd hle (by decide)
  · have h : (exec (step true 1) twoWorkers (race ++ List.replicate 4 (1, .run))).map
      (fun s => decide (s.pc 1 = .failed)) =
        some true := by
      decide +kernel
    obtain ⟨s, hr, hs⟩ := reach_of_test h
    exact ⟨s, hr, of_decide_eq_true hs, fun ho => ho.passed 1 (of_decide_eq_true hs)⟩

end HitRun

end Mimidb
