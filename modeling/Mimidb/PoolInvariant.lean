import Mathlib.Algebra.BigOperators.Group.Finset.Basic
import Mathlib.Algebra.Order.BigOperators.Group.Finset
import Mimidb.LockLogic
import Mimidb.PoolLockOrder

/-!
# What holds between the workers of the pool

Every worker notes which entry it has pinned and how far the hit on it got,
which entry it vacates, and the entry and the data buffer it took. An entry
that is being vacated was unpinned under its lock; from then on a hit on it
waits for the latch of the list.
-/

namespace Mimidb

/-- How far a call is with the entry that it pinned. -/
inductive Hand where
  | found
  -- `handleHit` has locked the entry once
  | seen
  -- a cache hit that asks for the latch of the list
  | hit (isFrequency : Bool)
  | passed
  -- `shouldStartIO` found no valid page, with the entry locked
  | ready
  | input
  | valid
  deriving DecidableEq

/-- What is known of the changes of a page that is being vacated. -/
inductive Flush where
  | secure
  | clean
  -- the failed write has cleared `Dirty`, and has not set `IoError` yet
  | failing
  deriving DecidableEq

/-- How far `tryVacateEntry` is. -/
inductive Vac where
  -- unpinned, with the entry locked
  | observed (e : Nat)
  | pinned (e : Nat) (isFrequency : Bool) (b : Nat) (flush : Flush)
  | detached (e : Nat)
  | unpinned (e : Nat)
  deriving DecidableEq

namespace Vac

open PoolProg

def entry : Vac → Nat
  | .observed e | .pinned e _ _ _ | .detached e | .unpinned e => e

def counted : Vac → Bool
  | .pinned _ _ _ _ | .detached _ => true
  | .observed _ | .unpinned _ => false

/-- The locks that its worker does not give back. -/
def needs : Vac → PoolLock → Prop
  | .pinned e f _ k, r => r = .list (topList f) ∨ (k = .failing ∧ r = .entry e)
  | .observed e, r | .detached e, r | .unpinned e, r => r = .entry e

/-- The buffer is not detached yet. -/
def guards : Vac → Bool
  | .observed _ | .pinned _ _ _ _ => true
  | .detached _ | .unpinned _ => false

/-- How far the calls of others can be with the entry. -/
def allows : Vac → Hand → Prop
  | .observed _, h => h = .found
  | .pinned _ f _ _, h => h = .found ∨ h = .seen ∨ h = .hit f
  | .detached _, _ | .unpinned _, _ => True

end Vac

structure PoolNote where
  hand : Option (Nat × Hand)
  vac : Option Vac
  took : Option Nat
  data : Option Nat
  -- the entry of a pin that is used, and the buffer that was read from it
  uses : Option (Nat × Option Nat)

namespace PoolNote

def idle : PoolNote := ⟨none, none, none, none, none⟩

/-- An exception finds no failed write half recorded. -/
def calm (g : PoolNote) : Prop := ∀ e f b, g.vac ≠ some (.pinned e f b .failing)

/-- Some of what was noted is forgotten. -/
structure Within (g' g : PoolNote) : Prop where
  hand : g'.hand = none ∨ g'.hand = g.hand
  vac : g'.vac = none ∨ g'.vac = g.vac
  took : g'.took = none ∨ g'.took = g.took
  data : g'.data = none ∨ g'.data = g.data
  uses : g'.uses = none ∨ g'.uses = g.uses

/-- The pins of a call on an entry. -/
def pins (g : PoolNote) (e : Nat) : Nat :=
  (if g.hand.any (·.1 == e) then 1 else 0) + (if g.vac.any fun v => v.counted && v.entry == e then 1 else 0)

end PoolNote

/-- What the invariant says about, field by field. -/
structure PoolView where
  refCount : Nat → Nat
  top : Nat → Bool
  freq : Nat → Bool
  io : Nat → Bool
  dirty : Nat → Bool
  valid : Nat → Bool
  buffer : Nat → Option Nat
  freeBuffers : List Nat
  isFree : PoolLock → Bool

def SharedPool.view {β : Type} (s : SharedPool β) : PoolView where
  refCount e := (s.pool.state e).refCount
  top e := (s.pool.state e).isTopList
  freq e := (s.pool.state e).isFrequencyList
  io e := (s.pool.state e).ioInProgress
  dirty e := (s.pool.state e).dirty
  valid e := (s.pool.state e).dataValid
  buffer := s.pool.buffer
  freeBuffers := s.pool.freeBuffers
  isFree := Locks.free s

/-- A buffer is detached with no pin outstanding and no change that is not in the file. -/
def Detach.Safe {W : Type} (d : Detach W) : Prop :=
  ∀ b, d.buffer = some b → (∀ w tag, (tag, d.entry) ∉ d.pins w) ∧ d.unwritten b = false

open PoolLock PoolProg

section
variable {W : Type}

structure LocksOwned (isFree : PoolLock → Bool) (H : W → List PoolLock) : Prop where
  taken : ∀ w r, r.listed = true → r ∈ H w → isFree r = false
  own : ∀ w w' r, r.listed = true → r ∈ H w → r ∈ H w' → w = w'
  once : ∀ w r, r.listed = true → (H w).count r ≤ 1

/-- The count of an entry covers all pins. -/
structure PinsCounted (refCount : Nat → Nat) (pins : W → Nat → Nat) : Prop where
  small : ∀ e, refCount e < 2 ^ 20
  sum_le : ∀ e (S : Finset W), ∑ w ∈ S, pins w e ≤ refCount e

structure Vacating (top freq : Nat → Bool) (buffer : Nat → Option Nat) (H : W → List PoolLock)
    (vac : W → Option Vac) (hand : W → Option (Nat × Hand)) (pins : W → List (PageTag × Nat)) : Prop where
  lock : ∀ w v r, vac w = some v → v.needs r → r ∈ H w
  own : ∀ w w' v v', vac w = some v → vac w' = some v' → v.entry = v'.entry → w = w'
  listed : ∀ w e f b k, vac w = some (.pinned e f b k) → top e = true ∧ freq e = f ∧ buffer e = some b
  waiting : ∀ w w' v h, vac w = some v → hand w' = some (v.entry, h) → v.allows h
  unused : ∀ w w' v, vac w = some v → v.guards = true → ∀ tag, (tag, v.entry) ∉ pins w'

structure Reading (io valid : Nat → Bool) (H : W → List PoolLock) (hand : W → Option (Nat × Hand))
    (pins : W → List (PageTag × Nat)) :
    Prop where
  ready : ∀ w e, hand w = some (e, .ready) → .entry e ∈ H w ∧ io e = false ∧ valid e = false
  input : ∀ w e, hand w = some (e, .input) → io e = true ∧ valid e = false
  own : ∀ w w' e, hand w = some (e, .input) → hand w' = some (e, .input) → w = w'
  read : ∀ w e, hand w = some (e, .valid) → valid e = true
  pinned : ∀ w tag e, (tag, e) ∈ pins w → valid e = true

structure Written (dirty valid : Nat → Bool) (buffer : Nat → Option Nat) (unwritten : Nat → Bool)
    (unmarked : W → List Nat) (pins : W → List (PageTag × Nat)) (vac : W → Option Vac) : Prop where
  marked : ∀ e b, buffer e = some b → unwritten b = true →
    dirty e = true ∨ (∃ w, e ∈ unmarked w) ∨ ∃ w f b, vac w = some (.pinned e f b .failing)
  read : ∀ e b, buffer e = some b → unwritten b = true → valid e = true
  clean : ∀ w e f b, vac w = some (.pinned e f b .clean) → unwritten b = false
  pinned : ∀ w e, e ∈ unmarked w → ∃ tag, (tag, e) ∈ pins w

structure BuffersOwned (buffer : Nat → Option Nat) (freeBuffers : List Nat) (data took : W → Option Nat)
    (uses : W → Option (Nat × Option Nat)) (unwritten taken : Nat → Bool) (pins : W → List (PageTag × Nat)) :
    Prop where
  attached : ∀ e e' b, buffer e = some b → buffer e' = some b → e = e'
  free : ∀ e b, b ∈ freeBuffers → buffer e ≠ some b
  nodup : freeBuffers.Nodup
  inHand : ∀ w b, data w = some b → (∀ e, buffer e ≠ some b) ∧ b ∉ freeBuffers
  inHandOwn : ∀ w w' b, data w = some b → data w' = some b → w = w'
  written : ∀ b, b ∈ freeBuffers ∨ (∃ w, data w = some b) → unwritten b = false
  detached : ∀ w e, took w = some e → buffer e = none ∧ taken e = true
  own : ∀ w w' e, took w = some e → took w' = some e → w = w'
  used : ∀ w e o, uses w = some (e, o) → (∃ tag, (tag, e) ∈ pins w) ∧ ∀ b, o = some b → buffer e = some b

/-- The pins on an entry, of a call and after it. -/
def pinsOf (γ : W → PoolNote) (r : PoolRecord W) (w : W) (e : Nat) : Nat :=
  (γ w).pins e + (r.pins w).countP (·.2 == e)

structure PoolInv (v : PoolView) (r : PoolRecord W) (H : W → List PoolLock) (γ : W → PoolNote) : Prop where
  locks : LocksOwned v.isFree H
  counts : PinsCounted v.refCount (pinsOf γ r)
  vacating : Vacating v.top v.freq v.buffer H (fun w => (γ w).vac) (fun w => (γ w).hand) r.pins
  reading : Reading v.io v.valid H (fun w => (γ w).hand) r.pins
  written : Written v.dirty v.valid v.buffer r.unwritten r.unmarked r.pins fun w => (γ w).vac
  buffers : BuffersOwned v.buffer v.freeBuffers (fun w => (γ w).data) (fun w => (γ w).took)
    (fun w => (γ w).uses) r.unwritten r.taken r.pins
  detaches : ∀ d ∈ r.detaches, d.Safe

end

section
variable {W : Type} [DecidableEq W] {v : PoolView} {r : PoolRecord W} {H : W → List PoolLock} {γ : W → PoolNote}
  {w : W} {g : PoolNote}
  {e : Nat} {k j : Hand}

/-! ## Notes -/

theorem note_update {X : Type} (p : PoolNote → X) :
    (fun u => p (Function.update γ w g u)) = Function.update (fun u => p (γ u)) w (p g) :=
      Function.comp_update p γ w g

theorem hand_update : (fun u => (Function.update γ w g u).hand) = Function.update (fun u => (γ u).hand) w g.hand :=
  note_update _

theorem vac_update : (fun u => (Function.update γ w g u).vac) = Function.update (fun u => (γ u).vac) w g.vac :=
  note_update _

theorem took_update : (fun u => (Function.update γ w g u).took) = Function.update (fun u => (γ u).took) w g.took :=
  note_update _

theorem data_update : (fun u => (Function.update γ w g u).data) = Function.update (fun u => (γ u).data) w g.data :=
  note_update _

theorem uses_update : (fun u => (Function.update γ w g u).uses) = Function.update (fun u => (γ u).uses) w g.uses :=
  note_update _

theorem pinsOf_updates {r' : PoolRecord W} {l : List (PageTag × Nat)} (hr : r'.pins = Function.update r.pins w l) :
    pinsOf (Function.update γ w g) r' = Function.update (pinsOf γ r) w fun e => g.pins e + l.countP (·.2 == e) := by
  funext u e
  simp only [pinsOf, hr, Function.update_apply]
  split
  next => rfl
  next => rfl

theorem pinsOf_update : pinsOf (Function.update γ w g) r = Function.update (pinsOf γ r) w fun e =>
    g.pins e + (r.pins w).countP (·.2 == e) :=
  pinsOf_updates (Function.update_eq_self w r.pins).symm

theorem pinsOf_same (hp : g.pins = (γ w).pins) : pinsOf (Function.update γ w g) r = pinsOf γ r := by
  rw [pinsOf_update, hp]
  exact Function.update_eq_self w (pinsOf γ r)

/-! ## Counts -/

theorem PinsCounted.update {refCount refCount' : Nat → Nat} {n : W → Nat → Nat} {m : Nat → Nat}
    (h : PinsCounted refCount n) (hs : ∀ e, refCount' e < 2 ^ 20)
    (hm : ∀ e, m e + refCount e ≤ n w e + refCount' e) :
    PinsCounted refCount' (Function.update n w m) := by
  refine ⟨hs, fun e S => ?_⟩
  have hrest : ∑ u ∈ S.erase w, Function.update n w m u e = ∑ u ∈ S.erase w, n u e :=
    Finset.sum_congr rfl fun u hu => by rw [Function.update_of_ne (Finset.ne_of_mem_erase hu)]
  have hold : n w e + ∑ u ∈ S.erase w, n u e ≤ refCount e := by
    have := h.sum_le e (insert w (S.erase w))
    rwa [Finset.sum_insert (Finset.notMem_erase w S)] at this
  have hnew : ∑ u ∈ S, Function.update n w m u e ≤ m e + ∑ u ∈ S.erase w, n u e := by
    by_cases hw : w ∈ S
    · rw [← Finset.add_sum_erase S _ hw, Function.update_self, hrest]
    · rw [← hrest, Finset.erase_eq_of_notMem hw]
      exact Nat.le_add_left _ _
  have := hm e
  omega

theorem PinsCounted.update_at {refCount : Nat → Nat} {n : W → Nat → Nat} {m : Nat → Nat} {count : Nat}
    (h : PinsCounted refCount n) (hs : count < 2 ^ 20) (hm : m e + refCount e ≤ n w e + count)
    (hr : ∀ x, x ≠ e → m x = n w x) :
    PinsCounted (Function.update refCount e count) (Function.update n w m) := by
  refine h.update (fun x => ?_) fun x => ?_
  · by_cases hx : x = e
    · rwa [hx, Function.update_self]
    · rw [Function.update_of_ne hx]
      exact h.small x
  · by_cases hx : x = e
    · rwa [hx, Function.update_self]
    · rw [Function.update_of_ne hx, hr x hx]

omit [DecidableEq W] in
theorem PinsCounted.le {refCount : Nat → Nat} {n : W → Nat → Nat} (h : PinsCounted refCount n) :
    n w e ≤ refCount e := by
  have := h.sum_le e {w}
  rwa [Finset.sum_singleton] at this

theorem PinsCounted.add_le {refCount : Nat → Nat} {n : W → Nat → Nat} {u : W} (h : PinsCounted refCount n)
    (hne : w ≠ u) :
    n w e + n u e ≤ refCount e := by
  have := h.sum_le e {w, u}
  rwa [Finset.sum_pair hne] at this

theorem one_le_pins_hand (hh : g.hand = some (e, k)) : 1 ≤ g.pins e := by simp [PoolNote.pins, hh]

theorem one_le_pins_vac {x : Vac} (hx : g.vac = some x) (hc : x.counted = true) : 1 ≤ g.pins x.entry := by
  simp [PoolNote.pins, hx, hc]

theorem one_le_countP {l : List (PageTag × Nat)} {tag : PageTag} (hm : (tag, e) ∈ l) : 1 ≤ l.countP (·.2 == e) :=
  List.countP_pos_iff.2 ⟨_, hm, beq_self_eq_true e⟩

omit [DecidableEq W] in
/-- Nobody has anything to do with an entry that is not pinned. -/
theorem PoolInv.unpinned (h : PoolInv v r H γ) (h0 : v.refCount e = 0) : (∀ u k, (γ u).hand ≠ some (e, k)) ∧
    (∀ u x, (γ u).vac = some x → x.counted = true → x.entry ≠ e) ∧ ∀ u tag, (tag, e) ∉ r.pins u := by
  have hle : ∀ u, pinsOf γ r u e = 0 := fun u => Nat.le_zero.1 (h0 ▸ h.counts.le)
  unfold pinsOf at hle
  refine ⟨fun u k hk => ?_, fun u x hx hc he => ?_, fun u tag ht => ?_⟩
  · have := one_le_pins_hand hk
    have := hle u
    omega
  · subst he
    have := one_le_pins_vac hx hc
    have := hle u
    omega
  · have := one_le_countP ht
    have := hle u
    omega

/-- The only pin of an entry is that of a call. -/
theorem PoolInv.alone (h : PoolInv v r H γ) (h1 : v.refCount e = 1) (hh : (γ w).hand = some (e, k)) :
    (∀ u k, (γ u).hand = some (e, k) → u = w) ∧ (∀ u x, (γ u).vac = some x → x.counted = true → x.entry ≠ e) ∧
      ∀ u tag, (tag, e) ∉ r.pins u := by
  have hw := one_le_pins_hand hh
  have hle : ∀ u, w ≠ u → pinsOf γ r u e = 0 := fun u hu => by
    have := h.counts.add_le (e := e) hu
    unfold pinsOf at this ⊢
    omega
  have hself : pinsOf γ r w e ≤ 1 := h1 ▸ h.counts.le
  unfold pinsOf at hle hself
  refine ⟨fun u k hk => ?_, fun u x hx hc he => ?_, fun u tag ht => ?_⟩
  · by_contra hu
    have := one_le_pins_hand hk
    have := hle u (Ne.symm hu)
    omega
  · subst he
    by_cases hu : w = u
    · subst hu
      have : 2 ≤ (γ w).pins x.entry := by simp [PoolNote.pins, hx, hc, hh]
      omega
    · have := one_le_pins_vac hx hc
      have := hle u hu
      omega
  · have := one_le_countP ht
    by_cases hu : w = u
    · subst hu
      omega
    · have := hle u hu
      omega

/-! ## Locks -/

theorem LocksOwned.take {isFree : PoolLock → Bool} {l : PoolLock} (h : LocksOwned isFree H) (hf : isFree l = true) :
    LocksOwned (Function.update isFree l false) (Function.update H w (l :: H w)) := by
  have hno : l.listed = true → ∀ u, l ∉ H u := fun hl u hu => by simp [h.taken u l hl hu] at hf
  refine ⟨?_, ?_, fun u r hr => ?_⟩
  · grind [h.taken]
  · grind [h.own]
  · by_cases hu : u = w
    · subst hu
      rw [Function.update_self, List.count_cons]
      split
      next hlr =>
        obtain rfl : l = r := beq_iff_eq.1 hlr
        rw [List.count_eq_zero.2 (hno hr u)]
      next => exact h.once u r hr
    · rw [Function.update_of_ne hu]
      exact h.once u r hr

theorem LocksOwned.give {isFree : PoolLock → Bool} {l : PoolLock} (h : LocksOwned isFree H)
    (hl : l.listed = true → l ∈ H w) :
    LocksOwned (Function.update isFree l true) (Function.update H w ((H w).erase l)) := by
  have hsub : ∀ u r, r ∈ Function.update H w ((H w).erase l) u → r ∈ H u := fun u r hr => by
    by_cases hu : u = w
    · subst hu
      rw [Function.update_self] at hr
      exact List.mem_of_mem_erase hr
    · rwa [Function.update_of_ne hu] at hr
  refine ⟨fun u r hr hm => ?_, fun u u' r hr hm hm' => h.own u u' r hr (hsub u r hm) (hsub u' r hm'),
    fun u r hr => ?_⟩
  · by_cases hlr : r = l
    · -- nobody else holds it, and its holder gave it back
      subst hlr
      obtain rfl : u = w := h.own u w r hr (hsub u r hm) (hl hr)
      rw [Function.update_self] at hm
      have hc := List.count_erase_self (l := H u) (a := r)
      have := List.count_pos_iff.2 hm
      have := h.once u r hr
      omega
    · rw [Function.update_of_ne hlr]
      exact h.taken u r hr (hsub u r hm)
  · by_cases hu : u = w
    · subst hu
      rw [Function.update_self]
      exact Nat.le_trans (List.erase_sublist.count_le r) (h.once u r hr)
    · rw [Function.update_of_ne hu]
      exact h.once u r hr

theorem PoolInv.take {l : PoolLock} (h : PoolInv v r H γ) (hf : v.isFree l = true) :
    PoolInv { v with isFree := Function.update v.isFree l false } r (Function.update H w (l :: H w)) γ where
  locks := h.locks.take hf
  counts := h.counts
  vacating := by
    have h := h.vacating
    exact { h with lock := by grind [h.lock] }
  reading := by
    have h := h.reading
    exact { h with ready := by grind [h.ready] }
  written := h.written
  buffers := h.buffers
  detaches := h.detaches

theorem PoolInv.give {l : PoolLock} (h : PoolInv v r H γ) (hl : l.listed = true → l ∈ H w)
    (hv : ∀ x, (γ w).vac = some x → ¬ x.needs l) (hh : ∀ e, (γ w).hand = some (e, .ready) → l ≠ .entry e) :
    PoolInv { v with isFree := Function.update v.isFree l true } r (Function.update H w ((H w).erase l)) γ where
  locks := h.locks.give hl
  counts := h.counts
  vacating := by
    have h := h.vacating
    refine { h with lock := fun u x l' hx hn => ?_ }
    have := h.lock u x l' hx hn
    by_cases hu : u = w
    · subst hu
      rw [Function.update_self]
      exact (List.mem_erase_of_ne (by rintro rfl; exact hv x hx hn)).2 this
    · rwa [Function.update_of_ne hu]
  reading := by
    have h := h.reading
    refine { h with ready := fun u e he => ⟨?_, (h.ready u e he).2⟩ }
    by_cases hu : u = w
    · subst hu
      rw [Function.update_self]
      exact (List.mem_erase_of_ne (Ne.symm (hh e he))).2 (h.ready u e he).1
    · rw [Function.update_of_ne hu]
      exact (h.ready u e he).1
  written := h.written
  buffers := h.buffers
  detaches := h.detaches

/-! ## What is noted -/

theorem Written.renote {dirty valid unwritten : Nat → Bool} {buffer : Nat → Option Nat} {unmarked : W → List Nat}
    {pins : W → List (PageTag × Nat)} {vac : W → Option Vac} {x : Option Vac}
    (h : Written dirty valid buffer unwritten unmarked pins vac)
    (hf : ∀ e f b, vac w = some (.pinned e f b .failing) → ∃ f b, x = some (.pinned e f b .failing))
    (hc : ∀ e f b, x = some (.pinned e f b .clean) → unwritten b = false) :
    Written dirty valid buffer unwritten unmarked pins (Function.update vac w x) := by
  refine { h with marked := fun e b hb hd => ?_, clean := by grind [h.clean] }
  rcases h.marked e b hb hd with hm | hm | ⟨u, f, b', hu⟩
  · exact .inl hm
  · exact .inr (.inl hm)
  · by_cases huw : u = w
    · subst huw
      obtain ⟨f', b'', hx'⟩ := hf e f b' hu
      exact .inr (.inr ⟨u, f', b'', by rw [Function.update_self, hx']⟩)
    · exact .inr (.inr ⟨u, f, b', by rwa [Function.update_of_ne huw]⟩)

theorem Vacating.rehand {top freq : Nat → Bool} {buffer : Nat → Option Nat} {vac : W → Option Vac}
    {hand : W → Option (Nat × Hand)} {pins : W → List (PageTag × Nat)} {o : Option (Nat × Hand)}
    (h : Vacating top freq buffer H vac hand pins)
    (ha : ∀ u x k, vac u = some x → o = some (x.entry, k) → x.allows k) :
    Vacating top freq buffer H vac (Function.update hand w o) pins := by
  refine { h with waiting := fun u u' x k hx hk => ?_ }
  by_cases hu : u' = w
  · rw [hu, Function.update_self] at hk
    exact ha u x k hx hk
  · rw [Function.update_of_ne hu] at hk
    exact h.waiting u u' x k hx hk

theorem Vacating.revac {top freq : Nat → Bool} {buffer : Nat → Option Nat} {vac : W → Option Vac}
    {hand : W → Option (Nat × Hand)} {pins : W → List (PageTag × Nat)} {x y : Vac}
    (h : Vacating top freq buffer H vac hand pins)
    (hx : vac w = some x)
    (he : y.entry = x.entry) (hg : y.guards = true → x.guards = true) (hn : ∀ l, y.needs l → l ∈ H w)
    (hl : ∀ e f b k, y = .pinned e f b k → top e = true ∧ freq e = f ∧ buffer e = some b)
    (ha : ∀ k, x.allows k → y.allows k) :
    Vacating top freq buffer H (Function.update vac w (some y)) hand pins := by
  have hat : ∀ u z, Function.update vac w (some y) u = some z → (u = w ∧ z = y) ∨ vac u = some z := fun u z hz => by
    by_cases hu : u = w
    · rw [hu, Function.update_self] at hz
      exact .inl ⟨hu, (Option.some.inj hz).symm⟩
    · rw [Function.update_of_ne hu] at hz
      exact .inr hz
  have hwas : ∀ u z, Function.update vac w (some y) u = some z → ∃ z', vac u = some z' ∧ z'.entry = z.entry :=
    fun u z hz => by
    rcases hat u z hz with ⟨rfl, rfl⟩ | hz
    · exact ⟨x, hx, he.symm⟩
    · exact ⟨z, hz, rfl⟩
  refine ⟨fun u z l hz hneed => ?_, fun u u' z z' hz hz' hzz => ?_, fun u e f b k hz => ?_,
    fun u u' z k hz hk => ?_, fun u u' z hz hguard => ?_⟩
  · rcases hat u z hz with ⟨rfl, rfl⟩ | hz
    · exact hn l hneed
    · exact h.lock u z l hz hneed
  · obtain ⟨a, ha, hae⟩ := hwas u z hz
    obtain ⟨a', ha', hae'⟩ := hwas u' z' hz'
    exact h.own u u' a a' ha ha' (hae.trans (hzz.trans hae'.symm))
  · rcases hat u _ hz with ⟨rfl, hy⟩ | hz
    · exact hl e f b k hy.symm
    · exact h.listed u e f b k hz
  · rcases hat u z hz with ⟨rfl, rfl⟩ | hz
    · exact ha k (h.waiting u u' x k hx (he ▸ hk))
    · exact h.waiting u u' z k hz hk
  · rcases hat u z hz with ⟨rfl, rfl⟩ | hz
    · rw [he]
      exact h.unused u u' x hx (hg hguard)
    · exact h.unused u u' z hz hguard

theorem Reading.rehand {io valid : Nat → Bool} {hand : W → Option (Nat × Hand)} {pins : W → List (PageTag × Nat)}
    {o : Option (Nat × Hand)} (h : Reading io valid H hand pins) (hi : ∀ e, o ≠ some (e, .input))
    (hr : ∀ e, o = some (e, .ready) → .entry e ∈ H w ∧ io e = false ∧ valid e = false)
    (hd : ∀ e, o = some (e, .valid) → valid e = true) : Reading io valid H (Function.update hand w o) pins := by
  have hat : ∀ u e k, Function.update hand w o u = some (e, k) → (u = w ∧ o = some (e, k)) ∨ hand u = some (e, k) :=
    fun u e k hu => by
      by_cases huw : u = w
      · rw [huw, Function.update_self] at hu
        exact .inl ⟨huw, hu⟩
      · rw [Function.update_of_ne huw] at hu
        exact .inr hu
  have hin : ∀ u e, Function.update hand w o u = some (e, .input) → hand u = some (e, .input) := fun u e hu =>
    (hat u e _ hu).resolve_left fun ho => hi e ho.2
  refine ⟨fun u e hu => ?_, fun u e hu => h.input u e (hin u e hu),
    fun u u' e hu hu' => h.own u u' e (hin u e hu) (hin u' e hu'), fun u e hu => ?_, h.pinned⟩
  · rcases hat u e _ hu with ⟨rfl, ho⟩ | hu
    · exact hr e ho
    · exact h.ready u e hu
  · rcases hat u e _ hu with ⟨-, ho⟩ | hu
    · exact hd e ho
    · exact h.read u e hu

theorem PoolInv.forget (h : PoolInv v r H γ) (hg : g.Within (γ w)) (hc : (γ w).calm) :
    PoolInv v r H (Function.update γ w g) where
  locks := h.locks
  counts := by
    rw [pinsOf_update]
    refine h.counts.update h.counts.small fun e => ?_
    obtain ⟨hh, hv, -⟩ := hg
    have : g.pins e ≤ (γ w).pins e := by
      unfold PoolNote.pins
      refine Nat.add_le_add ?_ ?_
      · rcases hh with hh | hh <;> simp [hh]
      · rcases hv with hv | hv <;> simp [hv]
    unfold pinsOf
    omega
  vacating := by
    simp only [vac_update, hand_update]
    have h := h.vacating
    obtain ⟨hh, hv, -⟩ := hg
    exact ⟨by grind [h.lock], by grind [h.own], by grind [h.listed], by grind [h.waiting], by grind [h.unused]⟩
  reading := by
    simp only [hand_update]
    have h := h.reading
    have hh := hg.hand
    exact { h with
      ready := by grind [h.ready], input := by grind [h.input], own := by grind [h.own], read := by grind [h.read] }
  written := by
    simp only [vac_update]
    refine h.written.renote (fun e f b hx => absurd hx (hc e f b)) fun e f b hx => ?_
    rcases hg.vac with hv | hv
    · rw [hv] at hx
      cases hx
    · exact h.written.clean w e f b (hv ▸ hx)
  buffers := by
    simp only [data_update, took_update, uses_update]
    have h := h.buffers
    obtain ⟨-, -, ht, hd, hu⟩ := hg
    exact { h with
      inHand := by grind [h.inHand], inHandOwn := by grind [h.inHandOwn], written := by grind [h.written]
      detached := by grind [h.detached], own := by grind [h.own], used := by grind [h.used] }
  detaches := h.detaches

theorem PoolInv.rehand (h : PoolInv v r H γ) (hh : (γ w).hand = some (e, k))
    (hv : ∀ u x, (γ u).vac = some x → x.entry = e → x.allows j) (hi : j ≠ .input)
    (hr : j = .ready → .entry e ∈ H w ∧ v.io e = false ∧ v.valid e = false) (hd : j = .valid → v.valid e = true) :
    PoolInv v r H (Function.update γ w { γ w with hand := some (e, j) }) where
  locks := h.locks
  counts := by
    rw [pinsOf_same (by funext x; simp [PoolNote.pins, hh])]
    exact h.counts
  vacating := by
    simp only [vac_update, hand_update, Function.update_eq_self]
    refine h.vacating.rehand fun u x i hx ho => ?_
    obtain ⟨he, rfl⟩ := Prod.mk.inj (Option.some.inj ho)
    exact hv u x hx he.symm
  reading := by
    simp only [hand_update]
    refine h.reading.rehand (fun e' ho => ?_) (fun e' ho => ?_) fun e' ho => ?_
    · exact hi (Prod.mk.inj (Option.some.inj ho)).2
    · obtain ⟨rfl, hj⟩ := Prod.mk.inj (Option.some.inj ho)
      exact hr hj
    · obtain ⟨rfl, hj⟩ := Prod.mk.inj (Option.some.inj ho)
      exact hd hj
  written := by
    simp only [vac_update, Function.update_eq_self]
    exact h.written
  buffers := by
    simp only [data_update, took_update, uses_update, Function.update_eq_self]
    exact h.buffers
  detaches := h.detaches

/-- A step that changes who has which buffer, and nothing else. -/
theorem PoolInv.ofBuffers {freeBuffers : List Nat} {taken : Nat → Bool} (h : PoolInv v r H γ)
    (hh : g.hand = (γ w).hand) (hx : g.vac = (γ w).vac)
    (hb : BuffersOwned v.buffer freeBuffers (Function.update (fun u => (γ u).data) w g.data)
      (Function.update (fun u => (γ u).took) w g.took) (Function.update (fun u => (γ u).uses) w g.uses) r.unwritten
        taken r.pins) :
    PoolInv { v with freeBuffers := freeBuffers } { r with taken := taken } H (Function.update γ w g) where
  locks := h.locks
  counts := by
    have hp : g.pins = (γ w).pins := by
      unfold PoolNote.pins
      rw [hh, hx]
    show PinsCounted v.refCount (pinsOf (Function.update γ w g) r)
    rw [pinsOf_same hp]
    exact h.counts
  vacating := by
    simp only [vac_update, hand_update, hh, hx, Function.update_eq_self]
    exact h.vacating
  reading := by
    simp only [hand_update, hh, Function.update_eq_self]
    exact h.reading
  written := by
    simp only [vac_update, hx, Function.update_eq_self]
    exact h.written
  buffers := by
    simp only [data_update, took_update, uses_update]
    exact hb
  detaches := h.detaches

end

end Mimidb
