import Mathlib.Algebra.BigOperators.Group.Finset.Basic
import Mimidb.BufferManager
import Mimidb.Run

/-!
# Buffer pins

`BufferPin` objects, the state word of each entry as they count it, and what
the calls obtained and returned. A pin is returned by the destructor, and by
an assignment over it.
-/

namespace Mimidb

open Finset

structure BufferPin where
  tag : PageTag
  /-- The entry of the buffer, `none` for `Buffer::Invalid()`. -/
  buffer : Option Nat
  deriving DecidableEq, Repr

namespace BufferPin

def default : BufferPin := ⟨⟨0, PageNumber.Invalid⟩, none⟩

def isValid (p : BufferPin) : Bool := p.buffer.isSome

/-- The reference of a pin to the entry `e`. -/
def refTo (p : BufferPin) (e : Nat) : Nat := if p.buffer = some e then 1 else 0

@[simp] theorem refTo_default (e : Nat) : default.refTo e = 0 := rfl

theorem refTo_some (tag : PageTag) (e e' : Nat) :
    (BufferPin.mk tag (some e)).refTo e' = if e = e' then 1 else 0 := by
  simp [refTo]

end BufferPin

inductive PinOp where
  /-- A call gives a pin: its entry is pinned and `o` constructed. -/
  | obtain (o : Nat) (tag : PageTag) (e : Nat)
  | construct (o : Nat)
  | moveConstruct (o other : Nat)
  | moveAssign (o other : Nat)
  | destroy (o : Nat)
  deriving DecidableEq, Repr

structure PinTable where
  /-- The state words; the count is the lowest 20 bits. -/
  state : Nat → Nat
  objects : Finset Nat
  pin : Nat → BufferPin
  obtained : Nat → Nat
  returned : Nat → Nat
  /-- An assertion failed. -/
  failed : Bool

namespace PinTable

def init (flags : Nat → Nat) : PinTable where
  state e := flags e * 2 ^ 20
  objects := ∅
  pin _ := .default
  obtained _ := 0
  returned _ := 0
  failed := false

def refCount (s : PinTable) (e : Nat) : Nat := s.state e % 2 ^ 20

/-- Live pins of an entry. -/
def live (s : PinTable) (e : Nat) : Nat := ∑ o ∈ s.objects, (s.pin o).refTo e

/-- `Unpin`, after the two assertions that the entry is pinned. -/
def returnBuffer (dbg : Bool) (e : Nat) (s : PinTable) : PinTable :=
  { s with
    state := Function.update s.state e ((s.state e + (2 ^ 32 - 1)) % 2 ^ 32)
    returned := Function.update s.returned e (s.returned e + 1)
    failed := s.failed || (dbg && s.refCount e == 0) }

def release (dbg : Bool) (o : Nat) (s : PinTable) : PinTable :=
  match (s.pin o).buffer with
  | some e => s.returnBuffer dbg e
  | none => s

def swap (o other : Nat) (s : PinTable) : PinTable :=
  { s with pin := Function.update (Function.update s.pin o (s.pin other)) other (s.pin o) }

def obtain (dbg : Bool) (o : Nat) (tag : PageTag) (e : Nat) (s : PinTable) : PinTable :=
  { s with
    state := Function.update s.state e ((s.state e + 1) % 2 ^ 32)
    objects := insert o s.objects
    pin := Function.update s.pin o ⟨tag, some e⟩
    obtained := Function.update s.obtained e (s.obtained e + 1)
    failed := dbg && s.refCount e == 2 ^ 20 - 1 }

def construct (o : Nat) (s : PinTable) : PinTable :=
  { s with objects := insert o s.objects, pin := Function.update s.pin o .default }

/-- Its members are default-initialised before the body runs. -/
def moveConstruct (dbg : Bool) (o other : Nat) (s : PinTable) : PinTable :=
  ((s.construct o).release dbg o).swap o other

def moveAssign (dbg : Bool) (o other : Nat) (s : PinTable) : PinTable :=
  if dbg && o == other then { s with failed := true } else (s.release dbg o).swap o other

def destroy (dbg : Bool) (o : Nat) (s : PinTable) : PinTable :=
  { s.release dbg o with objects := s.objects.erase o }

def step (dbg : Bool) (s : PinTable) (op : PinOp) : Option PinTable :=
  if s.failed then none
  else match op with
    | .obtain o tag e => if o ∈ s.objects then none else some (s.obtain dbg o tag e)
    | .construct o => if o ∈ s.objects then none else some (s.construct o)
    | .moveConstruct o other =>
      if o ∉ s.objects ∧ other ∈ s.objects then some (s.moveConstruct dbg o other) else none
    | .moveAssign o other =>
      if o ∈ s.objects ∧ other ∈ s.objects then some (s.moveAssign dbg o other) else none
    | .destroy o => if o ∈ s.objects then some (s.destroy dbg o) else none

/-- Every count is that of the live pins, and what is not live was returned once. -/
structure Conserved (s : PinTable) : Prop where
  noAssert : s.failed = false
  counted : ∀ e, s.refCount e = s.live e
  once : ∀ e, s.obtained e = s.returned e + s.live e

/-- An assignment is to an object without a buffer, and the count does not overflow. -/
def Releases (dbg : Bool) (s : PinTable) : PinOp → Prop
  | .obtain _ _ e => s.refCount e + 1 < 2 ^ 20
  | .moveAssign o other => (s.pin o).isValid = false ∧ (dbg = true → o ≠ other)
  | _ => True

section
variable {dbg : Bool} {s t : PinTable} {o other e : Nat} {p : BufferPin}

@[simp] theorem release_pin : (s.release dbg o).pin = s.pin := by
  unfold release
  split <;> rfl

@[simp] theorem release_objects : (s.release dbg o).objects = s.objects := by
  unfold release
  split <;> rfl

theorem release_invalid (h : (s.pin o).isValid = false) : s.release dbg o = s := by
  unfold BufferPin.isValid at h
  simp only [Option.isSome_eq_false_iff, Option.isNone_iff_eq_none] at h
  simp [release, h]

/-! ## Moves -/

theorem swap_pin_self (h : o ≠ other) : (s.swap o other).pin o = s.pin other := by
  simp [swap, h]

@[simp] theorem swap_pin_other : (s.swap o other).pin other = s.pin o := by
  simp [swap]

theorem swap_pin_ne {x : Nat} (h : x ≠ o) (h' : x ≠ other) : (s.swap o other).pin x = s.pin x := by
  simp [swap, h, h']

theorem construct_isValid : ((s.construct o).pin o).isValid = false := by
  simp [construct, BufferPin.isValid, BufferPin.default]

theorem moveConstruct_eq : s.moveConstruct dbg o other = (s.construct o).swap o other := by
  unfold moveConstruct
  rw [release_invalid construct_isValid]

theorem moveConstruct_objects : (s.moveConstruct dbg o other).objects = insert o s.objects := by
  rw [moveConstruct_eq]
  rfl

theorem moveConstruct_pin_self (h : o ≠ other) : (s.moveConstruct dbg o other).pin o = s.pin other := by
  rw [moveConstruct_eq, swap_pin_self h]
  simp [construct, h.symm]

theorem moveConstruct_pin_other : (s.moveConstruct dbg o other).pin other = .default := by
  rw [moveConstruct_eq, swap_pin_other]
  simp [construct]

theorem moveConstruct_pin_ne {x : Nat} (h : x ≠ o) (h' : x ≠ other) :
    (s.moveConstruct dbg o other).pin x = s.pin x := by
  rw [moveConstruct_eq, swap_pin_ne h h']
  simp [construct, h]

theorem moveAssign_invalid (hv : (s.pin o).isValid = false) (h : o ≠ other) :
    s.moveAssign dbg o other = s.swap o other := by
  unfold moveAssign
  rw [release_invalid hv]
  simp [h]

/-! ## Sums over the objects -/

theorem sum_update_outside {objects : Finset Nat} (pin : Nat → BufferPin) (h : o ∉ objects) :
    ∑ x ∈ objects, (Function.update pin o p x).refTo e = ∑ x ∈ objects, (pin x).refTo e := by
  refine Finset.sum_congr rfl fun x hx => ?_
  have hne : x ≠ o := fun he => h (he ▸ hx)
  rw [Function.update_of_ne hne]

/-- What a pin gives up, another one gets. -/
theorem sum_update {objects : Finset Nat} (pin : Nat → BufferPin) (h : o ∈ objects) :
    ∑ x ∈ objects, (Function.update pin o p x).refTo e + (pin o).refTo e =
      ∑ x ∈ objects, (pin x).refTo e + p.refTo e := by
  rw [← Finset.sum_erase_add _ _ h, ← Finset.sum_erase_add objects (fun x => (pin x).refTo e) h,
    sum_update_outside pin (Finset.notMem_erase o objects), Function.update_self]
  omega

theorem live_swap (ho : o ∈ s.objects) (hr : other ∈ s.objects) : (s.swap o other).live e = s.live e := by
  have h := sum_update (p := s.pin other) (e := e) s.pin ho
  have h' := sum_update (p := s.pin o) (e := e) (Function.update s.pin o (s.pin other)) hr
  unfold live swap
  simp only
  by_cases hne : other = o
  · subst hne
    rw [Function.update_self] at h'
    omega
  · rw [Function.update_of_ne hne] at h'
    omega

theorem live_construct (ho : o ∉ s.objects) : (s.construct o).live e = s.live e := by
  unfold live construct
  rw [Finset.sum_insert ho, sum_update_outside s.pin ho]
  simp

theorem live_obtain {tag : PageTag} {e' : Nat} (ho : o ∉ s.objects) :
    (s.obtain dbg o tag e').live e = (if e' = e then 1 else 0) + s.live e := by
  unfold live obtain
  rw [Finset.sum_insert ho, sum_update_outside s.pin ho]
  simp only [Function.update_self, BufferPin.refTo_some]

theorem live_release : (s.release dbg o).live e = s.live e := by
  unfold release
  split <;> rfl

theorem live_destroy (dbg : Bool) (e : Nat) (ho : o ∈ s.objects) :
    (s.destroy dbg o).live e + (s.pin o).refTo e = s.live e := by
  unfold live destroy
  simp only [release_pin]
  exact Finset.sum_erase_add _ _ ho

/-! ## One step -/

theorem Conserved.pinned (h : Conserved s) (ho : o ∈ s.objects) (hb : (s.pin o).buffer = some e) :
    0 < s.refCount e := by
  have hd := live_destroy false e ho
  simp only [BufferPin.refTo, hb, if_pos] at hd
  rw [h.counted e]
  omega

theorem Releases.obtain_failed {tag : PageTag} (h : Releases dbg s (.obtain o tag e)) :
    (s.obtain dbg o tag e).failed = false := by
  have hne : s.refCount e ≠ 2 ^ 20 - 1 := by
    unfold Releases at h
    omega
  simp only [PinTable.obtain, Bool.and_eq_false_iff, beq_eq_false_iff_ne]
  exact .inr hne

theorem Conserved.obtain_step {tag : PageTag} (h : Conserved s) (ho : o ∉ s.objects) :
    Conserved (s.obtain dbg o tag e) ↔ Releases dbg s (.obtain o tag e) := by
  refine ⟨fun h' => ?_, fun hc => ⟨hc.obtain_failed, fun e' => ?_, fun e' => ?_⟩⟩
  · have h1 := h'.counted e
    have h2 := h.counted e
    rw [live_obtain ho, if_pos rfl] at h1
    simp only [refCount, PinTable.obtain, Function.update_self] at h1 h2
    show s.state e % 2 ^ 20 + 1 < 2 ^ 20
    omega
  · have h2 := h.counted e'
    have hc : s.state e % 2 ^ 20 + 1 < 2 ^ 20 := hc
    rw [live_obtain ho]
    by_cases he : e = e'
    · subst he
      simp only [refCount, PinTable.obtain, Function.update_self, if_pos] at h2 ⊢
      omega
    · simp only [refCount, PinTable.obtain, Function.update_of_ne (Ne.symm he), if_neg he] at h2 ⊢
      omega
  · have h2 := h.once e'
    rw [live_obtain ho]
    by_cases he : e = e'
    · subst he
      simp only [PinTable.obtain, Function.update_self, if_pos]
      omega
    · simp only [PinTable.obtain, Function.update_of_ne (Ne.symm he), if_neg he]
      omega

theorem Conserved.construct_step (h : Conserved s) (ho : o ∉ s.objects) : Conserved (s.construct o) := by
  refine ⟨h.noAssert, fun e => ?_, fun e => ?_⟩
  · rw [live_construct ho]; exact h.counted e
  · rw [live_construct ho]; exact h.once e

theorem Conserved.swap_step (h : Conserved s) (ho : o ∈ s.objects) (hr : other ∈ s.objects) :
    Conserved (s.swap o other) := by
  refine ⟨h.noAssert, fun e => ?_, fun e => ?_⟩
  · rw [live_swap ho hr]; exact h.counted e
  · rw [live_swap ho hr]; exact h.once e

theorem Conserved.moveConstruct_step (h : Conserved s) (ho : o ∉ s.objects) (hr : other ∈ s.objects) :
    Conserved (s.moveConstruct dbg o other) := by
  rw [moveConstruct_eq]
  exact (h.construct_step ho).swap_step (Finset.mem_insert_self o _) (Finset.mem_insert_of_mem hr)

/-- An assignment over a valid pin leaves the returned buffer with `other`. -/
theorem Conserved.moveAssign_step (h : Conserved s) (ho : o ∈ s.objects) (hr : other ∈ s.objects) :
    Conserved (s.moveAssign dbg o other) ↔ Releases dbg s (.moveAssign o other) := by
  refine ⟨fun h' => ?_, fun hc => ?_⟩
  · have hself : dbg = true → o ≠ other := by
      intro hd he
      have := h'.noAssert
      simp [moveAssign, hd, he] at this
    refine ⟨?_, hself⟩
    have hm : s.moveAssign dbg o other = (s.release dbg o).swap o other := by
      unfold moveAssign
      cases dbg with
      | false => rfl
      | true => simp [hself rfl]
    rw [hm] at h'
    cases hb : (s.pin o).buffer with
    | none => simp [BufferPin.isValid, hb]
    | some e =>
      have h1 := h'.counted e
      have h2 := h.counted e
      rw [live_swap (by rwa [release_objects]) (by rwa [release_objects]), live_release] at h1
      have hpos : 0 < s.refCount e := h.pinned ho hb
      simp only [refCount, PinTable.swap, release, hb, returnBuffer, Function.update_self] at h1 h2 hpos
      omega
  · have hm : s.moveAssign dbg o other = s.swap o other := by
      unfold moveAssign
      rw [release_invalid hc.1]
      cases dbg with
      | false => rfl
      | true => simp [hc.2 rfl]
    rw [hm]
    exact h.swap_step ho hr

theorem Conserved.destroy_step (h : Conserved s) (ho : o ∈ s.objects) : Conserved (s.destroy dbg o) := by
  cases hb : (s.pin o).buffer with
  | none =>
    have hd : s.destroy dbg o = { s with objects := s.objects.erase o } := by simp [destroy, release, hb]
    have hl : ∀ e, (s.destroy dbg o).live e = s.live e := fun e => by
      have := live_destroy dbg e ho
      simpa [BufferPin.refTo, hb] using this
    refine ⟨by rw [hd]; exact h.noAssert, fun e => ?_, fun e => ?_⟩
    · rw [hl, ← h.counted e, hd]; rfl
    · rw [hl, hd]; exact h.once e
  | some e =>
    have hl : ∀ e', (s.destroy dbg o).live e' + (if e = e' then 1 else 0) = s.live e' := fun e' => by
      have := live_destroy dbg e' ho
      simpa [BufferPin.refTo, hb] using this
    have hpos : 0 < s.refCount e := h.pinned ho hb
    have hd : s.destroy dbg o = { s.returnBuffer dbg e with objects := s.objects.erase o } := by
      simp [destroy, release, hb]
    refine ⟨?_, fun e' => ?_, fun e' => ?_⟩
    · rw [hd]
      have := h.noAssert
      simp only [returnBuffer, this, Bool.false_or, Bool.and_eq_false_iff, beq_eq_false_iff_ne]
      exact .inr (by omega)
    · have h1 := hl e'
      have h2 := h.counted e'
      by_cases he : e = e'
      · subst he
        rw [if_pos rfl] at h1
        generalize (s.destroy dbg o).live e = l at h1 ⊢
        rw [hd]
        simp only [refCount, returnBuffer, Function.update_self] at h2 ⊢
        omega
      · rw [if_neg he] at h1
        generalize (s.destroy dbg o).live e' = l at h1 ⊢
        rw [hd]
        simp only [refCount, returnBuffer, Function.update_of_ne (Ne.symm he)] at h2 ⊢
        omega
    · have h1 := hl e'
      have h2 := h.once e'
      by_cases he : e = e'
      · subst he
        rw [if_pos rfl] at h1
        generalize (s.destroy dbg o).live e = l at h1 ⊢
        rw [hd]
        simp only [returnBuffer, Function.update_self]
        omega
      · rw [if_neg he] at h1
        generalize (s.destroy dbg o).live e' = l at h1 ⊢
        rw [hd]
        simp only [returnBuffer, Function.update_of_ne (Ne.symm he)]
        omega

theorem Conserved.step_iff {op : PinOp} (h : Conserved s) (hs : step dbg s op = some t) :
    Conserved t ↔ Releases dbg s op := by
  simp only [step, h.noAssert, Bool.false_eq_true, if_false] at hs
  cases op with
  | obtain o tag e =>
    simp only [Option.ite_none_left_eq_some, Option.some.injEq] at hs
    obtain ⟨ho, rfl⟩ := hs
    exact h.obtain_step ho
  | construct o =>
    simp only [Option.ite_none_left_eq_some, Option.some.injEq] at hs
    obtain ⟨ho, rfl⟩ := hs
    exact iff_of_true (h.construct_step ho) trivial
  | moveConstruct o other =>
    simp only [Option.ite_none_right_eq_some, Option.some.injEq] at hs
    obtain ⟨⟨ho, hr⟩, rfl⟩ := hs
    exact iff_of_true (h.moveConstruct_step ho hr) trivial
  | moveAssign o other =>
    simp only [Option.ite_none_right_eq_some, Option.some.injEq] at hs
    obtain ⟨⟨ho, hr⟩, rfl⟩ := hs
    exact h.moveAssign_step ho hr
  | destroy o =>
    simp only [Option.ite_none_right_eq_some, Option.some.injEq] at hs
    obtain ⟨ho, rfl⟩ := hs
    exact iff_of_true (h.destroy_step ho) trivial

end

/-! ## Runs -/

theorem init_conserved (flags : Nat → Nat) : Conserved (init flags) := by
  refine ⟨rfl, fun e => ?_, fun e => rfl⟩
  exact Nat.mul_mod_left (flags e) (2 ^ 20)

/-- In a run without assignments over valid pins every pin is returned once;
any other step breaks the counts at once. -/
theorem pins_conserved {dbg : Bool} {flags : Nat → Nat} {s : PinTable}
    (h : Reach (step dbg) (Releases dbg) (init flags) s) :
    Conserved s ∧ ∀ op t, step dbg s op = some t → (Conserved t ↔ Releases dbg s op) := by
  have hs : Conserved s := by
    refine h.inv (fun s op t hs hc ht => ?_) (init_conserved flags)
    exact (hs.step_iff ht).mpr hc
  exact ⟨hs, fun op t ht => hs.step_iff ht⟩

instance (dbg : Bool) (s : PinTable) : ∀ op, Decidable (Releases dbg s op)
  | .obtain _ _ _ => inferInstanceAs (Decidable (_ < _))
  | .moveAssign _ _ => inferInstanceAs (Decidable (_ ∧ _))
  | .construct _ | .moveConstruct _ _ | .destroy _ => inferInstanceAs (Decidable True)

/-- The loop of `UpdateTuple`: `newPin` is assigned a temporary in every round. -/
def searchRounds (newPin temp : Nat) : List (PageTag × Nat) → List PinOp
  | [] => [.destroy newPin]
  | (tag, e) :: found =>
    .obtain temp tag e :: .moveAssign newPin temp :: .destroy temp :: searchRounds newPin temp found

theorem pins_conserved_round : ∃ s, Reach (step true) (Releases true) (init fun _ => 0) s ∧
    s.obtained 5 = 1 ∧ Conserved s := by
  have h : (exec (guarded (Releases true) (step true)) (init fun _ => 0)
      (.construct 0 :: searchRounds 0 1 [(⟨1, 0⟩, 5)])).map (fun s => s.obtained 5 == 1) = some true := by decide
  obtain ⟨s, hr, ho⟩ := reach_of_test h
  exact ⟨s, hr.of_guarded, by simpa using ho, (pins_conserved hr.of_guarded).1⟩

/-- The second round returns the pin of the first one, and the temporary returns it again. -/
theorem second_round_fails : (exec (step true) (init fun _ => 0)
      (.construct 0 :: (searchRounds 0 1 [(⟨1, 0⟩, 5), (⟨1, 1⟩, 6)]).dropLast)).map
        (fun s => (s.failed, s.obtained 5, s.returned 5)) = some (true, 1, 2) ∧
    (exec (step false) (init fun _ => 0) (.construct 0 :: searchRounds 0 1 [(⟨1, 0⟩, 5), (⟨1, 1⟩, 6)])).map
        (fun s => (s.refCount 5, s.live 5)) = some (2 ^ 20 - 1, 0) := by
  decide

end PinTable

end Mimidb
