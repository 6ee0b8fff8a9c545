import Mathlib.Data.BitVec
import Mathlib.Tactic.Common

/-!
# The state word of a latch

The lower 29 bits of the word count the holders, with bit 28 standing for
the exclusive holder; the three bits above are flags. Flags and count are
read and written by masks, and the counter is changed only by adding the
value of a mode to a zero count or subtracting it again.
-/

namespace Mimidb

inductive LockMode where
  | Share
  | Exclusive
  deriving DecidableEq, Repr

namespace LWLatchFlag

/-- Waiters list is locked. -/
def ListLocked : BitVec 32 := 1#32 <<< 29
/-- The next release may wake waiters. -/
def UnlockWaiter : BitVec 32 := 1#32 <<< 30
/-- Waiters list is not empty. -/
def HasWaiters : BitVec 32 := 1#32 <<< 31

end LWLatchFlag

def ExclusiveLockValue : BitVec 32 := 1#32 <<< 28
def SharedLockValue : BitVec 32 := 1#32
def LockCountMask : BitVec 32 := ExclusiveLockValue ||| (ExclusiveLockValue - 1#32)

/-- What a mode adds to the word. -/
def LockMode.value : LockMode → BitVec 32
  | .Exclusive => ExclusiveLockValue
  | .Share => SharedLockValue

def lockCount (w : BitVec 32) : BitVec 32 := w &&& LockCountMask

def hasFlag (w f : BitVec 32) : Bool := w &&& f != 0#32

/-- `f` is the flag at bit `k`, above the count. -/
class IsFlag (f : BitVec 32) (k : outParam Nat) : Prop where
  bit : f = BitVec.twoPow 32 k
  range : 29 ≤ k ∧ k < 32

instance : IsFlag LWLatchFlag.ListLocked 29 := ⟨by decide, by decide⟩
instance : IsFlag LWLatchFlag.UnlockWaiter 30 := ⟨by decide, by decide⟩
instance : IsFlag LWLatchFlag.HasWaiters 31 := ⟨by decide, by decide⟩

theorem mask_bit (i : Nat) : LockCountMask.getLsbD i = decide (i < 29) := by
  by_cases h : i < 32
  · have : ∀ i : Fin 32, LockCountMask.getLsbD i = decide (i.val < 29) := by decide
    exact this ⟨i, h⟩
  · rw [BitVec.getLsbD_of_ge _ _ (by omega)]
    simp; omega

theorem hasFlag_eq {f : BitVec 32} {k : Nat} [hf : IsFlag f k] (w : BitVec 32) :
    hasFlag w f = w.getLsbD k := by
  obtain ⟨-, hk⟩ := hf.range
  rw [hasFlag, hf.bit, BitVec.and_twoPow]
  cases w.getLsbD k
  · rfl
  · have : BitVec.twoPow 32 k ≠ 0#32 := by
      intro h
      have := congrArg (·.getLsbD k) h
      simp [hk] at this
    simpa using this

/-! ## Setting and clearing flags -/

section
variable {f g : BitVec 32} {k j : Nat} [hf : IsFlag f k]
include hf

theorem and_eq_of_hasFlag {w : BitVec 32} (h : hasFlag w f = true) : w &&& f = f := by
  rw [hasFlag_eq] at h
  rw [hf.bit, BitVec.and_twoPow, h]
  rfl

@[simp] theorem hasFlag_or_self (w : BitVec 32) : hasFlag (w ||| f) f = true := by
  obtain ⟨-, hk⟩ := hf.range
  rw [hasFlag_eq]
  simp [hf.bit, hk]

@[simp] theorem hasFlag_andNot_self (w : BitVec 32) : hasFlag (w &&& ~~~f) f = false := by
  rw [hasFlag_eq]
  obtain ⟨-, hk⟩ := hf.range
  simp [hf.bit, hk]

@[simp] theorem hasFlag_or_ne [hg : IsFlag g j] (hne : k ≠ j) (w : BitVec 32) :
    hasFlag (w ||| f) g = hasFlag w g := by
  rw [hasFlag_eq, hasFlag_eq]
  simp [hf.bit, BitVec.getLsbD_twoPow, hne]

@[simp] theorem hasFlag_andNot_ne [hg : IsFlag g j] (hne : k ≠ j) (w : BitVec 32) :
    hasFlag (w &&& ~~~f) g = hasFlag w g := by
  obtain ⟨-, hj⟩ := hg.range
  rw [hasFlag_eq, hasFlag_eq]
  simp [hf.bit, hj, Ne.symm hne]

@[simp] theorem lockCount_or (w : BitVec 32) : lockCount (w ||| f) = lockCount w := by
  obtain ⟨hk, -⟩ := hf.range
  apply BitVec.eq_of_getLsbD_eq
  intro i _
  have : k = i → ¬ i < 29 := by omega
  simp only [lockCount, BitVec.getLsbD_and, BitVec.getLsbD_or, mask_bit, hf.bit,
    BitVec.getLsbD_twoPow]
  by_cases h : k = i <;> simp_all

@[simp] theorem lockCount_andNot (w : BitVec 32) : lockCount (w &&& ~~~f) = lockCount w := by
  obtain ⟨hk, -⟩ := hf.range
  apply BitVec.eq_of_getLsbD_eq
  intro i hi
  have : k = i → ¬ i < 29 := by omega
  simp only [lockCount, BitVec.getLsbD_and, BitVec.getLsbD_not, mask_bit, hf.bit,
    BitVec.getLsbD_twoPow]
  by_cases h : k = i <;> simp_all

end

/-! ## Taking and giving back a mode -/

theorem value_bit (m : LockMode) (i : Nat) (h : m.value.getLsbD i = true) : i < 29 := by
  by_cases hi : i < 32
  · have : ∀ i : Fin 32, m.value.getLsbD i = true → i.val < 29 := by cases m <;> decide
    exact this ⟨i, hi⟩ h
  · rw [BitVec.getLsbD_of_ge _ _ (by omega)] at h
    cases h

theorem value_ne_zero (m : LockMode) : m.value ≠ 0#32 := by
  cases m <;> decide

theorem and_value_of_free {w : BitVec 32} (h : lockCount w = 0#32) (m : LockMode) :
    w &&& m.value = 0#32 := by
  apply BitVec.eq_of_getLsbD_eq
  intro i _
  have hi : (lockCount w).getLsbD i = false := by rw [h]; simp
  simp only [lockCount, BitVec.getLsbD_and, mask_bit] at hi
  simp only [BitVec.getLsbD_and, BitVec.getLsbD_zero]
  cases hv : m.value.getLsbD i with
  | false => simp
  | true => simpa [value_bit m i hv] using hi

theorem add_value_of_free {w : BitVec 32} (h : lockCount w = 0#32) (m : LockMode) :
    w + m.value = w ||| m.value :=
  BitVec.add_eq_or_of_and_eq_zero w m.value (and_value_of_free h m)

@[simp] theorem lockCount_take {w : BitVec 32} (h : lockCount w = 0#32) (m : LockMode) :
    lockCount (w + m.value) = m.value := by
  rw [add_value_of_free h]
  apply BitVec.eq_of_getLsbD_eq
  intro i _
  have hi : (lockCount w).getLsbD i = false := by rw [h]; simp
  simp only [lockCount, BitVec.getLsbD_and, BitVec.getLsbD_or, mask_bit] at hi ⊢
  cases hv : m.value.getLsbD i with
  | false => simpa using hi
  | true => simp [value_bit m i hv]

@[simp] theorem hasFlag_take {w f : BitVec 32} {k : Nat} [hf : IsFlag f k] (h : lockCount w = 0#32)
    (m : LockMode) : hasFlag (w + m.value) f = hasFlag w f := by
  rw [add_value_of_free h, hasFlag_eq, hasFlag_eq, BitVec.getLsbD_or]
  have : m.value.getLsbD k = false := by
    cases hv : m.value.getLsbD k with
    | false => rfl
    | true =>
      have := value_bit m k hv
      have := hf.range
      omega
  simp [this]

theorem sub_add_value {w : BitVec 32} {m : LockMode} (h : lockCount w = m.value) :
    lockCount (w - m.value) = 0#32 ∧ w = (w - m.value) + m.value := by
  have hw : w = (w &&& ~~~m.value) + m.value := by
    have hz : (w &&& ~~~m.value) &&& m.value = 0#32 := by
      apply BitVec.eq_of_getLsbD_eq
      intro i _
      simp only [BitVec.getLsbD_and, BitVec.getLsbD_not, BitVec.getLsbD_zero]
      cases m.value.getLsbD i <;> simp
    rw [BitVec.add_eq_or_of_and_eq_zero _ _ hz]
    apply BitVec.eq_of_getLsbD_eq
    intro i hi
    have hb := congrArg (·.getLsbD i) h
    simp only [lockCount, BitVec.getLsbD_and, mask_bit] at hb
    simp only [BitVec.getLsbD_or, BitVec.getLsbD_and, BitVec.getLsbD_not]
    cases hv : m.value.getLsbD i with
    | false => simp [hi]
    | true => simp_all
  have hs : w - m.value = w &&& ~~~m.value := by
    conv_lhs => rw [hw]
    simp
  refine ⟨?_, by simp⟩
  rw [hs]
  clear hw hs
  apply BitVec.eq_of_getLsbD_eq
  intro i hi
  have hb := congrArg (·.getLsbD i) h
  simp only [lockCount, BitVec.getLsbD_and, mask_bit] at hb
  simp only [lockCount, BitVec.getLsbD_and, BitVec.getLsbD_not, mask_bit, BitVec.getLsbD_zero]
  cases hv : m.value.getLsbD i <;> simp_all

@[simp] theorem lockCount_give {w : BitVec 32} {m : LockMode} (h : lockCount w = m.value) :
    lockCount (w - m.value) = 0#32 := (sub_add_value h).1

@[simp] theorem hasFlag_give {w f : BitVec 32} {k : Nat} {m : LockMode} [hf : IsFlag f k]
    (h : lockCount w = m.value) : hasFlag (w - m.value) f = hasFlag w f := by
  obtain ⟨h0, hw⟩ := sub_add_value h
  conv_rhs => rw [hw]
  exact (hasFlag_take h0 m).symm

end Mimidb
