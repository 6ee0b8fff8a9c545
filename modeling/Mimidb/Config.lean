import Mathlib.Algebra.Order.Ring.Int

/-!
# Page size, page numbers and failures

A call that does not return normally ends in a fault. `dbg` says whether the
build has assertions; without them a failed one is passed over.
-/

namespace Mimidb

namespace Config

def PageSize : Nat := 8192

end Config

namespace PageNumber

def Invalid : Nat := 2 ^ 32 - 1

end PageNumber

inductive Fault where
  | assertion
  /-- An access outside a page or an image. -/
  | outOfBounds
  /-- A worker waits for a latch that it holds itself. -/
  | deadlock
  /-- A loop or a wait does not end. -/
  | diverges
  | nullPointer
  | divisionByZero
  | runtimeError (what : String)
  deriving DecidableEq, Repr

def assert (dbg c : Bool) : Except Fault Unit :=
  if dbg && !c then .error .assertion else .ok ()

/-- A number of `w` bits with sign, in two's complement. -/
def signed (w n : Nat) : Int := if n < 2 ^ (w - 1) then n else (n : Int) - 2 ^ w

/-! ## Computations that may fail -/

theorem bind_eq_ok {ε α β : Type} {x : Except ε α} {f : α → Except ε β} {b : β} :
    x >>= f = .ok b ↔ ∃ a, x = .ok a ∧ f a = .ok b := by
  cases x <;> simp [bind, Except.bind]

theorem map_eq_ok {ε α β : Type} {x : Except ε α} {f : α → β} {b : β} :
    f <$> x = .ok b ↔ ∃ a, x = .ok a ∧ f a = b := by
  cases x <;> simp [Functor.map, Except.map]

end Mimidb
