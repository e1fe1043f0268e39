/-!
# Counts

Distances, counts and sizes are natural numbers up to a common limit; the two
operations that could leave the range stop at it.  Sizes that have to be at
least one have their own type.
-/

namespace AsOf
namespace Count

/-- The largest count, that of 64 binary digits. -/
def limit : Nat := 18446744073709551615

/-- One more, up to the limit. -/
def succ (n : Nat) : Nat :=
  min (n + 1) limit

def double (n : Nat) : Nat :=
  min (n * 2) limit

theorem succ_eq (n : Nat) : succ n = min n (limit - 1) + 1 := by
  unfold succ limit
  omega

theorem double_eq (n : Nat) : double n = min (2 * n) limit := by
  rw [double, Nat.mul_comm]

end Count

/-- A size of at least one. -/
structure Positive where
  val : Nat
  pos : 0 < val
  deriving DecidableEq

namespace Positive

/-- The size of a number, none for zero. -/
def ofNat? (n : Nat) : Option Positive :=
  if h : 0 < n then some ⟨n, h⟩ else none

@[simp] theorem ofNat?_zero : ofNat? 0 = none := rfl

end Positive
end AsOf
