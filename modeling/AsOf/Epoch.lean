/-!
# Epochs

Everything remembered belongs to an epoch.  Whoever learns that the data was
revised advances the epoch, and every component that sees the new one forgets
what it remembers.
-/

namespace AsOf

/-- The count of revisions, shared by all components over the same data. -/
structure Epoch (m : Type -> Type) where
  current : m Nat
  /-- Begin the next epoch and name it. -/
  advance : m Nat

namespace Epoch

variable {m n : Type -> Type}

def hoist (f : forall {α : Type}, m α -> n α) (epoch : Epoch m) : Epoch n :=
  { current := f epoch.current, advance := f epoch.advance }

end Epoch
end AsOf
