import AsOf.Error

/-!
# Requests

A request to a component reads and changes the state of that component, has the
effects of the layer below and may fail.  The state is kept when it fails.
-/

namespace AsOf

/-- A request to a component with a state. -/
abbrev Request (m : Type -> Type) (σ α : Type) := ExceptT QueryError (StateT σ m) α

namespace Request

variable {m : Type -> Type} [Monad m] {σ α : Type}

/-- A request handed on to the layer below. -/
def handOn (below : ExceptT QueryError m α) : Request m σ α :=
  ExceptT.mk (StateT.lift below.run)

/-- A request with a known outcome. -/
def settled (outcome : Except QueryError α) : Request m σ α :=
  ExceptT.mk (pure outcome)

end Request
end AsOf
