import AsOf.Entry
import AsOf.Error

/-!
# Demands

What a request for one entry demands of the entry in effect: whether it has to
begin exactly at the instant asked about, and whether its absence is a failure.
-/

namespace AsOf

/-- What a request for one entry demands. -/
inductive Demand where
  /-- The entry in effect, if there is one. -/
  | lenient
  /-- The entry in effect if it begins at the instant. -/
  | exact
  /-- The entry in effect, which has to be there. -/
  | required
  /-- The entry in effect, which has to be there and to begin at the instant. -/
  | requiredExact
  deriving DecidableEq

namespace Demand

variable {V α : Type}

def isRequired : Demand -> Bool
  | required | requiredExact => true
  | lenient | exact => false

def isExact : Demand -> Bool
  | exact | requiredExact => true
  | lenient | required => false

def require (demand : Demand) (key : Instant) (units : Nat) :
    Option α -> Except QueryError (Option α)
  | some answer => .ok (some answer)
  | none => if demand.isRequired then .error (.noData key units) else .ok none

/-- Put the entry in effect at an instant to the demand. -/
def apply (demand : Demand) (key : Instant) :
    Option (Entry V) -> Except QueryError (Option (Entry V))
  | some entry =>
      if demand.isExact && entry.key ≠ key then
        if demand.isRequired then .error (.keyMismatch key entry.key) else .ok none
      else
        .ok (some entry)
  | none =>
      demand.require key 0 none

instance : Inspect Demand where
  inspect
    | lenient => "Lenient"
    | exact => "Exact"
    | required => "Required"
    | requiredExact => "RequiredExact"

end Demand
end AsOf
