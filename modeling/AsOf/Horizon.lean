import AsOf.Instant.Text

/-!
# Horizons

A horizon is the latest instant that requests may ask about.  It may be absent,
it may be pulled from elsewhere each time it is needed, or it may be pushed into
a cell by whoever publishes the data.  Requests beyond it are moved back to it.
-/

namespace AsOf

/-- Where the latest instant open to requests is found. -/
inductive Horizon (m : Type -> Type) where
  /-- All instants are open. -/
  | unbounded
  /-- The horizon is asked for each time. -/
  | pulled (read : m (Option Instant))
  /-- The horizon lies in a cell that is set from outside. -/
  | pushed (read : m (Option Instant)) (write : Option Instant -> m Unit)

namespace Horizon

variable {m : Type -> Type} [Monad m]

/-- Move an instant back to a bound that it lies beyond. -/
def clampTo (bound : Option Instant) (key : Instant) : Instant :=
  match bound with
  | some upper => if upper < key then upper else key
  | none => key

theorem clampTo_eq (bound : Option Instant) (key : Instant) :
    clampTo bound key = bound.elim key (min key) := by
  cases bound with
  | none => rfl
  | some upper =>
      show (if upper < key then upper else key) = min key upper
      rw [Instant.min_def]
      by_cases hle : key ≤ upper
      · rw [if_pos hle, if_neg (Std.not_lt.mpr hle)]
      · rw [if_neg hle, if_pos (Std.not_le.mp hle)]

/-- The latest instant open to requests, none if all are. -/
def highest : Horizon m -> m (Option Instant)
  | unbounded => pure none
  | pulled read => read
  | pushed read _ => read

/-- Move an instant back to the horizon if it lies beyond. -/
def clamp (h : Horizon m) (key : Instant) : m Instant := do
  return clampTo (<- h.highest) key

/-- Set a horizon that is pushed; the others are not moved from outside. -/
def push (h : Horizon m) (bound : Option Instant) : m Unit :=
  match h with
  | pushed _ write => write bound
  | _ => pure ()

def hoist {n : Type -> Type} (f : forall {α : Type}, m α -> n α) : Horizon m -> Horizon n
  | unbounded => unbounded
  | pulled read => pulled (f read)
  | pushed read write => pushed (f read) fun bound => f (write bound)

instance : Inspect (Horizon m) where
  inspect
    | unbounded => "UnboundedAdjustKeyProvider"
    | pulled _ => Text.openRecord "PullingAdjustKeyProvider" []
    | pushed _ _ => Text.openRecord "PushingAdjustKeyProvider" []

end Horizon
end AsOf
