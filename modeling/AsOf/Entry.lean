import AsOf.Instant.Text

/-!
# Entries

A value together with the instant from which it is in effect.
-/

namespace AsOf

/-- A value and the instant from which it is in effect. -/
structure Entry (V : Type) where
  key : Instant
  value : V
  deriving DecidableEq

namespace Entry

variable {V W : Type}

def map (f : V -> W) (e : Entry V) : Entry W :=
  { key := e.key, value := f e.value }

instance [Inspect V] : Inspect (Entry V) where
  inspect e :=
    Text.record "HistoricalEntry"
      [("key", inspect (e.key.write Instant.offset)), ("value", inspect e.value)]

end Entry
end AsOf
