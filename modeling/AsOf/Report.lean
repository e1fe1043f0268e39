/-!
# Reports

A report lists named readings of the counters of a component.  Readings are
floating-point numbers, so that counts and rates stand side by side.
-/

namespace AsOf

/-- Named readings. -/
abbrev Report := List (String × Float)

/-- How often requests could be answered from memory. -/
structure HitCounter where
  requests : Nat := 0
  hits : Nat := 0
  deriving DecidableEq

namespace HitCounter

def hit (c : HitCounter) : HitCounter :=
  { c with requests := c.requests + 1, hits := c.hits + 1 }

def miss (c : HitCounter) : HitCounter :=
  { c with requests := c.requests + 1 }

def misses (c : HitCounter) : Nat :=
  c.requests - c.hits

/-- The share of hits among all requests, zero before the first request. -/
def rate (c : HitCounter) : Float :=
  if c.requests = 0 then 0 else Float.ofNat c.hits / Float.ofNat c.requests

def report (c : HitCounter) : Report :=
  [("cache_hits", Float.ofNat c.hits),
    ("cache_misses", Float.ofNat c.misses),
    ("hit_rate", c.rate),
    ("requests", Float.ofNat c.requests)]

end HitCounter

namespace Report

/-- The readings under the name of a component. -/
def under (component : String) (r : Report) : Report :=
  r.map fun reading => (component ++ "." ++ reading.1, reading.2)

end Report
end AsOf
