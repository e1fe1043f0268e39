import AsOf.Engine.Demand

/-!
# Options of a request

Engines read whether a request may look beyond the horizon and what it demands;
the other options shape the answers of a query.
-/

namespace AsOf

/-- How a request is to be answered. -/
structure Options where
  /-- Whether the horizon is set aside. -/
  future : Bool := false
  /-- Whether runs hold distinct entries only, and are not filled up to the count. -/
  distinct : Bool := true
  demand : Demand := .lenient
  maxResults : Option Nat := none
  deriving DecidableEq

instance : Inspect Options where
  inspect options :=
    Text.record "QueryOptions"
      [("future", inspect options.future),
        ("filter_duplicate_keys", inspect options.distinct),
        ("assert_value", inspect options.demand),
        ("max_results", inspect options.maxResults)]

end AsOf
