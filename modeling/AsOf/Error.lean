import AsOf.Instant.Text

/-!
# Failures of a query

A query fails because its caller demanded an entry that is not there, because a
layer below broke its promise, or because the source could not be reached.  Each
failure names the instant it is about.
-/

namespace AsOf

inductive Breach where
  | unorderedWindow
  | entryAfterKey
  | sourceEntryAfterKey
  | nothingToContinue
  deriving DecidableEq

namespace Breach

def reason : Breach -> String
  | unorderedWindow => "window out of order"
  | entryAfterKey => "store returned an entry after the requested key"
  | sourceEntryAfterKey => "loader returned an entry after the requested key"
  | nothingToContinue => "no trailing entry to continue from"

end Breach

/-- Why a query has no answer. -/
inductive QueryError where
  /-- Nothing is in effect, though an entry was demanded. -/
  | noData (key : Instant) (units : Nat)
  /-- An entry at another instant is in effect, though one at this instant was demanded. -/
  | keyMismatch (requested found : Instant)
  /-- A layer below broke a promise. -/
  | breach (key : Instant) (units : Nat) (cause : Breach)
  /-- The source failed, for a cause in its own words. -/
  | load (key : Instant) (cause : String)
  deriving DecidableEq

namespace QueryError

def kind : QueryError -> String
  | noData .. => "NoDataAvailable"
  | keyMismatch .. => "KeyMismatch"
  | breach .. => "InvariantViolation"
  | load .. => "Load"

def message : QueryError -> String
  | noData key units =>
      "no data available at " ++ toString key ++ " (distance " ++ toString units ++ ")"
  | keyMismatch requested found =>
      "no entry exactly at " ++ toString requested ++ ", nearest is " ++ toString found
  | breach key units cause =>
      "invariant violated at " ++ toString key ++ " (count " ++ toString units ++ "): "
        ++ cause.reason
  | load key _ =>
      "loading data for " ++ toString key ++ " failed"

/-- The words of the source, for a failure of the source. -/
def cause? : QueryError -> Option String
  | load _ cause => some cause
  | _ => none

instance : Inspect QueryError where
  inspect e :=
    match e with
    | noData key units =>
        Text.record e.kind [("key", inspect key), ("units", inspect units)]
    | keyMismatch requested found =>
        Text.record e.kind [("requested", inspect requested), ("found", inspect found)]
    | breach key units cause =>
        Text.record e.kind
          [("key", inspect key), ("units", inspect units), ("reason", inspect cause.reason)]
    | load key cause =>
        Text.record e.kind [("key", inspect key), ("source", inspect cause)]

end QueryError
end AsOf
