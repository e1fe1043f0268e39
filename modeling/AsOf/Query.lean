import AsOf.Engine

/-!
# Queries

A query puts requests to an engine under fixed options: for the entry in effect,
for the entries before or after it, and for all entries of a range.  A range is
read off the archive one entry at a time and leaves the engine alone.
-/

namespace AsOf

/-- Requests under fixed options. -/
structure Query (m : Type -> Type) (V : Type) where
  view : View m V
  options : Options := {}

namespace Query

variable {m : Type -> Type} [Monad m] {V : Type}

/-- A request to the engine of a query. -/
abbrev Answer (m : Type -> Type) (V α : Type) := Request m (Engine.State V) α

/-!
## Single entries
-/

/-- The entry in effect. -/
def entry (query : Query m V) (key : Instant) : Answer m V (Option (Entry V)) :=
  Engine.entry query.view query.options key

def value (query : Query m V) (key : Instant) : Answer m V (Option V) :=
  Option.map Entry.value <$> query.entry key

/-- The entry some positions before the one in effect. -/
def previousEntry (query : Query m V) (key : Instant) (distance : Nat) :
    Answer m V (Option (Entry V)) := do
  let found <- Engine.previousEntry query.view query.options key distance
  .settled (query.options.demand.require key distance found)

def previousValue (query : Query m V) (key : Instant) (distance : Nat) :
    Answer m V (Option V) :=
  Option.map Entry.value <$> query.previousEntry key distance

def previousKey (query : Query m V) (key : Instant) (distance : Nat) :
    Answer m V (Option Instant) :=
  Option.map Entry.key <$> query.previousEntry key distance

/-- The entry some positions after the first one from an instant on. -/
def nextEntry (query : Query m V) (key : Instant) (distance : Nat) :
    Answer m V (Option (Entry V)) := do
  let found <- Engine.nextEntry query.view query.options key distance
  .settled (query.options.demand.require key distance found)

def nextValue (query : Query m V) (key : Instant) (distance : Nat) : Answer m V (Option V) :=
  Option.map Entry.value <$> query.nextEntry key distance

def nextKey (query : Query m V) (key : Instant) (distance : Nat) :
    Answer m V (Option Instant) :=
  Option.map Entry.key <$> query.nextEntry key distance

/-!
## Runs of entries
-/

/-- Fill up a run to a count with copies of its oldest entry, at the front. -/
def padFront (count : Nat) (run : List (Entry V)) : List (Entry V) :=
  match run with
  | [] => []
  | oldest :: _ => List.replicate (count - run.length) oldest ++ run

/-- Fill up a run to a count with copies of its newest entry, at the back. -/
def padBack (count : Nat) (run : List (Entry V)) : List (Entry V) :=
  match run.getLast? with
  | none => run
  | some newest => run ++ List.replicate (count - run.length) newest

/-- The last entries up to the one in effect, oldest first. -/
def previousEntries (query : Query m V) (key : Instant) (count : Nat) :
    Answer m V (List (Entry V)) := do
  let run <- Engine.previousEntries query.view query.options key count
  return if query.options.distinct then run else padFront count run

def previousValues (query : Query m V) (key : Instant) (count : Nat) : Answer m V (List V) :=
  List.map Entry.value <$> query.previousEntries key count

def previousKeys (query : Query m V) (key : Instant) (count : Nat) :
    Answer m V (List Instant) :=
  List.map Entry.key <$> query.previousEntries key count

/-- The first entries from an instant on, oldest first. -/
def nextEntries (query : Query m V) (key : Instant) (count : Nat) :
    Answer m V (List (Entry V)) := do
  let run <- Engine.nextEntries query.view query.options key count
  return if query.options.distinct then run else padBack count run

def nextValues (query : Query m V) (key : Instant) (count : Nat) : Answer m V (List V) :=
  List.map Entry.value <$> query.nextEntries key count

/-!
## Ranges
-/

/-- A feed of the entries of a range, over a scan of the archive. -/
structure Range (Scan : Type) where
  scan : Scan
  last : Instant
  remaining : Nat
  /-- Whether an entry beyond the range was met. -/
  passed : Bool

/-- Begin the range between two instants, of which the later one is moved back to the horizon. -/
def between (query : Query m V) (first last : Instant) : m (Range query.view.archive.Scan) := do
  let last <- query.view.adjust query.options last
  let scan <- query.view.archive.scanFrom first
  return { scan, last, remaining := query.options.maxResults.getD Count.limit, passed := false }

def pull (query : Query m V) : Pull m (Entry V) (Range query.view.archive.Scan) := fun range => do
  if range.remaining = 0 then
    return (none, range)
  else
    let range := { range with remaining := range.remaining - 1 }
    if range.passed then
      return (none, range)
    else
      let (item, scan) <- query.view.archive.pull range.scan
      let range := { range with scan := scan }
      match item with
      | some (.ok e) =>
          if e.key ≤ range.last then
            return (some (.ok e), range)
          else
            return (none, { range with passed := true })
      | item =>
          return (item, range)

def pullKey (query : Query m V) : Pull m Instant (Range query.view.archive.Scan) :=
  Pull.map Entry.key query.pull

def pullValue (query : Query m V) : Pull m V (Range query.view.archive.Scan) :=
  Pull.map Entry.value query.pull

def inspectWith (query : Query m V) (kind : Engine.Kind) : String :=
  Text.openRecord "HistoricalQuery"
    [("core", inspect kind.component), ("options", inspect query.options)]

end Query
end AsOf
