import AsOf.Engine.View
import AsOf.Request
import AsOf.Window

/-!
# Requests answered from a window

The entries of the last run of earlier entries stay in a window.  A further run
is placed by its instant against the window.

* At the anchor or at the newest entry, it is read off the window.
* After them, it is walked back until it meets the window.
* Within the window, it is read off the part that is not later.
* Elsewhere it is walked from the archive, and the window starts over.

Where the window is too short, the walk goes on behind it.  A run that needs more
entries than the window may hold raises the maximum to twice its length.  A run
that fails leaves window, maximum and anchor as they were.
-/

namespace AsOf
namespace Windowed

/-- What is kept between requests. -/
structure State (V : Type) where
  window : Window V := .empty
  maximum : Option Nat
  epoch : Nat
  counters : Window.Counters := {}
  bypassed : Nat := 0

/-- Where an instant lies with respect to the window. -/
inductive Place where
  | same
  /-- After the window, whose newest key is given. -/
  | after (newest : Instant)
  /-- From the oldest to the newest entry. -/
  | inside
  /-- Anywhere else, or the window is empty. -/
  | outside
  deriving DecidableEq

namespace State

variable {V : Type}

def locate (s : State V) (adjusted : Instant) : Place :=
  match s.window.oldest?, s.window.newest?, s.window.anchor with
  | some oldest, some newest, some anchor =>
      if adjusted = anchor ∨ adjusted = newest.key then .same
      else if anchor < adjusted ∨ newest.key < adjusted then .after newest.key
      else if oldest.key ≤ adjusted ∧ adjusted ≤ newest.key then .inside
      else .outside
  | _, _, _ => .outside

/-- Drop a window that belongs to an earlier epoch. -/
def observeEpoch (s : State V) (epoch : Nat) : State V :=
  if epoch = s.epoch then s
  else
    { s with
      window := .empty
      epoch := epoch
      counters :=
        { s.counters with refreshInvalidations := s.counters.refreshInvalidations + 1 } }

/-- Raise the maximum to twice a size that it falls short of. -/
def growToFit (s : State V) (required : Nat) : State V :=
  match s.maximum with
  | none => s
  | some maximum =>
      if maximum < required then
        { s with
          maximum := some (Count.double required)
          counters := { s.counters with growths := s.counters.growths + 1 } }
      else s

/-- Start the window over, unless that put a single entry in the place of several. -/
def reshape (s : State V) (anchor : Instant) (run : List (Entry V)) : State V :=
  if run.isEmpty || (run.length == 1 && 1 < s.window.size) then s
  else
    let grown := s.growToFit run.length
    { grown with
      window := grown.window.replace anchor run
      counters := { grown.counters with replacements := grown.counters.replacements + 1 } }

/-- Put newer entries in front of the window and drop the oldest ones beyond its maximum. -/
def append (s : State V) (anchor : Instant) (newer : List (Entry V)) (required : Nat) : State V :=
  let grown := s.growToFit required
  let window := grown.window.extendNewer anchor newer
  { grown with
    window := grown.maximum.elim window window.trimOldest
    counters :=
      { grown.counters with
        evictedEntries := grown.counters.evictedEntries + grown.maximum.elim 0 window.excess
        appends := grown.counters.appends + 1 } }

/-- Put older entries behind the window and drop the newest ones beyond its maximum. -/
def prepend (s : State V) (older : List (Entry V)) (required : Nat) : State V :=
  let grown := s.growToFit required
  let window := grown.window.extendOlder older
  { grown with
    window := grown.maximum.elim window window.trimNewest
    counters :=
      { grown.counters with
        evictedEntries := grown.counters.evictedEntries + grown.maximum.elim 0 window.excess
        prepends := grown.counters.prepends + 1 } }

def countHit (s : State V) : State V :=
  { s with counters := s.counters.hit }

def countMiss (s : State V) : State V :=
  { s with counters := s.counters.miss }

def countPartialHit (s : State V) : State V :=
  { s with counters := s.counters.partialHit }

def countBypass (s : State V) : State V :=
  { s with bypassed := s.bypassed + 1 }

def clear (s : State V) : State V :=
  { s with window := .empty }

/-- Raise the maximum to a larger size; a window without a limit stays so. -/
def raiseMaximum (s : State V) (size : Nat) : State V :=
  { s with maximum := s.maximum.map fun maximum => max maximum size }

def report (s : State V) : Report :=
  s.counters.report ++
    [("bypassed", Float.ofNat s.bypassed), ("window_entries", Float.ofNat s.window.size)] ++
    (s.maximum.map fun maximum => ("maximum_size", Float.ofNat maximum)).toList

instance : Inspect (State V) where
  inspect s :=
    Text.openRecord Window.Counters.component
      [("window_entries", inspect s.window.size),
        ("maximum_size", inspect s.maximum),
        ("anchor", inspect s.window.anchor)]

end State

variable {m : Type -> Type} [Monad m] {V : Type}

def sync (view : View m V) : StateT (State V) m Unit := do
  let epoch <- view.epoch.current
  modify fun s => s.observeEpoch epoch

/-!
## Runs of earlier entries, newest first

Each of these reads the run off a present state and names the state after it, so
that nothing has changed when the walk fails.
-/

abbrev Outcome (V : Type) := List (Entry V) × State V

/-- A run at the anchor or at the newest entry of the window. -/
def runAtSame (view : View m V) (adjusted : Instant) (count : Nat) (s : State V) :
    ExceptT QueryError m (Outcome V) := do
  let held := s.window.entries.take count
  if held.length < count then
    let older <- view.furtherBack adjusted count held
    if older.isEmpty then
      return (held, s.countHit)
    else
      return (held ++ older, s.countPartialHit.reshape adjusted (held ++ older))
  else
    return (held, s.countHit)

/-- A run that was walked back to the window and goes on in it. -/
def runOnto (view : View m V) (newer : List (Entry V)) (adjusted : Instant) (count : Nat)
    (s : State V) : ExceptT QueryError m (Outcome V) := do
  let held := newer ++ s.window.entries.take (count - newer.length)
  if held.length < count then
    let older <- view.furtherBack adjusted count held
    return (held ++ older, s.countPartialHit.reshape adjusted (held ++ older))
  else
    let counted := if newer.isEmpty then s.countHit else s.countPartialHit
    return (held, counted.append adjusted newer held.length)

/-- A run after the window, whose newest key is given. -/
def runAfter (view : View m V) (newest adjusted : Instant) (count : Nat) (s : State V) :
    ExceptT QueryError m (Outcome V) := do
  let (newer, met) <- Pull.gather (Walk.pull view.archive) (fun e => e.key ≠ newest) count
    (.startAt adjusted count)
  if met then
    runOnto view newer adjusted count s
  else
    return (newer, s.countMiss.reshape adjusted newer)

/-- A run at an instant inside the window. -/
def runInside (view : View m V) (adjusted : Instant) (count : Nat) (s : State V) :
    ExceptT QueryError m (Outcome V) := do
  let held := (s.window.entries.filter fun e => e.key ≤ adjusted).take count
  if held.length < count then
    let older <- view.furtherBack adjusted count held
    if older.isEmpty then
      return (held, s.countHit)
    else
      return (held ++ older, s.countPartialHit.prepend older (held ++ older).length)
  else
    return (held, s.countHit)

/-- A run that the window has no part in. -/
def runOutside (view : View m V) (adjusted : Instant) (count : Nat) (s : State V) :
    ExceptT QueryError m (Outcome V) := do
  let run <- view.trailing adjusted count
  return (run, s.reshape adjusted run)

/-- Move to the state after a run, if it did not fail. -/
def commit (step : State V -> ExceptT QueryError m (Outcome V)) :
    Request m (State V) (List (Entry V)) := do
  let (run, next) <- .handOn (step (<- get))
  set next
  return run

/-- A run of at least two entries that end with the one in effect, newest first. -/
def run (view : View m V) (options : Options) (key : Instant) (count : Nat) :
    Request m (State V) (List (Entry V)) := do
  let adjusted <- (view.adjust options key : m Instant)
  sync view
  match (<- get).locate adjusted with
  | .same =>
      commit (runAtSame view adjusted count)
  | .after newest =>
      commit (runAfter view newest adjusted count)
  | .inside =>
      commit (runInside view adjusted count)
  | .outside => do
      modify State.countMiss
      commit (runOutside view adjusted count)

/-!
## Requests
-/

/-- A request that has no use for the window. -/
def bypass {α : Type} (request : ExceptT QueryError m α) : Request m (State V) α := do
  modify State.countBypass
  .handOn request

def entry (view : View m V) (options : Options) (key : Instant) :
    Request m (State V) (Option (Entry V)) :=
  bypass (view.entry options key)

def previousEntry (view : View m V) (options : Options) (key : Instant) (distance : Nat) :
    Request m (State V) (Option (Entry V)) :=
  if distance = 0 then
    bypass (view.previousEntry options key 0)
  else do
    return (<- run view options key (Count.succ distance)).getLast?

def previousEntries (view : View m V) (options : Options) (key : Instant) (count : Nat) :
    Request m (State V) (List (Entry V)) :=
  match count with
  | 0 =>
      pure []
  | 1 =>
      bypass (Option.toList <$> view.previousEntry options key 0)
  | count => do
      return (<- run view options key count).reverse

end Windowed
end AsOf
