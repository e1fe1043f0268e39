import AsOf.Engine.Windowed

/-!
# Engines

An engine answers requests about a view.  A direct engine asks the archive each
time and remembers nothing; a windowed engine keeps the last run of earlier
entries.  Both give the same answers; they differ in how often they ask.
-/

namespace AsOf
namespace Engine

inductive Kind where
  | direct
  | windowed
  deriving DecidableEq

def Kind.component : Kind -> String
  | .direct => "DefaultQueryCore"
  | .windowed => Window.Counters.component

instance : Inspect Kind where
  inspect
    | .direct => "Default"
    | .windowed => "Cached"

/-- What an engine keeps between requests. -/
inductive State (V : Type) where
  | direct (requests : Nat)
  | windowed (state : Windowed.State V)

namespace State

variable {V : Type}

def kind : State V -> Kind
  | direct _ => .direct
  | windowed _ => .windowed

def window? : State V -> Option (Window V)
  | direct _ => none
  | windowed s => some s.window

/-- The largest size of the window, none without a window or without a limit. -/
def maximum : State V -> Option Nat
  | direct _ => none
  | windowed s => s.maximum

def clear : State V -> State V
  | direct requests => direct requests
  | windowed s => windowed s.clear

def raiseMaximum (size : Nat) : State V -> State V
  | direct requests => direct requests
  | windowed s => windowed (s.raiseMaximum size)

def report : State V -> Report
  | direct requests => [("requests", Float.ofNat requests)]
  | windowed s => s.report

instance : Inspect (State V) where
  inspect
    | direct requests =>
        Text.openRecord Kind.direct.component [("requests", inspect requests)]
    | windowed s =>
        inspect s

end State

variable {m : Type -> Type} [Monad m] {V : Type}

/-- The state of a new engine, in the present epoch. -/
def start (view : View m V) (kind : Kind) (maximum : Option Positive) : m (State V) :=
  match kind with
  | .direct =>
      return .direct 0
  | .windowed => do
      let epoch <- view.epoch.current
      return .windowed { maximum := maximum.map Positive.val, epoch := epoch }

/-- A request that a direct engine hands on, and for which a windowed one has its own way. -/
def dispatch {α : Type} (direct : ExceptT QueryError m α)
    (windowed : Request m (Windowed.State V) α) : Request m (State V) α :=
  ExceptT.mk fun state =>
    match state with
    | .direct requests => do
        let result <- direct.run
        return (result, .direct (requests + 1))
    | .windowed s => do
        let (result, next) <- windowed.run.run s
        return (result, .windowed next)

def entry (view : View m V) (options : Options) (key : Instant) :
    Request m (State V) (Option (Entry V)) :=
  dispatch (view.entry options key) (Windowed.entry view options key)

def previousEntry (view : View m V) (options : Options) (key : Instant) (distance : Nat) :
    Request m (State V) (Option (Entry V)) :=
  dispatch (view.previousEntry options key distance)
    (Windowed.previousEntry view options key distance)

def previousEntries (view : View m V) (options : Options) (key : Instant) (count : Nat) :
    Request m (State V) (List (Entry V)) :=
  dispatch (view.previousEntries options key count)
    (Windowed.previousEntries view options key count)

def nextEntry (view : View m V) (options : Options) (key : Instant) (distance : Nat) :
    Request m (State V) (Option (Entry V)) :=
  dispatch (view.nextEntry options key distance) (.handOn (view.nextEntry options key distance))

def nextEntries (view : View m V) (options : Options) (key : Instant) (count : Nat) :
    Request m (State V) (List (Entry V)) :=
  dispatch (view.nextEntries options key count) (.handOn (view.nextEntries options key count))

end Engine
end AsOf
