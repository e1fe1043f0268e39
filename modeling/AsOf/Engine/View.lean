import AsOf.Engine.Options
import AsOf.Epoch
import AsOf.Horizon
import AsOf.Walk

/-!
# Views

A view is an archive seen up to a horizon.  This module says what each request
means in terms of the archive alone: the entry in effect is looked up, earlier
entries are walked to, later entries are scanned.  Runs of earlier entries are
handed on from the newest to the oldest.
-/

namespace AsOf

/-- An archive, the horizon up to which it is seen and the epoch of its data. -/
structure View (m : Type -> Type) (V : Type) where
  archive : Archive m V
  horizon : Horizon m
  epoch : Epoch m

namespace View

variable {m : Type -> Type} [Monad m] {V : Type}

/-- The instant a request is about: the one asked for, or the horizon before it. -/
def adjust (view : View m V) (options : Options) (key : Instant) : m Instant :=
  if options.future then pure key else view.horizon.clamp key

/-- The latest instant whose entry a forward request may return. -/
def highest (view : View m V) (options : Options) : m (Option Instant) :=
  if options.future then pure none else view.horizon.highest

def entry (view : View m V) (options : Options) (key : Instant) :
    ExceptT QueryError m (Option (Entry V)) := do
  let adjusted <- view.adjust options key
  let found <- view.archive.lookup adjusted
  if found.any fun e => adjusted < e.key then
    throw (.breach adjusted 0 .entryAfterKey)
  else
    ExceptT.mk (pure (options.demand.apply adjusted found))

/-- The last entries up to an instant, newest first. -/
def trailing (view : View m V) (adjusted : Instant) (count : Nat) :
    ExceptT QueryError m (List (Entry V)) :=
  Pull.take (Walk.pull view.archive) count (.startAt adjusted count)

/-- The entries that continue a run towards the past, newest first. -/
def furtherBack (view : View m V) (adjusted : Instant) (count : Nat) (run : List (Entry V)) :
    ExceptT QueryError m (List (Entry V)) :=
  match run.getLast? with
  | none =>
      throw (.breach adjusted count .nothingToContinue)
  | some oldest => do
      let walk <- (Walk.before view.archive oldest.key count : m Walk)
      Pull.take (Walk.pull view.archive) (count - run.length) walk

/-- The entry some positions before the one in effect, or the oldest one reached. -/
def previousEntry (view : View m V) (options : Options) (key : Instant) (distance : Nat) :
    ExceptT QueryError m (Option (Entry V)) := do
  let adjusted <- view.adjust options key
  return (<- view.trailing adjusted (Count.succ distance)).getLast?

/-- Up to a number of entries that end with the one in effect, oldest first. -/
def previousEntries (view : View m V) (options : Options) (key : Instant) (count : Nat) :
    ExceptT QueryError m (List (Entry V)) := do
  let adjusted <- view.adjust options key
  return (<- view.trailing adjusted count).reverse

/-- Up to a number of entries from an instant on, oldest first. -/
def nextEntries (view : View m V) (options : Options) (key : Instant) (count : Nat) :
    ExceptT QueryError m (List (Entry V)) := do
  let highest <- view.highest options
  let adjusted <- view.adjust options key
  let scan <- view.archive.scanFrom adjusted
  let wanted := fun (e : Entry V) => highest.all fun bound => e.key ≤ bound
  Pull.takeWhile view.archive.pull wanted count scan

/-- The entry some positions after the first one from an instant on, or the newest one reached. -/
def nextEntry (view : View m V) (options : Options) (key : Instant) (distance : Nat) :
    ExceptT QueryError m (Option (Entry V)) := do
  return (<- view.nextEntries options key (Count.succ distance)).getLast?

end View
end AsOf
