import AsOf.Count
import AsOf.Feed
import AsOf.Report

/-!
# Sources and archives

A source answers two questions about a series that lives elsewhere: the next
batch of entries from an instant on, and the entry in effect at an instant.  It
may fail, and it names the keys before and after a given one between which
nothing is lost.

An archive answers the same questions for the layers above, with failures that
name the instant asked about, and with a feed of all entries from an instant on
in place of batches.
-/

namespace AsOf

/-- A series that lives elsewhere, read in batches. -/
structure Source (m : Type -> Type) (V : Type) where
  /-- One batch of the entries from an instant on. -/
  batchFrom : Instant -> ExceptT String m (List (Entry V))
  /-- The entry in effect at an instant. -/
  latestUpTo : Instant -> ExceptT String m (Option (Entry V))
  /-- An instant before a key, not before the entry ahead of it. -/
  previousKey : Instant -> m Instant
  /-- An instant after a key, not after the entry that follows it. -/
  nextKey : Instant -> m Instant
  /-- The largest size of a batch, none if batches are complete. -/
  batchLimit : m (Option Positive)

/-- A series as the layers above see it. -/
structure Archive (m : Type -> Type) (V : Type) where
  /-- The state of a feed in ascending order. -/
  Scan : Type
  lookup : Instant -> ExceptT QueryError m (Option (Entry V))
  previousKey : Instant -> m Instant
  nextKey : Instant -> m Instant
  scanFrom : Instant -> m Scan
  pull : Pull m (Entry V) Scan
  clear : m Unit
  component : String
  report : m Report

namespace Archive

variable {m n : Type -> Type} {V : Type}

/-- The archive seen from a monad with further effects. -/
def hoist (f : forall {α : Type}, m α -> n α) (archive : Archive m V) : Archive n V :=
  { Scan := archive.Scan
    lookup := fun key => f (archive.lookup key).run
    previousKey := fun key => f (archive.previousKey key)
    nextKey := fun key => f (archive.nextKey key)
    scanFrom := fun key => f (archive.scanFrom key)
    pull := fun scan => f (archive.pull scan)
    clear := f archive.clear
    component := archive.component
    report := f archive.report }

end Archive
end AsOf
