import AsOf.Series
import AsOf.Report

/-!
# Windows

A window holds the entries that answered the last request for a run of entries,
from the newest to the oldest, and the instant of that request, its anchor.  It
is extended at either end and trimmed at the other.  A window trimmed at its new
end is anchored at the newest entry that is left.
-/

namespace AsOf

/-- A run of entries, newest first, and the instant it was last shaped for. -/
structure Window (V : Type) where
  entries : List (Entry V) := []
  anchor : Option Instant := none

namespace Window

variable {V : Type}

instance : Inhabited (Window V) := ⟨{}⟩

def empty : Window V := {}

def size (w : Window V) : Nat :=
  w.entries.length

def newest? (w : Window V) : Option (Entry V) :=
  w.entries.head?

def oldest? (w : Window V) : Option (Entry V) :=
  w.entries.getLast?

def toList (w : Window V) : List (Entry V) :=
  w.entries.reverse

/-- Shape a window anew for an instant. -/
def replace (_ : Window V) (anchor : Instant) (entries : List (Entry V)) : Window V :=
  { entries := entries, anchor := some anchor }

/-- Put newer entries, newest first, in front of a window and move its anchor. -/
def extendNewer (w : Window V) (anchor : Instant) (newer : List (Entry V)) : Window V :=
  { entries := newer ++ w.entries, anchor := some anchor }

/-- Put older entries, newest first, behind a window. -/
def extendOlder (w : Window V) (older : List (Entry V)) : Window V :=
  { w with entries := w.entries ++ older }

/-- The number of entries beyond a size. -/
def excess (w : Window V) (size : Nat) : Nat :=
  w.size - size

/-- Drop the oldest entries beyond a size. -/
def trimOldest (w : Window V) (size : Nat) : Window V :=
  { w with entries := w.entries.take size }

/-- Drop the newest entries beyond a size and anchor the window at what is left. -/
def trimNewest (w : Window V) (size : Nat) : Window V :=
  if w.excess size = 0 then w
  else
    let kept := w.entries.drop (w.excess size)
    { entries := kept, anchor := kept.head?.map Entry.key }

/-- Whether the anchor fits the newest entry: both are absent, or the anchor is not earlier. -/
def Anchored (w : Window V) : Prop :=
  match w.newest?, w.anchor with
  | some newest, some anchor => newest.key ≤ anchor
  | none, none => True
  | _, _ => False

instance (w : Window V) : Decidable w.Anchored := by
  unfold Anchored
  split <;> infer_instance

/-- A window is consistent if its entries descend and its anchor fits them. -/
def Consistent (w : Window V) : Prop :=
  Descending w.entries ∧ w.Anchored

instance (w : Window V) : Decidable w.Consistent :=
  inferInstanceAs (Decidable (_ ∧ _))

/-!
## Counters
-/

/-- What happened to a window over its life. -/
structure Counters where
  answers : HitCounter := {}
  partialHits : Nat := 0
  replacements : Nat := 0
  appends : Nat := 0
  prepends : Nat := 0
  evictedEntries : Nat := 0
  refreshInvalidations : Nat := 0
  growths : Nat := 0
  deriving DecidableEq

namespace Counters

def component : String := "CachedQueryCore"

def hit (c : Counters) : Counters :=
  { c with answers := c.answers.hit }

def miss (c : Counters) : Counters :=
  { c with answers := c.answers.miss }

def partialHit (c : Counters) : Counters :=
  { c with answers := c.answers.miss, partialHits := c.partialHits + 1 }

def report (c : Counters) : Report :=
  c.answers.report ++
    [("appends", Float.ofNat c.appends),
      ("evicted_entries", Float.ofNat c.evictedEntries),
      ("maximum_size_growths", Float.ofNat c.growths),
      ("partial_hits", Float.ofNat c.partialHits),
      ("prepends", Float.ofNat c.prepends),
      ("refresh_invalidations", Float.ofNat c.refreshInvalidations),
      ("replacements", Float.ofNat c.replacements)]

end Counters
end Window
end AsOf
