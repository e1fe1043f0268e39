import AsOf.Memo
import AsOf.Report
import AsOf.Series
import AsOf.Span

/-!
# What a replica remembers

A replica keeps the entries it has read, the span in which it knows them to be
all there are, and a memo of its answers.  This module holds the changes that
these parts undergo; none of them reads the source.
-/

namespace AsOf
namespace Replica

/-- What happened to a replica over its life. -/
structure Counters where
  answers : HitCounter := {}
  memoHits : Nat := 0
  probes : Nat := 0
  bulkLoads : Nat := 0
  loadedEntries : Nat := 0
  refreshInvalidations : Nat := 0
  boundInvalidations : Nat := 0
  deriving DecidableEq

def component : String := "GapStore"

def Counters.report (c : Counters) : Report :=
  [("bound_invalidations", Float.ofNat c.boundInvalidations),
    ("bulk_loads", Float.ofNat c.bulkLoads)] ++ c.answers.report ++
    [("latest_probes", Float.ofNat c.probes),
      ("loaded_entries", Float.ofNat c.loadedEntries),
      ("memo_hits", Float.ofNat c.memoHits),
      ("refresh_invalidations", Float.ofNat c.refreshInvalidations)]

/-- Where a page begins in the source. -/
structure Bookmark where
  start : Instant
  /-- An instant from which on the page is complete; of itself it is from its oldest entry. -/
  completeFrom : Option Instant
  deriving DecidableEq

/-- What a replica remembers between requests. -/
structure State (V : Type) where
  loaded : Series V := .empty
  /-- The span in which all entries are loaded, none if there is none. -/
  coverage : Option Span := none
  memo : Memo V := .empty
  /-- Whether the source was once read from the earliest instant on. -/
  loadedFromStart : Bool := false
  epoch : Nat
  bound : Option Instant
  /-- The entries that the listener has not heard of, in the order they were stored. -/
  pending : List (Entry V) := []
  counters : Counters := {}

namespace State

variable {V : Type}

instance : Inhabited (State V) := ⟨{ epoch := 0, bound := none }⟩

/-- Whether an instant lies in the span of completely loaded entries. -/
def covers (s : State V) (key : Instant) : Bool :=
  s.coverage.any fun span => span.contains key

/-- Forget all entries and answers. -/
def forget (s : State V) : State V :=
  { s with
    loaded := .empty
    coverage := none
    memo := .empty
    loadedFromStart := false }

/-- Store an entry, in place of one of the same key; only a new key is pending. -/
def store (s : State V) (e : Entry V) : State V :=
  { s with
    loaded := s.loaded.insert e
    pending := if s.loaded.contains e.key then s.pending else s.pending ++ [e] }

def storePage (s : State V) (page : Series V) : State V :=
  page.toList.foldl store s

/-- Note that a further span is completely loaded. -/
def cover (s : State V) (span : Span) : State V :=
  { s with coverage := some (s.coverage.elim span fun current => current.join span) }

/-- The newest loaded entry of a span. -/
def newestWithin (s : State V) (span : Span) : Option (Entry V) :=
  s.loaded.newestFirst.find? fun e => span.contains e.key

/-- Trust the coverage only up to the newest entry loaded in it. -/
def retreat (s : State V) : State V :=
  { s with
    coverage := s.coverage.bind fun span =>
      (s.newestWithin span).map fun newest => span.cutBefore newest.key }

/-- Forget everything that belongs to an earlier epoch. -/
def observeEpoch (s : State V) (epoch : Nat) : State V :=
  if epoch = s.epoch then s
  else
    { s.forget with
      epoch := epoch
      counters :=
        { s.counters with refreshInvalidations := s.counters.refreshInvalidations + 1 } }

/-- Drop what a moved horizon may have made stale: the memo and the open end of the coverage. -/
def observeBound (s : State V) (bound : Option Instant) : State V :=
  if bound = s.bound then s
  else
    { s.retreat with
      bound := bound
      memo := .empty
      counters := { s.counters with boundInvalidations := s.counters.boundInvalidations + 1 } }

/-- Keep the answer of a lookup. -/
def remember (s : State V) (capacity : Positive) (key : Instant) (found : Option (Entry V)) :
    State V :=
  { s with memo := s.memo.remember capacity key found }

/-- Where a batch has to begin after the source named its latest entry, none if it is not needed. -/
def gapStart (s : State V) (latest : Entry V) : Option Instant :=
  match s.coverage with
  | none => some latest.key
  | some span =>
      if latest.key < span.start then some latest.key
      else if s.loaded.contains latest.key then none
      else some (span.edge.key?.getD latest.key)

/-- Whether nothing was ever loaded to which a further batch could be joined. -/
def isCold (s : State V) : Bool :=
  s.coverage.isNone && !s.loadedFromStart

/--
Where reading has to begin when the source names no latest entry.  A cold replica
reads from the earliest instant; a key beyond everything loaded is reached from
the end of the coverage, where the first page is complete.
-/
def missingStretch (s : State V) (key : Instant) : Option Bookmark :=
  if s.isCold then some ⟨.earliest, none⟩
  else
    match s.coverage with
    | none => none
    | some span =>
        if span.start < key && !s.loaded.reaches key then
          span.edge.key?.map fun upper => ⟨upper, some upper⟩
        else none

/-!
## Counting
-/

def count (s : State V) (f : Counters -> Counters) : State V :=
  { s with counters := f s.counters }

def countHit (s : State V) : State V :=
  s.count fun c => { c with answers := c.answers.hit }

def countMiss (s : State V) : State V :=
  s.count fun c => { c with answers := c.answers.miss }

def countMemoHit (s : State V) : State V :=
  s.count fun c => { c with answers := c.answers.hit, memoHits := c.memoHits + 1 }

def countProbe (s : State V) : State V :=
  s.count fun c => { c with probes := c.probes + 1 }

def countBulkLoad (s : State V) : State V :=
  s.count fun c => { c with bulkLoads := c.bulkLoads + 1 }

def countLoaded (s : State V) (size : Nat) : State V :=
  s.count fun c => { c with loadedEntries := c.loadedEntries + size }

end State
end Replica
end AsOf
