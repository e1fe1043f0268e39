import AsOf.Replica.Lookup

/-!
# Scans of a replica

A scan reads the source forward, page by page and only as far as it is pulled,
and stores what it reads.  Its entries ascend strictly, whatever the pages hold.
A failure ends it.
-/

namespace AsOf
namespace Replica

/-- A feed of ascending entries. -/
structure Scan (V : Type) where
  next : Option Bookmark
  buffer : List (Entry V)
  /-- The key of the entry yielded last. -/
  lastYielded : Option Instant

namespace Scan

variable {V : Type}

def startAt (key : Instant) : Scan V :=
  { next := some ⟨key, none⟩, buffer := [], lastYielded := none }

/-- Whether an entry is newer than the one yielded last. -/
def isNews (scan : Scan V) (e : Entry V) : Bool :=
  match scan.lastYielded with
  | some last => last < e.key
  | none => true

/-- The buffered entries that are still to be yielded. -/
def news (scan : Scan V) : List (Entry V) :=
  scan.buffer.dropWhile fun e => !scan.isNews e

def yielded (scan : Scan V) (e : Entry V) (rest : List (Entry V)) : Scan V :=
  { scan with buffer := rest, lastYielded := some e.key }

def ended (scan : Scan V) : Scan V :=
  { scan with next := none, buffer := [] }

/-- The scan after a page, with the page to read next. -/
def turned (scan : Scan V) (kept : Series V) (next : Option Bookmark) : Scan V :=
  { scan with next := next, buffer := kept.toList }

/-- A measure that every page lowers. -/
def measure (scan : Scan V) : Nat :=
  scan.next.elim 0 fun mark => mark.start.remaining + 1

theorem measure_turned_lt {scan : Scan V} {mark : Bookmark} (h : scan.next = some mark)
    (kept : Series V) (next : Option { next : Bookmark // mark.start < next.start }) :
    (scan.turned kept (next.map Subtype.val)).measure < scan.measure := by
  unfold measure turned
  rw [h]
  cases next with
  | none =>
      exact Nat.succ_pos _
  | some next =>
      exact Nat.succ_lt_succ (Instant.remaining_lt_of_lt next.property)

end Scan

variable {m : Type -> Type} [Monad m] {V : Type}

/-- Read a page for a scan and announce what it stored. -/
def loadPage (replica : Replica m V) (mark : Bookmark) : Action m V (Page V) := do
  replica.sync
  replica.announcing (replica.fetch mark)

/-- Pull the next entry of a scan. -/
def pull (replica : Replica m V) (scan : Scan V) :
    StateT (State V) m (Option (Except QueryError (Entry V)) × Scan V) := do
  match scan.news with
  | e :: rest =>
      return (some (.ok e), scan.yielded e rest)
  | [] =>
      match _ : scan.next with
      | none =>
          return (none, scan.ended)
      | some mark =>
          match <- (replica.loadPage mark).run with
          | .error e =>
              return (some (.error e), scan.ended)
          | .ok page =>
              match page.entries.newest? with
              | none =>
                  return (none, scan.ended)
              | some newest =>
                  let next <- replica.nextPage mark page.full newest.key
                  replica.pull (scan.turned page.entries (next.map Subtype.val))
termination_by scan.measure
decreasing_by exact Scan.measure_turned_lt ‹_› page.entries next

def archive (replica : Replica m V) : Archive (StateT (State V) m) V :=
  { Scan := Scan V
    lookup := replica.lookup
    previousKey := fun key => replica.source.previousKey key
    nextKey := fun key => replica.source.nextKey key
    scanFrom := fun key => pure (.startAt key)
    pull := replica.pull
    clear := modify State.forget
    component := component
    report := do return (<- get).counters.report }

def inspectState (settings : Settings) (s : State V) : String :=
  Text.openRecord component
    [("config", inspect settings),
      ("loaded", inspect s.loaded.size),
      ("coverage", inspect s.coverage),
      ("epoch", inspect s.epoch)]

end Replica
end AsOf
