import AsOf.Archive
import AsOf.Epoch
import AsOf.Horizon
import AsOf.Replica.State
import AsOf.Request

/-!
# Lookups in a replica

A replica answers a lookup from its memo or from the span it has completely
loaded.  Otherwise it asks the source for the latest entry at the instant, reads
the batch that closes the gap to what it has, and answers from that.  A source
that names no latest entry is read forward in batches instead.

What is loaded stays loaded when a later step of the same lookup fails.  The
listener hears of new entries after the lookup is through with the state, so it
may look up further instants itself.
-/

namespace AsOf
namespace Replica

/-- The limits of what a replica remembers. -/
structure Settings where
  memoCapacity : Positive := ⟨4096, by decide⟩
  deriving DecidableEq

instance : Inspect Settings where
  inspect s := Text.record "GapStoreConfig" [("lookup_memo_capacity", inspect s.memoCapacity.val)]

end Replica

/-- A local copy of a source that is completed on demand. -/
structure Replica (m : Type -> Type) (V : Type) where
  source : Source m V
  horizon : Horizon m
  epoch : Epoch m
  settings : Replica.Settings
  /-- What hears of every entry whose key is stored for the first time. -/
  listener : Entry V -> StateT (Replica.State V) m Unit

namespace Replica

variable {m : Type -> Type} [Monad m] {V : Type}

/-- A request to a replica. -/
abbrev Action (m : Type -> Type) (V α : Type) := Request m (State V) α

def silent (source : Source m V) (horizon : Horizon m) (epoch : Epoch m)
    (settings : Settings) : Replica m V :=
  { source, horizon, epoch, settings, listener := fun _ => pure () }

def withListener (replica : Replica m V)
    (listener : Entry V -> StateT (State V) m Unit) : Replica m V :=
  { replica with listener }

/-- The state of a new replica, in the present epoch and under the present horizon. -/
def start (replica : Replica m V) : m (State V) := do
  let epoch <- replica.epoch.current
  let bound <- replica.horizon.highest
  return { epoch, bound }

/-- A question to the source; its failure is about the instant asked. -/
def ask {α : Type} (key : Instant) (question : ExceptT String m α) : Action m V α :=
  .handOn (question.adapt (.load key))

/-- Forget what a new epoch or a moved horizon has made stale. -/
def sync (replica : Replica m V) : StateT (State V) m Unit := do
  let epoch <- replica.epoch.current
  modify fun s => s.observeEpoch epoch
  let bound <- replica.horizon.highest
  modify fun s => s.observeBound bound

/-- Tell the listener of the entries it has not heard of. -/
def announce (replica : Replica m V) : StateT (State V) m Unit := do
  let pending <- modifyGet fun s => (s.pending, { s with pending := [] })
  pending.forM replica.listener

/-- Run an action and announce what it stored, also when it fails. -/
def announcing {α : Type} (replica : Replica m V) (action : Action m V α) : Action m V α :=
  ExceptT.mk do
    let result <- action.run
    replica.announce
    return result

/-!
## Reading the source
-/

/-- Ask the source for the entry in effect at an instant. -/
def probe (replica : Replica m V) (key : Instant) : Action m V (Option (Entry V)) := do
  modify State.countProbe
  ask key (replica.source.latestUpTo key)

structure Page (V : Type) where
  entries : Series V
  full : Bool

/-- The entries of a batch from an instant on, the first of those with the same key. -/
def kept (start : Instant) (batch : List (Entry V)) : Series V :=
  .ofFirsts (batch.filter fun e => start ≤ e.key)

/-- Store the entries of a batch from an instant on. -/
def absorb (start : Instant) (batch : List (Entry V)) : Action m V (Series V) := do
  let kept := kept start batch
  modify fun s => (s.countLoaded batch.length).storePage kept
  return kept

/-- Read the batch from an instant on, which is complete from there. -/
def fill (replica : Replica m V) (start : Instant) : Action m V Unit := do
  modify State.countBulkLoad
  let batch <- ask start (replica.source.batchFrom start)
  let kept <- absorb start batch
  match kept.newest? with
  | some newest =>
      modify fun s => s.cover ⟨start, .excluded newest.key⟩
  | none =>
      pure ()

/-- Read the page at a bookmark. -/
def fetch (replica : Replica m V) (mark : Bookmark) : Action m V (Page V) := do
  modify State.countBulkLoad
  let batch <- ask mark.start (replica.source.batchFrom mark.start)
  let limit <- (replica.source.batchLimit : m (Option Positive))
  let kept <- absorb mark.start batch
  match kept.oldest?, kept.newest? with
  | some oldest, some newest =>
      modify fun s => s.cover ⟨mark.completeFrom.getD oldest.key, .excluded newest.key⟩
  | _, _ =>
      pure ()
  return { entries := kept, full := limit.any fun size => size.val ≤ batch.length }

/--
The bookmark that follows a newest key, none if the source names no later instant to
go on from.
-/
def onward (replica : Replica m V) (mark : Bookmark) (newest : Instant) :
    m (Option { next : Bookmark // mark.start < next.start }) := do
  let next <- replica.source.nextKey newest
  if h : mark.start < next then
    return some ⟨⟨next, some newest⟩, h⟩
  else
    return none

/-- The bookmark that follows a page with a newest key, none if the page was not full. -/
def nextPage (replica : Replica m V) (mark : Bookmark) (full : Bool) (newest : Instant) :
    m (Option { next : Bookmark // mark.start < next.start }) :=
  if full then replica.onward mark newest else return none

/-- Read pages forward until a goal is reached, the series ends or nothing is gained. -/
def fetchUntil (replica : Replica m V) (goal : Instant) (mark : Bookmark) : Action m V Unit := do
  let page <- replica.fetch mark
  match page.entries.newest? with
  | none =>
      pure ()
  | some newest =>
      match <- (replica.onward mark newest.key : m (Option _)) with
      | some next =>
          if page.full && newest.key < goal then
            replica.fetchUntil goal next.val
          else
            pure ()
      | none =>
          pure ()
termination_by mark.start.remaining
decreasing_by exact Instant.remaining_lt_of_lt next.property

/-!
## Lookups
-/

/-- Answer a lookup after the source named no latest entry. -/
def resolveForward (replica : Replica m V) (key : Instant) : Action m V (Option (Entry V)) := do
  let before <- get
  match before.missingStretch key with
  | some mark =>
      replica.fetchUntil key mark
  | none =>
      pure ()
  modify fun s => { s with loadedFromStart := s.loadedFromStart || before.isCold }
  return (<- get).loaded.latestUpTo key

/-- Answer a lookup after the source named its latest entry. -/
def resolveLatest (replica : Replica m V) (key : Instant) (latest : Entry V) :
    Action m V (Option (Entry V)) := do
  if key < latest.key then
    throw (.breach key 0 .sourceEntryAfterKey)
  else
    let before <- get
    modify fun s => s.store latest
    match before.gapStart latest with
    | some start =>
        replica.fill start
    | none =>
        pure ()
    modify fun s => s.cover ⟨latest.key, .included key⟩
    return some latest

/-- Answer a lookup from the coverage or with the help of the source. -/
def resolve (replica : Replica m V) (key : Instant) : Action m V (Option (Entry V)) := do
  let s <- get
  if s.covers key then
    modify State.countHit
    return s.loaded.latestUpTo key
  else
    modify State.countMiss
    match <- replica.probe key with
    | some latest =>
        replica.resolveLatest key latest
    | none =>
        replica.resolveForward key

/-- The entry in effect at an instant. -/
def lookup (replica : Replica m V) (key : Instant) : Action m V (Option (Entry V)) := do
  replica.sync
  match (<- get).memo.find? key with
  | some found =>
      modify State.countMemoHit
      return found
  | none =>
      replica.announcing do
        let found <- replica.resolve key
        modify fun s => s.remember replica.settings.memoCapacity key found
        return found

end Replica
end AsOf
