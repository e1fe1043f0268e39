import AsOf.Archive

/-!
# Walks into the past

A walk looks up an instant, then an instant before the entry it found, and so on.
It yields entries from the newest to the oldest and ends when nothing older is
found or when a step finds no older entry than the step before.
-/

namespace AsOf

/-- A walk from newer to older entries. -/
structure Walk where
  next : Option Instant
  last : Option Instant
  /-- The number of entries asked for, which failures report. -/
  units : Nat
  deriving DecidableEq

namespace Walk

variable {m : Type -> Type} [Monad m] {V : Type}

def startAt (key : Instant) (units : Nat) : Walk :=
  { next := some key, last := none, units := units }

/-- A walk that begins one entry before the entry of a key. -/
def before (archive : Archive m V) (key : Instant) (units : Nat) : m Walk := do
  return { next := some (<- archive.previousKey key), last := some key, units := units }

def ended (w : Walk) : Walk :=
  { w with next := none }

def descendsTo (w : Walk) (key : Instant) : Bool :=
  match w.last with
  | some last => key < last
  | none => true

/-- Take the next step of a walk. -/
def pull (archive : Archive m V) : Pull m (Entry V) Walk := fun w => do
  match w.next with
  | none =>
      return (none, w)
  | some key =>
      match <- (archive.lookup key).run with
      | .error e =>
          return (some (.error e), w.ended)
      | .ok none =>
          return (none, w.ended)
      | .ok (some entry) =>
          if key < entry.key then
            return (some (.error (.breach key w.units .entryAfterKey)), w.ended)
          else if w.descendsTo entry.key then
            let next <- archive.previousKey entry.key
            return (some (.ok entry), { w with next := some next, last := some entry.key })
          else
            return (none, w.ended)

end Walk
end AsOf
