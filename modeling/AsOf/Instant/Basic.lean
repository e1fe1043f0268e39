/-!
# Instants

An instant is a point of the time line counted in nanoseconds from
1970-01-01T00:00:00Z.  The line is finite: it runs from the first nanosecond of
the year -262143 to the last one of the year 262142, and the type carries both
limits.  A chain of ever later instants is therefore finite, and
`Instant.remaining` is the measure by which the page loops of this library end.
-/

namespace AsOf

/-- A point of the time line, in nanoseconds from 1970-01-01T00:00:00Z. -/
structure Instant where
  nanos : Int
  first_le : -8334601228800000000000 ≤ nanos
  le_last : nanos ≤ 8210266876799999999999
  deriving DecidableEq

namespace Instant

def nanosPerSecond : Int := 1000000000

def earliest : Instant := ⟨-8334601228800000000000, by decide, by decide⟩

def latest : Instant := ⟨8210266876799999999999, by decide, by decide⟩

/-- The instant at a nanosecond count, or the nearer end of the line beyond it. -/
def ofNanos (n : Int) : Instant :=
  ⟨max (-8334601228800000000000) (min n 8210266876799999999999), by omega, by omega⟩

/-- The instant some nanoseconds away, stopped at the ends of the line. -/
def shift (k : Instant) (distance : Int) : Instant :=
  ofNanos (k.nanos + distance)

/-- The whole seconds of an instant, rounded towards the past. -/
def seconds (k : Instant) : Int :=
  k.nanos / nanosPerSecond

/-- The nanoseconds of an instant within its second. -/
def subsecond (k : Instant) : Nat :=
  (k.nanos % nanosPerSecond).toNat

/-- The number of nanoseconds left until the end of the line. -/
def remaining (k : Instant) : Nat :=
  (8210266876799999999999 - k.nanos).toNat

/-!
## Order
-/

instance : LE Instant := ⟨fun a b => a.nanos ≤ b.nanos⟩

instance : LT Instant := ⟨fun a b => a.nanos < b.nanos⟩

instance (a b : Instant) : Decidable (a ≤ b) :=
  inferInstanceAs (Decidable (a.nanos ≤ b.nanos))

instance (a b : Instant) : Decidable (a < b) :=
  inferInstanceAs (Decidable (a.nanos < b.nanos))

instance : Min Instant := minOfLe

instance : Ord Instant := ⟨fun a b => compare a.nanos b.nanos⟩

instance : Inhabited Instant := ⟨earliest⟩

theorem le_def {a b : Instant} : a ≤ b ↔ a.nanos ≤ b.nanos := Iff.rfl

theorem lt_def {a b : Instant} : a < b ↔ a.nanos < b.nanos := Iff.rfl

@[ext] theorem ext {a b : Instant} (h : a.nanos = b.nanos) : a = b := by
  cases a
  cases b
  cases h
  rfl

instance : Std.IsLinearOrder Instant where
  le_refl a := Int.le_refl a.nanos
  le_trans a b c := @Int.le_trans a.nanos b.nanos c.nanos
  le_antisymm _ _ h h' := ext (Int.le_antisymm h h')
  le_total a b := Int.le_total a.nanos b.nanos

instance : Std.LawfulOrderLT Instant where
  lt_iff _ _ := Int.lt_iff_le_and_not_ge

theorem min_def (a b : Instant) : min a b = if a ≤ b then a else b := rfl

theorem earliest_le (k : Instant) : earliest ≤ k := k.first_le

theorem le_shift {distance : Int} (k : Instant) (h : 0 ≤ distance) : k ≤ k.shift distance := by
  have hfirst := k.first_le
  have hlast := k.le_last
  rw [le_def]
  simp only [shift, ofNanos]
  omega

theorem remaining_lt_of_lt {a b : Instant} (h : a < b) : b.remaining < a.remaining := by
  have hlast := b.le_last
  have hlt := lt_def.mp h
  unfold remaining
  omega

end Instant
end AsOf
