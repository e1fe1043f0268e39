import AsOf.Instant.Basic

/-!
# Calendar fields of an instant

The date is that of the Gregorian calendar carried back over all years, with a
year 0 before year 1.  Days are counted from the first of March of year 0, so
that the leap day ends its year and every month but the last has a fixed length
rule.
-/

namespace AsOf

structure Date where
  year : Int
  month : Nat
  day : Nat
  deriving DecidableEq

structure TimeOfDay where
  hour : Nat
  minute : Nat
  second : Nat
  deriving DecidableEq

namespace Date

/-- The number of days from 0000-03-01 to 1970-01-01. -/
def daysBeforeEpoch : Int := 719468

/-- The number of days in a cycle of 400 years. -/
def daysPerCycle : Int := 146097

/-- The year of a cycle, counted from March, that holds a day of the cycle. -/
def yearOfCycle (dayOfCycle : Nat) : Nat :=
  (dayOfCycle - dayOfCycle / 1460 + dayOfCycle / 36524 - dayOfCycle / 146096) / 365

/-- The date that lies a number of days after 1970-01-01. -/
def ofDays (days : Int) : Date :=
  let sinceMarch := days + daysBeforeEpoch
  let dayOfCycle := (sinceMarch % daysPerCycle).toNat
  let yearIndex := yearOfCycle dayOfCycle
  let dayOfYear := dayOfCycle - (365 * yearIndex + yearIndex / 4 - yearIndex / 100)
  let monthIndex := (5 * dayOfYear + 2) / 153
  let month := if monthIndex < 10 then monthIndex + 3 else monthIndex - 9
  let marchYear := sinceMarch / daysPerCycle * 400 + yearIndex
  { year := if month ≤ 2 then marchYear + 1 else marchYear
    month := month
    day := dayOfYear - (153 * monthIndex + 2) / 5 + 1 }

example : ofDays 0 = ⟨1970, 1, 1⟩ := by decide

example : ofDays (-1) = ⟨1969, 12, 31⟩ := by decide

example : ofDays 11016 = ⟨2000, 2, 29⟩ := by decide

example : ofDays (-719528) = ⟨0, 1, 1⟩ := by decide

end Date

namespace Instant

def secondsPerDay : Int := 86400

def date (k : Instant) : Date :=
  Date.ofDays (k.seconds / secondsPerDay)

def timeOfDay (k : Instant) : TimeOfDay :=
  let second := (k.seconds % secondsPerDay).toNat
  { hour := second / 3600, minute := second / 60 % 60, second := second % 60 }

example : earliest.date = ⟨-262143, 1, 1⟩ := by decide

example : latest.date = ⟨262142, 12, 31⟩ := by decide

example : latest.timeOfDay = ⟨23, 59, 59⟩ := by decide

end Instant
end AsOf
