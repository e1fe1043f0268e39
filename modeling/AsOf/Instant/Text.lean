import AsOf.Instant.Calendar
import AsOf.Text.Inspect

/-!
# Written forms of an instant

Date and time of day in digits, with a fraction of three, six or nine places if
the instant lies within a second.  Years outside 0000 to 9999 carry a sign.  The
three forms differ in what stands between date and time and in how they name the
time zone.
-/

namespace AsOf
namespace Instant

/-- What a written form puts around the time of day. -/
structure Form where
  separator : String
  zone : String

/-- A year in at least four digits, signed outside 0000 to 9999. -/
def yearText (year : Int) : String :=
  let digits := Text.zeroPadded 4 year.natAbs
  if year < 0 then "-" ++ digits
  else if 9999 < year then "+" ++ digits
  else digits

/-- The fraction of a second in the fewest of three, six or nine places. -/
def fractionText (nanos : Nat) : String :=
  if nanos = 0 then ""
  else if nanos % 1000000 = 0 then "." ++ Text.zeroPadded 3 (nanos / 1000000)
  else if nanos % 1000 = 0 then "." ++ Text.zeroPadded 6 (nanos / 1000)
  else "." ++ Text.zeroPadded 9 nanos

def dateText (date : Date) : String :=
  yearText date.year ++ "-" ++ Text.zeroPadded 2 date.month ++ "-" ++ Text.zeroPadded 2 date.day

def timeText (time : TimeOfDay) : String :=
  Text.zeroPadded 2 time.hour ++ ":" ++ Text.zeroPadded 2 time.minute ++ ":"
    ++ Text.zeroPadded 2 time.second

def write (form : Form) (k : Instant) : String :=
  dateText k.date ++ form.separator ++ timeText k.timeOfDay ++ fractionText k.subsecond
    ++ form.zone

/-- The form of messages: `1990-01-01 00:00:00 UTC`. -/
def spaced : Form := ⟨" ", " UTC"⟩

/-- The form of inspection texts: `1990-01-01T00:00:00Z`. -/
def zulu : Form := ⟨"T", "Z"⟩

/-- The form of entry keys: `1990-01-01T00:00:00+00:00`. -/
def offset : Form := ⟨"T", "+00:00"⟩

instance : ToString Instant := ⟨write spaced⟩

instance : Inspect Instant := ⟨write zulu⟩

end Instant
end AsOf
