import Chomsky.Decimal.Layout
import Chomsky.Event.Calendar
import Chomsky.Json.Printer

/-!
# Timestamps

A timestamp is a whole number of microseconds since the beginning of 1970, within the years 1 to
9999. A number of seconds is rounded to microseconds: the part behind the point is multiplied by a
million in double arithmetic, and halfway goes to the even neighbour.
-/

namespace Chomsky.Event

structure Timestamp where
  micros : Int
deriving DecidableEq, Repr

/-- Why a number of seconds is no timestamp. -/
inductive TimeFault where
  | notANumber
  | yearOutOfRange (year : Int)
  /-- The year, counted from 1900, does not fit into 32 bits. -/
  | yearTooLarge
  /-- The seconds do not fit into 64 bits. -/
  | tooLarge
deriving DecidableEq, Repr

def TimeFault.message : TimeFault → String
  | notANumber => "Invalid value NaN (not a number)"
  | yearOutOfRange year => s!"year {year} is out of range"
  | yearTooLarge => "[Errno 75] Value too large for defined data type"
  | tooLarge => "timestamp out of range for platform time_t"

namespace Timestamp

def microsPerSecond : Int := 1000000

def secondsPerDay : Int := 86400

/-- The first second of year 1. -/
def firstSecond : Int := -62135596800

/-- The first second of year 10000. -/
def endSecond : Int := 253402300800

/-- The first number that does not fit into 64 bits with a sign. -/
def secondsLimit : Int := 9223372036854775808

/-- The first number that does not fit into 32 bits with a sign. -/
def yearsLimit : Int := 2147483648

/-- The number with the same last 32 bits that fits into them with a sign. -/
def wrapYear (year : Int) : Int := (year + yearsLimit).emod (2 * yearsLimit) - yearsLimit

/-- Why a second outside of all timestamps is none. Years are counted from 1900, and the year itself
is shown in 32 bits. -/
def secondFault (second : Int) : TimeFault :=
  let year := (Date.ofDays (second.fdiv secondsPerDay)).year
  let counted := year - 1900
  if counted < -yearsLimit || yearsLimit ≤ counted then .yearTooLarge
  else .yearOutOfRange (wrapYear year)

def ofMicros (micros : Int) : Except TimeFault Timestamp :=
  let seconds := micros.fdiv microsPerSecond
  if seconds < -secondsLimit || secondsLimit ≤ seconds then .error .tooLarge
  else if seconds < firstSecond || endSecond ≤ seconds then .error (secondFault seconds)
  else .ok ⟨micros⟩

/-- The whole number nearest to a finite double, halfway to the even one. -/
def roundToInt (x : Float) : Int :=
  let m := Decimal.Magnitude.ofBits x.toBits
  let n : Int := Decimal.roundHalfEven m.numerator m.denominator
  if Decimal.isNegative x then -n else n

/-- A finite double without its part behind the point. -/
def truncate (x : Float) : Int :=
  let m := Decimal.Magnitude.ofBits x.toBits
  let n : Int := m.numerator / m.denominator
  if Decimal.isNegative x then -n else n

def ofSeconds (seconds : Float) : Except TimeFault Timestamp :=
  if seconds.isNaN then .error .notANumber
  else if seconds.isInf then .error .tooLarge
  else
    let whole := truncate seconds
    let part := (seconds - Float.ofInt whole) * 1e6
    ofMicros (whole * microsPerSecond + roundToInt part)

def ofWholeSeconds (seconds : Int) : Except TimeFault Timestamp :=
  ofMicros (seconds * microsPerSecond)

/-- The seconds as a double. -/
def toSeconds (t : Timestamp) : Float :=
  Decimal.toFloat (t.micros < 0) t.micros.natAbs (-6)

def text (t : Timestamp) : String := Decimal.write Json.documentSpelling t.toSeconds

/-- Date and time of day in universal time. Seconds and microseconds are left out if nothing but
zeros follows. -/
def describe (t : Timestamp) : String :=
  let seconds := t.micros.fdiv microsPerSecond
  let micro := t.micros.fmod microsPerSecond
  let date := Date.ofDays (seconds.fdiv secondsPerDay)
  let second := seconds.fmod secondsPerDay
  let always : List Int := [date.year, date.month, date.day, second / 3600, second / 60 % 60]
  let rest : List Int :=
    if micro = 0 then if second % 60 = 0 then [] else [second % 60] else [second % 60, micro]
  let numbers := ", ".intercalate ((always ++ rest).map toString)
  s!"datetime.datetime({numbers}, tzinfo=datetime.timezone.utc)"

end Timestamp

end Chomsky.Event
