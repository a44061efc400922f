import LogicalForm.Calendar.Date
import LogicalForm.Text.Decimal

/-!
# Instants

An instant is shown as the date and time at some offset from universal time. The usual notation has
four-digit years and offsets of whole minutes within a day; what it cannot express is shown in a
plainer one.
-/

namespace LogicalForm
set_option autoImplicit false

structure Instant where
  seconds : Int
  nanoseconds : Nat
  /-- The seconds by which the clock shown is ahead of universal time. -/
  offset : Int
  deriving DecidableEq, Repr, Inhabited

namespace Instant

def secondsOfDay : Nat := 86400

def shown (instant : Instant) : Int := instant.seconds + instant.offset

def date (instant : Instant) : Date := Date.ofDays (Int.fdiv instant.shown secondsOfDay)

def secondOfDay (instant : Instant) : Nat := (Int.fmod instant.shown secondsOfDay).toNat

def hour (instant : Instant) : Nat := instant.secondOfDay / 3600

def minutesAndSeconds (seconds : Nat) : String :=
  Text.padded 2 (seconds / 60 % 60) ++ ":" ++ Text.padded 2 (seconds % 60)

def offsetSign (instant : Instant) : String := if instant.offset < 0 then "-" else "+"

def isUsual (instant : Instant) : Bool :=
  decide (0 ≤ instant.date.year) && decide (instant.date.year ≤ 9999) &&
    instant.offset.natAbs % 60 == 0 && decide (instant.offset.natAbs < secondsOfDay)

def monthAndDay (date : Date) : String := Text.padded 2 date.month ++ "-" ++ Text.padded 2 date.day

/-- As in `2024-06-11T01:00:00.5+01:00`. The fraction is left out if it is zero, and the offset zero
is written `Z`. -/
def usual (instant : Instant) : String :=
  let fraction := Text.fraction 9 instant.nanoseconds
  let minutes := instant.offset.natAbs / 60
  Text.padded 4 instant.date.year.toNat ++ "-" ++ monthAndDay instant.date ++ "T" ++
    Text.padded 2 instant.hour ++ ":" ++ minutesAndSeconds instant.secondOfDay ++
    (if fraction.isEmpty then "" else "." ++ fraction) ++
    if instant.offset = 0 then "Z"
    else instant.offsetSign ++ Text.padded 2 (minutes / 60) ++ ":" ++ Text.padded 2 (minutes % 60)

/-- As in `-0001-12-31 3:59:59.0 +00:00:01`. -/
def plain (instant : Instant) : String :=
  let year := instant.date.year
  let fraction := Text.fraction 9 instant.nanoseconds
  let offset := instant.offset.natAbs
  (if year < 0 then "-" else "") ++ Text.padded 4 year.natAbs ++ "-" ++ monthAndDay instant.date ++
    " " ++ toString instant.hour ++ ":" ++ minutesAndSeconds instant.secondOfDay ++ "." ++
    (if fraction.isEmpty then "0" else fraction) ++ " " ++ instant.offsetSign ++
    Text.padded 2 (offset / 3600) ++ ":" ++ minutesAndSeconds offset

def text (instant : Instant) : String := if instant.isUsual then instant.usual else instant.plain

end Instant

end LogicalForm
