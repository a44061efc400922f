/-!
# Dates

The Gregorian calendar without a beginning. Years are counted from March, so that a leap day is the
last day of its year; then every 400 years have the same 146097 days, and the months from March on
repeat a pattern of 153 days in five.
-/

namespace LogicalForm
set_option autoImplicit false

structure Date where
  year : Int
  month : Nat
  day : Nat
  deriving DecidableEq, Repr, Inhabited

namespace Date

def cycle : Nat := 146097

/-- The days from the first of March of the year 0 to the first of January 1970. -/
def epoch : Int := 719468

def yearOfCycle (day : Nat) : Nat := (day - day / 1460 + day / 36524 - day / 146096) / 365

def startOfYear (year : Nat) : Nat := 365 * year + year / 4 - year / 100

def ofDays (days : Int) : Date :=
  let shifted := days + epoch
  let dayOfCycle := (Int.fmod shifted cycle).toNat
  let year := yearOfCycle dayOfCycle
  let dayOfYear := dayOfCycle - startOfYear year
  let fromMarch := (5 * dayOfYear + 2) / 153
  let month := if fromMarch < 10 then fromMarch + 3 else fromMarch - 9
  { year := year + Int.fdiv shifted cycle * 400 + if month ≤ 2 then 1 else 0
    month := month
    day := dayOfYear - (153 * fromMarch + 2) / 5 + 1 }

end Date

end LogicalForm
