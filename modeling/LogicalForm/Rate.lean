import LogicalForm.Text.Decimal

/-!
# Rates

A rate is a part of a whole. As a number it is the binary floating-point value of double precision
nearest to the quotient, and reports show that value, not the quotient, to four decimals.
-/

namespace LogicalForm
set_option autoImplicit false

def roundDiv (n d : Nat) : Nat :=
  let q := n / d
  let r := n % d
  if d < 2 * r ∨ (2 * r = d ∧ q % 2 = 1) then q + 1 else q

structure Rate where
  part : Nat
  whole : Nat
  deriving DecidableEq, Repr

namespace Rate

/-- The number of binary places that leave 53 significant bits of the quotient. -/
def places (rate : Rate) : Nat :=
  let shift := 52 + rate.whole.log2 - rate.part.log2
  if rate.part * Nat.pow 2 shift < rate.whole * Nat.pow 2 52 then shift + 1 else shift

def significand (rate : Rate) : Nat :=
  roundDiv (rate.part * Nat.pow 2 rate.places) rate.whole

/-- The bits of the nearest value of double precision, for a part that is not more than the whole.
Nothing of nothing is zero. -/
def bits (rate : Rate) : Nat :=
  if rate.part = 0 then 0 else (1074 - rate.places) * Nat.pow 2 52 + rate.significand

def tenThousandths (rate : Rate) : Nat :=
  if rate.part = 0 then 0 else roundDiv (rate.significand * 10000) (Nat.pow 2 rate.places)

def text (rate : Rate) : String :=
  toString (rate.tenThousandths / 10000) ++ "." ++ Text.padded 4 (rate.tenThousandths % 10000)

end Rate

end LogicalForm
