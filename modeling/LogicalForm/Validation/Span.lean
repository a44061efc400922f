import LogicalForm.Text.Decimal

/-!
# Spans of time

A span is counted in nanoseconds and shown in the largest unit of which it holds at least one.
-/

namespace LogicalForm
set_option autoImplicit false

structure Span where
  nanoseconds : Nat
  deriving DecidableEq, Repr, Inhabited

namespace Span

def ofMilliseconds (n : Nat) : Span := ⟨n * 1000000⟩

def ofSeconds (n : Nat) : Span := ⟨n * 1000000000⟩

/-- The span in a unit of `10 ^ places` nanoseconds; the fraction is exact. -/
def inUnit (places : Nat) (unit : String) (span : Span) : String :=
  let size := Nat.pow 10 places
  let whole := toString (span.nanoseconds / size)
  let rest := Text.fraction places (span.nanoseconds % size)
  if rest.isEmpty then whole ++ unit else whole ++ "." ++ rest ++ unit

def text (span : Span) : String :=
  if 1000000000 ≤ span.nanoseconds then span.inUnit 9 "s"
  else if 1000000 ≤ span.nanoseconds then span.inUnit 6 "ms"
  else if 1000 ≤ span.nanoseconds then span.inUnit 3 "µs"
  else span.inUnit 0 "ns"

end Span

end LogicalForm
