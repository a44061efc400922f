/-!
# Decimal digits

Numbers with leading zeros, and the digits of a fraction without trailing ones.
-/

namespace LogicalForm.Text
set_option autoImplicit false

def digits (n : Nat) : List Char := Nat.toDigits 10 n

def paddedDigits (width n : Nat) : List Char :=
  List.replicate (width - (digits n).length) '0' ++ digits n

def padded (width n : Nat) : String := String.ofList (paddedDigits width n)

/-- The digits after the point of `n / 10 ^ width`, for `n` below `10 ^ width`, up to the last one that
is not zero. -/
def fraction (width n : Nat) : String :=
  String.ofList ((paddedDigits width n).reverse.dropWhile (· == '0')).reverse

end LogicalForm.Text
