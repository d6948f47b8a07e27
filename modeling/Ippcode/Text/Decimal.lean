/-! # Signed 64-bit numerals

A numeral is an optional sign and one or more ASCII digits, leading zeros allowed, whose value
fits into 64 bits. The written form of an integer has a minus sign if it is negative and no
leading zeros.
-/
namespace Ippcode.Text.Decimal

def digits? (cs : List Char) : Option Nat :=
  if cs ≠ [] ∧ cs.all Char.isDigit then some (Nat.ofDigitChars 10 cs 0) else none

/-- The integer written by digits behind at most one sign. -/
def signed? : List Char → Option Int
  | '-' :: cs => (digits? cs).map fun n => -(n : Int)
  | '+' :: cs => (digits? cs).map Int.ofNat
  | cs => (digits? cs).map Int.ofNat

def InRange (n : Int) : Prop := Int64.minValue.toInt ≤ n ∧ n ≤ Int64.maxValue.toInt

instance (n : Int) : Decidable (InRange n) := inferInstanceAs (Decidable (_ ∧ _))

/-- The 64-bit integer that a text denotes. -/
def parse? (s : String) : Option Int64 :=
  (signed? s.toList).bind fun n => if InRange n then some (Int64.ofInt n) else none

def render (n : Int64) : String :=
  if n.toInt < 0 then "-" ++ n.toInt.natAbs.repr else n.toInt.natAbs.repr

example : parse? "-9223372036854775808" = some Int64.minValue := by decide +kernel
example : parse? "9223372036854775808" = none ∧ parse? "+007" = some 7 := by decide +kernel
example : parse? "-" = none ∧ parse? "1_0" = none := by decide +kernel
example : render Int64.minValue = "-9223372036854775808" := by decide +kernel

end Ippcode.Text.Decimal
