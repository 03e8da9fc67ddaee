import Blackboard.Text.Digit

/-! Decimal numbers: a sign, a whole mantissa and a power of ten. -/
namespace Blackboard

/-- The number `± mantissa · 10 ^ exponent`. Zero keeps its sign. -/
structure Decimal where
  negative : Bool
  mantissa : Nat
  exponent : Int
deriving DecidableEq, Repr

namespace Decimal

def neg (d : Decimal) : Decimal := { d with negative := !d.negative }

/-- The number spelled by `digits`, a point and further digits, times ten to the power `exponent`. -/
def ofParts (negative : Bool) (whole fraction : List Char) (exponent : Int) : Decimal :=
  ⟨negative, Text.decimalValue (whole ++ fraction), exponent - fraction.length⟩

def signed (cs : List Char) : Int :=
  match cs with
  | '-' :: ds => - (Text.decimalValue ds : Int)
  | ds => Text.decimalValue ds

def ofUnsigned (negative : Bool) (cs : List Char) : Decimal :=
  let (number, power) := cs.span fun c => c != 'e' && c != 'E'
  let (whole, rest) := number.span (· != '.')
  ofParts negative whole (rest.drop 1) (signed ((power.drop 1).filter (· != '+')))

def huge (negative : Bool) : Decimal := ⟨negative, 1, 400⟩

def ofText (s : String) : Decimal :=
  match s.toList with
  | '-' :: cs => if cs = "inf".toList then huge true else ofUnsigned true cs
  | cs => if cs = "inf".toList then huge false else ofUnsigned false cs

end Decimal

end Blackboard
