import Blackboard.Number.Shortest

/-!
Number literals and their values. Whole numbers of more than `digitLimit` decimal digits are
neither read nor written.
-/
namespace Blackboard

def digitLimit : Nat := 4300

def writable (n : Int) : Bool := n.natAbs < Nat.pow 10 digitLimit

inductive Numeral where
  | int (n : Nat)
  | real (d : Decimal)
deriving DecidableEq, Repr

namespace Numeral

inductive Fault where
  | tooManyDigits (count : Nat)
  | noHexDigits (text : String)
deriving DecidableEq, Repr

def Fault.message : Fault → String
  | .tooManyDigits count =>
    s!"Exceeds the limit ({digitLimit} digits) for integer string conversion: value has {count} " ++
      "digits; use sys.set_int_max_str_digits() to increase the limit"
  | .noHexDigits text => s!"invalid literal for int() with base 16: '{text}'"

def isHexPrefixed : List Char → Bool
  | '0' :: x :: _ => x == 'x' || x == 'X'
  | _ => false

def dropMarks (marks : List Char) (cs : List Char) : List Char :=
  (cs.reverse.dropWhile marks.contains).reverse

def typeMarks : List Char := "lLfFdDn".toList

/-- Whether a literal without underscores, other than a hexadecimal one, has a real value. -/
def isReal (cs : List Char) : Bool :=
  cs.any (fun c => c == '.' || c == 'e' || c == 'E') || (cs.getLast?.map "fFdD".toList.contains).getD false

def read (raw : String) : Except Fault Numeral :=
  let cs := raw.toList.filter (· != '_')
  if isHexPrefixed cs then
    let body := dropMarks ['l', 'L'] cs
    if body.length ≤ 2 then .error (.noHexDigits (String.ofList body))
    else .ok (.int (Text.hexadecimalValue (body.drop 2)))
  else
    let body := dropMarks typeMarks cs
    if isReal cs then .ok (.real (.ofUnsigned false body))
    else if body.length > digitLimit then .error (.tooManyDigits body.length)
    else .ok (.int (Text.decimalValue body))

end Numeral

end Blackboard
