import Blackboard.Number.Numeral
import Blackboard.Text.Blank

/-! Whole numbers as they are typed: digits of any script, with an optional sign, blanks around, and
single underscores between digits. -/
namespace Blackboard.Whole

def digits? (cs : List Char) : Option (List Char) :=
  let parts := cs.splitOn '_'
  if parts.all fun p => !p.isEmpty && p.all Text.isDigit then some parts.flatten else none

def unsigned? (cs : List Char) : Option Nat :=
  ((digits? cs).filter fun ds => ds.length ≤ digitLimit).map Text.decimalValue

def read? (s : String) : Option Int :=
  match Text.trim s.toList with
  | '-' :: cs => (unsigned? cs).map fun n => - (n : Int)
  | '+' :: cs => (unsigned? cs).map fun n => (n : Int)
  | cs => (unsigned? cs).map fun n => (n : Int)

def looksNegative (s : String) : Bool :=
  match s.toList with
  | '-' :: cs =>
    let cs := if cs.getLast? = some '\n' then cs.dropLast else cs
    let (whole, rest) := cs.span Text.isDigit
    match rest with
    | [] => !whole.isEmpty
    | '.' :: fraction => !fraction.isEmpty && fraction.all Text.isDigit
    | _ => false
  | _ => false

end Blackboard.Whole
