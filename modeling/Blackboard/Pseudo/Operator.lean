/-! The operators of pseudocode. -/
namespace Blackboard.Pseudo

/-- Operators between two operands. Any other word or mark may stand for an operator too. -/
inductive BinaryOp where
  | or | xor | and | eq | ne | lt | gt | le | ge | concat | add | sub | mul | div | mod | intDiv
  | other (text : String)
deriving DecidableEq, Repr

namespace BinaryOp

def text : BinaryOp → String
  | or => "OR"
  | xor => "XOR"
  | and => "AND"
  | eq => "="
  | ne => "<>"
  | lt => "<"
  | gt => ">"
  | le => "<="
  | ge => ">="
  | concat => "&"
  | add => "+"
  | sub => "-"
  | mul => "*"
  | div => "/"
  | mod => "MOD"
  | intDiv => "DIV"
  | other text => text

def known : List BinaryOp :=
  [or, xor, and, eq, ne, lt, gt, le, ge, concat, add, sub, mul, div, mod, intDiv]

def ofText (s : String) : BinaryOp := (known.find? (·.text == s)).getD (other s)

/-- How tightly an operator binds; tighter operators have higher numbers. An unknown operator binds
like a comparison. -/
def precedence : BinaryOp → Nat
  | or | xor => 1
  | and => 2
  | eq | ne | lt | gt | le | ge => 4
  | concat => 5
  | add | sub => 6
  | mul | div | mod | intDiv => 7
  | other text => if text = "NOT" then 3 else 4

def isComparison : BinaryOp → Bool
  | eq | ne | lt | gt | le | ge => true
  | _ => false

def groupsRight : BinaryOp → Bool
  | sub | div | mod | intDiv => true
  | op => op.isComparison

end BinaryOp

inductive UnaryOp where
  | not | neg
  | other (text : String)
deriving DecidableEq, Repr

namespace UnaryOp

def text : UnaryOp → String
  | not => "NOT"
  | neg => "-"
  | other text => text

def ofText (s : String) : UnaryOp :=
  if s = "NOT" then not else if s = "-" then neg else other s

def precedence : UnaryOp → Nat
  | not => 3
  | _ => 8

end UnaryOp

end Blackboard.Pseudo
