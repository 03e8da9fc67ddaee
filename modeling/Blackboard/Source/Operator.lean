import Blackboard.Token.Terminal

/-! The operators of the source languages and how they are spelled. -/
namespace Blackboard.Source

inductive BinaryOp where
  | nullish | or | and | bitOr | bitXor | bitAnd
  | eq | ne | strictEq | strictNe
  | lt | gt | le | ge | instanceOf
  | add | sub | mul | div | rem | pow
deriving DecidableEq, Repr

namespace BinaryOp

def text : BinaryOp → String
  | nullish => "??"
  | or => "||"
  | and => "&&"
  | bitOr => "|"
  | bitXor => "^"
  | bitAnd => "&"
  | eq => "=="
  | ne => "!="
  | strictEq => "==="
  | strictNe => "!=="
  | lt => "<"
  | gt => ">"
  | le => "<="
  | ge => ">="
  | instanceOf => "instanceof"
  | add => "+"
  | sub => "-"
  | mul => "*"
  | div => "/"
  | rem => "%"
  | pow => "**"

def precedence : BinaryOp → Nat
  | nullish => 1
  | or => 2
  | and => 3
  | bitOr => 4
  | bitXor => 5
  | bitAnd => 6
  | eq | ne | strictEq | strictNe => 7
  | lt | gt | le | ge | instanceOf => 8
  | add | sub => 9
  | mul | div | rem => 10
  | pow => 11

def ofTerminal? : Terminal → Option BinaryOp
  | .questionQuestion => some nullish
  | .barBar => some or
  | .ampAmp => some and
  | .bar => some bitOr
  | .caret => some bitXor
  | .amp => some bitAnd
  | .eqEq => some eq
  | .bangEq => some ne
  | .strictEq => some strictEq
  | .strictNe => some strictNe
  | .lt => some lt
  | .gt => some gt
  | .le => some le
  | .ge => some ge
  | .plus => some add
  | .minus => some sub
  | .star => some mul
  | .slash => some div
  | .percent => some rem
  | .starStar => some pow
  | _ => none

def flipped? : BinaryOp → Option BinaryOp
  | lt => some gt
  | gt => some lt
  | le => some ge
  | ge => some le
  | _ => none

end BinaryOp

inductive UnaryOp where
  | not | neg | plus | bitNot | typeOf
deriving DecidableEq, Repr

namespace UnaryOp

def text : UnaryOp → String
  | not => "!"
  | neg => "-"
  | plus => "+"
  | bitNot => "~"
  | typeOf => "typeof"

def ofTerminal? : Terminal → Option UnaryOp
  | .bang => some not
  | .minus => some neg
  | .plus => some plus
  | .tilde => some bitNot
  | .kTypeof => some typeOf
  | _ => none

end UnaryOp

inductive UpdateOp where
  | increment | decrement
deriving DecidableEq, Repr

namespace UpdateOp

def text : UpdateOp → String
  | increment => "++"
  | decrement => "--"

def ofTerminal? : Terminal → Option UpdateOp
  | .plusPlus => some increment
  | .minusMinus => some decrement
  | _ => none

end UpdateOp

/-- Assignments; `with_ op` combines the old value with the new one. -/
inductive AssignOp where
  | set
  | with_ (op : BinaryOp)
deriving DecidableEq, Repr

namespace AssignOp

def text : AssignOp → String
  | set => "="
  | with_ op => op.text ++ "="

def ofTerminal? : Terminal → Option AssignOp
  | .assign => some set
  | .addAssign => some (with_ .add)
  | .subAssign => some (with_ .sub)
  | .mulAssign => some (with_ .mul)
  | .divAssign => some (with_ .div)
  | .remAssign => some (with_ .rem)
  | .bitAndAssign => some (with_ .bitAnd)
  | .bitOrAssign => some (with_ .bitOr)
  | .bitXorAssign => some (with_ .bitXor)
  | .nullishAssign => some (with_ .nullish)
  | .orAssign => some (with_ .or)
  | .andAssign => some (with_ .and)
  | _ => none

end AssignOp

inductive VarKind where
  | let_ | const_ | var_
deriving DecidableEq, Repr

namespace VarKind

def text : VarKind → String
  | let_ => "let"
  | const_ => "const"
  | var_ => "var"

def ofTerminal? : Terminal → Option VarKind
  | .kLet => some let_
  | .kConst => some const_
  | .kVar => some var_
  | _ => none

end VarKind

end Blackboard.Source
