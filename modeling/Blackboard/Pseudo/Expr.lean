import Blackboard.Number.Numeral
import Blackboard.Pseudo.Operator

/-! Pseudocode expressions. -/
namespace Blackboard.Pseudo

inductive Value where
  | null
  | bool (b : Bool)
  | int (n : Int)
  | real (d : Decimal)
  | text (s : String)
deriving DecidableEq, Repr

/-- An expression. Each node may know the source line it comes from. -/
inductive Expr where
  /-- a literal as it is spelled, with its value if that is known -/
  | literal (text : String) (value : Option Value) (line : Option Nat)
  /-- a name, and whether it is known to be declared -/
  | identifier (name : String) (declared : Option Bool) (line : Option Nat)
  | binary (op : BinaryOp) (left right : Expr) (line : Option Nat)
  | unary (op : UnaryOp) (operand : Expr) (line : Option Nat)
  /-- a call; of a call that the source text has, it is known whether its callee is declared -/
  | call (name : String) (args : List Expr) (declared : Option Bool) (line : Option Nat)
  /-- a method call, and whether it has no equivalent and is merely passed on -/
  | method (name : String) (target : Expr) (args : List Expr) (passedOn : Bool)
      (line : Option Nat)
  /-- a built-in operation, spelled by filling a template -/
  | builtin (name template : String) (precedence : Option Nat) (target : Expr)
      (args : List Expr) (line : Option Nat)
  | member (target : Expr) (name : String) (line : Option Nat)
  | index (target index : Expr) (line : Option Nat)
  | array (items : List Expr) (line : Option Nat)
  | conditional (condition yes no : Expr) (line : Option Nat)
  | newObject (className : String) (args : List Expr) (line : Option Nat)
  /-- text kept as it is -/
  | raw (text : String) (line : Option Nat)

namespace Expr

def line : Expr → Option Nat
  | literal _ _ l | identifier _ _ l | binary _ _ _ l | unary _ _ l | call _ _ _ l => l
  | method _ _ _ _ l | builtin _ _ _ _ _ l | member _ _ l | index _ _ l | array _ l => l
  | conditional _ _ _ l | newObject _ _ l | raw _ l => l

def children : Expr → List Expr
  | binary _ a b _ | index a b _ => [a, b]
  | unary _ a _ | member a _ _ => [a]
  | call _ args _ _ | array args _ | newObject _ args _ => args
  | method _ target args _ _ | builtin _ _ _ target args _ => target :: args
  | conditional c a b _ => [c, a, b]
  | literal .. | identifier .. | raw .. => []

def number (n : Int) (line : Option Nat := none) : Expr :=
  .literal (toString n) (some (.int n)) line

def literalInt? : Expr → Option Int
  | literal _ (some (.int n)) _ => some n
  | _ => none

/-- The sum of an expression and a constant other than zero, as it is written without folding. -/
def plainOffset (e : Expr) (k : Int) : Expr :=
  if 0 < k then .binary .add e (number k) e.line else .binary .sub e (number (-k)) e.line

/-- The sum of an expression and a constant. Literals are folded, and a constant added or subtracted
last is merged with the new one. -/
def addOffset : Expr → Int → Expr
  | literal t v l, k =>
    if k = 0 then literal t v l
    else match v with
      | some (.int n) => number (n + k) l
      | v => plainOffset (literal t v l) k
  | binary op left right l, k =>
    if k = 0 then binary op left right l
    else match op, right.literalInt? with
      | .add, some n => left.addOffset (n + k)
      | .sub, some n => left.addOffset (-n + k)
      | op, _ => plainOffset (binary op left right l) k
  | e, k => if k = 0 then e else plainOffset e k

def subtract (left right : Expr) : Expr :=
  match left.literalInt?, right.literalInt? with
  | some m, some n => number (m - n) left.line
  | none, some n => left.addOffset (-n)
  | _, none => .binary .sub left right left.line

mutual

def writable : Expr → Bool
  | literal _ (some (.int n)) _ => Blackboard.writable n
  | literal .. | identifier .. | raw .. => true
  | binary _ a b _ | index a b _ => a.writable && b.writable
  | unary _ a _ | member a _ _ => a.writable
  | call _ args _ _ | array args _ | newObject _ args _ => allWritable args
  | method _ target args _ _ | builtin _ _ _ target args _ => target.writable && allWritable args
  | conditional c a b _ => c.writable && a.writable && b.writable

def allWritable : List Expr → Bool
  | [] => true
  | e :: es => e.writable && allWritable es

end

mutual

def nodes : Expr → List Expr
  | literal t v l => [literal t v l]
  | identifier n d l => [identifier n d l]
  | raw t l => [raw t l]
  | binary op a b l => binary op a b l :: (a.nodes ++ b.nodes)
  | index a b l => index a b l :: (a.nodes ++ b.nodes)
  | unary op a l => unary op a l :: a.nodes
  | member a n l => member a n l :: a.nodes
  | call n args d l => call n args d l :: nodesOf args
  | array args l => array args l :: nodesOf args
  | newObject n args l => newObject n args l :: nodesOf args
  | method n target args p l => method n target args p l :: (target.nodes ++ nodesOf args)
  | builtin n t p target args l => builtin n t p target args l :: (target.nodes ++ nodesOf args)
  | conditional c a b l => conditional c a b l :: (c.nodes ++ a.nodes ++ b.nodes)

def nodesOf : List Expr → List Expr
  | [] => []
  | e :: es => e.nodes ++ nodesOf es

end

end Expr

end Blackboard.Pseudo
