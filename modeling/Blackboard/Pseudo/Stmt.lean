import Blackboard.Pseudo.Expr

/-! Pseudocode statements. -/
namespace Blackboard.Pseudo

structure Param where
  name : String
  type : String
deriving DecidableEq, Repr

/-- What a statement is, apart from the statements inside it. -/
inductive Form where
  | program (language : Option String) (structuralErrors : List String)
  | variable_ (name type : String)
  | constant (name : String) (value : Expr)
  | class_ (name : String)
  | procedure (name : String) (params : List Param)
  | function (name : String) (params : List Param) (returns : String)
  | ifThen (condition : Expr)
  | elseIf (condition : Expr)
  | else_
  | while_ (condition : Expr)
  | for_ (name : String) (start stop : Expr) (step : Option Expr)
  | repeatUntil (condition : Expr)
  | caseOf (subject : Expr)
  | caseBranch (labels : List Expr) (fallsThrough : Bool)
  | otherwise (fallsThrough : Bool)
  | assign (target value : Expr)
  | output (items : List Expr)
  | input (target : Expr)
  | call (call : Expr)
  | return_ (value : Option Expr)
  | expression (e : Expr)
  /-- a comment, and whether it only annotates the conversion -/
  | comment (text : String) (annotates : Bool)
  /-- source text that could not be read -/
  | unparsed (text message : String)

namespace Form

def expressions : Form → List Expr
  | constant _ e | ifThen e | elseIf e | while_ e | repeatUntil e | caseOf e | input e | call e
  | expression e => [e]
  | for_ _ start stop none => [start, stop]
  | for_ _ start stop (some step) => [start, stop, step]
  | assign target value => [target, value]
  | caseBranch es _ | output es => es
  | return_ value => value.toList
  | _ => []

def isCallable : Form → Bool
  | procedure .. | function .. => true
  | _ => false

def isProgram : Form → Bool
  | program .. => true
  | _ => false

end Form

/-- A statement with the statements inside it, the notes that stand before it, and the source line
it comes from. -/
inductive Stmt where
  | mk (form : Form) (children : List Stmt) (notes : List String) (line : Option Nat)

namespace Stmt

def form : Stmt → Form
  | mk f _ _ _ => f

def children : Stmt → List Stmt
  | mk _ cs _ _ => cs

def notes : Stmt → List String
  | mk _ _ ns _ => ns

def line : Stmt → Option Nat
  | mk _ _ _ l => l

def simple (form : Form) (line : Option Nat) : Stmt := mk form [] [] line

def comment (text : String) (line : Option Nat) : Stmt := simple (.comment text true) line

def withNotes : Stmt → List String → Stmt
  | mk f cs _ l, ns => mk f cs ns l

mutual

/-- The expressions of a statement and all statements in it, those inside before its own. -/
def expressions : Stmt → List Expr
  | mk f cs _ _ => expressionsOf cs ++ f.expressions

def expressionsOf : List Stmt → List Expr
  | [] => []
  | s :: ss => s.expressions ++ expressionsOf ss

end

mutual

def count : Stmt → Nat
  | mk f cs _ _ => (if f.isProgram then 0 else 1) + countAll cs

def countAll : List Stmt → Nat
  | [] => 0
  | s :: ss => s.count + countAll ss

end

end Stmt

end Blackboard.Pseudo
