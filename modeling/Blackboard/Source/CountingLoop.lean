import Blackboard.Source.Node

/-!
Recognising loops that count, and bounds that are the length of a collection. Such loops can be
shifted to run from one to the length.
-/
namespace Blackboard.Source

namespace Expr

def intLiteral? : Expr → Option Int
  | number _ (.int n) _ => some n
  | unary _ .neg operand => operand.intLiteral?.map (- ·)
  | _ => none

def lengthMethods : List String := ["length", "size"]

def lengthTarget? : Expr → Option Expr
  | member _ target name _ => if name = "length" then some target else none
  | call _ (member _ target name _) [] => if lengthMethods.contains name then some target else none
  | _ => none

/-- The collection and the offset of an expression that is a length plus or minus a constant. -/
def lengthBound? : Expr → Option (Expr × Int)
  | binary _ .add left right => do
    let k ← right.intLiteral?
    let target ← left.lengthTarget?
    some (target, k)
  | binary _ .sub left right => do
    let k ← right.intLiteral?
    let target ← left.lengthTarget?
    some (target, -k)
  | e => e.lengthTarget?.map (·, 0)

def isVariable (name : String) : Expr → Bool
  | identifier _ n => n == name
  | _ => false

def isIndex : Expr → Bool
  | index .. => true
  | _ => false

def dottedName? : Expr → Option String
  | identifier _ name => some name
  | member _ target name _ => target.dottedName?.map fun t => t ++ "." ++ name
  | _ => none

def isSelfReference : Expr → Bool
  | identifier _ name => name == "this" || name == "super"
  | _ => false

/-- The constant that an expression adds to the variable `name`, if that is all it does. -/
def step? (name : String) : Expr → Option Int
  | update _ op _ target =>
    if target.isVariable name then some (if op = .increment then 1 else -1) else none
  | assignment _ op target value =>
    if !target.isVariable name then none
    else match op, value with
      | .with_ .add, v => nonzero v.intLiteral?
      | .with_ .sub, v => (nonzero v.intLiteral?).map (- ·)
      | .set, binary _ .add left right =>
        if left.isVariable name then nonzero right.intLiteral? else none
      | .set, binary _ .sub left right =>
        if left.isVariable name then (nonzero right.intLiteral?).map (- ·) else none
      | _, _ => none
  | _ => none
where
  nonzero (k : Option Int) : Option Int := k.filter (· != 0)

end Expr

def Node.isIndex : Node → Bool
  | expr e => e.isIndex
  | _ => false

def Node.isVariable (name : String) : Node → Bool
  | expr e => e.isVariable name
  | _ => false

def Node.assigns (name : String) : Node → Bool
  | expr (.assignment _ _ target _) => target.isVariable name
  | expr (.update _ _ _ target) => target.isVariable name
  | _ => false

def Expr.containsIndex (e : Expr) : Bool := e.nodes.any Node.isIndex

def Stmt.assigns (name : String) (s : Stmt) : Bool := s.nodes.any (Node.assigns name)

/-- A loop that starts a variable at `start` and adds `step` to it while `comparison` holds between
it and `bound`. -/
structure CountingLoop where
  name : String
  type : Option TypeRef
  start : Expr
  comparison : BinaryOp
  bound : Expr
  step : Int

namespace CountingLoop

def ascending (l : CountingLoop) : Bool := 0 < l.step

def initial? : Option VarDecl → List Expr → Option (String × Option TypeRef × Expr)
  | some v, _ => match v.declarators with
    | [d] => d.init.map fun e => (d.name, d.type <|> v.type, e)
    | _ => none
  | none, [.assignment _ .set (.identifier _ name) value] => some (name, none, value)
  | none, _ => none

/-- The comparison of the variable `name` with something else, the variable on the left. -/
def comparison? (name : String) : Expr → Option (BinaryOp × Expr)
  | .binary _ op left right => do
    let back ← op.flipped?
    if left.isVariable name then some (op, right)
    else if right.isVariable name then some (back, left)
    else none
  | _ => none

def leadsOn (step : Int) (op : BinaryOp) : Bool :=
  if 0 < step then op == .lt || op == .le else op == .gt || op == .ge

/-- Recognises a loop with one variable, a bound that does not mention it, and a constant step
towards the bound. The body must not write to the variable. -/
def ofLoop? (decl : Option VarDecl) (init : List Expr) (condition : Option Expr)
    (update : List Expr) (body : Stmt) : Option CountingLoop := do
  let (name, type, start) ← initial? decl init
  let (op, bound) ← condition.bind (comparison? name)
  if bound.nodes.any (Node.isVariable name) then none
  else match update with
    | [e] => do
      let step ← e.step? name
      if leadsOn step op && !body.assigns name then some ⟨name, type, start, op, bound, step⟩
      else none
    | _ => none

end CountingLoop

mutual

def Stmt.returns : Stmt → List (Option Expr)
  | .returnStmt _ value => [value]
  | .block ⟨_, ss⟩ | .namespaceDecl _ _ ss => returnsOf ss
  | .ifElse _ _ yes no => yes.returns ++ returnsOf? no
  | .whileLoop _ _ body | .doLoop _ body _ | .forLoop _ _ _ _ _ body | .forEach _ _ _ _ _ body =>
    body.returns
  | .switch _ _ cases => caseReturns cases
  | .tryStmt _ ⟨_, ss⟩ handlers none => returnsOf ss ++ handlerReturns handlers
  | .tryStmt _ ⟨_, ss⟩ handlers (some ⟨_, fs⟩) =>
    returnsOf ss ++ handlerReturns handlers ++ returnsOf fs
  | _ => []

def returnsOf : List Stmt → List (Option Expr)
  | [] => []
  | s :: ss => s.returns ++ returnsOf ss

def returnsOf? : Option Stmt → List (Option Expr)
  | none => []
  | some s => s.returns

def caseReturns : List SwitchCase → List (Option Expr)
  | [] => []
  | ⟨_, _, body⟩ :: cs => returnsOf body ++ caseReturns cs

def handlerReturns : List Handler → List (Option Expr)
  | [] => []
  | ⟨_, _, _, ⟨_, ss⟩⟩ :: hs => returnsOf ss ++ handlerReturns hs

end

end Blackboard.Source
