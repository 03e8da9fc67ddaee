import Blackboard.Pseudo.Stmt
import Blackboard.Source.CountingLoop

/-!
What expressions mean, of the source and of pseudocode, as far as they are made of whole numbers and
truth values. Whole numbers have no bounds. An expression of any other sort has no value here.
-/
namespace Blackboard.Meaning

inductive Value where
  | int (n : Int)
  | bool (b : Bool)
deriving DecidableEq, Repr

abbrev Store := String → Int

/-- What an expression depends on besides the variables: the size of each collection, and the whole
number that each function gives. -/
structure World where
  size : String → Int
  call : String → List Value → Int

def choose {α : Type} (yes no : Option α) : Option Value → Option α
  | some (.bool true) => yes
  | some (.bool false) => no
  | _ => none

def truth? : Option Value → Option Value
  | some (.bool b) => some (.bool b)
  | _ => none

def Store.set (σ : Store) (x : String) (n : Int) : Store := fun y => if y = x then n else σ y

end Blackboard.Meaning

namespace Blackboard.Source

open Meaning

def BinaryOp.apply : BinaryOp → Value → Value → Option Value
  | .add, .int m, .int n => some (.int (m + n))
  | .sub, .int m, .int n => some (.int (m - n))
  | .mul, .int m, .int n => some (.int (m * n))
  | .lt, .int m, .int n => some (.bool (m < n))
  | .gt, .int m, .int n => some (.bool (n < m))
  | .le, .int m, .int n => some (.bool (m ≤ n))
  | .ge, .int m, .int n => some (.bool (n ≤ m))
  | .eq, .int m, .int n | .strictEq, .int m, .int n => some (.bool (m = n))
  | .ne, .int m, .int n | .strictNe, .int m, .int n => some (.bool (m ≠ n))
  | _, _, _ => none

def UnaryOp.apply : UnaryOp → Value → Option Value
  | .neg, .int n => some (.int (-n))
  | .not, .bool b => some (.bool !b)
  | _, _ => none

mutual

/-- The value of an expression. The second operand of a conjunction or a disjunction only counts if
the first one does not decide. -/
def Expr.value (w : World) (σ : Store) : Expr → Option Value
  | .number _ (.int n) _ => some (.int n)
  | .boolean _ b => some (.bool b)
  | .identifier _ x => some (.int (σ x))
  | .unary _ op e => (e.value w σ).bind op.apply
  | .binary _ .and a b =>
    choose (truth? (b.value w σ)) (some (.bool false)) (a.value w σ)
  | .binary _ .or a b =>
    choose (some (.bool true)) (truth? (b.value w σ)) (a.value w σ)
  | .binary _ op a b => (a.value w σ).bind fun v => (b.value w σ).bind (op.apply v)
  | .conditional _ c a b => choose (a.value w σ) (b.value w σ) (c.value w σ)
  | .call _ (.identifier _ f) args => (values w σ args).map fun vs => .int (w.call f vs)
  | .member _ (.identifier _ a) "length" _ => some (.int (w.size a))
  | .call _ (.member _ (.identifier _ a) name _) [] =>
    if Expr.lengthMethods.contains name then some (.int (w.size a)) else none
  | _ => none

def values (w : World) (σ : Store) : List Expr → Option (List Value)
  | [] => some []
  | e :: es => (e.value w σ).bind fun v => (values w σ es).map (v :: ·)

end

end Blackboard.Source

namespace Blackboard.Pseudo

open Meaning (World Store choose)

def BinaryOp.apply : BinaryOp → Meaning.Value → Meaning.Value → Option Meaning.Value
  | .add, .int m, .int n => some (.int (m + n))
  | .sub, .int m, .int n => some (.int (m - n))
  | .mul, .int m, .int n => some (.int (m * n))
  | .lt, .int m, .int n => some (.bool (m < n))
  | .gt, .int m, .int n => some (.bool (n < m))
  | .le, .int m, .int n => some (.bool (m ≤ n))
  | .ge, .int m, .int n => some (.bool (n ≤ m))
  | .eq, .int m, .int n => some (.bool (m = n))
  | .ne, .int m, .int n => some (.bool (m ≠ n))
  | .and, .bool a, .bool b => some (.bool (a && b))
  | .or, .bool a, .bool b => some (.bool (a || b))
  | _, _, _ => none

def UnaryOp.apply : UnaryOp → Meaning.Value → Option Meaning.Value
  | .neg, .int n => some (.int (-n))
  | .not, .bool b => some (.bool !b)
  | _, _ => none

mutual

/-- The value of an expression. Both operands of every operator count. A literal has the value that
it is known to stand for. -/
def Expr.value (w : World) (σ : Store) : Expr → Option Meaning.Value
  | .literal _ (some (.int n)) _ => some (.int n)
  | .literal _ (some (.bool b)) _ => some (.bool b)
  | .identifier x _ _ => some (.int (σ x))
  | .unary op e _ => (e.value w σ).bind op.apply
  | .binary op a b _ => (a.value w σ).bind fun v => (b.value w σ).bind (op.apply v)
  | .conditional c a b _ => choose (a.value w σ) (b.value w σ) (c.value w σ)
  | .call "LENGTH" [.identifier a _ _] none _ => some (.int (w.size a))
  | .call f args (some _) _ => (values w σ args).map fun vs => .int (w.call f vs)
  | _ => none

def values (w : World) (σ : Store) : List Expr → Option (List Meaning.Value)
  | [] => some []
  | e :: es => (e.value w σ).bind fun v => (values w σ es).map (v :: ·)

end

end Blackboard.Pseudo
