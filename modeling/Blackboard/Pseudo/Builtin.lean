import Blackboard.Pseudo.Expr
import Blackboard.Pseudo.Type
import Blackboard.Text.Pattern

/-!
Built-in operations of pseudocode and the source methods they stand for. Positions within texts are
counted from one.
-/
namespace Blackboard.Pseudo

namespace Template

def outside : (depth : Int) → List Char → List Char
  | _, [] => []
  | depth, c :: cs =>
    let depth := if c = '(' then depth + 1 else if c = ')' then depth - 1 else depth
    (if depth = 0 then c else '_') :: outside depth cs

def operator : Text.Pattern :=
  .all [.ofText " ", ["=", "<>", "<=", ">=", "<", ">", "&", "+", "-", "*"].foldr
      (fun s p => .alt (.ofText s) p) (.ofText "/"),
    .ofText " "]

def precedence (template : String) : Option Nat :=
  let cs := outside 0 template.toList
  let levels := (operator.findAll cs).map fun (offset, length) =>
    (BinaryOp.ofText (String.ofList ((cs.drop (offset + 1)).take (length - 2)))).precedence
  levels.min?

end Template

/-- How a source method on texts is written: the numbers of arguments it takes and, unless it is
written as a call, its template. -/
structure StringMethod where
  name : String
  arities : List Nat
  template : String
  /-- whether its arguments are positions, counted from zero in the source -/
  positions : Bool := false
  /-- the type of its result -/
  result : Scalar

namespace StringMethod

def all : List StringMethod := [
  { name := "length", arities := [0], template := "LENGTH(\x7btarget\x7d)", result := .integer },
  { name := "size", arities := [0], template := "LENGTH(\x7btarget\x7d)", result := .integer },
  { name := "charAt", arities := [1], template := "MID(\x7btarget\x7d, \x7b0\x7d, 1)",
    positions := true, result := .char },
  { name := "substring", arities := [1, 2], template := "", positions := true,
    result := .string },
  { name := "indexOf", arities := [1], template := "FIND(\x7btarget\x7d, \x7b0\x7d) - 1",
    result := .integer },
  { name := "toUpperCase", arities := [0], template := "UCASE(\x7btarget\x7d)",
    result := .string },
  { name := "toLowerCase", arities := [0], template := "LCASE(\x7btarget\x7d)",
    result := .string },
  { name := "concat", arities := [1], template := "\x7btarget\x7d & \x7b0\x7d",
    result := .string },
  { name := "contains", arities := [1], template := "FIND(\x7btarget\x7d, \x7b0\x7d) > 0",
    result := .boolean },
  { name := "includes", arities := [1], template := "FIND(\x7btarget\x7d, \x7b0\x7d) > 0",
    result := .boolean },
  { name := "startsWith", arities := [1],
    template := "LEFT(\x7btarget\x7d, LENGTH(\x7b0\x7d)) = \x7b0\x7d", result := .boolean },
  { name := "endsWith", arities := [1],
    template := "RIGHT(\x7btarget\x7d, LENGTH(\x7b0\x7d)) = \x7b0\x7d", result := .boolean },
  { name := "equals", arities := [1], template := "\x7btarget\x7d = \x7b0\x7d",
    result := .boolean },
  { name := "equalsIgnoreCase", arities := [1],
    template := "LCASE(\x7btarget\x7d) = LCASE(\x7b0\x7d)", result := .boolean },
  { name := "isEmpty", arities := [0], template := "LENGTH(\x7btarget\x7d) = 0",
    result := .boolean },
  { name := "trim", arities := [0], template := "TRIM(\x7btarget\x7d)", result := .string },
  { name := "replace", arities := [2],
    template := "REPLACE(\x7btarget\x7d, \x7b0\x7d, \x7b1\x7d)", result := .string }]

def find? (name : String) (arity : Nat) : Option StringMethod :=
  all.find? fun m => m.name == name && m.arities.contains arity

def substring (target start : Expr) (stop : Option Expr) : Expr :=
  let length := match stop with
    | some stop => stop.subtract start
    | none => (Expr.call "LENGTH" [target] none none).subtract start
  .call "SUBSTRING" [target, start.addOffset 1, length] none target.line

def apply (m : StringMethod) (target : Expr) (args : List Expr) : Expr :=
  match m.name, args with
  | "substring", [start] => substring target start none
  | "substring", [start, stop] => substring target start (some stop)
  | _, args =>
    let args := if m.positions then args.map (·.addOffset 1) else args
    .builtin m.name m.template (Template.precedence m.template) target args target.line

end StringMethod

def mapStringMethod? (name : String) (target : Expr) (args : List Expr) : Option Expr :=
  (StringMethod.find? name args.length).map fun m => m.apply target args

def mathFunctions : List (String × String) :=
  [("round", "ROUND"), ("abs", "ABS"), ("sqrt", "SQRT"), ("pow", "POWER"), ("max", "MAX"),
   ("min", "MIN"), ("random", "RANDOM"), ("ceil", "CEILING"), ("floor", "INT")]

/-- Writes a mathematical function as a built-in one. The floor of a quotient is a whole-number
division. -/
def mapMathFunction? (name : String) (args : List Expr) : Option Expr :=
  (mathFunctions.lookup name).map fun builtin => match name, args with
    | "floor", [.binary .div left right line] => .call "DIV" [left, right] none line
    | _, args => .call builtin args none none

end Blackboard.Pseudo
