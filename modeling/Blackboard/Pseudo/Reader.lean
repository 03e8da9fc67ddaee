import Blackboard.Pseudo.Record

/-! Pseudocode read from structured values. -/
namespace Blackboard

mutual

def Json.height : Json → Nat
  | .null | .bool _ | .int _ | .real _ | .string _ => 1
  | .array js => Json.itemsHeight js + 1
  | .object fs => Json.fieldsHeight fs + 1

def Json.itemsHeight : List Json → Nat
  | [] => 0
  | j :: js => max j.height (Json.itemsHeight js)

def Json.fieldsHeight : List (String × Json) → Nat
  | [] => 0
  | (_, j) :: fs => max j.height (Json.fieldsHeight fs)

end

namespace Pseudo

/-- A node of a kind that does not belong where it stands. -/
inductive Misplaced where
  | expression (kind : String)
  | statement (kind : String)
  | program (kind : String)
deriving DecidableEq, Repr

def Misplaced.message : Misplaced → String
  | expression kind => "IR node of kind '" ++ kind ++ "' is not an expression."
  | statement kind => "IR node of kind '" ++ kind ++ "' cannot be used as a statement."
  | program kind => "Expected a program node, got '" ++ kind ++ "'."

def Value.ofJson : Json → Value
  | .bool b => .bool b
  | .int n => .int n
  | .real d => .real d
  | .string s => .text s
  | .object fs => match (Json.object fs).getD "float" with
    | .string s => .real (.ofText s)
    | _ => .null
  | _ => .null

structure Fields where
  kind : String
  children : List Json
  data : Json
  line : Option Nat

namespace Fields

def ofJson (j : Json) : Fields where
  kind := ((j.getD "kind").string?).getD ""
  children := (j.getD "children").items
  data := j.getD "metadata"
  line := (j.getD "line").nat?

def text (f : Fields) (name : String) : String := ((f.data.getD name).string?).getD ""

def flag (f : Fields) (name : String) : Bool := ((f.data.getD name).bool?).getD false

def flag? (f : Fields) (name : String) : Option Bool := (f.data.getD name).bool?

def child (f : Fields) (i : Nat) : Json := (f.children[i]?).getD .null

def texts (f : Fields) (name : String) : List String :=
  (f.data.getD name).items.filterMap (·.string?)

def params (f : Fields) : List Param :=
  (f.data.getD "params").items.map fun j =>
    ⟨((j.getD "name").string?).getD "", ((j.getD "type").string?).getD ""⟩

end Fields

def Expr.readWith : (fuel : Nat) → Json → Except Misplaced Expr
  | 0, j => .error (.expression (Fields.ofJson j).kind)
  | fuel + 1, j =>
    let f := Fields.ofJson j
    let read := Expr.readWith fuel
    match f.kind with
    | "literal" => .ok (.literal (f.text "text") ((f.data.get? "value").map .ofJson) f.line)
    | "identifier" => .ok (.identifier (f.text "name") (f.flag? "declared") f.line)
    | "raw" => .ok (.raw (f.text "text") f.line)
    | "binary_operation" => do
      let left ← read (f.child 0)
      return .binary (.ofText (f.text "op")) left (← read (f.child 1)) f.line
    | "unary_operation" => do
      return .unary (.ofText (f.text "op")) (← read (f.child 0)) f.line
    | "function_call" => do
      return .call (f.text "name") (← f.children.mapM read) (f.flag? "declared") f.line
    | "method_call" => do
      let target ← read (f.child 0)
      return .method (f.text "name") target (← (f.children.drop 1).mapM read) (f.flag "passthrough") f.line
    | "builtin_template" => do
      let args ← (f.children.drop 1).mapM read
      return .builtin (f.text "name") (f.text "template") (f.data.getD "precedence").nat?
        (← read (f.child 0)) args f.line
    | "member_access" => do
      return .member (← read (f.child 0)) (f.text "member") f.line
    | "array_access" => do
      let target ← read (f.child 0)
      return .index target (← read (f.child 1)) f.line
    | "array_literal" => do
      return .array (← f.children.mapM read) f.line
    | "conditional" => do
      let condition ← read (f.child 0)
      let yes ← read (f.child 1)
      return .conditional condition yes (← read (f.child 2)) f.line
    | "new_object" => do
      return .newObject (f.text "class_name") (← f.children.mapM read) f.line
    | kind => .error (.expression kind)

def Expr.ofJson (j : Json) : Except Misplaced Expr := Expr.readWith j.height j

def Form.ofFields (f : Fields) : Except Misplaced Form :=
  let expr (name : String) := Expr.ofJson (f.data.getD name)
  let exprs (name : String) := (f.data.getD name).items.mapM Expr.ofJson
  let expr? (name : String) : Except Misplaced (Option Expr) := match f.data.getD name with
    | .null => .ok none
    | j => (Expr.ofJson j).map some
  match f.kind with
  | "program" => .ok (.program (f.data.getD "language").string? (f.texts "structural_errors"))
  | "variable_declaration" => .ok (.variable_ (f.text "name") (f.text "type"))
  | "constant_declaration" => return .constant (f.text "name") (← expr "value")
  | "class_declaration" => .ok (.class_ (f.text "name"))
  | "procedure" => .ok (.procedure (f.text "name") f.params)
  | "function" => .ok (.function (f.text "name") f.params (f.text "return_type"))
  | "if_statement" => return .ifThen (← expr "condition")
  | "else_if_clause" => return .elseIf (← expr "condition")
  | "else_clause" => .ok .else_
  | "while_loop" => return .while_ (← expr "condition")
  | "for_loop" => do
    let start ← expr "start"
    let stop ← expr "end"
    return .for_ (f.text "variable") start stop (← expr? "step")
  | "repeat_loop" => return .repeatUntil (← expr "condition")
  | "case_statement" => return .caseOf (← expr "subject")
  | "case_branch" => return .caseBranch (← exprs "labels") (f.flag "falls_through")
  | "otherwise_branch" => .ok (.otherwise (f.flag "falls_through"))
  | "assignment" => do
    let target ← expr "target"
    return .assign target (← expr "value")
  | "output" => return .output (← exprs "items")
  | "input" => return .input (← expr "target")
  | "call" => return .call (← expr "call")
  | "return" => return .return_ (← expr? "value")
  | "expression_statement" => return .expression (← expr "expression")
  | "comment" => .ok (.comment (f.text "text") (f.flag "annotation"))
  | "unparsed" => .ok (.unparsed (f.text "text") (f.text "message"))
  | kind => .error (.statement kind)

/-- Reads a statement; `fuel` bounds how deeply it nests. A node that belongs elsewhere is reported
in the order of the text: the condition of a loop that is tested last comes after its body. -/
def Stmt.readWith : (fuel : Nat) → Json → Except Misplaced Stmt
  | 0, j => .error (.statement (Fields.ofJson j).kind)
  | fuel + 1, j =>
    let f := Fields.ofJson j
    let children := f.children.mapM (Stmt.readWith fuel)
    let notes := f.texts "annotations"
    if f.kind = "repeat_loop" then do
      let cs ← children
      return .mk (← Form.ofFields f) cs notes f.line
    else do
      let form ← Form.ofFields f
      return .mk form (← children) notes f.line

def readProgram (j : Json) : Except Misplaced (List String × List Stmt) := do
  let f := Fields.ofJson j
  if f.kind = "program" then
    return (f.texts "structural_errors", ← f.children.mapM (Stmt.readWith j.height))
  else
    throw (.program f.kind)

end Pseudo

end Blackboard
