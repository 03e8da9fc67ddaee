import Blackboard.Source.Program

/-!
The text of an expression, as it is quoted in messages and comments. Operands are parenthesised
where their operator binds less tightly than the one around them.
-/
namespace Blackboard.Source.Expr

def tightness? : Expr → Option Nat
  | binary _ op _ _ => some op.precedence
  | conditional .. | assignment .. => some 0
  | _ => none

/-- The text of an operand of an operator of precedence `outer`. A right operand is parenthesised
at equal precedence too. -/
def operandText (e : Expr) (text : String) (outer : Nat) (isRight : Bool) : String :=
  match e.tightness? with
  | some inner => if inner < outer || (isRight && inner == outer) then "(" ++ text ++ ")" else text
  | none => text

mutual

def text : Expr → String
  | number _ _ raw => raw
  | string _ value => "\"" ++ value ++ "\""
  | char _ value => "'" ++ value ++ "'"
  | boolean _ value => if value then "true" else "false"
  | null _ => "null"
  | template _ parts => "`" ++ String.join (partTexts parts) ++ "`"
  | identifier _ name => name
  | member _ target name optional => target.text ++ (if optional then "?." else ".") ++ name
  | index _ target i => target.text ++ "[" ++ i.text ++ "]"
  | call _ callee args => callee.text ++ "(" ++ ", ".intercalate (texts args) ++ ")"
  | newObject _ type args =>
    "new " ++ type.text ++ "(" ++ ", ".intercalate (texts args) ++ ")"
  | newArray _ element sizes dimensions =>
    "new " ++ element.text ++ String.join ((texts sizes).map fun s => "[" ++ s ++ "]") ++
      TypeRef.repeated "[]" (dimensions - sizes.length)
  | newArrayOf _ element dimensions _ _ => "new " ++ element.text ++ TypeRef.repeated "[]" dimensions
  | array _ items => "[" ++ ", ".intercalate (texts items) ++ "]"
  | object _ properties => "\x7b " ++ ", ".intercalate (propertyTexts properties) ++ " \x7d"
  | binary _ op left right =>
    left.operandText left.text op.precedence false ++ " " ++ op.text ++ " " ++
      right.operandText right.text op.precedence true
  | unary _ op operand =>
    op.text ++ (if op = .typeOf then " " else "") ++ operand.operandText operand.text BinaryOp.pow.precedence false
  | update _ op before target => if before then op.text ++ target.text else target.text ++ op.text
  | assignment _ op target value => target.text ++ " " ++ op.text ++ " " ++ value.text
  | conditional _ condition yes no => condition.text ++ " ? " ++ yes.text ++ " : " ++ no.text
  | cast _ type operand => "(" ++ type.text ++ ") " ++ operand.text
  | lambda _ params body _ =>
    "(" ++ ", ".intercalate (params.map (·.name)) ++ ") => " ++ bodyText body
  | await _ operand => "await " ++ operand.text
  | spread _ operand => "..." ++ operand.text

def texts : List Expr → List String
  | [] => []
  | e :: es => e.text :: texts es

def partTexts : List TemplatePart → List String
  | [] => []
  | .text s :: ps => s :: partTexts ps
  | .hole e :: ps => ("$\x7b" ++ e.text ++ "\x7d") :: partTexts ps

def propertyTexts : List Property → List String
  | [] => []
  | ⟨_, key, none⟩ :: ps => key :: propertyTexts ps
  | ⟨_, key, some e⟩ :: ps => (key ++ ": " ++ e.text) :: propertyTexts ps

def bodyText : LambdaBody → String
  | .block _ => "\x7b ... \x7d"
  | .expr e => e.text

end

theorem texts_eq_map (es : List Expr) : texts es = es.map text := by
  induction es with
  | nil => rfl
  | cons e es ih => simp [texts, ih]

end Blackboard.Source.Expr
