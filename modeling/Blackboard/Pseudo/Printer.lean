import Blackboard.Pseudo.Expr

/-! The text of pseudocode expressions. An operand is parenthesised when it binds too loosely. -/
namespace Blackboard.Pseudo.Expr

def atomic : Nat := 10

def precedence : Expr → Nat
  | binary op _ _ _ => op.precedence
  | unary op _ _ => op.precedence
  | builtin _ _ (some (n + 1)) _ _ _ => n + 1
  | conditional .. => 0
  | _ => atomic

def wrapped (e : Expr) (text : String) (least : Nat) : String :=
  if e.precedence < least then "(" ++ text ++ ")" else text

def templateLeast : Option Nat → Nat
  | some (n + 1) => n + 2
  | _ => 0

def placeholder (target : List Char) (args : List (List Char)) (name : List Char) : List Char :=
  if name = "target".toList then target else (args[Text.decimalValue name]?).getD []

/-- Fills the placeholders of a template, which stand between braces; two braces stand for one. While
a placeholder is being read, `opened` holds its name so far in reverse. -/
def fill (target : List Char) (args : List (List Char)) : (opened : Option (List Char)) → List Char → List Char
  | _, [] => []
  | none, '\x7b' :: '\x7b' :: cs => '\x7b' :: fill target args none cs
  | none, '\x7d' :: '\x7d' :: cs => '\x7d' :: fill target args none cs
  | none, '\x7b' :: cs => fill target args (some []) cs
  | none, c :: cs => c :: fill target args none cs
  | some name, '\x7d' :: cs => placeholder target args name.reverse ++ fill target args none cs
  | some name, c :: cs => fill target args (some (c :: name)) cs

def fillText (template target : String) (args : List String) : String :=
  String.ofList (fill target.toList (args.map String.toList) none template.toList)

mutual

def text : Expr → String
  | literal text _ _ => text
  | identifier name _ _ => name
  | raw text _ => text
  | binary op left right _ =>
    let level := op.precedence
    left.wrapped left.text (if op.isComparison then level + 1 else level) ++ " " ++ op.text ++
      " " ++ right.wrapped right.text (if op.groupsRight then level + 1 else level)
  | unary op operand _ =>
    op.text ++ (if op = .not then " " else "") ++ operand.wrapped operand.text atomic
  | call name args _ _ => name ++ "(" ++ ", ".intercalate (texts args) ++ ")"
  | method name target args _ _ =>
    target.wrapped target.text atomic ++ "." ++ name ++ "(" ++ ", ".intercalate (texts args) ++ ")"
  | builtin _ template level target args _ =>
    let least := templateLeast level
    fillText template (target.wrapped target.text least) (wrappedTexts least args)
  | member target name _ => target.wrapped target.text atomic ++ "." ++ name
  | index target i _ => target.wrapped target.text atomic ++ "[" ++ i.text ++ "]"
  | array items _ => "[" ++ ", ".intercalate (texts items) ++ "]"
  | conditional condition yes no _ =>
    "IF " ++ condition.text ++ " THEN " ++ yes.text ++ " ELSE " ++ no.text
  | newObject name args _ => "NEW " ++ name ++ "(" ++ ", ".intercalate (texts args) ++ ")"

def texts : List Expr → List String
  | [] => []
  | e :: es => e.text :: texts es

def wrappedTexts (least : Nat) : List Expr → List String
  | [] => []
  | e :: es => e.wrapped e.text least :: wrappedTexts least es

end

theorem texts_eq_map (es : List Expr) : texts es = es.map text := by
  induction es with
  | nil => rfl
  | cons e es ih => simp [texts, ih]

end Blackboard.Pseudo.Expr
