import Blackboard.Source.Piece.Type

/-! Expressions put together from their pieces. -/
namespace Blackboard.Source.Piece

open Grammar

def lambdaBody? : Piece → Option LambdaBody
  | stmt (.block b) => some (.block b)
  | expr e => some (.expr e)
  | _ => none

def lambda (items : List Piece) : Option Piece := do
  let body ← items.getLast?.bind lambdaBody?
  some (expr (.lambda (spanOf items) (paramsOf items) body (hasToken .kAsync items)))

def bareParam (t : Token) : Param := { span := t.span, name := t.text }

def key? : Piece → Option String
  | token t => some t.text
  | expr (.string _ value) => some value
  | expr (.number _ _ raw) => some raw
  | _ => none

def property? : Piece → Option Property
  | property p => some p
  | expr (.spread s e) => some ⟨s, "...", some e⟩
  | _ => none

def newArray (items : List Piece) : Option Piece :=
  match items with
  | type t :: rest =>
    let sizes := rest.filterMap fun | size e => some e | _ => none
    let count := sizes.length + dimensions rest
    match rest.getLast? with
    | some (expr (.array s es)) => some (expr (.newArrayOf (spanOf items) t count s es))
    | _ => some (expr (.newArray (spanOf items) t sizes count))
  | _ => none

def cast (items : List Piece) : Option Piece := do
  let t ← dimensioned items.dropLast
  let e ← items.getLast?.bind expr?
  some (expr (.cast (spanOf items) t e))

def expressionOfNode (c : Category) (items : List Piece) : Option Piece :=
  let span := spanOf items
  match c, items with
  | .assignOp, i :: _ | .nullishOp, i :: _ | .logicalOrOp, i :: _ | .logicalAndOp, i :: _
  | .bitwiseOrOp, i :: _ | .bitwiseXorOp, i :: _ | .bitwiseAndOp, i :: _ | .equalityOp, i :: _
  | .relationalOp, i :: _ | .additiveOp, i :: _ | .multiplicativeOp, i :: _ | .unaryOp, i :: _
  | .updateOp, i :: _ | .keywordName, i :: _ => some i
  | .nameUse, token t :: _ => some (expr (.identifier t.span t.text))
  | .thisExpression, token t :: _ => some (expr (.identifier t.span "this"))
  | .superExpression, token t :: _ => some (expr (.identifier t.span "super"))
  | .assignment, [expr target, token t, expr value] => do
    let op ← AssignOp.ofTerminal? t.terminal
    some (expr (.assignment span op target value))
  | .conditionalExpression, [expr e, expr yes, expr no] =>
    some (expr (.conditional span e yes no))
  | .binaryExpression, [expr a, token t, expr b] => do
    let op ← BinaryOp.ofTerminal? t.terminal
    some (expr (.binary span op a b))
  | .instanceofExpression, [expr a, type t] =>
    some (expr (.binary span .instanceOf a (.identifier t.span t.text)))
  | .instanceofExpression, [expr a, expr b] => some (expr (.binary span .instanceOf a b))
  | .asExpression, [expr a, i] =>
    (typeLike? a.span i).map fun t => expr (.cast span t a)
  | .unaryExpression, [token t, expr e] => do
    let op ← UnaryOp.ofTerminal? t.terminal
    some (expr (.unary span op e))
  | .prefixUpdate, [token t, expr e] => do
    let op ← UpdateOp.ofTerminal? t.terminal
    some (expr (.update span op true e))
  | .postfixUpdate, [expr e, token t] => do
    let op ← UpdateOp.ofTerminal? t.terminal
    some (expr (.update span op false e))
  | .castExpression, _ => cast items
  | .awaitExpression, [expr e] => some (expr (.await span e))
  | .spreadElement, _ => (items.getLast?.bind expr?).map fun e => expr (.spread span e)
  | .fieldAccess, [expr e, token t] | .memberAccess, [expr e, token t] =>
    some (expr (.member span e t.text false))
  | .optionalMemberAccess, [expr e, token t] => some (expr (.member span e t.text true))
  | .arrayAccess, [expr e, expr i] | .indexAccess, [expr e, expr i] =>
    some (expr (.index span e i))
  | .arguments, _ => some (args (items.filterMap expr?))
  | .call, [expr e, args es] | .optionalCall, [expr e, args es] => some (expr (.call span e es))
  | .newObject, type t :: args es :: _ | .newExpression, type t :: args es :: _ =>
    some (expr (.newObject span t es))
  | .dimExpression, [expr e] => some (size e)
  | .newArray, _ => newArray items
  | .arrayInitializer, _ | .arrayLiteral, _ => some (expr (.array span (items.filterMap expr?)))
  | .keyedProperty, [k, expr e] => do
    let key ← key? k
    some (property ⟨span, key, some e⟩)
  | .shorthandProperty, [token t] => some (property ⟨t.span, t.text, none⟩)
  | .objectLiteral, _ => some (expr (.object span (items.filterMap property?)))
  | .lambdaParameter, [token t] => some (param (bareParam t))
  | .lambdaParameter, [modifiers ms, type t, token n] => some (param
      { span := t.span.cover n.span, name := n.text, type := some t, modifiers := ms })
  | .lambdaParameters, [token t] | .arrowParameters, [token t] => some (params [bareParam t])
  | .lambdaParameters, _ => some (params (items.filterMap param?))
  | .arrowParameters, [params ps] => some (params ps)
  | .lambdaExpression, _ | .arrowFunction, _ | .functionExpression, _ => lambda items
  | _, _ => none

end Blackboard.Source.Piece
