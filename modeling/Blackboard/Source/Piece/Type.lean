import Blackboard.Source.Piece
import Blackboard.Grammar.Category

/-! Types put together from their pieces. -/
namespace Blackboard.Source.Piece

open Grammar

def dimensioned : List Piece → Option TypeRef
  | type t :: rest => some (t.addDimensions (dimensions rest))
  | _ => none

def named (items : List Piece) : Option Piece :=
  match items with
  | token t :: _ => some (type { span := spanOf items, name := t.text, args := typeArgsOf items })
  | _ => none

def compound (form : TypeForm) (spell : List String → String) (items : List Piece) : Piece :=
  let members := typesLike items
  type { span := Span.coverAll (members.map (·.span)), name := spell (members.map (·.text)),
         args := members, form := form }

def paramText (p : Param) : String :=
  match p.type with
  | some t => p.name ++ ": " ++ t.text
  | none => p.name

def functionType (ps : List Param) (result : TypeRef) : TypeRef :=
  { span := result.span,
    name := "(" ++ ", ".intercalate (ps.map paramText) ++ ") => " ++ result.text,
    form := .function }

def literalTypeName : Expr → String
  | .number _ _ raw => raw
  | .string _ value => "\"" ++ value ++ "\""
  | .boolean _ true => "true"
  | .boolean _ false => "false"
  | _ => "null"

def typeOfNode (c : Category) (items : List Piece) : Option Piece :=
  match c, items with
  | .voidType, token t :: _ => some (type { span := t.span, name := "void" })
  | .primitiveType, token t :: _ => some (type { span := t.span, name := t.text })
  | .typeUse, _ => (dimensioned items).map type
  | .classType, _ | .typeReference, _ => named items
  | .typeArguments, _ => some (typeArgs (typesLike items))
  | .wildcard, _ => some (type
      { span := spanOf items, name := "?", args := (items.getLast?.bind type?).toList })
  | .arrayDim, _ => some dimension
  | .typeParameters, _ => some (typeParams (items.filterMap text?))
  | .typeParameter, token t :: _ => some (text t.text)
  | .typeNote, i :: _ => (typeLike? .unplaced i).map type
  | .unionType, _ => some (compound .union (" | ".intercalate ·) items)
  | .intersectionType, _ => some (compound .intersection (" & ".intercalate ·) items)
  | .tupleType, _ => some (compound .tuple (fun ts => "[" ++ ", ".intercalate ts ++ "]") items)
  | .arrayType, i :: _ => (typeLike? .unplaced i).map fun t => type (t.addDimensions 1)
  | .functionType, [params ps, i] =>
    (typeLike? .unplaced i).map fun result => type (functionType ps result)
  | .objectType, _ => some (objectType (items.filterMap signature?))
  | .literalType, [expr e] =>
    some (type { span := e.span, name := literalTypeName e, form := .literal })
  | .typeofType, token t :: _ =>
    some (type { span := t.span, name := "typeof " ++ t.text, form := .literal })
  | .superclass, type t :: _ | .extendsClause, type t :: _ => some (superclass t)
  | .interfaces, _ | .implementsClause, _ => some (interfaces (items.filterMap type?))
  | .interfaceExtends, _ => some (bases (items.filterMap type?))
  | .throwsClause, _ => some throws
  | .propertySignature, _ => do
    let name ← (names items).head?
    some (signature { span := spanOf items, name := name, type := items.getLast?.bind type?,
                      isOptional := items.any isOptional })
  | .methodSignature, _ => do
    let name ← (names items).head?
    some (signature { span := spanOf items, name := name, type := items.getLast?.bind type?,
                      params := some (paramsOf items), isOptional := items.any isOptional })
  | .indexSignature, [token key, i, j] => do
    let keyType ← typeLike? .unplaced i
    some (signature { span := spanOf items, name := "[" ++ key.text ++ ": " ++ keyType.text ++ "]",
                      type := typeLike? .unplaced j })
  | _, _ => none

end Blackboard.Source.Piece
