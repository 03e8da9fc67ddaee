import Blackboard.Source.Piece.Type

/-! Declarations put together from their pieces. -/
namespace Blackboard.Source.Piece

open Grammar

def isDecorator (m : String) : Bool := m.startsWith "@"

def plainModifiers (ms : List String) : List String := ms.filter (!isDecorator ·)

def decorators (ms : List String) : List String := ms.filter isDecorator

def typedVariables : List Piece → Option VarDecl
  | modifiers ms :: rest@(type t :: ds) => some
    { span := spanOf rest, declarators := ds.filterMap declarator?, type := some t,
      modifiers := plainModifiers ms }
  | _ => none

def keywordVariables (items : List Piece) : Option VarDecl :=
  match items with
  | token t :: ds => some
    { span := spanOf items, declarators := ds.filterMap declarator?,
      kind := VarKind.ofTerminal? t.terminal }
  | _ => none

def variablePiece (v : Option VarDecl) : Option Piece := v.map fun v => stmt (.varDecl v)

def lastExpr (items : List Piece) : Option Expr := items.getLast?.bind expr?

def declaratorOf (items : List Piece) : Option Piece :=
  match items with
  | token t :: rest => some (declarator
    { span := spanOf items, name := t.text, type := (rest.filterMap type?).head?,
      extraDimensions := dimensions rest, init := lastExpr rest })
  | _ => none

def formalParameter : List Piece → Option Piece
  | modifiers ms :: rest@(type t :: _) => do
    let name ← (names rest).head?
    let isRest := hasToken .ellipsis rest
    let extra := dimensions rest + if isRest then 1 else 0
    some (param { span := spanOf rest, name := name, type := some (t.addDimensions extra),
                  isRest := isRest, modifiers := ms })
  | _ => none

def parameter (items : List Piece) : Option Piece := do
  let name ← (names items).head?
  let default := ((afterName items).filterMap expr?).head?
  let marks := (items.filterMap token?).filterMap fun t =>
    if t.terminal = .name || t.terminal = .ellipsis then none else some t.text
  some (param
    { span := spanOf (fromName items), name := name, type := (items.filterMap type?).head?,
      isOptional := items.any isOptional || default.isSome, isRest := hasToken .ellipsis items,
      default := default, modifiers := marks ++ items.filterMap text? })

def isMember : Stmt → Bool
  | .varDecl _ | .function _ => true
  | _ => false

def interfaceMember? : Stmt → Option InterfaceMember
  | .function f => some (.method f)
  | .varDecl v => some (.field v)
  | _ => none

def classDeclaration (l : Language) (items : List Piece) : Option Piece := do
  let name ← (names items).head?
  match l, items with
  | .java, modifiers ms :: rest =>
    some (stmt (.classDecl (spanOf rest) name (superclassOf rest) (interfacesOf rest)
      (typeParamsOf rest) (membersOf rest) (plainModifiers ms) (decorators ms)))
  | .java, _ => none
  | .typescript, _ =>
    some (stmt (.classDecl (spanOf items) name (superclassOf items) (interfacesOf items)
      (typeParamsOf items) ((items.filterMap stmt?).filter isMember) (markTexts items)
      (items.filterMap text?)))

def interfaceDeclaration (l : Language) (items : List Piece) : Option Piece := do
  let name ← (names items).head?
  match l with
  | .java =>
    some (stmt (.interface (spanOf (items.drop 1)) name (typeParamsOf items) (basesOf items)
      ((membersOf items).filterMap interfaceMember?)))
  | .typescript =>
    let members := ((items.filterMap fun | objectType ms => some ms | _ => none).getLast?).getD []
    some (stmt (.interface (spanOf items) name (typeParamsOf items) (basesOf items) (members.map .signature)))

def enumDeclaration (l : Language) (items : List Piece) : Option Piece := do
  let name ← (names items).head?
  let located := match l with
    | .java => items.drop 1
    | .typescript => items
  some (stmt (.enum (spanOf located) name (items.filterMap enumMember?)))

def methodDeclaration : List Piece → Option Piece
  | modifiers ms :: rest => do
    let name ← (names rest).head?
    some (stmt (.function
      { span := spanOf rest, name := name, params := paramsOf rest,
        result := (rest.filterMap type?).head?, body := rest.getLast?.bind block?,
        modifiers := plainModifiers ms, typeParams := typeParamsOf rest,
        decorators := decorators ms }))
  | _ => none

def constructorDeclaration : List Piece → Option Piece
  | modifiers ms :: rest => do
    let name ← (names rest).head?
    some (stmt (.function
      { span := spanOf rest, name := name, params := paramsOf rest,
        body := rest.getLast?.bind block?, modifiers := plainModifiers ms,
        decorators := decorators ms, isConstructor := true }))
  | _ => none

def functionDeclaration (items : List Piece) : Option Piece := do
  let name ← (names items).head?
  some (stmt (.function
    { span := spanOf items, name := name, params := paramsOf items,
      result := (items.filterMap type?).head?, body := items.getLast?.bind block?,
      modifiers := if hasToken .kAsync items then ["async"] else [],
      typeParams := typeParamsOf items, decorators := items.filterMap text? }))

def classProperty (items : List Piece) : Option Piece := do
  let name ← (names items).head?
  let field : Declarator :=
    { span := spanOf (fromName items), name := name, type := (items.filterMap type?).head?,
      init := ((afterName items).filterMap expr?).head? }
  some (stmt (.varDecl { span := spanOf items, declarators := [field],
                           modifiers := markTexts items ++ items.filterMap text? }))

def classMethod (items : List Piece) : Option Piece := do
  let name ← (names items).head?
  some (stmt (.function
    { span := spanOf items, name := name, params := paramsOf items,
      result := (items.filterMap type?).head?, body := items.getLast?.bind block?,
      modifiers := markTexts items, typeParams := typeParamsOf items,
      decorators := items.filterMap text?, isConstructor := name == "constructor" }))

def accessorDeclaration (items : List Piece) : Option Piece :=
  match names items with
  | kind :: name :: _ => some (stmt (.function
    { span := spanOf items, name := name, params := paramsOf items,
      result := (items.filterMap type?).head?, body := items.getLast?.bind block?,
      modifiers := markTexts items ++ [kind] }))
  | _ => none

def exported : Stmt → Stmt
  | .varDecl v => .varDecl { v with modifiers := "export" :: v.modifiers }
  | .function f => .function { f with modifiers := "export" :: f.modifiers }
  | .classDecl s n sup is tps members ms ds =>
    .classDecl s n sup is tps members ("export" :: ms) ds
  | s => s

def enumName? : Piece → Option String
  | token t => some t.text
  | expr (.string _ value) => some value
  | _ => none

def declarationOfNode (l : Language) (c : Category) (items : List Piece) : Option Piece :=
  match c, items with
  | .modifiers, _ => some (modifiers (items.filterMap fun
      | token t => some t.text
      | text s => some s
      | _ => none))
  | .modifier, i :: _ | .paramModifier, i :: _ | .memberModifier, i :: _ | .classModifier, i :: _
  | .varKind, i :: _ => some i
  | .marker, token t :: _ | .decorator, token t :: _ => some (text ("@" ++ t.text))
  | .qualifiedName, token t :: _ => some (token
      { t with text := ".".intercalate ((items.filterMap token?).map (·.text)) })
  | .classDeclaration, _ => classDeclaration l items
  | .classBody, _ => some (body (items.filterMap stmt?))
  | .initializerBlock, _ => items.getLast?
  | .interfaceDeclaration, _ => interfaceDeclaration l items
  | .enumConstant, _ => do
    let t ← (items.filterMap token?).head?
    some (enumMember { span := t.span, name := t.text, value := (argsOf items).head? })
  | .enumBody, _ => some enumBody
  | .enumDeclaration, _ => enumDeclaration l items
  | .enumMember, key :: rest => do
    let name ← enumName? key
    some (enumMember { span := spanOf items, name := name, value := rest.head?.bind expr? })
  | .fieldDeclaration, _ | .localVariable, _ => variablePiece (typedVariables items)
  | .variableStatement, _ => variablePiece (keywordVariables items)
  | .forInitDeclaration, _ => match l with
    | .java => variablePiece (typedVariables items)
    | .typescript => variablePiece (keywordVariables items)
  | .variableDeclarator, _ | .variableBinding, _ => declaratorOf items
  | .methodDeclaration, _ => methodDeclaration items
  | .constructorDeclaration, _ => constructorDeclaration items
  | .functionDeclaration, _ => functionDeclaration items
  | .classProperty, _ => classProperty items
  | .classMethod, _ => classMethod items
  | .accessorDeclaration, _ => accessorDeclaration items
  | .formalParameters, _ | .parameterList, _ => some (params (items.filterMap param?))
  | .formalParameter, _ => formalParameter items
  | .parameter, _ => parameter items
  | .optionalMarker, _ => some optional
  | .exportDeclaration, _ => (items.getLast?.bind stmt?).map fun s => stmt (exported s)
  | .arrayPattern, _ => some (pattern true (names items))
  | .objectPattern, _ => some (pattern false (names items))
  | .typeAliasDeclaration, token t :: _ => do
    let aliased ← items.getLast?.bind (typeLike? t.span)
    some (stmt (.typeAlias (spanOf items) t.text aliased))
  | .namespaceDeclaration, token t :: rest =>
    some (stmt (.namespaceDecl (spanOf items) t.text (rest.filterMap stmt?)))
  | _, _ => none

end Blackboard.Source.Piece
