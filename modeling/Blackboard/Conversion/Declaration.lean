import Blackboard.Conversion.Assignment

/-! The conversion of declarations: variables with their initial values, and the headings of
callables. -/
namespace Blackboard.Convert

open Conversion
open Pseudo (Kind)
open Source (Span)

/-! ### Types of variables -/

def unknownKind : Kind := { base := .string, fallback := true }

def isWhole (e : Source.Expr) : Bool := e.intLiteral?.isSome

/-- In the language with one type of numbers, a variable that starts as a whole number, or as an
array of whole numbers, is taken to hold whole numbers. -/
def refine (l : Language) (k : Kind) (init : Option Source.Expr) : Kind :=
  if l = .typescript && k.base = .real && ["number", "number[]", "Array<number>"].contains k.spelling then
    match k.isArray, init with
    | false, some e => if isWhole e then { base := .integer } else k
    | true, some (.array _ items) =>
      if !items.isEmpty && items.all isWhole then { base := .integer, sizes := k.sizes } else k
    | _, _ => k
  else k

def literalSizes : List Source.Expr → List String
  | [] => ["n"]
  | .array _ inner :: items => toString (items.length + 1) :: literalSizes inner
  | _ :: items => [toString (items.length + 1)]

def initialSizes : Option Source.Expr → Convert (List String)
  | some (.newArray _ _ sizes _) => return (← exprs sizes).map (·.text)
  | some (.newArrayOf _ _ _ _ items) | some (.array _ items) => return literalSizes items
  | _ => return []

def isInferred (l : Language) : Option Source.TypeRef → Bool
  | none => true
  | some t => l = .java && t.name = "var"

def declaredKind (name : String) (type : Option Source.TypeRef) (init : Option Source.Expr)
    (span : Span) : Convert Kind := do
  let v ← view
  let k ← match isInferred v.language type, type with
    | false, some t =>
      let k := Pseudo.normalize v.language t
      if k.fallback then
        warn span (.typeFallback k.spelling)
        pure k
      else
        pure (refine v.language k init)
    | _, _ => match init.bind (infer v) with
      | some k => pure k
      | none =>
        warn span (.inferenceFallback name)
        pure unknownKind
  return k.withSizes (← initialSizes init)

/-! ### Initial values -/

def isConstantValue : Option Source.Expr → Bool
  | some (.unary _ .neg (.number ..)) => true
  | some (.number ..) | some (.string ..) | some (.char ..) | some (.boolean ..) => true
  | _ => false

def element (name : String) (line : Option Nat) (path : List Nat) : Pseudo.Expr :=
  path.foldl (fun e (i : Nat) => .index e (.number i) line) (.identifier name (some true) line)

/-- Assigns the items of an array literal one by one, from the given position on. `path` leads to
the array among the arrays around it. -/
def arrayElements (name : String) (span : Span) (path : List Nat) :
    (position : Nat) → List Source.Expr → Convert (List Pseudo.Stmt)
  | _, [] => return []
  | i, .array _ inner :: items => do
    let first ← arrayElements name span (path ++ [i]) 1 inner
    return first ++ (← arrayElements name span path (i + 1) items)
  | i, item :: items => do
    let value ← expr item
    let rest ← arrayElements name span path (i + 1) items
    return assign (element name (some span.line) (path ++ [i])) value span :: rest

def isEmptyList : Source.Expr → Bool
  | .newObject _ type [] => listTypes.contains type.name
  | _ => false

def startValue (name : String) (span : Span) : Source.Expr → Convert (List Pseudo.Stmt)
  | .newArray .. => return []
  | .newArrayOf _ _ _ _ items | .array _ items => arrayElements name span [] 1 items
  | e =>
    if isEmptyList e then do
      note s!"{name} starts as an empty list"
      return []
    else
      assignValue span (.identifier span name) e

def declarePlain (name : String) (span : Span) (type : Option Source.TypeRef)
    (init : Option Source.Expr) (isConstant : Bool) : Convert (List Pseudo.Stmt) := do
  let line := some span.line
  let k ← declaredKind name type init span
  let v : Variable := {
    name := name, type := k.base.text, isConstant := isConstant
    initial := init.map (·.text), sourceType := type.map (·.name) }
  match isConstant && isConstantValue init && !k.isArray, init with
  | true, some e =>
    let value ← expr e
    declareVariable v
    return [.simple (.constant name value) line]
  | _, init =>
    declareVariable { v with isArray := k.isArray, dimensions := k.sizes }
    let rest ← match init with
      | some e => startValue name span e
      | none => pure []
    return .simple (.variable_ name k.text) line :: rest

def declaratorType (d : Source.Declarator) (common : Option Source.TypeRef) : Option Source.TypeRef :=
  (d.type <|> common).map (·.addDimensions d.extraDimensions)

/-- Declares a variable. An object that reads input is only remembered, and a variable that holds a
callable is converted by `callable`. -/
def declarator (d : Source.Declarator) (common : Option Source.TypeRef) (isConstant : Bool)
    (callable : Option (Convert (List Pseudo.Stmt))) : Convert (List Pseudo.Stmt) := do
  let type := declaratorType d common
  let name := d.name
  let sources := inputSources (← read).language
  match type.filter fun t => sources.contains t.name, callable with
  | some t, _ =>
    declareVariable { name := name, type := "STRING", sourceType := some t.name }
    return [.comment s!"{name} reads keyboard input; INPUT is used instead" (some d.span.line)]
  | none, some act => act
  | none, none => declarePlain name d.span type d.init isConstant

def destructure (span : Span) (isArray : Bool) (init : Source.Expr) (kind : Option Kind) :
    (position : Nat) → List String → Convert (List Pseudo.Stmt)
  | _, [] => return []
  | i, name :: names => do
    let line := some span.line
    let source ← expr init
    let value : Pseudo.Expr :=
      if isArray then .index source (.number i) line else .member source name line
    let k ← match kind.filter fun k => isArray && k.isArray with
      | some k => pure k.element
      | none =>
        warn span (.inferenceFallback name)
        pure unknownKind
    declareVariable { name := name, type := k.base.text, isArray := k.isArray,
                      dimensions := k.sizes }
    let rest ← destructure span isArray init kind (i + 1) names
    return .simple (.variable_ name k.text) line :: assign (.identifier name (some true) line) value span :: rest

/-- Declares the members of an enumeration as constants. A member without a value is one more than
the member before it. -/
def enumMembers : (next : Int) → List Source.EnumMember → Convert (List Pseudo.Stmt)
  | _, [] => return []
  | next, m :: ms => do
    let line := some m.span.line
    let (value, type, next) ← match m.value with
      | some e =>
        let value ← expr e
        let type := (inferScalar (← view) e).getD .integer
        pure (value, type, (e.intLiteral?.getD next) + 1)
      | none =>
        let value ← written (.number next line)
        pure (value, .integer, next + 1)
    declareVariable { name := m.name, type := type.text, isConstant := true,
                      initial := some value.text }
    let rest ← enumMembers next ms
    return .simple (.constant m.name value) line :: rest

/-! ### Callables -/

def parameterKind (p : Source.Param) : Convert Kind := do
  let v ← view
  match p.type with
  | some t =>
    let k := Pseudo.normalize v.language t
    if k.fallback then
      warn p.span (.typeFallback k.spelling)
    return k
  | none => match p.default.bind (infer v) with
    | some k => return k
    | none =>
      warn p.span (.inferenceFallback p.name)
      return unknownKind

def parameter (p : Source.Param) : Convert (Parameter × Pseudo.Param) := do
  let k ← parameterKind p
  let name := p.name
  let k := if p.isRest then { k with sizes := "n" :: k.sizes } else k
  if p.isRest then
    note s!"Rest parameter {name} collects the remaining arguments"
  match p.default with
  | some e =>
    let value := e.text
    note s!"Parameter {name} defaults to {value}"
  | none =>
    if p.isOptional then
      note s!"Optional parameter {name}"
  declareVariable { name := name, type := k.base.text, isArray := k.isArray,
                    dimensions := k.sizes, sourceType := p.type.map (·.name) }
  return ({ name := name, type := k.base.text, isArray := k.isArray,
            isOptional := p.isOptional || p.default.isSome }, ⟨name, k.text⟩)

def parameters : List Source.Param → Convert (List (Parameter × Pseudo.Param))
  | [] => return []
  | p :: ps => do
    let a ← parameter p
    return a :: (← parameters ps)

def returnedValues (f : Source.Callable) : List Source.Expr :=
  match f.body with
  | some b => (Source.returnsOf b.statements).filterMap id
  | none => []

/-- The type of what a callable returns. Where it is not declared, the first returned value shows
it. -/
def returnKind (f : Source.Callable) (name : String) : Convert (Option Kind) := do
  let v ← view
  if f.isConstructor then return none
  else match f.result, returnedValues f with
    | some t, _ =>
      if Pseudo.isVoid (some t) then return none
      else
        let k := Pseudo.normalize v.language t
        if k.fallback then
          warn f.span (.typeFallback k.spelling)
        return some k
    | none, [] => return none
    | none, e :: _ => match infer v e with
      | some k => return some k
      | none =>
        warn f.span (.inferenceFallback name)
        return some unknownKind

def droppedNotes (span : Span) (typeParams decorators : List String) : Convert Unit := do
  if !typeParams.isEmpty then
    let names := ", ".intercalate typeParams
    simplify span "Generics" "type parameters were dropped"
    note s!"Generic type parameters: {names}"
  if !decorators.isEmpty then
    let names := ", ".intercalate decorators
    simplify span "Decorators" "they were dropped"
    note s!"Decorators: {names}"

def callableNotes (f : Source.Callable) (owner : Option String) : Convert Unit := do
  match f.isConstructor, owner with
  | true, some name => note s!"Constructor for {name}"
  | _, _ => pure ()
  if f.modifiers.contains "static" then
    note "Static method"
  if f.modifiers.contains "async" then
    simplify f.span "async function" "it runs synchronously in pseudocode"
    note "Async function"
  if f.modifiers.contains "abstract" || f.body.isNone then
    note "Abstract method: no body"
  droppedNotes f.span f.typeParams f.decorators

def callableName (f : Source.Callable) (owner : Option String) : String :=
  match f.isConstructor, owner with
  | true, some name => name
  | _, _ => f.name

/-- Converts a callable whose body `convert` converts. It is a function if it returns something. -/
def callable (f : Source.Callable) (convert : Convert (List Pseudo.Stmt)) : Convert (List Pseudo.Stmt) := do
  let owner := (← read).owner.map (·.name)
  let name := callableName f owner
  callableNotes f owner
  let result ← inScope .function f.span do
    let ps ← parameters f.params
    let body ← convert
    return (ps, body, (← returnKind f name).map (·.text))
  let (ps, body, returns) ← match result with
    | some found => pure found
    | none =>
      let placeholder ← tooDeep f.span
      pure ([], placeholder, (← findCallable? name).bind (·.returns))
  declareCallable { name := name, parameters := ps.map (·.1), returns := returns }
  let form : Pseudo.Form := match returns with
    | some type => .function name (ps.map (·.2)) type
    | none => .procedure name (ps.map (·.2))
  return [.mk form body [] (some f.span.line)]

/-! ### Callables that are values -/

def givesNothing (l : Language) (scopes : Scopes) : Source.Expr → Bool
  | .call _ callee _ => match callee.dottedName? with
    | some name =>
      (outputCalls l).contains name || (scopes.findCallable? name).any (·.isProcedure)
    | none => false
  | _ => false

def valueBody (l : Language) (scopes : Scopes) (e : Source.Expr) : Source.Stmt :=
  if givesNothing l scopes e then .expression e.span e else .returnStmt e.span (some e)

def valueCallable (l : Language) (scopes : Scopes) (name : String) (span : Span)
    (params : List Source.Param) (body : Source.LambdaBody) (isAsync : Bool) : Source.Callable :=
  { span := span, name := name, params := params
    body := some (match body with
      | .block b => b
      | .expr e => ⟨e.span, [valueBody l scopes e]⟩)
    modifiers := if isAsync then ["async"] else [] }

def valueNotes (span : Span) (name : String) : Convert Unit := do
  simplify span "Lambda" s!"converted to the named callable {name}"
  note s!"Lambda assigned to {name} converted to a named callable"

def convertValueBody (isStatement : Bool) (e : Source.Expr) : Convert (List Pseudo.Stmt) :=
  if isStatement then statement "expression_statement" e.span (exprStatement e.span e)
  else statement "return" e.span (returnValue e.span e)

/-! ### Declaration in advance -/

def quietParameter (l : Language) (p : Source.Param) : Parameter :=
  let k : Kind := match p.type with
    | some t => Pseudo.normalize l t
    | none => { base := .string }
  { name := p.name, type := k.base.text, isArray := k.isArray || p.isRest
    isOptional := p.isOptional || p.default.isSome }

/-- The text of the type that a callable returns, as it is known before it is converted. -/
def quietReturn (l : Language) (f : Source.Callable) : Option String :=
  if f.isConstructor then none
  else match f.result with
    | some t => if Pseudo.isVoid (some t) then none else some (Pseudo.normalize l t).text
    | none => if (returnedValues f).isEmpty then none else some "STRING"

def quietCallable (l : Language) (owner : Option String) (f : Source.Callable) : Procedure :=
  { name := callableName f owner, parameters := f.params.map (quietParameter l)
    returns := quietReturn l f }

def predeclareVariables (l : Language) (s : State) (v : Source.VarDecl) : State :=
  v.declarators.foldl (fun s d => match d.init with
    | some (.lambda _ params body isAsync) =>
      let f := valueCallable l s.scopes d.name d.span params body isAsync
      { s with scopes := s.scopes.declareCallable (quietCallable l none f) }
    | _ => s) s

mutual

/-- Declares what a statement at the outermost level or in a class declares, so that it is known to
the statements before it. -/
def predeclare (l : Language) (owner : Option String) (s : State) : Source.Stmt → State
  | .function f => { s with scopes := s.scopes.declareCallable (quietCallable l owner f) }
  | .classDecl _ name _ _ _ members _ _ =>
    predeclareAll l (some name) { s with typeNames := name :: s.typeNames } members
  | .enum _ name _ =>
    { s with typeNames := name :: s.typeNames, enumNames := name :: s.enumNames }
  | .interface _ name _ _ _ | .typeAlias _ name _ =>
    { s with typeNames := name :: s.typeNames }
  | .namespaceDecl _ name body =>
    predeclareAll l none { s with typeNames := name :: s.typeNames } body
  | .varDecl v => predeclareVariables l s v
  | _ => s

def predeclareAll (l : Language) (owner : Option String) (s : State) : List Source.Stmt → State
  | [] => s
  | stmt :: stmts => predeclareAll l owner (predeclare l owner s stmt) stmts

end

end Blackboard.Convert
