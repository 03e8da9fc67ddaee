import Blackboard.Conversion.Loop

/-! The conversion of statements. -/
namespace Blackboard.Convert

open Conversion
open Source (Span)

def isBlock : Source.Stmt → Bool
  | .block _ => true
  | _ => false

/-- The body of a construct in a scope of its own, after a step in that scope. A block is converted by
`inner`, any other statement by `own`. -/
def bodyOf (body : Source.Stmt) (own inner : Convert (List Pseudo.Stmt)) (before : Convert Unit) :
    Convert (List Pseudo.Stmt) :=
  nested body.span do
    before
    if isBlock body then inner else statement body.kind body.span own

/-! ### Choices -/

def isDefault (labels : List (Option Source.Expr)) : Bool := labels.any Option.isNone

def labelTexts (labels : List (Option Source.Expr)) : String :=
  ", ".intercalate (labels.map fun
    | some e => e.text
    | none => "default")

def exits : Source.Stmt → Bool
  | .breakStmt .. | .continueStmt .. | .returnStmt .. | .throwStmt .. => true
  | _ => false

def goesOn (body : List Source.Stmt) : Bool := !(body.getLast?.any exits)

def fallNote (labels : List (Option Source.Expr)) : String :=
  if isDefault labels then "Falls through into OTHERWISE"
  else "Falls through into case " ++ labelTexts labels

def branch (span : Span) (labels : List (Option Source.Expr))
    (next : Option (List (Option Source.Expr))) (body : Convert (List Pseudo.Stmt)) :
    Convert Pseudo.Stmt := do
  let ss ← nested span body
  let falls := next.isSome
  let form ← if isDefault labels then pure (Pseudo.Form.otherwise falls)
    else pure (.caseBranch (← exprs (labels.filterMap id)) falls)
  match next with
  | none => return .mk form ss [] (some span.line)
  | some successor =>
    warn span (.fallThrough (labelTexts labels))
    return .mk form ss [fallNote successor] (some span.line)

def isOtherwise (s : Pseudo.Stmt) : Bool :=
  match s.form with
  | .otherwise _ => true
  | _ => false

def orderBranches (bs : List Pseudo.Stmt) : List Pseudo.Stmt :=
  bs.filter (fun b => !isOtherwise b) ++ (bs.filter isOtherwise).getLast?.toList

/-! ### Declarations of types -/

def paramNames (ps : List Source.Param) : String := ", ".intercalate (ps.map (·.name))

def memberText : Source.InterfaceMember → String
  | .signature s =>
    let mark := if s.isOptional then "?" else ""
    let type := (s.type.map (·.text)).getD "any"
    match s.params with
    | some ps => s.name ++ mark ++ "(" ++ paramNames ps ++ "): " ++ type
    | none => s.name ++ mark ++ ": " ++ type
  | .method f =>
    f.name ++ "(" ++ paramNames f.params ++ "): " ++ (f.result.map (·.text)).getD "void"
  | .field v => ", ".intercalate (v.declarators.map (·.name))

def memberSpan : Source.InterfaceMember → Span
  | .signature s => s.span
  | .method f => f.span
  | .field v => v.span

def typeTexts (ts : List Source.TypeRef) : String := ", ".intercalate (ts.map (·.text))

def interfaceComments (span : Span) (name : String) (bases : List Source.TypeRef)
    (members : List Source.InterfaceMember) : List Pseudo.Stmt :=
  let extending := if bases.isEmpty then "" else " extends " ++ typeTexts bases
  .comment ("Interface " ++ name ++ extending) (some span.line) ::
    members.map fun m => .comment ("   " ++ memberText m) (some (memberSpan m).line)

def classNotes (span : Span) (name : String) (superclass : Option Source.TypeRef)
    (interfaces : List Source.TypeRef) (modifiers typeParams decorators : List String) :
    Convert Unit := do
  simplify span s!"Class {name}" "fields became declarations and methods became procedures or functions"
  match superclass with
  | some t =>
    let base := t.text
    note s!"{name} inherits from {base}"
  | none => pure ()
  if !interfaces.isEmpty then
    let names := typeTexts interfaces
    note s!"{name} implements {names}"
  if modifiers.contains "abstract" then
    note s!"{name} is abstract"
  droppedNotes span typeParams decorators

/-! ### Handlers -/

def handlerText (types : List Source.TypeRef) (param : Option String) : String :=
  let caught := " | ".intercalate (types.map (·.text))
  " ".intercalate ([caught, param.getD ""].filter (· != ""))

def handlerComment (h : Source.Handler) : Pseudo.Stmt :=
  .comment ("catch (" ++ handlerText h.types h.param ++ ") handler omitted") (some h.span.line)

/-! ### Leaving -/

def labelled (lead : String) (label : Option String) : String :=
  match label with
  | some l => lead ++ l
  | none => ""

def breakComment (span : Span) (label : Option String) : Convert (List Pseudo.Stmt) := do
  if (← read).enclosing = some .switch then
    return [.comment "Leave the CASE here (break)" (some span.line)]
  else
    return [.comment ("Exit loop" ++ labelled " " label ++ " here (break)") (some span.line)]

def continueComment (span : Span) (label : Option String) : Pseudo.Stmt :=
  .comment ("Skip to the next iteration" ++ labelled " of " label ++ " (continue)") (some span.line)

def isConstantDecl (modifiers : List String) (kind : Option Source.VarKind) : Bool :=
  modifiers.contains "final" || modifiers.contains "readonly" || kind = some .const_

mutual

def stmt : Source.Stmt → Convert (List Pseudo.Stmt)
  | .block ⟨span, ss⟩ => nested span (stmts ss)
  | .varDecl v => varDecl v
  | .destructuring span isArray names init _ => do
    let text := init.text
    simplify span "Destructuring" "each name is assigned separately"
    note s!"Destructuring of {text} split into assignments"
    destructure span isArray init (infer (← view) init) 1 names
  | .expression span e => exprStatement span e
  | .ifElse span condition yes no => do
    let c ← expr condition
    let body ← bodyOf yes (stmt yes) (inner yes) (pure ())
    return [.mk (.ifThen c) (body ++ (← otherwise no)) [] (some span.line)]
  | .whileLoop span condition body => do
    let c ← expr condition
    let ss ← inside .loop (bodyOf body (stmt body) (inner body) (pure ()))
    return [.mk (.while_ c) ss [] (some span.line)]
  | .doLoop span body condition => do
    let ss ← inside .loop (bodyOf body (stmt body) (inner body) (pure ()))
    let c ← expr condition
    return [.mk (.repeatUntil (.unary .not c none)) ss [] (some span.line)]
  | .forLoop span decl init condition update body =>
    match Source.CountingLoop.ofLoop? decl init condition update body with
    | some loop => countingLoop span loop (bodyOf body (stmt body) (inner body))
    | none => generalLoop span decl init condition update (varDecl? decl)
        (if isBlock body then inner body else statement body.kind body.span (stmt body))
  | .forEach span name type iterable overKeys body =>
    collectionLoop span name type iterable overKeys (bodyOf body (stmt body) (inner body))
  | .switch span subject cases => do
    let s ← expr subject
    let bs ← inside .switch (branches cases)
    return [.mk (.caseOf s) (orderBranches bs) [] (some span.line)]
  | .returnStmt span (some e) => returnValue span e
  | .returnStmt span none => return [.simple (.return_ none) (some span.line)]
  | .breakStmt span label => breakComment span label
  | .continueStmt span label => return [continueComment span label]
  | .throwStmt span e => do
    simplifyWarn span "throw" "rendered as a comment"
    return [.simple (.comment ("Raise error: " ++ e.text) false) (some span.line)]
  | .tryStmt span ⟨_, ss⟩ handlers finalizer => do
    simplifyWarn span "try/catch" "the protected block runs inline and handlers became comments"
    note "try block: errors are not handled"
    let body ← nested span (stmts ss)
    return body ++ handlers.map handlerComment ++ (← finally_ finalizer)
  | .empty _ => return []
  | .unparsed span text message => return [.simple (.unparsed text message) (some span.line)]
  | .function ⟨span, name, params, result, some ⟨bodySpan, ss⟩, modifiers, typeParams, decorators,
      isConstructor⟩ =>
    callable ⟨span, name, params, result, some ⟨bodySpan, ss⟩, modifiers, typeParams, decorators,
      isConstructor⟩ (stmts ss)
  | .function f => callable f (pure [])
  | .classDecl span name superclass interfaces typeParams members modifiers decorators => do
    addTypeName name
    classNotes span name superclass interfaces modifiers typeParams decorators
    let owner : Owner := ⟨name, superclass.map (·.name)⟩
    let ss ← withReader (fun c => { c with owner := some owner }) (nested span (stmts members) .class_)
    return [.mk (.class_ name) ss [] (some span.line)]
  | .interface span name _ bases members => do
    simplify span s!"Interface {name}" "its members are listed as comments"
    return interfaceComments span name bases members
  | .enum span name members => do
    addTypeName name
    addEnumName name
    simplify span s!"Enum {name}" "its members became constants"
    note s!"Enum {name} converted to constants"
    enumMembers 0 members
  | .typeAlias span name aliased => do
    addTypeName name
    simplify span s!"Type alias {name}" "kept as a comment"
    return [.comment ("Type " ++ name ++ " = " ++ aliased.text) (some span.line)]
  | .namespaceDecl span name body => do
    simplify span s!"Namespace {name}" "its members were moved to the enclosing scope"
    note s!"Namespace {name}"
    stmts body
  | .importLine span text =>
    return [.comment ("Import omitted: " ++ Text.strip text) (some span.line)]

def stmts : List Source.Stmt → Convert (List Pseudo.Stmt)
  | [] => return []
  | s :: ss => do
    let first ← statement s.kind s.span (stmt s)
    return first ++ (← stmts ss)

def inner : Source.Stmt → Convert (List Pseudo.Stmt)
  | .block ⟨_, ss⟩ => stmts ss
  | _ => return []

def otherwise : Option Source.Stmt → Convert (List Pseudo.Stmt)
  | none => return []
  | some (.ifElse span condition yes no) => do
    let c ← expr condition
    let body ← bodyOf yes (stmt yes) (inner yes) (pure ())
    return .mk (.elseIf c) body [] (some span.line) :: (← otherwise no)
  | some s => do
    let body ← bodyOf s (stmt s) (inner s) (pure ())
    return [.mk .else_ body [] (some s.span.line)]

def finally_ : Option Source.Block → Convert (List Pseudo.Stmt)
  | none => return []
  | some ⟨span, ss⟩ => do
    let body ← nested span (stmts ss)
    return .comment "finally block always runs" (some span.line) :: body

/-- The branches of a choice. The labels of the next branch tell what a branch goes on into. -/
def branches : List Source.SwitchCase → Convert (List Pseudo.Stmt)
  | [] => return []
  | ⟨span, labels, [.block ⟨_, ss⟩]⟩ :: cases => do
    let next := if goesOn ss then cases.head?.map (·.labels) else none
    let b ← branch span labels next (untilBreak ss)
    return b :: (← branches cases)
  | ⟨span, labels, ss⟩ :: cases => do
    let next := if !ss.isEmpty && goesOn ss then cases.head?.map (·.labels) else none
    let b ← branch span labels next (untilBreak ss)
    return b :: (← branches cases)

def untilBreak : List Source.Stmt → Convert (List Pseudo.Stmt)
  | [] => return []
  | [.breakStmt _ none] => return []
  | s :: ss => do
    let first ← statement s.kind s.span (stmt s)
    return first ++ (← untilBreak ss)

def varDecl : Source.VarDecl → Convert (List Pseudo.Stmt)
  | ⟨_, ds, type, modifiers, kind⟩ => do
    if modifiers.contains "static" then
      note "Static field"
    declarators type (isConstantDecl modifiers kind) ds

def varDecl? : Option Source.VarDecl → Convert (List Pseudo.Stmt)
  | none => return []
  | some v => statement "variable_declaration" v.span (varDecl v)

def declarators (type : Option Source.TypeRef) (isConstant : Bool) :
    List Source.Declarator → Convert (List Pseudo.Stmt)
  | [] => return []
  | ⟨span, name, own, extra, init⟩ :: ds => do
    let d : Source.Declarator := ⟨span, name, own, extra, init⟩
    let first ← declarator d type isConstant (valueOf? name span init)
    return first ++ (← declarators type isConstant ds)

def valueOf? (name : String) (span : Span) : Option Source.Expr → Option (Convert (List Pseudo.Stmt))
  | some (.lambda own params (.block ⟨bodySpan, ss⟩) isAsync) => some do
    valueNotes own name
    callable (valueCallable (← read).language (← get).scopes name span params
      (.block ⟨bodySpan, ss⟩) isAsync) (stmts ss)
  | some (.lambda own params (.expr e) isAsync) => some do
    valueNotes own name
    let scopes := (← get).scopes
    callable (valueCallable (← read).language scopes name span params (.expr e) isAsync)
      (convertValueBody (givesNothing (← read).language scopes e) e)
  | _ => none

end

end Blackboard.Convert

namespace Blackboard.Conversion

/-- A program as pseudocode, with the remarks made on the way. -/
structure Result where
  language : Language
  structuralErrors : List String
  body : List Pseudo.Stmt
  diagnostics : List Diagnostic

def Result.program (r : Result) : Pseudo.Stmt :=
  .mk (.program (some r.language.name) r.structuralErrors) r.body [] (some 1)

def run (limit : Nat) (p : Source.Program) : Except Fault Result := do
  let start := Convert.predeclareAll p.language none {} p.body
  let (body, s) ← ((Convert.stmts p.body).run { language := p.language, limit := limit }).run start
  return {
    language := p.language, structuralErrors := p.structuralErrors, body := body
    diagnostics := s.diagnostics ++ s.scopes.diagnostics }

end Blackboard.Conversion
