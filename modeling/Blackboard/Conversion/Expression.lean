import Blackboard.Conversion.Basic
import Blackboard.Source.Printer

/-! The conversion of expressions. -/
namespace Blackboard.Convert

open Conversion
open Source (Span BinaryOp UnaryOp)

/-! ### Names and numbers -/

def isBased : List Char → Bool
  | '0' :: x :: _ => "xXbBoO".toList.contains x
  | _ => false

/-- The text of a number: as it is written, without what belongs to the source language only.
Nothing if it would have too many digits. -/
def numberText? (raw : String) (value : Numeral) : Option String :=
  let cs := raw.toList.filter (· != '_')
  if isBased cs || cs.getLast? == some '.' then
    match value with
    | .int n => if writable n then some (toString n) else none
    | .real d => some d.text
  else if cs.any fun c => c == 'e' || c == 'E' then some (String.ofList cs)
  else some (String.ofList (Numeral.dropMarks Numeral.typeMarks cs))

def numberValue : Numeral → Pseudo.Value
  | .int n => .int n
  | .real d => .real d

def number (span : Span) (value : Numeral) (raw : String) : Convert Pseudo.Expr :=
  match numberText? raw value with
  | some text => return .literal text (some (numberValue value)) (some span.line)
  | none => throw .tooManyDigits

def nothing (line : Option Nat) : Pseudo.Expr := .literal "NULL" (some .null) line

def declaredName (name : String) (span : Span) : Pseudo.Expr :=
  .identifier name (some true) (some span.line)

/-- A variable. Where counters are read from zero, one that counts from one is decreased. -/
def variableName (name : String) (span : Span) : Convert Pseudo.Expr := do
  let s ← get
  let info := s.scopes.findVariable? name
  let declared := info.isSome || (s.scopes.findCallable? name).isSome ||
    s.typeNames.contains name || globals.contains name
  let e : Pseudo.Expr := .identifier name (some declared) (some span.line)
  if info.any (·.oneBased) && (← read).zeroBased then
    return .binary .sub e (.number 1) (some span.line)
  else
    return e

def name (name : String) (span : Span) : Convert Pseudo.Expr :=
  if name = "undefined" then return nothing (some span.line)
  else if name = "this" || name = "super" then return declaredName name span
  else variableName name span

/-! ### Members and indices -/

/-- A member of the object itself. It is written without the object unless a local name hides it. -/
def ownMember (span : Span) (member : String) : Convert Pseudo.Expr := do
  if (← get).scopes.shadowsField member then
    let owner := ((← read).owner.map (·.name)).getD "the class"
    simplify span s!"Field access this.{member}" "kept with its object because a local name hides the field"
    note s!"this.{member} is the field of {owner}, not the local {member}"
    return .member (declaredName "this" span) member (some span.line)
  else
    name member span

def memberAccess (span : Span) (target : Source.Expr) (member : String) (isOptional : Bool)
    (convert : Convert Pseudo.Expr) : Convert Pseudo.Expr := do
  if isOptional then
    simplify span "Optional chaining" "treated as ordinary member access"
    note "Optional chaining ?. treated as ."
  if target.isSelfReference then
    ownMember span member
  else if member = "length" then
    return .call "LENGTH" [← convert] none (some target.span.line)
  else if (← view).isEnum target then
    return declaredName member span
  else
    return .member (← convert) member (some span.line)

def isOneBased (e : Source.Expr) : Convert Bool := do
  match e with
  | .identifier _ name => return ((← findVariable? name).any (·.oneBased))
  | _ => return false

/-- An index, which is converted by `convert`. Indices count from one, and so does a counter that is
an index by itself. -/
def indexValue (e : Source.Expr) (convert : Convert Pseudo.Expr) : Convert Pseudo.Expr := do
  if ← isOneBased e then
    convert
  else
    let shifted ← addOffset (← zeroBased convert) 1
    inform e.span (.indexConverted e.text shifted.text)
    if e.containsIndex then
      warn e.span (.indexReview e.text)
    return shifted

def isString : Source.Expr → Bool
  | .string .. => true
  | _ => false

/-! ### Calls -/

/-- A call, unless `otherwise` converts it: reading input is kept as it is written, and conversions
to numbers are built in. -/
def callOr (span : Span) (callee : Source.Expr) (args : List Source.Expr)
    (convertArgs : Convert (List Pseudo.Expr)) (otherwise : Convert Pseudo.Expr) :
    Convert Pseudo.Expr := do
  let e := Source.Expr.call span callee args
  if ((← view).input? e).isSome then
    simplifyWarn span "Input inside an expression" "read it into a variable with INPUT first"
    return .raw e.text (some span.line)
  else if (numberParser? callee.dottedName?).isSome && args.length == 1 then
    return .call "STR_TO_NUM" (← convertArgs) none (some span.line)
  else
    otherwise

/-- A call of a name. A call of the constructor of the superclass bears the name of that class. -/
def nameCall (span : Span) (callee : String) (convertArgs : Convert (List Pseudo.Expr)) : Convert Pseudo.Expr := do
  let name ← match callee, (← read).owner.bind (·.superclass) with
    | "super", some superclass =>
      note s!"Calls the {superclass} constructor"
      pure superclass
    | _, _ => pure callee
  let args ← convertArgs
  let s ← get
  let declared := (s.scopes.findCallable? name).isSome || s.typeNames.contains name
  return .call name args (some declared) (some span.line)

def plainMethod (span : Span) (dotted : Option String) (method : String) (isDeclared : Bool)
    (convertTarget : Convert Pseudo.Expr) (convertArgs : Convert (List Pseudo.Expr)) :
    Convert Pseudo.Expr := do
  let target ← convertTarget
  let args ← convertArgs
  if !isDeclared then
    warn span (.noDirectEquivalent (dotted.getD method))
  return .method method target args (!isDeclared) (some span.line)

/-- A method call on any object but the object itself. Methods on texts are built in unless the
program declares a method of that name. -/
def objectMethod (span : Span) (dotted : Option String) (method : String) (arity : Nat)
    (convertTarget : Convert Pseudo.Expr) (convertArgs : Convert (List Pseudo.Expr)) :
    Convert Pseudo.Expr := do
  let isDeclared := (← findCallable? method).isSome
  match isDeclared, Pseudo.StringMethod.find? method arity with
  | false, some m =>
    let target ← convertTarget
    let args ← if m.positions then zeroBased convertArgs else convertArgs
    written (m.apply target args)
  | _, _ => plainMethod span dotted method isDeclared convertTarget convertArgs

def methodCall (span calleeSpan : Span) (target : Source.Expr) (method : String)
    (isOptional : Bool) (arity : Nat) (convertTarget : Convert Pseudo.Expr)
    (convertArgs : Convert (List Pseudo.Expr)) : Convert Pseudo.Expr := do
  let dotted := (Source.Expr.member calleeSpan target method isOptional).dottedName?
  let otherwise := objectMethod span dotted method arity convertTarget convertArgs
  if isOptional then
    simplify calleeSpan "Optional chaining" "treated as an ordinary call"
    note "Optional chaining ?. treated as ."
  if target.isSelfReference then
    let args ← convertArgs
    return .call method args (some (← findCallable? method).isSome) (some span.line)
  else if isMath target then
    match Pseudo.mapMathFunction? method (← convertArgs) with
    | some e => return e
    | none => otherwise
  else
    otherwise

/-! ### Operators -/

def operator? : BinaryOp → Option Pseudo.BinaryOp
  | .eq | .strictEq => some .eq
  | .ne | .strictNe => some .ne
  | .lt => some .lt
  | .gt => some .gt
  | .le => some .le
  | .ge => some .ge
  | .and | .bitAnd => some .and
  | .or | .bitOr => some .or
  | .bitXor => some .xor
  | .add => some .add
  | .sub => some .sub
  | .mul => some .mul
  | .div => some .div
  | .rem => some .mod
  | .nullish | .instanceOf | .pow => none

def isBitwise : BinaryOp → Bool
  | .bitAnd | .bitOr | .bitXor => true
  | _ => false

/-- An operation whose operands are converted. Adding texts joins them, and dividing whole numbers may
give a whole number. -/
def combine (span : Span) (op : BinaryOp) (left right : Source.Expr) (a b : Pseudo.Expr) : Convert Pseudo.Expr := do
  let v ← view
  let line := some span.line
  let s := inferScalar v left
  let t := inferScalar v right
  if op = .add && (s == some .string || t == some .string) then
    return .binary .concat a b line
  else if op = .div && dividesWhole v.language && s == some .integer && t == some .integer then
    return .call "DIV" [a, b] none line
  else if op = .pow then
    return .call "POWER" [a, b] none line
  else match operator? op with
    | none =>
      let symbol := op.text
      simplifyWarn span s!"Operator '{symbol}'" "kept as written"
      return .raw (Source.Expr.binary span op left right).text line
    | some mapped =>
      if isBitwise op && !(s == some .boolean && t == some .boolean) then
        let symbol := op.text
        let word := mapped.text
        simplifyWarn span s!"Bitwise operator '{symbol}'" s!"rendered as the logical operator {word}"
        note s!"'{symbol}' works on bits in the source; {word} is only exact for BOOLEAN values"
      return .binary mapped a b line

def operation (span : Span) (op : BinaryOp) (left right : Source.Expr)
    (convertLeft convertRight : Convert Pseudo.Expr) : Convert Pseudo.Expr := do
  match op with
  | .instanceOf =>
    simplifyWarn span "instanceof" "kept as written"
    note "Type check kept as written"
    return .raw (Source.Expr.binary span op left right).text (some span.line)
  | .nullish =>
    simplify span "Nullish coalescing" "rewritten as a conditional"
    note "a ?? b uses b when a is NULL"
    let a ← convertLeft
    let check := .binary .ne a (nothing none) (some span.line)
    return .conditional check a (← convertRight) (some span.line)
  | op =>
    let a ← convertLeft
    let b ← convertRight
    combine span op left right a b

def negatedText (text : String) : String :=
  match text.toList with
  | '-' :: cs => String.ofList cs
  | cs => String.ofList ('-' :: cs)

def negated (span : Span) : Pseudo.Expr → Pseudo.Expr
  | .literal text (some (.int n)) _ =>
    .literal (negatedText text) (some (.int (-n))) (some span.line)
  | .literal text (some (.real d)) _ =>
    .literal (negatedText text) (some (.real d.neg)) (some span.line)
  | e => .unary .neg e (some span.line)

def unary (span : Span) (op : UnaryOp) (operand : Source.Expr) (convert : Convert Pseudo.Expr) :
    Convert Pseudo.Expr := do
  match op with
  | .not => return .unary .not (← convert) (some span.line)
  | .plus => convert
  | .neg => return negated span (← convert)
  | op =>
    let symbol := op.text
    simplifyWarn span s!"Operator '{symbol}'" "kept as written"
    return .raw (Source.Expr.unary span op operand).text (some span.line)

def cast (span : Span) (type : Source.TypeRef) (operand : Source.Expr) (value : Pseudo.Expr) :
    Convert Pseudo.Expr := do
  let v ← view
  match v.language with
  | .typescript =>
    let t := type.text
    note s!"Type assertion 'as {t}' removed"
    return value
  | .java =>
    let line := some span.line
    match (Pseudo.normalize v.language type).base, inferScalar v operand with
    | .integer, some .real =>
      note "Cast to int truncates the decimal part"
      return .call "INT" [value] none line
    | .char, some .integer => return .call "CHR" [value] none line
    | .integer, some .char => return .call "ASC" [value] none line
    | _, _ => return value

def kept (e : Source.Expr) (construct details : String) : Convert Pseudo.Expr := do
  simplifyWarn e.span construct details
  return .raw e.text (some e.span.line)

def partText (text : String) (line : Option Nat) : Pseudo.Expr :=
  let quoted := text.toList.flatMap fun c => if c = '"' then ['\\', '"'] else [c]
  .literal ("\"" ++ String.ofList quoted ++ "\"") (some (.text text)) line

def join (line : Option Nat) : List Pseudo.Expr → Pseudo.Expr
  | [] => .literal "\"\"" (some (.text "")) line
  | e :: es => es.foldl (fun a b => .binary .concat a b line) e

mutual

def expr : Source.Expr → Convert Pseudo.Expr
  | .number span value raw => number span value raw
  | .string span s => return .literal ("\"" ++ s ++ "\"") (some (.text s)) (some span.line)
  | .char span s => return .literal ("'" ++ s ++ "'") (some (.text s)) (some span.line)
  | .boolean span b =>
    return .literal (if b then "TRUE" else "FALSE") (some (.bool b)) (some span.line)
  | .null span => return nothing (some span.line)
  | .template span parts => do
    simplify span "Template literal" "converted to string concatenation with &"
    note "Template literal converted to concatenation"
    return join (some span.line) (← templateItems (some span.line) parts)
  | .identifier span n => name n span
  | .member span target member isOptional =>
    memberAccess span target member isOptional (expr target)
  | .index span target index => do
    let a ← expr target
    let i ← if isString index then expr index else indexValue index (expr index)
    return .index a i (some span.line)
  | .call span (.member calleeSpan target method isOptional) args =>
    callOr span (.member calleeSpan target method isOptional) args (exprs args)
      (methodCall span calleeSpan target method isOptional args.length (expr target) (exprs args))
  | .call span (.identifier calleeSpan callee) args =>
    callOr span (.identifier calleeSpan callee) args (exprs args) (nameCall span callee (exprs args))
  | .call span callee args =>
    callOr span callee args (exprs args) do
      warn span (.noDirectEquivalent callee.text)
      return .raw (Source.Expr.call span callee args).text (some span.line)
  | .newObject span type args => do
    let className := type.name
    simplify span "Object instantiation" s!"a {className} object is created with NEW"
    note s!"Creates a new {className} object"
    return .newObject className (← exprs args) (some span.line)
  | .newArray span element sizes dimensions => do
    let k := Pseudo.normalize (← read).language element
    let texts := (← exprs sizes).map (·.text)
    let shape : Pseudo.Kind :=
      { base := k.base, sizes := texts ++ List.replicate (dimensions - texts.length) "n" }
    simplifyWarn span "Array creation" "written as its array type"
    return .raw shape.text (some span.line)
  | .newArrayOf _ _ _ span items | .array span items =>
    return .array (← exprs items) (some span.line)
  | .object span properties => kept (.object span properties) "Object literal" "kept as written"
  | .binary span op left right => operation span op left right (expr left) (expr right)
  | .unary span op operand => unary span op operand (expr operand)
  | .update span op before target =>
    kept (.update span op before target) "Assignment inside an expression"
      "kept as written; move it to its own statement"
  | .assignment span op target value =>
    kept (.assignment span op target value) "Assignment inside an expression"
      "kept as written; move it to its own statement"
  | .conditional span condition yes no => do
    warn span (.inlineConditional (← read).statement)
    let c ← expr condition
    let a ← expr yes
    return .conditional c a (← expr no) (some span.line)
  | .cast span type operand => do cast span type operand (← expr operand)
  | .lambda span params body isAsync => do
    let e ← kept (.lambda span params body isAsync) "Lambda"
      "kept as written; define a named PROCEDURE or FUNCTION instead"
    note "Lambda kept as written"
    return e
  | .await span operand => do
    simplify span "await" "the awaited value is used directly"
    note "await removed: the call runs synchronously"
    expr operand
  | .spread span operand => do
    let text := operand.text
    simplify span "Spread operator" "the collection is passed as a whole"
    note s!"...{text} spreads its elements"
    expr operand

def exprs : List Source.Expr → Convert (List Pseudo.Expr)
  | [] => return []
  | e :: es => do
    let a ← expr e
    return a :: (← exprs es)

def templateItems (line : Option Nat) : List Source.TemplatePart → Convert (List Pseudo.Expr)
  | [] => return []
  | .text s :: ps => do
    let rest ← templateItems line ps
    return if s = "" then rest else partText s line :: rest
  | .hole e :: ps => do
    let a ← expr e
    return a :: (← templateItems line ps)

end

def lengthOf (e : Source.Expr) : Convert Pseudo.Expr := do
  return .call "LENGTH" [← expr e] none (some e.span.line)

end Blackboard.Convert
