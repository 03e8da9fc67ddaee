import Blackboard.Conversion.Expression

/-! The conversion of expressions that stand as statements: output and input, calls, and
assignments. -/
namespace Blackboard.Convert

open Conversion
open Source (Span BinaryOp AssignOp)

def assign (target value : Pseudo.Expr) (span : Span) : Pseudo.Stmt :=
  .simple (.assign target value) (some span.line)

/-! ### Output and input -/

def outputItems : Source.Expr → Convert (List Pseudo.Expr)
  | .binary span .add left right => do
    let e := Source.Expr.binary span .add left right
    if inferScalar (← view) e == some .string then
      let items ← outputItems left
      return items ++ [← expr right]
    else
      return [← expr e]
  | .template span parts => do
    simplify span "Template literal" "interpolated parts became OUTPUT items"
    templateItems (some span.line) parts
  | e => return [← expr e]

def allOutputItems : List Source.Expr → Convert (List Pseudo.Expr)
  | [] => return []
  | e :: es => do
    let items ← outputItems e
    return items ++ (← allOutputItems es)

def inputStatements (target : Source.Expr) (shown : Option Source.Expr) : Convert (List Pseudo.Stmt) := do
  let line := some target.span.line
  let before ← match shown with
    | some e => pure [.simple (.output (← outputItems e)) line]
    | none => pure []
  return before ++ [.simple (.input (← expr target)) line]

/-! ### Calls -/

def calledName? : Pseudo.Expr → Option String
  | .call name _ (some _) _ => some name
  | .method name _ _ false _ => some name
  | _ => none

def isInputReader (callee : Source.Expr) : Convert Bool := do
  match callee with
  | .member _ target _ _ => return (← view).isInputSource target
  | _ => return false

def callStatement (span : Span) (callee : Source.Expr) (args : List Source.Expr) : Convert (List Pseudo.Stmt) := do
  let v ← view
  let line := some span.line
  let e := Source.Expr.call span callee args
  if callee.dottedName?.any (outputCalls v.language).contains then
    if callee.dottedName?.any (·.endsWith "printf") then
      note "printf format string kept as written"
    let items ← allOutputItems args
    return [.simple (.output (if items.isEmpty then [.literal "\"\"" (some .null) none] else items)) line]
  else if (v.input? e).isSome then
    return [.comment "Input read and discarded" line]
  else if ← isInputReader callee then
    return []
  else
    let call ← expr e
    match calledName? call with
    | some name =>
      let isFunction := (← findCallable? name).any fun p => !p.isProcedure
      return [.simple (if isFunction then .expression call else .call call) line]
    | none => return [.simple (.expression call) line]

/-! ### Assignments -/

/-- An IF statement for a conditional expression, whose branches the two steps convert. -/
def expand (span : Span) (condition : Source.Expr) (yes no : Convert (List Pseudo.Stmt)) :
    Convert (List Pseudo.Stmt) := do
  simplify span "Conditional expression" "expanded to an IF statement"
  note "Conditional expression expanded to IF"
  let line := some span.line
  let c ← expr condition
  let a ← nested span yes
  let b ← nested span no
  return [.mk (.ifThen c) (a ++ [.mk .else_ b [] line]) [] line]

/-- Assigns a value. A conditional value is assigned in the branches of an IF statement. -/
def assignValue (span : Span) (target : Source.Expr) : Source.Expr → Convert (List Pseudo.Stmt)
  | .conditional s condition yes no =>
    expand s condition (statement "expression_statement" span (assignValue span target yes))
      (statement "expression_statement" span (assignValue span target no))
  | value => do
    match (← view).input? value with
    | some (_, shown) => inputStatements target shown
    | none =>
      let t ← expr target
      return [assign t (← expr value) span]

def assignMissing (span : Span) (target value : Source.Expr) : Convert (List Pseudo.Stmt) := do
  simplify span "Nullish assignment" "rewritten as an IF statement"
  note "x ??= y assigns only when x is NULL"
  let t ← expr target
  let v ← expr value
  return [.mk (.ifThen (.binary .eq t (nothing none) none)) [assign t v span] [] (some span.line)]

def joinsAssignment : BinaryOp → Bool
  | .add | .sub | .mul | .div | .rem | .pow | .bitAnd | .bitOr | .bitXor | .and | .or => true
  | _ => false

def assignOperation (span : Span) (op : BinaryOp) (target value : Source.Expr) : Convert (List Pseudo.Stmt) := do
  let result ← expr (.binary span op target value)
  let t ← match result.children with
    | t :: _ => pure t
    | [] => expr target
  return [assign t result span]

def assignment (span : Span) (op : AssignOp) (target value : Source.Expr) : Convert (List Pseudo.Stmt) := do
  match op with
  | .set => assignValue span target value
  | .with_ .nullish => assignMissing span target value
  | .with_ binary =>
    if joinsAssignment binary then
      assignOperation span binary target value
    else
      let symbol := op.text
      simplifyWarn span s!"Operator '{symbol}'" "kept as written"
      let e := Source.Expr.assignment span op target value
      return [.simple (.expression (.raw e.text (some span.line))) (some span.line)]

def exprStatement (span : Span) : Source.Expr → Convert (List Pseudo.Stmt)
  | .call s callee args => callStatement s callee args
  | .assignment s op target value => assignment s op target value
  | .update s .increment _ target =>
    assignment s (.with_ .add) target (.number s (.int 1) "1")
  | .update s .decrement _ target =>
    assignment s (.with_ .sub) target (.number s (.int 1) "1")
  | .await s e => do
    simplify s "await" "the awaited call runs synchronously"
    note "await removed: the call runs synchronously"
    exprStatement span e
  | e => return [.simple (.expression (← expr e)) (some span.line)]

/-- Returns a value. A conditional value is returned in the branches of an IF statement. -/
def returnValue (span : Span) : Source.Expr → Convert (List Pseudo.Stmt)
  | .conditional s condition yes no =>
    expand s condition (statement "return" span (returnValue span yes))
      (statement "return" span (returnValue span no))
  | e => return [.simple (.return_ (some (← expr e))) (some span.line)]

end Blackboard.Convert
