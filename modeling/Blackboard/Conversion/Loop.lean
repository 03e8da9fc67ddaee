import Blackboard.Conversion.Declaration

/-! The ranges of counting loops, and the counters of loops over collections. -/
namespace Blackboard.Convert

open Conversion
open Pseudo (Kind)
open Source (Span CountingLoop)

/-- The first and last value of a counter, and whether the loop was moved up by one. -/
structure Range where
  start : Pseudo.Expr
  stop : Pseudo.Expr
  oneBased : Bool

def lastValue (bound : Pseudo.Expr) (strict : Bool) (step : Int) : Convert Pseudo.Expr :=
  if strict then addOffset bound step else pure bound

/-- The range of a loop that counts up. A loop bounded by the length of a collection is moved up by
one, so that its counter can be an index by itself. -/
def ascendingRange (loop : CountingLoop) (start : Pseudo.Expr) : Convert Range := do
  match loop.bound.lengthBound? with
  | some (collection, offset) =>
    let total ← addOffset (← lengthOf collection) offset
    let stop ← lastValue total (loop.comparison = .lt) (-1)
    let first ← addOffset start 1
    return ⟨first, ← addOffset stop 1, true⟩
  | none =>
    let bound ← expr loop.bound
    return ⟨start, ← lastValue bound (loop.comparison = .lt) (-1), false⟩

/-- The range of a loop that counts down. A loop that starts at the length of a collection is moved
up by one. -/
def descendingRange (loop : CountingLoop) (start : Pseudo.Expr) : Convert Range := do
  let bound ← expr loop.bound
  let stop ← lastValue bound (loop.comparison = .gt) 1
  match loop.start.lengthBound? with
  | some (collection, offset) =>
    let first ← addOffset (← lengthOf collection) (offset + 1)
    return ⟨first, ← addOffset stop 1, true⟩
  | none => return ⟨start, stop, false⟩

def range (loop : CountingLoop) : Convert Range := do
  let start ← expr loop.start
  if loop.ascending then ascendingRange loop start else descendingRange loop start

def isVarWord (t : Source.TypeRef) : Bool := t.name = "var"

/-- The type of a counter. In the language with one type of numbers it is a whole number. -/
def counterType (l : Language) (type : Option Source.TypeRef) : Pseudo.Scalar :=
  match type.filter fun t => !isVarWord t with
  | none => .integer
  | some t =>
    let k := Pseudo.normalize l t
    if k.base = .real && (k.spelling = "number" || k.spelling = "Number") then .integer
    else k.base

/-- A counting loop, whose body `body` converts after a step that declares the counter. -/
def countingLoop (span : Span) (loop : CountingLoop)
    (body : Convert Unit → Convert (List Pseudo.Stmt)) : Convert (List Pseudo.Stmt) := do
  let r ← range loop
  if r.oneBased then
    inform span (.loopBounds loop.name r.start.text r.stop.text)
  let type := counterType (← read).language loop.type
  let ss ← inside .loop (body (declareVariable
    { name := loop.name, type := type.text, oneBased := r.oneBased }))
  let step ← if loop.step = 1 then pure none else some <$> written (.number loop.step)
  return [.mk (.for_ loop.name r.start r.stop step) ss [] (some span.line)]

def loopName (decl : Option Source.VarDecl) (condition : Option Source.Expr) : String :=
  match decl, condition with
  | some ⟨_, d :: _, _, _, _⟩, _ => d.name
  | some ⟨_, [], _, _, _⟩, _ => ""
  | none, some e => e.text
  | none, none => "for"

def exprStatements : List Source.Expr → Convert (List Pseudo.Stmt)
  | [] => return []
  | e :: es => do
    let first ← statement "expression_statement" e.span (exprStatement e.span e)
    return first ++ (← exprStatements es)

def generalLoop (span : Span) (decl : Option Source.VarDecl) (init : List Source.Expr)
    (condition : Option Source.Expr) (update : List Source.Expr)
    (convertDecl : Convert (List Pseudo.Stmt)) (convertBody : Convert (List Pseudo.Stmt)) :
    Convert (List Pseudo.Stmt) := do
  warn span (.nonCanonicalLoop (loopName decl condition))
  let declared ← convertDecl
  let started ← exprStatements init
  let c ← match condition with
    | some e => expr e
    | none => pure (.literal "TRUE" (some (.bool true)) none)
  let body ← inside .loop (nested span do
    let ss ← convertBody
    return ss ++ (← exprStatements update))
  return declared ++ started ++ [.mk (.while_ c) body ["for loop rewritten as WHILE"] (some span.line)]

/-- The names that are tried for a counter, in order. With as many numbered names as there are
variables, one of them is free. -/
def counterNames (count : Nat) : List String :=
  ["i", "j", "k", "index"] ++ (List.range (count + 1)).map fun n => "index" ++ toString (n + 2)

def freeName (scopes : Scopes) : String :=
  let count := (scopes.arena.map (·.vars.length)).foldl (· + ·) 0
  ((counterNames count).find? fun n => (scopes.findVariable? n).isNone).getD "index"

def elementKind (span : Span) (name : String) (type : Option Source.TypeRef)
    (collection : Option Kind) : Convert Kind := do
  let l := (← read).language
  match type.filter fun t => !isVarWord t, collection with
  | some t, _ => return Pseudo.normalize l t
  | none, some k =>
    if k.isArray then return k.element
    else if k.base = .string then return { base := characterType l }
    else unknown
  | none, none => unknown
where
  unknown : Convert Kind := do
    warn span (.inferenceFallback name)
    return unknownKind

def keyLoop (span : Span) (name : String) (iterable : Source.Expr) (length : Pseudo.Expr)
    (body : Convert Unit → Convert (List Pseudo.Stmt)) : Convert (List Pseudo.Stmt) := do
  let collection := iterable.text
  simplify span "for...in loop" "iterates over positions 1 to LENGTH"
  note s!"for...in over {collection} iterates positions"
  let ss ← inside .loop (body (declareVariable
    { name := name, type := "INTEGER", oneBased := true }))
  return [.mk (.for_ name (.number 1) length none) ss [] (some span.line)]

def elementLoop (span : Span) (name : String) (k : Kind) (iterable : Source.Expr)
    (length : Pseudo.Expr) (body : Convert Unit → Convert (List Pseudo.Stmt)) :
    Convert (List Pseudo.Stmt) := do
  let line := some span.line
  let counter := freeName (← get).scopes
  simplify span "for-each loop" s!"rewritten with the index variable {counter}"
  note "for-each loop rewritten with an index"
  declareVariable { name := name, type := k.base.text, isArray := k.isArray,
                    dimensions := k.sizes }
  let ss ← inside .loop (body (declareVariable
    { name := counter, type := "INTEGER", oneBased := true }))
  let current := .index (← expr iterable) (.identifier counter (some true) line) line
  let first := assign (.identifier name (some true) line) current span
  return [.simple (.variable_ name k.text) line, .mk (.for_ counter (.number 1) length none) (first :: ss) [] line]

def collectionLoop (span : Span) (name : String) (type : Option Source.TypeRef)
    (iterable : Source.Expr) (overKeys : Bool)
    (body : Convert Unit → Convert (List Pseudo.Stmt)) : Convert (List Pseudo.Stmt) := do
  let collection := infer (← view) iterable
  let length ← lengthOf iterable
  if overKeys then
    keyLoop span name iterable length body
  else
    let k ← elementKind span name type collection
    elementLoop span name k iterable length body

end Blackboard.Convert
