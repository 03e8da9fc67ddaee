import Blackboard.Diagnostic

/-!
Lexical scopes. All scopes ever entered are kept in one list and point at their parents by index;
names are looked up along the chain from the current scope to the outermost one.
-/
namespace Blackboard

structure Variable where
  name : String
  type : String
  isArray : Bool := false
  dimensions : List String := []
  isConstant : Bool := false
  initial : Option String := none
  sourceType : Option String := none
  /-- whether it counts from one where the source counts from zero -/
  oneBased : Bool := false
deriving DecidableEq, Repr

structure Parameter where
  name : String
  type : String
  isArray : Bool := false
  isOptional : Bool := false
deriving DecidableEq, Repr

/-- A declared callable. A procedure is one without a return type. -/
structure Procedure where
  name : String
  parameters : List Parameter := []
  returns : Option String := none
deriving DecidableEq, Repr

def Procedure.isProcedure (p : Procedure) : Bool := p.returns.isNone

inductive ScopeKind where
  | outermost | function | block | class_
deriving DecidableEq, Repr

namespace ScopeKind

def name : ScopeKind → String
  | outermost => "global"
  | function => "function"
  | block => "block"
  | class_ => "class"

def all : List ScopeKind := [outermost, function, block, class_]

def ofName? (s : String) : Option ScopeKind := all.find? (·.name == s)

end ScopeKind

/-- A table with its names in the order of their first declaration. -/
abbrev Table (α : Type) := List (String × α)

namespace Table

def put {α : Type} (name : String) (a : α) : Table α → Table α
  | [] => [(name, a)]
  | (n, b) :: t => if n = name then (n, a) :: t else (n, b) :: put name a t

def names {α : Type} (t : Table α) : List String := t.map (·.1)

theorem lookup_cons {α : Type} (n m : String) (b : α) (t : Table α) :
    List.lookup n ((m, b) :: t) = if n = m then some b else t.lookup n := by
  by_cases h : n = m
  · simp [h]
  · have hb : (n == m) = false := by simpa using h
    simp [List.lookup_cons, h, hb]

theorem lookup_put {α : Type} (name n : String) (a : α) (t : Table α) :
    (put name a t).lookup n = if n = name then some a else t.lookup n := by
  induction t with
  | nil => simp [put, lookup_cons]
  | cons p t ih =>
    obtain ⟨m, b⟩ := p
    by_cases hm : m = name
    · by_cases hn : n = name <;> simp [put, lookup_cons, hm, hn]
    · by_cases hn : n = m
      · simp [put, hm, hn]
      · simp [put, lookup_cons, hm, hn, ih]

end Table

structure Scope where
  kind : ScopeKind
  parent : Option Nat := none
  vars : Table Variable := []
  callables : Table Procedure := []
deriving DecidableEq, Repr

/-- The scopes of a program, and the one that is current. -/
structure Scopes where
  arena : List Scope := [{ kind := .outermost }]
  current : Nat := 0
  diagnostics : List Diagnostic := []
deriving DecidableEq, Repr

namespace Scopes

/-- The scopes from the one at `i` to the outermost one. Parents stand before their children, so
`fuel` need not exceed the index. -/
def chainFrom (arena : List Scope) : (fuel i : Nat) → List Scope
  | 0, _ => []
  | fuel + 1, i => match arena[i]? with
    | none => []
    | some s => s :: match s.parent with
      | none => []
      | some p => chainFrom arena fuel p

def chain (s : Scopes) : List Scope := chainFrom s.arena (s.current + 1) s.current

def depth (s : Scopes) : Nat := s.chain.length - 1

def currentScope (s : Scopes) : Scope := (s.arena[s.current]?).getD { kind := .outermost }

def enter (kind : ScopeKind) (s : Scopes) : Scopes :=
  { s with arena := s.arena ++ [{ kind := kind, parent := some s.current }],
           current := s.arena.length }

def exit (s : Scopes) : Scopes :=
  match s.currentScope.parent with
  | none => { s with diagnostics := s.diagnostics ++ [{ cause := .unbalancedExit }] }
  | some p => { s with current := p }

def modifyCurrent (f : Scope → Scope) (s : Scopes) : Scopes :=
  { s with arena := s.arena.modify s.current f }

def declareVariable (v : Variable) (s : Scopes) : Scopes :=
  s.modifyCurrent fun scope => { scope with vars := Table.put v.name v scope.vars }

def declareCallable (p : Procedure) (s : Scopes) : Scopes :=
  s.modifyCurrent fun scope => { scope with callables := Table.put p.name p scope.callables }

def findVariable? (s : Scopes) (name : String) : Option Variable :=
  s.chain.findSome? (·.vars.lookup name)

def findCallable? (s : Scopes) (name : String) : Option Procedure :=
  s.chain.findSome? (·.callables.lookup name)

/-- Whether the nearest scope that declares a variable lies inside a class, and no class before. -/
def shadows (name : String) : List Scope → Bool
  | [] => false
  | s :: rest =>
    if s.kind = .class_ then false
    else if (s.vars.lookup name).isSome then rest.any (·.kind = .class_)
    else shadows name rest

/-- Whether a name stands for a local variable inside the nearest class, and so hides a field of
that name. -/
def shadowsField (s : Scopes) (name : String) : Bool := shadows name s.chain

end Scopes

end Blackboard
