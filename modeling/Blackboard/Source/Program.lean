import Blackboard.Number.Numeral
import Blackboard.Source.Operator
import Blackboard.Source.TypeRef

/-!
The syntax of source programs, shared by the two languages. Every construct knows its span.
-/
namespace Blackboard.Source

mutual

inductive Expr where
  | number (span : Span) (value : Numeral) (raw : String)
  | string (span : Span) (value : String)
  | char (span : Span) (value : String)
  | boolean (span : Span) (value : Bool)
  | null (span : Span)
  | template (span : Span) (parts : List TemplatePart)
  | identifier (span : Span) (name : String)
  | member (span : Span) (target : Expr) (name : String) (optional : Bool)
  | index (span : Span) (target index : Expr)
  | call (span : Span) (callee : Expr) (args : List Expr)
  | newObject (span : Span) (type : TypeRef) (args : List Expr)
  /-- `new T[n][m][]` -/
  | newArray (span : Span) (element : TypeRef) (sizes : List Expr) (dimensions : Nat)
  /-- `new T[] {…}` -/
  | newArrayOf (span : Span) (element : TypeRef) (dimensions : Nat) (itemsSpan : Span)
      (items : List Expr)
  | array (span : Span) (items : List Expr)
  | object (span : Span) (properties : List Property)
  | binary (span : Span) (op : BinaryOp) (left right : Expr)
  | unary (span : Span) (op : UnaryOp) (operand : Expr)
  | update (span : Span) (op : UpdateOp) (before : Bool) (target : Expr)
  | assignment (span : Span) (op : AssignOp) (target value : Expr)
  | conditional (span : Span) (condition yes no : Expr)
  | cast (span : Span) (type : TypeRef) (operand : Expr)
  | lambda (span : Span) (params : List Param) (body : LambdaBody) (isAsync : Bool)
  | await (span : Span) (operand : Expr)
  | spread (span : Span) (operand : Expr)

/-- A template literal alternates plain text and expressions. -/
inductive TemplatePart where
  | text (s : String)
  | hole (e : Expr)

/-- A property of an object literal; without a value it stands for the variable of its name. -/
structure Property where
  span : Span
  key : String
  value : Option Expr

structure Param where
  span : Span
  name : String
  type : Option TypeRef := none
  isOptional : Bool := false
  isRest : Bool := false
  default : Option Expr := none
  modifiers : List String := []

inductive LambdaBody where
  | block (b : Block)
  | expr (e : Expr)

structure Block where
  span : Span
  statements : List Stmt

structure Declarator where
  span : Span
  name : String
  type : Option TypeRef := none
  extraDimensions : Nat := 0
  init : Option Expr := none

/-- Variables declared together. One language writes their type once, the other at each variable. -/
structure VarDecl where
  span : Span
  declarators : List Declarator
  type : Option TypeRef := none
  modifiers : List String := []
  kind : Option VarKind := none

/-- Labels that share a body; `none` is the default label. -/
structure SwitchCase where
  span : Span
  labels : List (Option Expr)
  body : List Stmt

structure Handler where
  span : Span
  param : Option String
  types : List TypeRef
  body : Block

/-- A function, method or constructor. One without a body is only a signature. -/
structure Callable where
  span : Span
  name : String
  params : List Param
  result : Option TypeRef := none
  body : Option Block := none
  modifiers : List String := []
  typeParams : List String := []
  decorators : List String := []
  isConstructor : Bool := false

/-- A property or method of an object type; a method has parameters. -/
structure Signature where
  span : Span
  name : String
  type : Option TypeRef := none
  params : Option (List Param) := none
  isOptional : Bool := false

inductive InterfaceMember where
  | signature (s : Signature)
  | method (f : Callable)
  | field (v : VarDecl)

structure EnumMember where
  span : Span
  name : String
  value : Option Expr := none

inductive Stmt where
  | block (b : Block)
  | varDecl (v : VarDecl)
  | destructuring (span : Span) (isArray : Bool) (names : List String) (init : Expr)
      (kind : Option VarKind)
  | expression (span : Span) (e : Expr)
  | ifElse (span : Span) (condition : Expr) (yes : Stmt) (no : Option Stmt)
  | whileLoop (span : Span) (condition : Expr) (body : Stmt)
  | doLoop (span : Span) (body : Stmt) (condition : Expr)
  | forLoop (span : Span) (decl : Option VarDecl) (init : List Expr) (condition : Option Expr)
      (update : List Expr) (body : Stmt)
  | forEach (span : Span) (name : String) (type : Option TypeRef) (iterable : Expr)
      (overKeys : Bool) (body : Stmt)
  | switch (span : Span) (subject : Expr) (cases : List SwitchCase)
  | returnStmt (span : Span) (value : Option Expr)
  | breakStmt (span : Span) (label : Option String)
  | continueStmt (span : Span) (label : Option String)
  | throwStmt (span : Span) (e : Expr)
  | tryStmt (span : Span) (block : Block) (handlers : List Handler) (finalizer : Option Block)
  | empty (span : Span)
  /-- text that could not be read -/
  | unparsed (span : Span) (text message : String)
  | function (f : Callable)
  | classDecl (span : Span) (name : String) (superclass : Option TypeRef)
      (interfaces : List TypeRef) (typeParams : List String) (members : List Stmt)
      (modifiers decorators : List String)
  | interface (span : Span) (name : String) (typeParams : List String) (bases : List TypeRef)
      (members : List InterfaceMember)
  | enum (span : Span) (name : String) (members : List EnumMember)
  | typeAlias (span : Span) (name : String) (aliased : TypeRef)
  | namespaceDecl (span : Span) (name : String) (body : List Stmt)
  | importLine (span : Span) (text : String)

end

namespace Expr

def span : Expr → Span
  | number s .. | string s .. | char s .. | boolean s .. | null s | template s .. => s
  | identifier s .. | member s .. | index s .. | call s .. | newObject s .. | newArray s .. => s
  | newArrayOf s .. | array s .. | object s .. | binary s .. | unary s .. | update s .. => s
  | assignment s .. | conditional s .. | cast s .. | lambda s .. | await s .. | spread s .. => s

end Expr

namespace Stmt

def span : Stmt → Span
  | block b => b.span
  | varDecl v => v.span
  | function f => f.span
  | destructuring s .. | expression s .. | ifElse s .. | whileLoop s .. | doLoop s .. => s
  | forLoop s .. | forEach s .. | switch s .. | returnStmt s .. | breakStmt s .. => s
  | continueStmt s .. | throwStmt s .. | tryStmt s .. | empty s | unparsed s .. => s
  | classDecl s .. | interface s .. | enum s .. | typeAlias s .. | namespaceDecl s .. => s
  | importLine s .. => s

def isEmpty : Stmt → Bool
  | empty _ => true
  | _ => false

end Stmt

/-- A whole program, with the faults of its bracket structure. -/
structure Program where
  language : Language
  span : Span
  body : List Stmt
  structuralErrors : List String

end Blackboard.Source
