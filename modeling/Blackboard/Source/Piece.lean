import Blackboard.Source.Program
import Blackboard.Token.Lexer

/-!
Pieces of a program: what the nodes of a parse tree stand for. A construct is put together from the
pieces of its parts, which it picks out by what they are, so optional parts need no fixed place.
-/
namespace Blackboard.Source

inductive Piece where
  /-- a name, mark or keyword -/
  | token (t : Token)
  | text (s : String)
  | expr (e : Expr)
  | stmt (s : Stmt)
  | statements (ss : List Stmt)
  | type (t : TypeRef)
  | modifiers (ms : List String)
  | typeParams (names : List String)
  | superclass (t : TypeRef)
  | interfaces (ts : List TypeRef)
  | bases (ts : List TypeRef)
  | body (members : List Stmt)
  | throws
  | params (ps : List Param)
  | param (p : Param)
  | typeArgs (ts : List TypeRef)
  /-- a pair of brackets after a type or a name -/
  | dimension
  /-- the size of a new array -/
  | size (e : Expr)
  | label (e : Option Expr) (span : Span)
  | forDeclaration (v : VarDecl)
  | forExpressions (es : List Expr)
  | condition (e : Expr)
  | update (es : List Expr)
  | resources (vs : List Stmt)
  | finalizer (b : Block)
  | handler (h : Handler)
  | enumMember (m : EnumMember)
  | enumBody
  | args (es : List Expr)
  | declarator (d : Declarator)
  | optional
  | objectType (members : List Signature)
  | pattern (isArray : Bool) (names : List String)
  | property (p : Property)
  | signature (s : Signature)
  /-- stands for a node that no rule produces -/
  | nothing

namespace Piece

def cover? (spans : List Span) : Option Span :=
  if spans.isEmpty then none else some (Span.coverAll spans)

def span? : Piece → Option Span
  | token t => some t.span
  | expr e => some e.span
  | stmt s => some s.span
  | type t => some t.span
  | param p => some p.span
  | label _ s => some s
  | finalizer b => some b.span
  | handler h => some h.span
  | enumMember m => some m.span
  | declarator d => some d.span
  | property p => some p.span
  | signature s => some s.span
  | body members => cover? (members.map (·.span))
  | args es => cover? (es.map (·.span))
  | objectType ms => cover? (ms.map (·.span))
  | _ => none

def spanOf (items : List Piece) : Span := Span.coverAll (items.filterMap span?)

def expr? : Piece → Option Expr
  | expr e => some e
  | _ => none

def stmt? : Piece → Option Stmt
  | stmt s => some s
  | _ => none

def block? : Piece → Option Block
  | stmt (.block b) => some b
  | _ => none

def type? : Piece → Option TypeRef
  | type t => some t
  | _ => none

def text? : Piece → Option String
  | text s => some s
  | _ => none

def token? : Piece → Option Token
  | token t => some t
  | _ => none

def name? : Piece → Option String
  | token t => if t.terminal = .name then some t.text else none
  | _ => none

def param? : Piece → Option Param
  | param p => some p
  | _ => none

def params? : Piece → Option (List Param)
  | params ps => some ps
  | _ => none

def args? : Piece → Option (List Expr)
  | args es => some es
  | _ => none

def handler? : Piece → Option Handler
  | handler h => some h
  | _ => none

def declarator? : Piece → Option Declarator
  | declarator d => some d
  | _ => none

def enumMember? : Piece → Option EnumMember
  | enumMember m => some m
  | _ => none

def signature? : Piece → Option Signature
  | signature s => some s
  | _ => none

def isDimension : Piece → Bool
  | dimension => true
  | _ => false

def isOptional : Piece → Bool
  | optional => true
  | _ => false

def hasToken (t : Terminal) (items : List Piece) : Bool :=
  items.any fun i => (i.token?.map (·.terminal)) == some t

def markTexts (items : List Piece) : List String :=
  (items.filterMap token?).filterMap fun t => if t.terminal = .name then none else some t.text

def names (items : List Piece) : List String := items.filterMap name?

def dimensions (items : List Piece) : Nat := items.countP isDimension

def typeParamsOf (items : List Piece) : List String :=
  ((items.filterMap fun | typeParams ns => some ns | _ => none).getLast?).getD []

def superclassOf (items : List Piece) : Option TypeRef :=
  (items.filterMap fun | superclass t => some t | _ => none).getLast?

def interfacesOf (items : List Piece) : List TypeRef :=
  ((items.filterMap fun | interfaces ts => some ts | _ => none).getLast?).getD []

def basesOf (items : List Piece) : List TypeRef :=
  ((items.filterMap fun | bases ts => some ts | _ => none).getLast?).getD []

def membersOf (items : List Piece) : List Stmt :=
  ((items.filterMap fun | body ms => some ms | _ => none).getLast?).getD []

def typeArgsOf (items : List Piece) : List TypeRef :=
  ((items.filterMap fun | typeArgs ts => some ts | _ => none).getLast?).getD []

def paramsOf (items : List Piece) : List Param := ((items.filterMap params?).getLast?).getD []

def argsOf (items : List Piece) : List Expr := ((items.filterMap args?).getLast?).getD []

def finalizerOf (items : List Piece) : Option Block :=
  (items.filterMap fun | finalizer b => some b | _ => none).getLast?

/-- The type that a piece stands for. An object type is named for its members; one without members
takes its place from `place`. -/
def typeLike? (place : Span) : Piece → Option TypeRef
  | type t => some t
  | objectType ms => some
    { span := (cover? (ms.map (·.span))).getD place
      name := "\x7b " ++ ", ".intercalate (ms.map (·.name)) ++ " \x7d"
      form := .object }
  | _ => none

def typesLike (items : List Piece) : List TypeRef := items.filterMap (typeLike? .unplaced)

def afterName : List Piece → List Piece
  | [] => []
  | i :: rest => if i.name?.isSome then rest else afterName rest

def fromName : List Piece → List Piece
  | [] => []
  | i :: rest => if i.name?.isSome then i :: rest else fromName rest

end Piece

end Blackboard.Source
