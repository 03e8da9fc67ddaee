import Blackboard.Grammar.Languages
import Blackboard.Source.Piece.Declaration
import Blackboard.Source.Piece.Expression
import Blackboard.Source.Piece.Literal
import Blackboard.Source.Piece.Statement
import Blackboard.Text.Blank

/-! Reading a source text: its parse tree, turned into the program it stands for from the leaves up. -/
namespace Blackboard.Source

open Grammar

inductive ReadError where
  | parse (e : ParseError)
  | numeral (f : Numeral.Fault)

namespace Piece

def ofNode (l : Language) (c : Category) (items : List Piece) : Piece :=
  (expressionOfNode c items <|> statementOfNode l c items <|> typeOfNode c items <|>
    declarationOfNode l c items).getD nothing

mutual

def ofTree (l : Language) (read : Span → List Char → Expr) : Tree → Except Numeral.Fault Piece
  | .leaf t => ofToken read t
  | .node c children => (ofTrees l read children).map (ofNode l c)

def ofTrees (l : Language) (read : Span → List Char → Expr) : List Tree → Except Numeral.Fault (List Piece)
  | [] => .ok []
  | t :: ts => do
    let p ← ofTree l read t
    let ps ← ofTrees l read ts
    .ok (p :: ps)

end

/-- Reads the hole of a template. It is read as if it began the line of the template, and one that
is no expression is kept as a name. A hole within a hole is shorter than it, so `depth` need not
exceed the length of the text. -/
def readHole (l : Language) : (depth : Nat) → Span → List Char → Expr
  | 0, span, source => .identifier span (String.ofList (Text.trim source))
  | depth + 1, span, source =>
    let kept := Expr.identifier span (String.ofList (Text.trim source))
    match Grammar.parse l .expression (List.replicate (span.line - 1) '\n' ++ source) with
    | .error _ => kept
    | .ok tree => match ofTree l (readHole l depth) tree with
      | .ok (expr e) => e
      | _ => kept

def read (l : Language) (c : Category) (source : List Char) : Except ReadError Piece :=
  match Grammar.parse l c source with
  | .error e => .error (.parse e)
  | .ok tree => (ofTree l (readHole l source.length) tree).mapError .numeral

end Piece

def Expr.read (l : Language) (source : List Char) : Except ReadError Expr :=
  (Piece.read l .expression source).bind fun
    | .expr e => .ok e
    | _ => .error (.parse .unexpectedEnd)

def Stmt.readAll (l : Language) (source : List Char) : Except ReadError (List Stmt) :=
  (Piece.read l .program source).map fun
    | .statements ss => ss
    | _ => []

end Blackboard.Source
