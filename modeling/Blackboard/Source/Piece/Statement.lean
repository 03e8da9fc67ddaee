import Blackboard.Source.Piece
import Blackboard.Grammar.Category

/-! Statements put together from their pieces. -/
namespace Blackboard.Source.Piece

open Grammar

def meaningful (items : List Piece) : List Stmt :=
  (items.filterMap stmt?).filter (!·.isEmpty)

/-- The cases of a switch, of which the last stands first in `done`. Labels with nothing between
them share a body; statements before the first label are dropped. -/
def switchCases : List SwitchCase → List Piece → List SwitchCase
  | done, [] => done.reverse
  | done, label e span :: rest => match done with
    | ⟨s, labels, []⟩ :: before => switchCases (⟨s, labels ++ [e], []⟩ :: before) rest
    | _ => switchCases (⟨span, [e], []⟩ :: done) rest
  | done, stmt s :: rest => match done with
    | c :: before => switchCases ({ c with body := c.body ++ [s] } :: before) rest
    | [] => switchCases [] rest
  | done, _ :: rest => switchCases done rest

def forStatement (items : List Piece) : Option Piece := do
  let body ← items.getLast?.bind stmt?
  let decl := (items.filterMap fun | forDeclaration v => some v | _ => none).getLast?
  let init := ((items.filterMap fun | forExpressions es => some es | _ => none).getLast?).getD []
  let cond := (items.filterMap fun | condition e => some e | _ => none).getLast?
  let upd := ((items.filterMap fun | update es => some es | _ => none).getLast?).getD []
  some (stmt (.forLoop (spanOf items) decl init cond upd body))

def forEach (overKeys : Bool) (items : List Piece) : Option Piece := do
  let name ← (names items).head?
  let body ← items.getLast?.bind stmt?
  let iterable ← items.dropLast.getLast?.bind expr?
  some (stmt (.forEach (spanOf items) name (items.filterMap type?).head? iterable overKeys body))

def tryStatement (items : List Piece) : Option Piece := do
  let block ← (items.filterMap block?).head?
  let opened := ((items.filterMap fun | resources vs => some vs | _ => none).getLast?).getD []
  some (stmt (.tryStmt (spanOf items) { block with statements := opened ++ block.statements }
    (items.filterMap handler?) (finalizerOf items)))

def catchClause (l : Language) (items : List Piece) : Option Piece := do
  let body ← items.getLast?.bind block?
  let types := items.filterMap type?
  match l with
  | .java => some (handler ⟨spanOf (items.drop 1), (names items).getLast?, types, body⟩)
  | .typescript => some (handler ⟨spanOf items, (names items).head?, types, body⟩)

def resource : List Piece → Option Piece
  | [_, type t, token n, expr e] => some (stmt (.varDecl
    { span := t.span.cover e.span,
      declarators := [{ span := n.span.cover e.span, name := n.text, init := some e }],
      type := some t }))
  | _ => none

def statementOfNode (l : Language) (c : Category) (items : List Piece) : Option Piece :=
  let span := spanOf items
  match c, items with
  | .program, _ => some (statements (meaningful items))
  | .block, _ | .arrowBlock, _ => some (stmt (.block ⟨span, meaningful items⟩))
  | .emptyStatement, _ => some (stmt (.empty span))
  | .expressionStatement, [expr e] => some (stmt (.expression span e))
  | .ifStatement, expr e :: stmt yes :: rest =>
    some (stmt (.ifElse span e yes (rest.head?.bind stmt?)))
  | .whileStatement, [expr e, stmt s] => some (stmt (.whileLoop span e s))
  | .doStatement, [stmt s, expr e] => some (stmt (.doLoop span s e))
  | .forInit, [stmt (.varDecl v)] => some (forDeclaration v)
  | .forInit, _ => some (forExpressions (items.filterMap expr?))
  | .forCondition, [expr e] => some (condition e)
  | .forUpdate, _ => some (update (items.filterMap expr?))
  | .forStatement, _ => forStatement items
  | .forEachStatement, _ => forEach false (items.drop 1)
  | .forOfStatement, _ => forEach false items
  | .forInStatement, _ => forEach true items
  | .caseLabel, [expr e] => some (label (some e) e.span)
  | .defaultLabel, token t :: _ => some (label none t.span)
  | .switchStatement, expr e :: rest => some (stmt (.switch span e (switchCases [] rest)))
  | .returnStatement, _ :: rest => some (stmt (.returnStmt span (rest.head?.bind expr?)))
  | .breakStatement, _ :: rest => some (stmt (.breakStmt span (names rest).head?))
  | .continueStatement, _ :: rest => some (stmt (.continueStmt span (names rest).head?))
  | .throwStatement, [expr e] => some (stmt (.throwStmt span e))
  | .tryStatement, _ => tryStatement items
  | .resourceSpecification, _ => some (resources (items.filterMap stmt?))
  | .resource, _ => resource items
  | .catchClause, _ => catchClause l items
  | .finallyClause, [stmt (.block b)] => some (finalizer b)
  | .destructuringStatement, token t :: pattern isArray names :: rest => do
    let init ← rest.getLast?.bind expr?
    some (stmt (.destructuring span isArray names init (VarKind.ofTerminal? t.terminal)))
  | _, _ => none

end Blackboard.Source.Piece
