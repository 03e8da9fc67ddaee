import Blackboard.Scan.Feature
import Blackboard.Scan.Import
import Blackboard.Scan.Segment
import Blackboard.Source.Fault

/-!
Reading whole programs. A program that cannot be read as one is read statement by statement, and
statements that cannot be read are kept as text, so that every input has a program.
-/
namespace Blackboard.Source

open Scan

def Stmt.readSegment (l : Language) (source : List Char) (s : Segment) : List Stmt × Option Diagnostic :=
  let p := Position.ofOffset source s.start
  let text := (source.drop s.start).take (s.stop - s.start)
  let margin := List.replicate (p.line - 1) '\n' ++ List.replicate (p.column - 1) ' '
  match Stmt.readAll l (margin ++ text) with
  | .ok ss => (ss, none)
  | .error e =>
    let d := e.diagnostic l
    let d := if d.line.isNone then { d with line := some p.line, column := some p.column } else d
    let text := Text.trim text
    let span := ⟨p.line, p.column, p.line + text.count '\n', 1⟩
    ([.unparsed span (String.ofList text) d.message], some d)

def Stmt.recover (l : Language) (source masked : List Char) : List Stmt × List Diagnostic :=
  if source.all Text.isBlank then ([], [])
  else match Stmt.readAll l source with
    | .ok ss => (ss, [])
    | .error _ =>
      let read := (segments l masked).map (Stmt.readSegment l source)
      (read.flatMap (·.1), read.filterMap (·.2))

def Stmt.ofImport (i : Import) : Stmt :=
  let p := i.position
  .importLine ⟨p.line, p.column, p.line, p.column + i.text.length⟩ i.text

def Stmt.stands (a b : Stmt) : Bool :=
  a.span.line < b.span.line || (a.span.line == b.span.line && a.span.column ≤ b.span.column)

def Program.read (l : Language) (source : List Char) : Program × List Diagnostic :=
  let masked := mask l source
  let lifted := liftImports l source masked
  let (statements, errors) := Stmt.recover l lifted.source lifted.masked
  let body := Sorting.sortBy Stmt.stands (lifted.imports.map Stmt.ofImport ++ statements)
  let found := structuralFaults l source ++ unsupported l masked ++ errors
  let remarks := if body.all Stmt.isEmpty && !found.any Diagnostic.isError
    then found ++ [{ cause := .emptyProgram, severity := .info }] else found
  let program := {
    language := l
    span := ⟨1, 1, source.count '\n' + 1, 1⟩
    body := body
    structuralErrors := (remarks.filter Diagnostic.isStructural).map Diagnostic.text }
  (program, remarks)

end Blackboard.Source
