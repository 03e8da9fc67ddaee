import Blackboard.Conversion.Statement
import Blackboard.Input
import Blackboard.Path
import Blackboard.Pseudo.Layout
import Blackboard.Source.Recovery

/-! The way from a source text to pseudocode, stage by stage. -/
namespace Blackboard

inductive Stage where
  | tree | statements | text
deriving DecidableEq, Repr

namespace Stage

def name : Stage → String
  | tree => "ast"
  | statements => "ir"
  | text => "pseudocode"

def all : List Stage := [tree, statements, text]

def ofName? (s : String) : Option Stage := all.find? (·.name == s)

end Stage

/-- What a run has produced: the later parts are missing if it stopped before, or could not go on. -/
structure Outcome where
  language : Language
  source : String
  program : Source.Program
  readRemarks : List Diagnostic
  converted : Option Conversion.Result := none
  written : Option (String × List Diagnostic) := none
  fault : Option Conversion.Fault := none

namespace Outcome

def diagnostics (o : Outcome) : List Diagnostic :=
  o.readRemarks ++ (o.converted.map (·.diagnostics)).getD [] ++ (o.written.map (·.2)).getD []

def text (o : Outcome) : String := (o.written.map (·.1)).getD ""

def success (o : Outcome) : Bool := Diagnostic.count o.diagnostics .error == 0

def stages (o : Outcome) : List Stage :=
  .tree :: ((o.converted.map fun _ => .statements).toList ++ (o.written.map fun _ => .text).toList)

def inputLines (o : Outcome) : Nat := (Text.lines o.source.toList).length

def outputLines (o : Outcome) : Nat := (Text.lines o.text.toList).length

def statementCount (o : Outcome) : Nat := (o.converted.map fun r => Pseudo.Stmt.countAll r.body).getD 0

def failure? (o : Outcome) : Option String :=
  o.fault.map fun f => "An unexpected internal error occurred: " ++ f.message

end Outcome

namespace Pipeline

def write (options : Options) (o : Outcome) (r : Conversion.Result) : Outcome :=
  { o with converted := some r
           written := some (Pseudo.generate options r.structuralErrors r.body) }

def convert (options : Options) (l : Language) (stopAfter : Option Stage) (source : String) :
    Outcome :=
  let (p, remarks) := Source.Program.read l source.toList
  let o : Outcome := { language := l, source := source, program := p, readRemarks := remarks }
  if stopAfter = some .tree then o
  else match Conversion.run options.maxNestingDepth p with
    | .error f => { o with fault := some f }
    | .ok r => if stopAfter = some .statements then { o with converted := some r }
      else write options o r

def stdinName : String := "<stdin>"

def run (options : Options) (l : Language) (path : Option String) (stopAfter : Option Stage)
    (input : Input) : Except Rejection Outcome := do
  let source ← input.validate options (some (path.getD stdinName))
  return convert options l stopAfter source

end Pipeline

end Blackboard
