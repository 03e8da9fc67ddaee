import Blackboard.CommandLine.Arguments
import Blackboard.Files
import Blackboard.Pseudo.Record
import Blackboard.Source.Record

/-!
A run of the command: from arguments and files to what is printed and written. Pseudocode goes to
the output, and everything else that is told goes to the error output.
-/
namespace Blackboard.CommandLine

structure Invocation where
  arguments : List String
  /-- the standard input, and whether it is a terminal -/
  input : String := ""
  isTerminal : Bool := false
  /-- the directory that relative paths start from -/
  directory : String
  files : Files := []

inductive Content where
  | text (s : String)
  | json (j : Json)

structure Report where
  output : String := ""
  /-- the lines of the error output -/
  messages : List String := []
  writes : List (String × Content) := []
  /-- the exit status, or what went wrong with a file -/
  status : Except FileFault Nat := .ok 0
  /-- whether the time of the run is told at the end -/
  timed : Bool := false

namespace Color

def red : String := "\x1b[91m"
def green : String := "\x1b[92m"
def yellow : String := "\x1b[93m"
def cyan : String := "\x1b[96m"
def reset : String := "\x1b[0m"

def ofSeverity : Severity → String
  | .error => red
  | .warning => yellow
  | .info => cyan

def paint (color text : String) : String := color ++ text ++ reset

end Color

open Color

namespace Report

def errorText (r : Report) (elapsed : String) : String :=
  let last := if r.timed
    then ["\n" ++ paint cyan ("--- Total Execution Time: " ++ elapsed ++ " seconds ---")] else []
  String.join ((r.messages ++ last).map (· ++ "\n"))

def refused (m : Misuse) : Report :=
  { messages := ["pseudoc: error: " ++ m.message], status := .ok 2 }

def usage : String :=
  "usage: pseudoc [-h] [-l LANGUAGE] [-o OUTPUT_FILE] [--indent INDENT] [--no-comments] " ++
    "[--strict] [-c \x7bast,ir,pseudocode\x7d] [--diagnostics] [--verbose] [input_file]\n"

end Report

def given? (s : Option String) : Option String := s.filter (· != "")

/-- The name of the source language: as given, or as the extension of the input file tells. -/
def languageName? (s : Settings) : Option String :=
  given? s.language <|>
    (given? s.inputFile).bind fun f => (Language.ofExtension? (Path.splitExtension f).2).map (·.name)

def inputPath? (inv : Invocation) (s : Settings) : Option String :=
  (given? s.inputFile).map (Path.absolute inv.directory)

def inputName (s : Settings) : String := (given? s.inputFile).getD "stdin"

def artifactPath (inv : Invocation) (s : Settings) (stage : Stage) : String :=
  let base := match inputPath? inv s with
    | some path => (Path.splitExtension path).1
    | none => Path.absolute inv.directory "stdin_output"
  base ++ "." ++ stage.name ++ ".json"

def outputPath? (inv : Invocation) (s : Settings) : Option String :=
  (given? s.output).map (Path.absolute inv.directory)

def paths (inv : Invocation) (s : Settings) : List String :=
  let ends := (inputPath? inv s).toList ++ (outputPath? inv s).toList ++ (s.stage.map (artifactPath inv s)).toList
  ends.flatMap fun p => p :: Path.ancestors p

def artifact (o : Outcome) (path : Option String) : Stage → Option Json
  | .tree => some (.object [
    ("tree", o.program.toJson (Source.Span.toJson path)),
    ("diagnostics", .array (o.readRemarks.map Diagnostic.toJson))])
  | .statements => o.converted.map fun r => .object [
    ("ir", r.program.toJson), ("diagnostics", .array (r.diagnostics.map Diagnostic.toJson))]
  | .text => o.written.map fun (text, _) => .string text

def artifactWrites (inv : Invocation) (s : Settings) (o : Outcome) (stage : Stage) : List (String × Content) :=
  let path := artifactPath inv s stage
  match artifact o (inputPath? inv s) stage, inv.files.writeFault? path with
  | some j, none => [(path, .json j)]
  | _, _ => []

def rejectedLines (r : Rejection) : List String :=
  ["\n" ++ paint red ("--- CONVERSION ERROR ---\n" ++ r.message)]

def failedLines (message : String) : List String :=
  ["\n" ++ paint red "--- UNEXPECTED CONVERTER ERROR ---",
    "This may be a bug in the converter. Please report it.", "InternalCompilerError: " ++ message]

def remarkLines (s : Settings) (ds : List Diagnostic) : List String :=
  (ds.filter fun d => d.isError || s.diagnostics).map fun d => paint (ofSeverity d.severity) d.text

def closingLine (o : Outcome) : String :=
  "\n" ++ if o.success then paint green "--- Conversion Successful ---"
    else paint red "--- Conversion finished with errors ---"

def reportStage (inv : Invocation) (s : Settings) (o : Outcome) (stage : Stage) : Report :=
  { messages := ["\n" ++ paint green ("--- Conversion to stage '" ++ stage.name ++
      "' successful ---")]
    writes := artifactWrites inv s o stage }

def reportText (inv : Invocation) (s : Settings) (o : Outcome) : Report :=
  let remarks := remarkLines s o.diagnostics
  let status : Except FileFault Nat := .ok (if o.success then 0 else 1)
  match outputPath? inv s with
  | none => { output := o.text, messages := remarks ++ [closingLine o], status := status }
  | some path => match inv.files.makeFault? path with
    | some fault => { messages := remarks, status := .error fault }
    | none =>
      { messages := remarks ++ ["Pseudocode written to " ++ path, closingLine o]
        writes := [(path, .text o.text)], status := status }

def reportOutcome (inv : Invocation) (s : Settings) (o : Outcome) : Report :=
  match o.failure?, s.stage with
  | some message, _ => { messages := failedLines message, status := .ok 1 }
  | none, some stage => reportStage inv s o stage
  | none, none => reportText inv s o

def convertSource (inv : Invocation) (s : Settings) (name source : String) : Report :=
  let path := inputPath? inv s
  let outcome := do
    let l ← Language.resolve path (some name)
    Pipeline.run s.options l path s.stage (.text source)
  match outcome with
  | .error r => { messages := rejectedLines r, status := .ok 1 }
  | .ok o => reportOutcome inv s o

def readSource (inv : Invocation) (s : Settings) : Except FileFault String :=
  match inputPath? inv s with
  | some path => inv.files.read path
  | none => .ok inv.input

def convertInput (inv : Invocation) (s : Settings) (name : String) : Report :=
  let inputFile := inputName s
  let r := match readSource inv s with
    | .ok source => convertSource inv s name source
    | .error .notFound =>
      { messages := [paint red ("ERROR: Source file '" ++ inputFile ++ "' not found.")]
        status := .ok 1 }
    | .error fault => { status := .error fault }
  { r with messages := ("--- Converting " ++ inputFile ++ " ---") :: r.messages, timed := true }

def run (inv : Invocation) : Report :=
  match parse inv.arguments with
  | .error m => .refused m
  | .ok s =>
    if s.help then { output := Report.usage }
    else if (given? s.inputFile).isNone && inv.isTerminal then .refused .noInput
    else match languageName? s with
      | none => .refused .noLanguage
      | some name => convertInput inv s name

end Blackboard.CommandLine
