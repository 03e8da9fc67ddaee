import Blackboard.Number.Whole
import Blackboard.Pipeline
import Blackboard.Text.Quoted

/-! The options of the command line. -/
namespace Blackboard.CommandLine

inductive Flag where
  | help | language | output | indent | noComments | strict | compile | diagnostics | verbose
deriving DecidableEq, Repr

namespace Flag

def all : List Flag :=
  [help, language, output, indent, noComments, strict, compile, diagnostics, verbose]

def names : Flag → List String
  | help => ["-h", "--help"]
  | language => ["-l", "--language"]
  | output => ["-o", "--output"]
  | indent => ["--indent"]
  | noComments => ["--no-comments"]
  | strict => ["--strict"]
  | compile => ["-c", "--compile"]
  | diagnostics => ["--diagnostics"]
  | verbose => ["--verbose"]

def takesValue : Flag → Bool
  | language | output | indent | compile => true
  | _ => false

def spellings : List (String × Flag) := all.flatMap fun f => f.names.map (·, f)

def ofName? (s : String) : Option Flag := spellings.lookup s

end Flag

inductive Misuse where
  | expectedValue (flag : Flag)
  | ignoredValue (flag : Flag) (value : String)
  | invalidInt (value : String)
  | invalidChoice (value : String)
  | ambiguous (word : String) (matching : List String)
  | unrecognized (words : List String)
  | noInput
  | noLanguage
deriving DecidableEq, Repr

namespace Misuse

def about (flag : Flag) (text : String) : String :=
  "argument " ++ "/".intercalate flag.names ++ ": " ++ text

def message : Misuse → String
  | expectedValue flag => about flag "expected one argument"
  | ignoredValue flag value => about flag ("ignored explicit argument " ++ Text.quoted value)
  | invalidInt value => about .indent ("invalid int value: " ++ Text.quoted value)
  | invalidChoice value =>
    about .compile ("invalid choice: " ++ Text.quoted value ++ " (choose from " ++
      ", ".intercalate (Stage.all.map fun s => Text.quoted s.name) ++ ")")
  | ambiguous word matching =>
    "ambiguous option: " ++ word ++ " could match " ++ ", ".intercalate matching
  | unrecognized words => "unrecognized arguments: " ++ " ".intercalate words
  | noInput => "input_file is required when not reading from a pipe."
  | noLanguage => "could not infer the source language; pass -l/--language."

end Misuse

structure Settings where
  inputFile : Option String := none
  language : Option String := none
  output : Option String := none
  indent : Option Int := none
  stage : Option Stage := none
  noComments : Bool := false
  strict : Bool := false
  diagnostics : Bool := false
  help : Bool := false
deriving DecidableEq, Repr

namespace Settings

def switchOn (s : Settings) : Flag → Settings
  | .noComments => { s with noComments := true }
  | .strict => { s with strict := true }
  | .diagnostics => { s with diagnostics := true }
  | .help => { s with help := true }
  | _ => s

def set (s : Settings) (flag : Flag) (value : String) : Except Misuse Settings :=
  match flag with
  | .language => .ok { s with language := some value }
  | .output => .ok { s with output := some value }
  | .indent => match Whole.read? value with
    | some n => .ok { s with indent := some n }
    | none => .error (.invalidInt value)
  | .compile => match Stage.ofName? value with
    | some stage => .ok { s with stage := some stage }
    | none => .error (.invalidChoice value)
  | flag => .ok (s.switchOn flag)

def options (s : Settings) : Options :=
  { indentWidth := s.indent.getD ({} : Options).indentWidth
    annotationComments := !s.noComments
    strict := s.strict }

end Settings

end Blackboard.CommandLine
