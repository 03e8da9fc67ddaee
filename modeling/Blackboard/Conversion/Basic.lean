import Blackboard.Conversion.Inference
import Blackboard.Options
import Blackboard.Pseudo.Printer
import Blackboard.Pseudo.Stmt

/-!
The state of a conversion, and the steps that all conversions are made of. What holds only inside a
construct is read from a context; what lasts is kept in a state.
-/
namespace Blackboard.Conversion

open Pseudo (Kind)
open Source (Span)

inductive Breakable where
  | loop | switch
deriving DecidableEq, Repr

structure Owner where
  name : String
  superclass : Option String
deriving DecidableEq, Repr

structure Context where
  language : Language
  /-- how deeply scopes may nest -/
  limit : Nat
  /-- the kind of the innermost statement -/
  statement : String := "program"
  enclosing : Option Breakable := none
  owner : Option Owner := none
  /-- whether counters are to be read as the source reads them, from zero -/
  zeroBased : Bool := false
deriving DecidableEq, Repr

structure State where
  scopes : Scopes := {}
  diagnostics : List Diagnostic := []
  /-- notes for the statement that is being converted -/
  notes : List String := []
  typeNames : List String := []
  enumNames : List String := []

inductive Fault where
  | tooManyDigits
deriving DecidableEq, Repr

def Fault.message : Fault → String
  | tooManyDigits =>
    s!"Exceeds the limit ({digitLimit} digits) for integer string conversion; use " ++
      "sys.set_int_max_str_digits() to increase the limit"

end Conversion

/-- A step of a conversion. -/
abbrev Convert := ReaderT Conversion.Context (StateT Conversion.State (Except Conversion.Fault))

namespace Convert

open Conversion
open Pseudo (Kind)
open Source (Span)

def view : Convert View := do
  let s ← get
  return { language := (← read).language, scopes := s.scopes, enumNames := s.enumNames }

def findVariable? (name : String) : Convert (Option Variable) := do
  return (← get).scopes.findVariable? name

def findCallable? (name : String) : Convert (Option Procedure) := do
  return (← get).scopes.findCallable? name

def modifyScopes (f : Scopes → Scopes) : Convert Unit :=
  modify fun s => { s with scopes := f s.scopes }

def declareVariable (v : Variable) : Convert Unit := modifyScopes (·.declareVariable v)

def declareCallable (p : Procedure) : Convert Unit := modifyScopes (·.declareCallable p)

def report (d : Diagnostic) : Convert Unit :=
  modify fun s => { s with diagnostics := s.diagnostics ++ [d] }

def warn (span : Span) (cause : Cause) : Convert Unit := report (.at_ span .warning cause)

def inform (span : Span) (cause : Cause) : Convert Unit := report (.at_ span .info cause)

def note (text : String) : Convert Unit := modify fun s => { s with notes := s.notes ++ [text] }

def addTypeName (name : String) : Convert Unit :=
  modify fun s => { s with typeNames := name :: s.typeNames }

def addEnumName (name : String) : Convert Unit :=
  modify fun s => { s with enumNames := name :: s.enumNames }

def simplify (span : Span) (construct details : String) : Convert Unit :=
  inform span (.simplified construct details)

def simplifyWarn (span : Span) (construct details : String) : Convert Unit :=
  warn span (.simplified construct details)

def written (e : Pseudo.Expr) : Convert Pseudo.Expr :=
  if e.writable then pure e else throw .tooManyDigits

def addOffset (e : Pseudo.Expr) (k : Int) : Convert Pseudo.Expr := written (e.addOffset k)

def zeroBased {α : Type} (act : Convert α) : Convert α :=
  withReader (fun c => { c with zeroBased := true }) act

def inside {α : Type} (b : Breakable) (act : Convert α) : Convert α :=
  withReader (fun c => { c with enclosing := some b }) act

/-- Runs a step in a scope of its own. Where scopes already nest as deeply as they may it is not run,
which is remarked. -/
def inScope {α : Type} (kind : ScopeKind) (span : Span) (act : Convert α) : Convert (Option α) := do
  let limit := (← read).limit
  let scopes := (← get).scopes
  if limit ≤ scopes.depth then
    warn span (.nestingTooDeep limit)
    return none
  else
    modifyScopes (·.enter kind)
    let a ← act
    modifyScopes ({ · with current := scopes.current })
    return some a

def tooDeep (span : Span) : Convert (List Pseudo.Stmt) := do
  let limit := (← read).limit
  return [.simple (.comment s!"Code nested deeper than {limit} levels was not converted" false) (some span.line)]

def nested (span : Span) (act : Convert (List Pseudo.Stmt)) (kind : ScopeKind := .block) :
    Convert (List Pseudo.Stmt) := do
  match ← inScope kind span act with
  | some ss => return ss
  | none => tooDeep span

/-- Puts notes before the first of some statements. Where there is none they become comments. -/
def attach (notes : List String) (line : Nat) : List Pseudo.Stmt → List Pseudo.Stmt
  | [] => notes.map fun n => .comment n (some line)
  | s :: ss =>
    if notes.isEmpty then s :: ss
    else s.withNotes (notes ++ s.notes.filter fun n => !notes.contains n) :: ss

def statement (kind : String) (span : Span) (act : Convert (List Pseudo.Stmt)) : Convert (List Pseudo.Stmt) := do
  let outer := (← get).notes
  modify fun s => { s with notes := [] }
  let result ← withReader (fun c => { c with statement := kind }) act
  let notes := (← get).notes.eraseDups
  modify fun s => { s with notes := outer }
  return attach notes span.line result

end Convert

end Blackboard
