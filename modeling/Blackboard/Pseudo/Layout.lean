import Blackboard.Diagnostic
import Blackboard.Options
import Blackboard.Pseudo.Printer
import Blackboard.Pseudo.Stmt

/-!
The text of pseudocode programs. A program is first flattened into lines that know what they do to
the indentation; a single counter of open blocks then indents them.
-/
namespace Blackboard.Pseudo

inductive Role where
  | opener | closer | continuation | plain | blank
deriving DecidableEq, Repr

structure Line where
  role : Role
  text : String
deriving DecidableEq, Repr

namespace Form

def role : Form → Role
  | procedure .. | function .. | ifThen _ | while_ _ | for_ .. | repeatUntil _ | caseOf _ => .opener
  | elseIf _ | else_ | caseBranch .. | otherwise _ => .continuation
  | _ => .plain

def paramTexts (ps : List Param) : String :=
  ", ".intercalate (ps.map fun p => p.name ++ " : " ++ p.type)

def exprTexts (es : List Expr) : String := ", ".intercalate (es.map (·.text))

def header : Form → String
  | program .. => ""
  | variable_ name type => "DECLARE " ++ name ++ " : " ++ type
  | constant name value => "CONSTANT " ++ name ++ " ← " ++ value.text
  | class_ name => "// " ++ name ++ " class"
  | procedure name ps => "PROCEDURE " ++ name ++ "(" ++ paramTexts ps ++ ")"
  | function name ps returns =>
    "FUNCTION " ++ name ++ "(" ++ paramTexts ps ++ ") RETURNS " ++ returns
  | ifThen e => "IF " ++ e.text ++ " THEN"
  | elseIf e => "ELSE IF " ++ e.text ++ " THEN"
  | else_ => "ELSE"
  | while_ e => "WHILE " ++ e.text ++ " DO"
  | for_ name start stop step =>
    "FOR " ++ name ++ " ← " ++ start.text ++ " TO " ++ stop.text ++ match step with
      | some e => " STEP " ++ e.text
      | none => ""
  | repeatUntil _ => "REPEAT"
  | caseOf e => "CASE OF " ++ e.text
  | caseBranch labels _ => exprTexts labels ++ ":"
  | otherwise _ => "OTHERWISE"
  | assign target value => target.text ++ " ← " ++ value.text
  | output items => "OUTPUT " ++ exprTexts items
  | input e => "INPUT " ++ e.text
  | call e => "CALL " ++ e.text
  | return_ none => "RETURN"
  | return_ (some e) => "RETURN " ++ e.text
  | expression e => e.text
  | comment text _ => "// " ++ text
  | unparsed _ message => "// Could not convert: " ++ message

def closer : Form → String
  | procedure .. => "ENDPROCEDURE"
  | function .. => "ENDFUNCTION"
  | ifThen _ => "ENDIF"
  | while_ _ => "ENDWHILE"
  | for_ name .. => "NEXT " ++ name
  | repeatUntil e => "UNTIL " ++ e.text
  | caseOf _ => "ENDCASE"
  | _ => ""

def kept : Form → List String
  | unparsed text _ =>
    (Text.lines text.toList).map fun cs => "//   " ++ String.ofList (Text.trimEnd cs)
  | _ => []

def isAnnotation : Form → Bool
  | comment _ annotates => annotates
  | _ => false

def isClass : Form → Bool
  | class_ _ => true
  | _ => false

def noteRole (f : Form) : Role := if f.role = .continuation then .continuation else .plain

def opening (f : Form) : List Line :=
  ⟨f.role, f.header⟩ :: f.kept.map (⟨.plain, ·⟩)

def closing (f : Form) : List Line :=
  if f.role = .opener then [⟨.closer, f.closer⟩] else []

end Form

namespace Stmt

def noteLines (annotated : Bool) (f : Form) (notes : List String) : List Line :=
  if annotated then notes.map fun n => ⟨f.noteRole, "// " ++ n⟩ else []

/-- An empty line between two statements of which one is a callable, where those are separated. -/
def separator (separate : Bool) (previous : Option Form) (next : Form) : List Line :=
  match separate, previous with
  | true, some f => if next.isCallable || f.isCallable then [⟨.blank, ""⟩] else []
  | _, _ => []

mutual

def lines (annotated : Bool) : Stmt → List Line
  | mk f cs notes _ =>
    noteLines annotated f notes ++
      if f.isAnnotation && !annotated then []
      else f.opening ++ linesOf annotated f.isClass none cs ++ f.closing

def linesOf (annotated separate : Bool) (previous : Option Form) : List Stmt → List Line
  | [] => []
  | mk f cs notes l :: ss =>
    separator separate previous f ++ lines annotated (mk f cs notes l) ++ linesOf annotated separate (some f) ss

end

end Stmt

namespace Layout

def spaces (n : Nat) : List Char := List.replicate n ' '

def indented (width level : Nat) (text : String) : String :=
  String.ofList (Text.trimEnd (spaces (width * level) ++ text.toList))

/-- Lays out lines when `level` blocks are open. `last` is the line before, and empty at first. -/
def formatFrom (width : Nat) : (level : Nat) → (last : String) → List Line → List String
  | _, _, [] => []
  | level, last, ⟨.blank, _⟩ :: ls =>
    if last = "" then formatFrom width level last ls else "" :: formatFrom width level "" ls
  | level, _, ⟨.opener, t⟩ :: ls =>
    let line := indented width level t
    line :: formatFrom width (level + 1) line ls
  | level, _, ⟨.closer, t⟩ :: ls =>
    let line := indented width (level - 1) t
    line :: formatFrom width (level - 1) line ls
  | level, _, ⟨.continuation, t⟩ :: ls =>
    let line := indented width (level - 1) t
    line :: formatFrom width level line ls
  | level, _, ⟨.plain, t⟩ :: ls =>
    let line := indented width level t
    line :: formatFrom width level line ls

def dropEmptyEnd (lines : List String) : List String := (lines.reverse.dropWhile (· == "")).reverse

def format (width : Int) (lines : List Line) : List String :=
  dropEmptyEnd (formatFrom width.toNat 0 "" lines)

/-- The lines of a program: the faults of the source first, then the statements, callables set
apart. -/
def programLines (annotated : Bool) (errors : List String) (body : List Stmt) : List Line :=
  errors.map (fun e => ⟨.plain, "// " ++ e⟩) ++ Stmt.linesOf annotated true none body

def join (lines : List String) : String :=
  if lines.isEmpty then "" else "\n".intercalate lines ++ "\n"

def remark? : Expr → Option Diagnostic
  | .identifier name (some false) line | .call name _ (some false) line =>
    some { cause := .undeclared name, line := line }
  | .method name _ _ true line => some { cause := .passThroughCall name, line := line }
  | _ => none

def firstUndeclared : (reported : List String) → List Diagnostic → List Diagnostic
  | _, [] => []
  | reported, d :: ds => match d.cause with
    | .undeclared name =>
      if reported.contains name then firstUndeclared reported ds
      else d :: firstUndeclared (name :: reported) ds
    | _ => d :: firstUndeclared reported ds

def longLines (limit : Int) : (number : Nat) → List String → List Diagnostic
  | _, [] => []
  | number, s :: ss =>
    let rest := longLines limit (number + 1) ss
    if s.length > limit then
      { cause := .lineTooLong number s.length limit, line := some number } :: rest
    else rest

def strictRemarks (options : Options) (body : List Stmt) (lines : List String) : List Diagnostic :=
  firstUndeclared [] ((Expr.nodesOf (Stmt.expressionsOf body)).filterMap remark?) ++
    longLines options.maxLineLength 1 lines

end Layout

def generate (options : Options) (errors : List String) (body : List Stmt) : String × List Diagnostic :=
  let lines := Layout.format options.indentWidth (Layout.programLines options.annotationComments errors body)
  (Layout.join lines, if options.strict then Layout.strictRemarks options body lines else [])

end Blackboard.Pseudo
