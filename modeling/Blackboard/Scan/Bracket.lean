import Blackboard.Diagnostic
import Blackboard.Scan.Region

/-!
Faults in the structure of a source text: brackets that do not match, literals and comments that do
not end.
-/
namespace Blackboard.Scan

open Source

def closing? : Char → Option Char
  | '(' => some ')'
  | '[' => some ']'
  | '\x7b' => some '\x7d'
  | _ => none

def isOpening (c : Char) : Bool := (closing? c).isSome

def isClosing (c : Char) : Bool := c == ')' || c == ']' || c == '\x7d'

/-- The open brackets, the innermost first, and the faults found so far, the last first. -/
structure Nesting where
  here : Position
  opened : List (Char × Position)
  faults : List Diagnostic

namespace Nesting

def empty : Nesting := ⟨.start, [], []⟩

def fault (n : Nesting) (c : Cause) : Nesting :=
  { n with faults := .atPosition n.here .error c :: n.faults }

def bracket (n : Nesting) (c : Char) : Nesting :=
  if isOpening c then { n with opened := (c, n.here) :: n.opened }
  else if isClosing c then
    match n.opened with
    | [] => n.fault (.unmatchedBracket c.toString)
    | (o, _) :: opened =>
      let n := { n with opened := opened }
      match closing? o with
      | some e => if e = c then n else n.fault (.mismatchedBracket e.toString c.toString)
      | none => n
  else n

def openLiteral (l : Language) (q : Char) : Cause :=
  if q = '`' then .unterminatedTemplate
  else if q = '\'' && l = .java then .unterminatedChar
  else .unterminatedString

def region (l : Language) (n : Nesting) (r : Region) : Nesting :=
  let n := match r with
    | .code c => n.bracket c
    | .blockComment _ false => n.fault .unterminatedComment
    | .quoted q _ false => n.fault (openLiteral l q)
    | _ => n
  { n with here := n.here.afterAll r.text }

/-- All faults: first those in the order of the text, then the brackets left open, outermost
first. -/
def finish (n : Nesting) : List Diagnostic :=
  n.faults.reverse ++ n.opened.reverse.map fun (c, p) =>
    .atPosition p .error (.unclosedBracket c.toString)

end Nesting

def structuralFaults (l : Language) (cs : List Char) : List Diagnostic :=
  ((regions l cs).foldl (Nesting.region l) .empty).finish

end Blackboard.Scan
