import Blackboard.Language
import Blackboard.Text.Digit

/-!
Lexemes: what each kind of token, blank or comment takes from the front of a text. Each function
returns the characters taken and the rest, and what it takes is never empty.
-/
namespace Blackboard.Lexeme

/-- The characters taken from a text and the characters left. -/
abbrev Cut := List Char × List Char

def isNameStart (c : Char) : Bool := c.isAlpha || c == '_' || c == '$'

def isNamePart (c : Char) : Bool := c.isAlphanum || c == '_' || c == '$'

def name? : List Char → Option Cut
  | [] => none
  | c :: cs =>
    if isNameStart c then
      let (run, rest) := cs.span isNamePart
      some (c :: run, rest)
    else none

def isSpace (c : Char) : Bool :=
  c == ' ' || c == '\t' || c == '\x0c' || c == '\r' || c == '\n'

def space? (cs : List Char) : Option Cut :=
  match cs.span isSpace with
  | ([], _) => none
  | cut => some cut

def lineComment? : List Char → Option Cut
  | '/' :: '/' :: cs =>
    let (run, rest) := cs.span (· != '\n')
    some ('/' :: '/' :: run, rest)
  | _ => none

def throughCommentEnd : List Char → Option Cut
  | [] => none
  | '*' :: '/' :: rest => some (['*', '/'], rest)
  | c :: cs => (throughCommentEnd cs).map fun (run, rest) => (c :: run, rest)

def blockComment? : List Char → Option Cut
  | '/' :: '*' :: cs =>
    (throughCommentEnd cs).map fun (run, rest) => ('/' :: '*' :: run, rest)
  | _ => none

/-- Everything up to and including the closing delimiter `q`. A backslash takes the next character
with it. Unless `multiline`, neither a bare nor an escaped line feed is allowed. -/
def throughDelimiter (q : Char) (multiline : Bool) : List Char → Option Cut
  | [] => none
  | '\\' :: c :: cs =>
    if c = '\n' && !multiline then none
    else (throughDelimiter q multiline cs).map fun (run, rest) => ('\\' :: c :: run, rest)
  | c :: cs =>
    if c = q then some ([c], cs)
    else if c = '\\' || (c = '\n' && !multiline) then none
    else (throughDelimiter q multiline cs).map fun (run, rest) => (c :: run, rest)

def quoted? (q : Char) (multiline : Bool) : List Char → Option Cut
  | [] => none
  | c :: cs =>
    if c = q then (throughDelimiter q multiline cs).map fun (run, rest) => (c :: run, rest)
    else none

def isDigitPart (c : Char) : Bool := Text.isDigit c || c == '_'

def isHexPart (c : Char) : Bool := (Text.hexValue? c).isSome || c == '_'

def optional (p : Char → Bool) : List Char → Cut
  | c :: cs => if p c then ([c], cs) else ([], c :: cs)
  | [] => ([], [])

def hexadecimal? : List Char → Option Cut
  | '0' :: x :: cs =>
    if x = 'x' || x = 'X' then
      match cs.span isHexPart with
      | ([], _) => none
      | (run, rest) => some ('0' :: x :: run, rest)
    else none
  | _ => none

def fraction? : List Char → Option Cut
  | '.' :: d :: cs =>
    if Text.isDigit d then
      let (run, rest) := cs.span isDigitPart
      some ('.' :: d :: run, rest)
    else none
  | _ => none

def whole? : List Char → Option Cut
  | [] => none
  | d :: cs =>
    if Text.isDigit d then
      let (run, rest) := cs.span isDigitPart
      some (d :: run, rest)
    else none

def decimal? (cs : List Char) : Option Cut :=
  match whole? cs with
  | none => fraction? cs
  | some (run, rest) =>
    match fraction? rest with
    | some (run', rest') => some (run ++ run', rest')
    | none =>
      let (point, rest') := optional (· == '.') rest
      some (run ++ point, rest')

def exponent (cs : List Char) : Cut :=
  match optional (fun c => c == 'e' || c == 'E') cs with
  | ([], _) => ([], cs)
  | (mark, rest) =>
    let (sign, rest) := optional (fun c => c == '+' || c == '-') rest
    match rest.span Text.isDigit with
    | ([], _) => ([], cs)
    | (run, rest) => (mark ++ sign ++ run, rest)

def isSuffix : Language → Char → Bool
  | .java, c => "lLfFdD".toList.contains c
  | .typescript, c => c == 'n'

/-- A hexadecimal literal ends at its digits in TypeScript; in Java it may be marked long. -/
def number? (l : Language) (cs : List Char) : Option Cut :=
  match hexadecimal? cs with
  | some (run, rest) =>
    let (mark, rest) := optional (fun c => l == .java && (c == 'l' || c == 'L')) rest
    some (run ++ mark, rest)
  | none =>
    (decimal? cs).map fun (run, rest) =>
      let (power, rest) := exponent rest
      let (mark, rest) := optional (isSuffix l) rest
      (run ++ power ++ mark, rest)

def word? : List Char → List Char → Option Cut
  | [], cs => some ([], cs)
  | _ :: _, [] => none
  | w :: ws, c :: cs =>
    if w = c then (word? ws cs).map fun (run, rest) => (c :: run, rest) else none

end Blackboard.Lexeme
