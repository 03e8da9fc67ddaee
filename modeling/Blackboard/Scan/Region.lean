import Blackboard.Language

/-!
The regions of a source text: comments, quoted literals, and single characters of code between
them. The regions of a text join to the text, and masking a text blanks what comments and literals
hold while every line and column stays where it is.
-/
namespace Blackboard.Scan

inductive Region where
  | code (c : Char)
  | lineComment (text : List Char)
  | blockComment (text : List Char) (closed : Bool)
  | quoted (quote : Char) (inner : List Char) (closed : Bool)
deriving DecidableEq, Repr

def blank (cs : List Char) : List Char := cs.map fun c => if c = '\n' then c else ' '

@[simp] theorem length_blank (cs : List Char) : (blank cs).length = cs.length := by
  simp [blank]

namespace Region

def text : Region → List Char
  | code c => [c]
  | lineComment cs => cs
  | blockComment cs _ => cs
  | quoted q cs true => q :: cs ++ [q]
  | quoted q cs false => q :: cs

def mask : Region → List Char
  | code c => [c]
  | lineComment cs => blank cs
  | blockComment cs _ => blank cs
  | quoted q cs true => q :: blank cs ++ [q]
  | quoted q cs false => blank (q :: cs)

theorem length_mask (r : Region) : r.mask.length = r.text.length := by
  cases r with
  | quoted q cs closed => cases closed <;> simp [mask, text]
  | _ => simp [mask, text]

/-- The inside of a literal, whether it is closed, and the text after it. A backslash takes the
next character along, even the end of the line. -/
def quotedBody (q : Char) (oneLine : Bool) : List Char → List Char × Bool × List Char
  | [] => ([], false, [])
  | '\\' :: c :: cs =>
    let (inner, closed, rest) := quotedBody q oneLine cs
    ('\\' :: c :: inner, closed, rest)
  | c :: cs =>
    if oneLine && c == '\n' then ([], false, c :: cs)
    else if c == q then ([], true, cs)
    else
      let (inner, closed, rest) := quotedBody q oneLine cs
      (c :: inner, closed, rest)

/-- The text up to and with the end of a block comment, whether there is an end, and the rest. -/
def commentBody : List Char → List Char × Bool × List Char
  | [] => ([], false, [])
  | '*' :: '/' :: cs => (['*', '/'], true, cs)
  | c :: cs =>
    let (inner, closed, rest) := commentBody cs
    (c :: inner, closed, rest)

def isQuote (l : Language) (c : Char) : Bool :=
  c == '"' || c == '\'' || (c == '`' && l = .typescript)

def next (l : Language) (c : Char) (cs : List Char) : Region × List Char :=
  match c, cs with
  | '/', '/' :: rest =>
    let (text, rest) := rest.span (· != '\n')
    (lineComment ('/' :: '/' :: text), rest)
  | '/', '*' :: rest =>
    let (text, closed, rest) := commentBody rest
    (blockComment ('/' :: '*' :: text) closed, rest)
  | c, cs =>
    if isQuote l c then
      let (inner, closed, rest) := quotedBody c (c != '`') cs
      (quoted c inner closed, rest)
    else (code c, cs)

/-- The regions of a text. Every region takes a character, so `fuel` need not exceed the length of
the text. -/
def split (l : Language) : (fuel : Nat) → List Char → List Region
  | 0, _ => []
  | _ + 1, [] => []
  | fuel + 1, c :: cs =>
    let (region, rest) := next l c cs
    region :: split l fuel rest

end Region

def regions (l : Language) (cs : List Char) : List Region := Region.split l cs.length cs

def mask (l : Language) (cs : List Char) : List Char := (regions l cs).flatMap Region.mask

end Blackboard.Scan
