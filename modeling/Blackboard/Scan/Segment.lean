import Blackboard.Scan.Bracket
import Blackboard.Text.Pattern

/-!
The top-level statements of a masked text, found by their ends alone: a semicolon or a closing brace
outside all brackets and, where statements may end with a line, a line end.
-/
namespace Blackboard.Scan

structure Segment where
  start : Nat
  stop : Nat
deriving DecidableEq, Repr

namespace Segment

def nextWord (cs : List Char) : List Char :=
  match Text.trimStart cs with
  | [] => []
  | c :: rest => if Text.Pattern.isNameStart c then c :: rest.takeWhile Text.isWord else [c]

def continuesBrace (word : List Char) : Bool :=
  ["else", "catch", "finally"].any (·.toList == word)

def endings : List Char := ",=+-*/%&|<>!?:.([\x7b".toList

def starts : List Char := ".?:+-*/%&|=<>)]\x7d,(".toList

/-- What is known of a segment that has begun: its offset, its text from there on, and the last
character of it that is not blank. -/
structure Begun where
  offset : Nat
  text : List Char
  lastInk : Char

def goesOnAfterBrace (b : Begun) (rest : List Char) : Bool :=
  let following := nextWord rest
  continuesBrace following || (following == "while".toList && nextWord b.text == "do".toList) ||
    [";", ",", ".", ")"].any (·.toList == following)

def goesOnAfterLine (b : Begun) (rest : List Char) : Bool :=
  let following := nextWord rest
  endings.contains b.lastInk || (following.head?.map starts.contains).getD false ||
    continuesBrace following

def depthAfter (depth : Nat) (c : Char) : Nat :=
  if isOpening c then depth + 1 else if isClosing c then depth - 1 else depth

/-- Whether the statement ends with the character `c`, after which `depth` brackets are open, and
whether `c` belongs to it. -/
def endsWith (l : Language) (b : Begun) (depth : Nat) (c : Char) (rest : List Char) : Option Bool :=
  if depth != 0 then none
  else if c == '\x7d' then if goesOnAfterBrace b rest then none else some true
  else if c == ';' then some true
  else if c == '\n' && l = .typescript then
    if goesOnAfterLine b rest then none else some false
  else none

def splitFrom (l : Language) : (offset depth : Nat) → Option Begun → List Char → List Segment
  | _, _, none, [] => []
  | offset, _, some b, [] => [⟨b.offset, offset⟩]
  | offset, depth, begun, c :: rest =>
    if begun.isNone && Text.isBlank c then splitFrom l (offset + 1) depth none rest
    else
      let b := begun.getD ⟨offset, c :: rest, c⟩
      let depth := depthAfter depth c
      match endsWith l b depth c rest with
      | some true => ⟨b.offset, offset + 1⟩ :: splitFrom l (offset + 1) depth none rest
      | some false => ⟨b.offset, offset⟩ :: splitFrom l (offset + 1) depth none rest
      | none =>
        let b := if Text.isBlank c then b else { b with lastInk := c }
        splitFrom l (offset + 1) depth (some b) rest

end Segment

def segments (l : Language) (masked : List Char) : List Segment :=
  Segment.splitFrom l 0 0 none masked

end Blackboard.Scan
