import Blackboard.Text.Blank
import Blackboard.Text.Word

/-!
Text patterns. A pattern tries its ways of matching in a fixed order: the first of two
alternatives before the second, a greedy repetition from long to short and a lazy one from short to
long. Of all matches of a whole pattern the first is taken.
-/
namespace Blackboard.Text

inductive Pattern where
  | char (p : Char → Bool)
  | word (s : List Char)
  | seq (a b : Pattern)
  | alt (a b : Pattern)
  | opt (a : Pattern)
  | many (p : Char → Bool)
  | manyLazy (p : Char → Bool)
  | lineStart
  /-- between a word character and another character or an end of the text -/
  | boundary
  | notAhead (a : Pattern)

namespace Pattern

def all : List Pattern → Pattern
  | [] => word []
  | [p] => p
  | p :: ps => seq p (all ps)

/-- A place in a text: the character before it and the text after it. -/
structure Place where
  before : Option Char
  rest : List Char

def runMany (p : Char → Bool) (k : Place → Option Place) : Option Char → List Char → Option Place
  | before, [] => k ⟨before, []⟩
  | before, c :: cs =>
    if p c then runMany p k (some c) cs <|> k ⟨before, c :: cs⟩ else k ⟨before, c :: cs⟩

def runManyLazy (p : Char → Bool) (k : Place → Option Place) : Option Char → List Char → Option Place
  | before, [] => k ⟨before, []⟩
  | before, c :: cs =>
    k ⟨before, c :: cs⟩ <|> if p c then runManyLazy p k (some c) cs else none

def runWord (k : Place → Option Place) : List Char → Place → Option Place
  | [], place => k place
  | c :: cs, ⟨_, d :: ds⟩ => if c = d then runWord k cs ⟨some d, ds⟩ else none
  | _ :: _, ⟨_, []⟩ => none

def isWordAt (c : Option Char) : Bool := (c.map isWord).getD false

def run : Pattern → (Place → Option Place) → Place → Option Place
  | char p, k, ⟨_, c :: cs⟩ => if p c then k ⟨some c, cs⟩ else none
  | char _, _, ⟨_, []⟩ => none
  | word s, k, place => runWord k s place
  | seq a b, k, place => a.run (b.run k) place
  | alt a b, k, place => a.run k place <|> b.run k place
  | opt a, k, place => a.run k place <|> k place
  | many p, k, ⟨before, rest⟩ => runMany p k before rest
  | manyLazy p, k, ⟨before, rest⟩ => runManyLazy p k before rest
  | lineStart, k, place =>
    if place.before = none || place.before = some '\n' then k place else none
  | boundary, k, place =>
    if isWordAt place.before != isWordAt place.rest.head? then k place else none
  | notAhead a, k, place => if (a.run some place).isSome then none else k place

def match? (p : Pattern) (place : Place) : Option Place := p.run some place

/-- The matches of a pattern, each with its offset and length. The search goes on where a match
ends, so `fuel` need not exceed the length of the text. -/
def findFrom (p : Pattern) : (fuel : Nat) → (offset : Nat) → Place → List (Nat × Nat)
  | 0, _, _ => []
  | _ + 1, _, ⟨_, []⟩ => []
  | fuel + 1, offset, ⟨before, c :: cs⟩ =>
    let onward := p.findFrom fuel (offset + 1) ⟨some c, cs⟩
    match p.match? ⟨before, c :: cs⟩ with
    | none => onward
    | some stop =>
      let length := (c :: cs).length - stop.rest.length
      if length = 0 then onward else (offset, length) :: p.findFrom fuel (offset + length) stop

def findAll (p : Pattern) (cs : List Char) : List (Nat × Nat) :=
  p.findFrom cs.length 0 ⟨none, cs⟩

def oneOf (s : String) : Pattern := char s.toList.contains

def ofText (s : String) : Pattern := word s.toList

def someOf (p : Char → Bool) : Pattern := seq (char p) (many p)

def isUpper (c : Char) : Bool := 'A' ≤ c && c ≤ 'Z'

def isLower (c : Char) : Bool := 'a' ≤ c && c ≤ 'z'

def isNameStart (c : Char) : Bool := isUpper c || isLower c || c == '_'

def blanks : Pattern := many isBlank

def someBlanks : Pattern := someOf isBlank

def indented : Pattern := seq lineStart (many fun c => c == ' ' || c == '\t')

def keyword (s : String) : Pattern := all [boundary, ofText s, boundary]

def leading (s : String) : Pattern := all [indented, ofText s, boundary]

def introducing (s : String) : Pattern :=
  all [boundary, ofText s, someBlanks, char isWord]

end Pattern

end Blackboard.Text
