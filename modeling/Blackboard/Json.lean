import Blackboard.Number.Shortest

/-! Structured values, and their text as JSON. -/
namespace Blackboard

inductive Json where
  | null
  | bool (b : Bool)
  | int (n : Int)
  | real (d : Decimal)
  | string (s : String)
  | array (items : List Json)
  | object (fields : List (String × Json))

instance : Inhabited Json := ⟨.null⟩

namespace Json

def ofOption {α : Type} (f : α → Json) : Option α → Json
  | none => null
  | some a => f a

def ofNat (n : Nat) : Json := int n

def strings (ss : List String) : Json := array (ss.map string)

def get? (j : Json) (name : String) : Option Json :=
  match j with
  | object fields => fields.reverse.lookup name
  | _ => none

def getD (j : Json) (name : String) : Json := (j.get? name).getD null

def string? : Json → Option String
  | string s => some s
  | _ => none

def bool? : Json → Option Bool
  | bool b => some b
  | _ => none

def int? : Json → Option Int
  | int n => some n
  | _ => none

def nat? : Json → Option Nat
  | int n => some n.toNat
  | _ => none

def items : Json → List Json
  | array js => js
  | _ => []

def fields : Json → List (String × Json)
  | object fs => fs
  | _ => []

def hexDigits (width n : Nat) : List Char :=
  let ds := Nat.toDigits 16 n
  List.replicate (width - ds.length) '0' ++ ds

def unitEscape (n : Nat) : List Char := '\\' :: 'u' :: hexDigits 4 n

/-- How a character stands in a quoted text: beyond the printable characters of ASCII as one or two
16-bit units. -/
def escape (c : Char) : List Char :=
  let n := c.toNat
  if c == '"' then ['\\', '"']
  else if c == '\\' then ['\\', '\\']
  else if c == '\n' then ['\\', 'n']
  else if c == '\r' then ['\\', 'r']
  else if c == '\t' then ['\\', 't']
  else if n == 8 then ['\\', 'b']
  else if n == 12 then ['\\', 'f']
  else if 32 ≤ n && n < 127 then [c]
  else if n < 0x10000 then unitEscape n
  else
    let m := n - 0x10000
    unitEscape (0xd800 + m / 0x400) ++ unitEscape (0xdc00 + m % 0x400)

def quote (s : String) : String := "\"" ++ String.ofList (s.toList.flatMap escape) ++ "\""

def realText (d : Decimal) : String :=
  let s := d.text
  if s == "inf" then "Infinity" else if s == "-inf" then "-Infinity" else s

def newline (depth : Nat) : String := "\n" ++ String.ofList (List.replicate (2 * depth) ' ')

mutual

def pretty (depth : Nat) : Json → String
  | null => "null"
  | bool b => if b then "true" else "false"
  | int n => toString n
  | real d => realText d
  | string s => quote s
  | array [] => "[]"
  | array (j :: js) =>
    "[" ++ newline (depth + 1) ++ pretty (depth + 1) j ++ prettyItems (depth + 1) js ++ newline depth ++ "]"
  | object [] => "\x7b\x7d"
  | object ((name, j) :: fs) =>
    "\x7b" ++ newline (depth + 1) ++ quote name ++ ": " ++ pretty (depth + 1) j ++
      prettyFields (depth + 1) fs ++ newline depth ++ "\x7d"

def prettyItems (depth : Nat) : List Json → String
  | [] => ""
  | j :: js => "," ++ newline depth ++ pretty depth j ++ prettyItems depth js

def prettyFields (depth : Nat) : List (String × Json) → String
  | [] => ""
  | (name, j) :: fs =>
    "," ++ newline depth ++ quote name ++ ": " ++ pretty depth j ++ prettyFields depth fs

end

end Json

end Blackboard
