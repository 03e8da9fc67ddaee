/-! The types of pseudocode: scalars and arrays of them. -/
namespace Blackboard.Pseudo

/-- Names of scalar types. Any other name may stand for a type too. -/
inductive Scalar where
  | integer | real | string | char | boolean
  | other (name : String)
deriving DecidableEq, Repr

namespace Scalar

def text : Scalar → String
  | integer => "INTEGER"
  | real => "REAL"
  | string => "STRING"
  | char => "CHAR"
  | boolean => "BOOLEAN"
  | other name => name

def known : List Scalar := [integer, real, string, char, boolean]

def ofText (s : String) : Scalar := (known.find? (·.text == s)).getD (other s)

/-- The type of an arithmetic result, from the types of the operands as far as they are known. -/
def combine (left right : Option Scalar) : Option Scalar :=
  if left = some string || right = some string then some string
  else if left = some real || right = some real then some real
  else if left = some integer && right = some integer then some integer
  else match left with
    | none | some (other "") => right
    | left => left

end Scalar

/-- A type: a scalar and the size of each array dimension, the outermost first. -/
structure Kind where
  base : Scalar
  sizes : List String := []
  /-- whether the type stands in for one that has no equivalent -/
  fallback : Bool := false
  /-- how the source writes the type -/
  spelling : String := ""
deriving DecidableEq, Repr

namespace Kind

def isArray (k : Kind) : Bool := !k.sizes.isEmpty

def text (k : Kind) : String :=
  k.sizes.foldr (fun size rest => "ARRAY[1:" ++ size ++ "] OF " ++ rest) k.base.text

def element (k : Kind) : Kind := { k with sizes := k.sizes.drop 1 }

def withSizes (k : Kind) (sizes : List String) : Kind :=
  { k with sizes := sizes.take k.sizes.length ++ k.sizes.drop sizes.length }

def after? : (p cs : List Char) → Option (List Char)
  | [], cs => some cs
  | _ :: _, [] => none
  | d :: p, c :: cs => if c = d then after? p cs else none

def cut? (mark : List Char) : List Char → Option (List Char × List Char)
  | [] => if mark.isEmpty then some ([], []) else none
  | c :: cs => match after? mark (c :: cs) with
    | some rest => some ([], rest)
    | none => (cut? mark cs).map fun (before, rest) => (c :: before, rest)

/-- Reads the sizes at the front of a type's text. Each takes characters, so `fuel` need not exceed
the length of the text. Nothing is read if a dimension does not end. -/
def readSizes : (fuel : Nat) → List Char → Option (List String × List Char)
  | 0, cs => some ([], cs)
  | fuel + 1, cs => match after? "ARRAY[1:".toList cs with
    | none => some ([], cs)
    | some rest => do
      let (size, rest) ← cut? "] OF ".toList rest
      let (sizes, base) ← readSizes fuel rest
      some (String.ofList size :: sizes, base)

def ofText? (s : String) : Option Kind :=
  (readSizes s.toList.length s.toList).map fun (sizes, base) =>
    { base := .ofText (String.ofList base), sizes := sizes }

end Kind

end Blackboard.Pseudo
