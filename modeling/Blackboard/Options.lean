import Blackboard.Json

/-! The options of a conversion, and how they are read from a structured value. -/
namespace Blackboard

structure Options where
  indentWidth : Int := 3
  annotationComments : Bool := true
  strict : Bool := false
  maxLineLength : Int := 80
  maxInputSize : Nat := 1024 * 1024
  maxNestingDepth : Nat := 200
deriving DecidableEq, Repr

namespace Options

inductive Problem where
  | intType | intParsing | intParsingSize | intFromFloat | greaterThan | literalError | boolType
  | boolParsing
deriving DecidableEq, Repr

def Problem.name : Problem → String
  | intType => "int_type"
  | intParsing => "int_parsing"
  | intParsingSize => "int_parsing_size"
  | intFromFloat => "int_from_float"
  | greaterThan => "greater_than"
  | literalError => "literal_error"
  | boolType => "bool_type"
  | boolParsing => "bool_parsing"

def digits? (cs : List Char) : Option (List Char) :=
  let parts := (cs.splitOn '_')
  if parts.all fun p => !p.isEmpty && p.all Char.isDigit then some parts.flatten else none

def intOfText? (s : String) : Option Int :=
  let cs := ((s.toList.dropWhile Char.isWhitespace).reverse.dropWhile Char.isWhitespace).reverse
  let (negative, cs) := match cs with
    | '-' :: cs => (true, cs)
    | '+' :: cs => (false, cs)
    | cs => (false, cs)
  let (whole, fraction) := cs.span (· != '.')
  if (fraction.drop 1).all (· == '0') then
    (digits? whole).map fun ds =>
      let n : Int := Text.decimalValue ds
      if negative then -n else n
  else none

def wholeOf (d : Decimal) : Except Problem Int :=
  let power := Nat.pow 10 d.exponent.natAbs
  if d.exponent < 0 && d.mantissa % power != 0 then .error .intFromFloat
  else
    let n := if d.exponent < 0 then d.mantissa / power else d.mantissa * power
    if n < Nat.pow 2 63 then .ok (if d.negative then -(n : Int) else n)
    else .error .intParsingSize

def intOf : Json → Except Problem Int
  | .int n => .ok n
  | .bool b => .ok (if b then 1 else 0)
  | .real d => wholeOf d
  | .string s => match intOfText? s with
    | some n => .ok n
    | none => .error .intParsing
  | _ => .error .intType

def positiveOf (j : Json) : Except Problem Nat := do
  let n ← intOf j
  if 0 < n then .ok n.toNat else .error .greaterThan

def trueWords : List String := ["1", "on", "t", "true", "y", "yes"]

def falseWords : List String := ["0", "off", "f", "false", "n", "no"]

def boolOf : Json → Except Problem Bool
  | .bool b => .ok b
  | .int 0 => .ok false
  | .int 1 => .ok true
  | .int _ => .error .boolParsing
  | .real d => match wholeOf d with
    | .ok 0 => .ok false
    | .ok 1 => .ok true
    | _ => .error .boolType
  | .string s =>
    if trueWords.contains s.toLower then .ok true
    else if falseWords.contains s.toLower then .ok false
    else .error .boolParsing
  | _ => .error .boolType

def strictnessOf : Json → Except Problem Bool
  | .string "strict" => .ok true
  | .string "permissive" => .ok false
  | _ => .error .literalError

/-- The value of an option, the default if it is absent, and a problem if there is one. -/
def field {α : Type} (j : Json) (name : String) (default : α) (read : Json → Except Problem α) :
    α × List (String × Problem) :=
  match j.get? name with
  | none => (default, [])
  | some v => match read v with
    | .ok a => (a, [])
    | .error p => (default, [(name, p)])

/-- Reads options. Unknown names are passed over, and all problems are reported, by name. -/
def ofJson (j : Json) : Except (List (String × Problem)) Options :=
  let d : Options := {}
  let (annotations, p₁) := field j "include_annotation_comments" d.annotationComments boolOf
  let (indent, p₂) := field j "indent_width" d.indentWidth intOf
  let (size, p₃) := field j "max_input_size" d.maxInputSize positiveOf
  let (line, p₄) := field j "max_line_length" d.maxLineLength intOf
  let (nesting, p₅) := field j "max_nesting_depth" d.maxNestingDepth positiveOf
  let (strict, p₆) := field j "strictness" d.strict strictnessOf
  match p₁ ++ p₂ ++ p₃ ++ p₄ ++ p₅ ++ p₆ with
  | [] => .ok ⟨indent, annotations, strict, line, size, nesting⟩
  | problems => .error problems

def toJson (o : Options) : Json := .object [ ("indent_width", .int o.indentWidth),
  ("include_annotation_comments", .bool o.annotationComments),
  ("strictness", .string (if o.strict then "strict" else "permissive")),
  ("max_line_length", .int o.maxLineLength),
  ("max_input_size", .ofNat o.maxInputSize),
  ("max_nesting_depth", .ofNat o.maxNestingDepth)]

end Options

end Blackboard
