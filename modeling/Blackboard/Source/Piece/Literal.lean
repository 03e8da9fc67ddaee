import Blackboard.Source.Piece

/-! Literals: the pieces of single tokens. -/
namespace Blackboard.Source

def unquoted (s : String) : List Char := ((s.toList.drop 1).reverse.drop 1).reverse

def requote : List Char → List Char
  | '\\' :: '\'' :: cs => '\'' :: requote cs
  | '"' :: cs => '\\' :: '"' :: requote cs
  | c :: cs => c :: requote cs
  | [] => []

namespace TemplatePart

/-- What is left after the brace that closes a hole, with the text of the hole. A hole that is not
closed ends with the template and loses its last character. -/
def takeHole : (depth : Nat) → List Char → List Char → List Char × List Char
  | _, acc, [] => ((acc.drop 1).reverse, [])
  | depth, acc, c :: cs =>
    let depth := if c == '\x7b' then depth + 1 else if c == '\x7d' then depth - 1 else depth
    if depth = 0 then (acc.reverse, cs) else takeHole depth (c :: acc) cs

def flush (acc : List Char) (rest : List TemplatePart) : List TemplatePart :=
  if acc.isEmpty then rest else .text (String.ofList acc.reverse) :: rest

/-- Cuts the text of a template at its holes, which `read` turns into expressions. Escaped
characters are plain text. -/
def cut (read : List Char → Expr) : (fuel : Nat) → List Char → List Char → List TemplatePart
  | 0, acc, _ => flush acc []
  | _ + 1, acc, [] => flush acc []
  | fuel + 1, acc, '\\' :: c :: cs => cut read fuel (c :: '\\' :: acc) cs
  | fuel + 1, acc, '$' :: '\x7b' :: cs =>
    let (source, rest) := takeHole 1 [] cs
    flush acc (.hole (read source) :: cut read fuel [] rest)
  | fuel + 1, acc, c :: cs => cut read fuel (c :: acc) cs

end TemplatePart

namespace Piece

def ofToken (read : Span → List Char → Expr) (t : Token) : Except Numeral.Fault Piece :=
  match t.terminal with
  | .number => (Numeral.read t.text).map fun v => expr (.number t.span v t.text)
  | .string =>
    let inner := unquoted t.text
    let value := if t.text.startsWith "'" then requote inner else inner
    .ok (expr (.string t.span (String.ofList value)))
  | .character => .ok (expr (.char t.span (String.ofList (unquoted t.text))))
  | .kTrue => .ok (expr (.boolean t.span true))
  | .kFalse => .ok (expr (.boolean t.span false))
  | .kNull => .ok (expr (.null t.span))
  | .template =>
    let inner := unquoted t.text
    .ok (expr (.template t.span (TemplatePart.cut (read t.span) inner.length [] inner)))
  | _ => .ok (token t)

end Piece

end Blackboard.Source
