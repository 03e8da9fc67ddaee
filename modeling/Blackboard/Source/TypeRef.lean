import Blackboard.Source.Span

/-! Types as they are written in a source text. -/
namespace Blackboard.Source

/-- What a written type is made of. Only a simple type has a name in the ordinary sense; the others
keep their spelling in its place. -/
inductive TypeForm where
  | simple | union | intersection | function | object | tuple | literal
deriving DecidableEq, Repr

def TypeForm.name : TypeForm → String
  | simple => "simple"
  | union => "union"
  | intersection => "intersection"
  | function => "function"
  | object => "object"
  | tuple => "tuple"
  | literal => "literal"

def TypeForm.all : List TypeForm :=
  [simple, union, intersection, function, object, tuple, literal]

def TypeForm.ofName? (s : String) : Option TypeForm := all.find? (·.name == s)

/-- A type as written: `args` are the arguments or members, `dimensions` counts pairs of brackets
after it. -/
structure TypeRef where
  span : Span
  name : String
  args : List TypeRef := []
  dimensions : Nat := 0
  form : TypeForm := .simple

namespace TypeRef

def repeated (s : String) : Nat → String
  | 0 => ""
  | n + 1 => s ++ repeated s n

mutual

def text : TypeRef → String
  | ⟨_, name, args, dimensions, form⟩ =>
    let base := if !args.isEmpty && form == .simple
      then name ++ "<" ++ ", ".intercalate (texts args) ++ ">" else name
    base ++ repeated "[]" dimensions

def texts : List TypeRef → List String
  | [] => []
  | t :: ts => t.text :: texts ts

end

theorem texts_eq_map (ts : List TypeRef) : texts ts = ts.map text := by
  induction ts with
  | nil => rfl
  | cons t ts ih => simp [texts, ih]

def addDimensions (t : TypeRef) (n : Nat) : TypeRef := { t with dimensions := t.dimensions + n }

end TypeRef

end Blackboard.Source
