import Blackboard.Language
import Blackboard.Pseudo.Type
import Blackboard.Source.TypeRef

/-! The pseudocode types that source types stand for. -/
namespace Blackboard.Pseudo

def scalars : Language → List (String × Scalar)
  | .java => [("int", .integer), ("long", .integer), ("short", .integer), ("byte", .integer),
      ("Integer", .integer), ("Long", .integer), ("Short", .integer), ("Byte", .integer),
      ("double", .real), ("float", .real), ("Double", .real), ("Float", .real),
      ("String", .string), ("char", .char), ("Character", .char), ("boolean", .boolean),
      ("Boolean", .boolean)]
  | .typescript => [("number", .real), ("string", .string), ("boolean", .boolean),
      ("Number", .real), ("String", .string), ("Boolean", .boolean)]

def isContainer : Language → String → Bool
  | .java, name =>
    ["List", "ArrayList", "LinkedList", "Vector"].contains (shortName name)
  | .typescript, name => ["Array", "ReadonlyArray"].contains name
where
  shortName (name : String) : String :=
    String.ofList (name.toList.reverse.takeWhile (· != '.')).reverse

def Kind.nested (k : Kind) (dims : Nat) (spelling : String) : Kind :=
  { k with
    sizes := List.replicate dims "n" ++ k.sizes
    spelling := if k.spelling = "" then spelling else k.spelling }

def Kind.standIn (t : Source.TypeRef) : Kind :=
  { base := .string, sizes := List.replicate t.dimensions "n", fallback := true,
    spelling := t.text }

mutual

/-- The pseudocode type for a source type. A union with nothing but an absent value is its other
member. -/
def normalize (l : Language) : Source.TypeRef → Kind
  | ⟨span, name, args, dimensions, form⟩ =>
    let t : Source.TypeRef := ⟨span, name, args, dimensions, form⟩
    match l, form with
    | _, .simple => match (scalars l).lookup name, args.isEmpty with
      | some s, true => Kind.nested { base := s } dimensions t.text
      | _, _ => match isContainer l name, normalizeAll l args with
        | true, [(_, element)] => element.nested (dimensions + 1) t.text
        | _, _ => .standIn t
    | .typescript, .union =>
      match (normalizeAll l args).filter fun (n, _) => n != "null" && n != "undefined" with
      | [(_, member)] => if member.fallback then .standIn t else member.nested dimensions t.text
      | _ => .standIn t
    | _, _ => .standIn t

def normalizeAll (l : Language) : List Source.TypeRef → List (String × Kind)
  | [] => []
  | t :: ts => (t.name, normalize l t) :: normalizeAll l ts

end

def isVoid : Option Source.TypeRef → Bool
  | none => true
  | some t =>
    t.form == .simple && ["void", "undefined", "never"].contains t.name && t.dimensions == 0

end Blackboard.Pseudo
