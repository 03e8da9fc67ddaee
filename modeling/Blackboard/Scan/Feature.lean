import Blackboard.Diagnostic
import Blackboard.Language
import Blackboard.Text.Pattern
import Blackboard.Sorting

/-! Features of the source languages that pseudocode does not have. -/
namespace Blackboard.Scan

open Source Text Text.Pattern

structure Feature where
  pattern : Pattern
  name : String
  suggestion : String

def typeArguments (marks : String) : Pattern :=
  all [ofText "<", many fun c => Text.isWord c || Text.isBlank c || marks.toList.contains c, ofText ">"]

def capitalised : Pattern := seq (char isUpper) (many Text.isWord)

def decorator : Pattern := all [ofText "@", char isNameStart, many Text.isWord]

namespace Feature

def java : List Feature := [
  ⟨leading "import", "Import statements", "Remove the import; pseudocode has no libraries."⟩,
  ⟨leading "package", "Package declarations", "Remove the package declaration."⟩,
  ⟨all [boundary, ofText "try", blanks, oneOf "(\x7b"], "Exception handling (try/catch)",
    "Use IF statements to check for error conditions."⟩,
  ⟨keyword "throw", "Throwing exceptions", "Use OUTPUT to report the error instead."⟩,
  ⟨keyword "synchronized", "Synchronization", "Remove the synchronized modifier."⟩,
  ⟨keyword "abstract", "Abstract classes and methods", "Write a concrete PROCEDURE or FUNCTION."⟩,
  ⟨introducing "interface", "Interfaces", "Describe the required procedures in a comment."⟩,
  ⟨introducing "enum", "Enumerations", "Use CONSTANT declarations for each value."⟩,
  ⟨ofText "->", "Lambda expressions", "Write a named PROCEDURE or FUNCTION instead."⟩,
  ⟨all [boundary, capitalised, typeArguments ",<>?[]."], "Generic types", "Use a plain ARRAY of a single type."⟩,
  ⟨decorator, "Annotations", "Annotations are ignored."⟩]

def typescript : List Feature := [
  ⟨leading "import", "Module imports", "Remove the import; pseudocode has no modules."⟩,
  ⟨leading "export", "Module exports", "Remove the export keyword."⟩,
  ⟨keyword "async", "Asynchronous functions", "Write a normal PROCEDURE or FUNCTION."⟩,
  ⟨keyword "await", "Await expressions", "Call the procedure or function directly."⟩,
  ⟨keyword "Promise", "Promises", "Return the value directly from a FUNCTION."⟩,
  ⟨introducing "interface", "Interfaces", "Describe the required fields in a comment."⟩,
  ⟨all [indented, opt (seq (ofText "export") someBlanks), ofText "type", someBlanks, someOf Text.isWord, blanks,
      opt (all [ofText "<", many fun c => c != '=' && c != '\n', ofText ">"]), blanks,
      ofText "="],
    "Type aliases", "Use the underlying type directly."⟩,
  ⟨introducing "namespace", "Namespaces", "Remove the namespace wrapper."⟩,
  ⟨keyword "readonly", "Readonly modifiers", "Use CONSTANT for values that never change."⟩,
  ⟨introducing "enum", "Enumerations", "Use CONSTANT declarations for each value."⟩,
  ⟨ofText "??", "Nullish coalescing", "Use an IF statement to check for a missing value."⟩,
  ⟨ofText "?.", "Optional chaining", "Use an IF statement to check for a missing value."⟩,
  ⟨all [boundary, ofText "as", someBlanks, char fun c => isNameStart c || c == '\x7b' || c == '(' || c == '['],
    "Type assertions", "Remove the type assertion."⟩,
  ⟨all [boundary, ofText "try", blanks, ofText "\x7b"], "Exception handling (try/catch)",
    "Use IF statements to check for error conditions."⟩,
  ⟨keyword "throw", "Throwing exceptions", "Use OUTPUT to report the error instead."⟩,
  ⟨ofText "=>", "Arrow functions", "Write a named PROCEDURE or FUNCTION instead."⟩,
  ⟨all [boundary, notAhead (all [alt (ofText "Array") (ofText "ReadonlyArray"), blanks, ofText "<"]),
      capitalised, typeArguments ",<>[]|."],
    "Generic types", "Use a plain ARRAY of a single type."⟩,
  ⟨all [boundary, ofText "function", someBlanks, someOf Text.isWord, blanks, ofText "<"],
    "Generic functions", "Use a single concrete type."⟩,
  ⟨decorator, "Decorators", "Decorators are ignored."⟩]

def ofLanguage : Language → List Feature
  | .java => java
  | .typescript => typescript

def firstOnLine : List Position → List Position
  | [] => []
  | p :: ps => p :: (firstOnLine ps).filter fun q => q.line != p.line

def places (f : Feature) (masked : List Char) : List Position :=
  firstOnLine ((f.pattern.findAll masked).map fun (offset, _) => .ofOffset masked offset)

def remarks (masked : List Char) (f : Feature) : List Diagnostic :=
  (f.places masked).map fun p =>
    { Diagnostic.atPosition p .warning (.unsupportedFeature f.name) with
      suggestion := some f.suggestion }

end Feature

def stands (a b : Diagnostic) : Bool :=
  let (k, i) := (a.line.getD 0, a.column.getD 0)
  let (m, j) := (b.line.getD 0, b.column.getD 0)
  k < m || (k == m && i ≤ j)

def unsupported (l : Language) (masked : List Char) : List Diagnostic :=
  Sorting.sortBy stands ((Feature.ofLanguage l).flatMap (Feature.remarks masked))

end Blackboard.Scan
