import Blackboard.Text.Pattern
import Blackboard.Scan.Region
import Blackboard.Sorting
import Blackboard.Source.Span

/-!
Import lines, which are lifted out of a source text before it is parsed. They are looked for in the
masked text, so nothing inside a literal counts.
-/
namespace Blackboard.Scan

open Source Text Text.Pattern

structure Import where
  text : String
  position : Position
deriving DecidableEq, Repr

namespace Import

def moduleName : Pattern :=
  all [oneOf "\"'", many fun c => c != '"' && c != '\'' && c != '\n', oneOf "\"'"]

def lineEnd : Pattern := seq (many fun c => c == ' ' || c == '\t') (opt (ofText ";"))

def patterns : Language → List Pattern
  | .java => [
    all [indented, alt (ofText "import") (ofText "package"), boundary,
      many fun c => c != ';' && c != '\n', opt (ofText ";")]]
  | .typescript => [
    all [indented, ofText "import", boundary,
      manyLazy fun c => c != '"' && c != '\'' && c != '`', moduleName, lineEnd],
    all [indented, ofText "export", blanks,
      alt (ofText "*") (all [ofText "\x7b", many fun c => c != '\x7d', ofText "\x7d"]),
      opt (all [blanks, ofText "from", blanks, moduleName]), lineEnd]]

def ofStretch? (source : List Char) (offset length : Nat) : Option Import :=
  let stretch := (source.drop offset).take length
  let ink := Text.trimStart stretch
  if ink.isEmpty then none
  else some ⟨String.ofList (Text.trim stretch), .ofOffset source (offset + (stretch.length - ink.length))⟩

def stands (a b : Import) : Bool :=
  a.position.line < b.position.line || (a.position.line == b.position.line && a.position.column ≤ b.position.column)

end Import

def blankStretch (cs : List Char) (offset length : Nat) : List Char :=
  cs.take offset ++ blank ((cs.drop offset).take length) ++ cs.drop (offset + length)

theorem length_blankStretch (cs : List Char) (offset length : Nat) :
    (blankStretch cs offset length).length = cs.length := by
  simp only [blankStretch, List.length_append, List.length_take, length_blank, List.length_drop]
  omega

/-- A source text and its mask without the imports, and the imports. -/
structure Lifted where
  source : List Char
  masked : List Char
  imports : List Import

def liftImports (l : Language) (source masked : List Char) : Lifted :=
  let stretches := ((Import.patterns l).flatMap (·.findAll masked)).filter fun (offset, length) =>
    (Import.ofStretch? source offset length).isSome
  let clear (cs : List Char) := stretches.foldl (fun cs (offset, length) =>
    blankStretch cs offset length) cs
  let imports := stretches.filterMap fun (offset, length) =>
    Import.ofStretch? source offset length
  ⟨clear source, clear masked, Sorting.sortBy Import.stands imports⟩

end Blackboard.Scan
