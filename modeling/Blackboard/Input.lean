import Blackboard.Diagnostic
import Blackboard.Language
import Blackboard.Options

/-! What is handed in for conversion, and the checks that it is text of a tolerable size. -/
namespace Blackboard

inductive Input where
  | text (s : String)
  /-- code points of which some are no characters -/
  | illFormed
  /-- a value of another type -/
  | other (type : String)
deriving DecidableEq, Repr

namespace Input

def isControl (c : Char) : Bool := c.toNat < 32 && !(9 ≤ c.toNat && c.toNat ≤ 13)

/-- Whether more than a tenth of a text are control characters, or it has a null character. -/
def looksBinary (cs : List Char) : Bool :=
  cs.any (·.toNat == 0) || 10 * cs.countP isControl > cs.length

def validate (options : Options) (path : Option String) (input : Input) : Except Rejection String :=
  let reject (cause : Cause) : Except Rejection String := .error { cause := cause, path := path }
  match input with
  | other type => reject (.invalidInput type)
  | illFormed => reject .binaryContent
  | text s =>
    if s.utf8ByteSize > options.maxInputSize then
      reject (.inputTooLarge s.utf8ByteSize options.maxInputSize)
    else if looksBinary s.toList then reject .binaryContent
    else .ok s

end Input

def Language.resolve (path name : Option String) : Except Rejection Language :=
  match Language.ofName? (name.getD "") with
  | some l => .ok l
  | none => .error { cause := .unknownLanguage (name.getD "None"), path := path }

end Blackboard
