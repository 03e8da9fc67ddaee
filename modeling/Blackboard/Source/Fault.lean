import Blackboard.Diagnostic
import Blackboard.Sorting
import Blackboard.Source.Reader

/-! How it is reported that a text cannot be read. -/
namespace Blackboard.Source

open Grammar

/-- What could have stood in a place: the labels of some terminals in order, at most six of them. -/
def expectation (l : Language) (ts : List Terminal) : String :=
  match Sorting.sortBy (fun a b => decide (a ≤ b)) ((ts.map l.label).eraseDups) with
  | [] => ""
  | [label] => "Expected " ++ label
  | labels => "Expected one of: " ++ ", ".intercalate (labels.take 6)

def unexpectedDetails (l : Language) (token : Token) (expected : List Terminal) : String :=
  let found := token.text
  match expectation l expected with
  | "" => s!"Found unexpected token '{found}'."
  | expectation => s!"{expectation}, but found '{found}' instead."

/-- The remark on a text that cannot be read. Only a single token or character has a place. -/
def ReadError.diagnostic (l : Language) : ReadError → Diagnostic
  | .parse (.unexpectedToken token expected) =>
    .at_ token.span .error (.unexpectedToken (unexpectedDetails l token expected))
  | .parse (.strayCharacter stray) =>
    .atPosition stray.position .error (.invalidCharacter stray.char.toString)
  | .parse .unexpectedEnd =>
    { cause := .unexpectedToken "Reached the end of the input while a statement was still open."
      severity := .error }
  | .numeral fault => { cause := .parsingError fault.message, severity := .error }

end Blackboard.Source
