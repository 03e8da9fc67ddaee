import Blackboard.Json
import Blackboard.Source.Span
import Blackboard.Text.Blank

/-! Diagnostics: what can be remarked about an input, how severe it is, and where it stands. -/
namespace Blackboard

inductive Severity where
  | error | warning | info
deriving DecidableEq, Repr

namespace Severity

def name : Severity → String
  | error => "error"
  | warning => "warning"
  | info => "info"

def all : List Severity := [error, warning, info]

def ofName? (s : String) : Option Severity := all.find? (·.name == s)

end Severity

inductive Cause where
  -- structure of the source text
  | unmatchedBracket (char : String)
  | mismatchedBracket (expected char : String)
  | unclosedBracket (char : String)
  | unterminatedString
  | unterminatedChar
  | unterminatedTemplate
  | unterminatedComment
  | unexpectedToken (details : String)
  | invalidCharacter (char : String)
  | parsingError (details : String)
  | emptyProgram
  | unsupportedFeature (feature : String)
  -- conversion
  | typeFallback (type : String)
  | inferenceFallback (name : String)
  | indexConverted (index converted : String)
  | indexReview (index : String)
  | loopBounds (name start stop : String)
  | nonCanonicalLoop (name : String)
  | noDirectEquivalent (name : String)
  | simplified (construct details : String)
  | inlineConditional (context : String)
  | fallThrough (label : String)
  | nestingTooDeep (limit : Int)
  | unbalancedExit
  -- layout in strict mode
  | undeclared (name : String)
  | lineTooLong (number length limit : Int)
  | passThroughCall (name : String)
  -- validation
  | invalidInput (type : String)
  | inputTooLarge (size limit : Int)
  | binaryContent
  | unknownLanguage (language : String)
deriving DecidableEq, Repr

namespace Cause

def code : Cause → String
  | unmatchedBracket _ => "UNMATCHED_BRACKET"
  | mismatchedBracket .. => "MISMATCHED_BRACKET"
  | unclosedBracket _ => "UNCLOSED_BRACKET"
  | unterminatedString => "UNTERMINATED_STRING"
  | unterminatedChar => "UNTERMINATED_CHAR"
  | unterminatedTemplate => "UNTERMINATED_TEMPLATE"
  | unterminatedComment => "UNTERMINATED_COMMENT"
  | unexpectedToken _ => "UNEXPECTED_TOKEN"
  | invalidCharacter _ => "INVALID_CHARACTER"
  | parsingError _ => "PARSING_ERROR"
  | emptyProgram => "EMPTY_PROGRAM"
  | unsupportedFeature _ => "UNSUPPORTED_FEATURE"
  | typeFallback _ => "TYPE_CONVERSION_FALLBACK"
  | inferenceFallback _ => "TYPE_INFERENCE_FALLBACK"
  | indexConverted .. => "ARRAY_INDEX_CONVERSION"
  | indexReview _ => "ARRAY_INDEX_REVIEW"
  | loopBounds .. => "LOOP_BOUND_CONVERSION"
  | nonCanonicalLoop _ => "NON_CANONICAL_FOR_LOOP"
  | noDirectEquivalent _ => "NO_DIRECT_EQUIVALENT"
  | simplified .. => "CONSTRUCT_SIMPLIFIED"
  | inlineConditional _ => "INLINE_TERNARY"
  | fallThrough _ => "SWITCH_FALL_THROUGH"
  | nestingTooDeep _ => "NESTING_TOO_DEEP"
  | unbalancedExit => "UNBALANCED_SCOPE_EXIT"
  | undeclared _ => "UNDECLARED_IDENTIFIER"
  | lineTooLong .. => "LINE_TOO_LONG"
  | passThroughCall _ => "PASS_THROUGH_CALL"
  | invalidInput _ => "INVALID_INPUT"
  | inputTooLarge .. => "INPUT_TOO_LARGE"
  | binaryContent => "BINARY_CONTENT"
  | unknownLanguage _ => "UNKNOWN_LANGUAGE"

/-- The wording of a remark. Only unsupported features show the suggestion that comes with it. -/
def message (suggestion : String) : Cause → String
  | unmatchedBracket char => s!"Unmatched closing bracket '{char}'."
  | mismatchedBracket expected char =>
    s!"Mismatched bracket: expected '{expected}' but found '{char}'."
  | unclosedBracket char => s!"Bracket '{char}' opened here is never closed."
  | unterminatedString => "Unterminated string literal."
  | unterminatedChar => "Unterminated character literal."
  | unterminatedTemplate => "Unterminated template literal."
  | unterminatedComment => "Unterminated block comment."
  | unexpectedToken details => s!"Invalid syntax. {details}"
  | invalidCharacter char => s!"Invalid character '{char}' found."
  | parsingError details => s!"A general parsing error occurred. Details: {details}"
  | emptyProgram => "The input contains zero statements."
  | unsupportedFeature feature =>
    s!"{feature} is not supported in IGCSE pseudocode. {suggestion}"
  | typeFallback type => s!"Type '{type}' has no IGCSE equivalent; using STRING."
  | inferenceFallback name => s!"Could not infer a type for '{name}'; using STRING."
  | indexConverted index converted =>
    s!"Array index '{index}' converted to '{converted}' for 1-based indexing."
  | indexReview index => s!"Nested array index '{index}' may need manual review."
  | loopBounds name start stop =>
    s!"Loop over '{name}' adjusted to 1-based bounds ({start} TO {stop})."
  | nonCanonicalLoop name =>
    s!"FOR loop over '{name}' cannot be expressed as a counting loop; converted to WHILE."
  | noDirectEquivalent name =>
    s!"Method '{name}' has no direct IGCSE equivalent and was passed through unchanged."
  | simplified construct details => s!"{construct} was simplified: {details}"
  | inlineConditional context =>
    s!"Conditional expression inside '{context}' was kept inline; consider an IF statement."
  | fallThrough label =>
    s!"Case '{label}' falls through to the next case; IGCSE CASE branches do not fall through."
  | nestingTooDeep limit => s!"Nesting deeper than {limit} levels was not converted."
  | unbalancedExit => "Attempted to exit the outermost scope."
  | undeclared name => s!"Identifier '{name}' is used but never declared."
  | lineTooLong number length limit =>
    s!"Line {number} is {length} characters long (limit {limit})."
  | passThroughCall name => s!"Call to '{name}' has no IGCSE equivalent."
  | invalidInput type => s!"Input must be a string, got {type}."
  | inputTooLarge size limit => s!"Input is {size} bytes, exceeding the {limit} byte limit."
  | binaryContent => "Input appears to contain binary data."
  | unknownLanguage language =>
    s!"Unknown source language '{language}'. Expected 'java' or 'typescript'."

def isStructural : Cause → Bool
  | unmatchedBracket _ | mismatchedBracket .. | unclosedBracket _ | unterminatedString
  | unterminatedChar | unterminatedTemplate | unterminatedComment | unexpectedToken _
  | invalidCharacter _ | parsingError _ => true
  | _ => false

end Cause

structure Diagnostic where
  cause : Cause
  severity : Severity := .warning
  line : Option Nat := none
  column : Option Nat := none
  suggestion : Option String := none
deriving DecidableEq, Repr

namespace Diagnostic

open Source

def at_ (span : Span) (severity : Severity) (cause : Cause) : Diagnostic :=
  { cause := cause, severity := severity, line := some span.line, column := some span.column }

def atPosition (p : Position) (severity : Severity) (cause : Cause) : Diagnostic :=
  { cause := cause, severity := severity, line := some p.line, column := some p.column }

def message (d : Diagnostic) : String := Text.strip (d.cause.message (d.suggestion.getD ""))

def isStructural (d : Diagnostic) : Bool := d.cause.isStructural

def isError (d : Diagnostic) : Bool := d.severity = .error

def text (d : Diagnostic) : String :=
  let place := match d.line with
    | some n => s!"line {n}: "
    | none => ""
  d.severity.name.toUpper ++ "[" ++ d.cause.code ++ "] " ++ place ++ d.message

def toJson (d : Diagnostic) : Json := .object [ ("code", .string d.cause.code), ("message", .string d.message),
  ("severity", .string d.severity.name),
  ("line", .ofOption .ofNat d.line),
  ("column", .ofOption .ofNat d.column),
  ("suggestion", .ofOption .string d.suggestion)]

def count (ds : List Diagnostic) (s : Severity) : Nat := ds.countP (·.severity = s)

end Diagnostic

/-- An input that is rejected as a whole, with the place or the path where it comes from. -/
structure Rejection where
  cause : Cause
  span : Option (Source.Span × Option String) := none
  path : Option String := none
deriving DecidableEq, Repr

namespace Rejection

def nonempty? (path : Option String) : Option String := path.filter (· != "")

def message (r : Rejection) : String :=
  let place := match r.span, nonempty? r.path with
    | some (span, own), path =>
      let file := (nonempty? own <|> path).getD "<input>"
      let line := span.line
      let column := span.column
      s!"Error in '{file}' (Line: {line}, Column: {column}):\n"
    | none, some file => s!"Error in '{file}': "
    | none, none => ""
  place ++ r.cause.message ""

end Rejection

end Blackboard
