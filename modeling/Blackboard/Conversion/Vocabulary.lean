import Blackboard.Language
import Blackboard.Pseudo.Builtin

/-! The names that conversion knows: calls that write and read, conversions to numbers, and types
of results. -/
namespace Blackboard.Conversion

open Pseudo (Scalar)

def outputCalls : Language → List String
  | .java => ["System.out.println", "System.out.print", "System.out.printf", "System.err.println",
      "print", "println"]
  | .typescript => ["console.log", "console.info", "console.error", "console.warn", "print",
      "alert"]

def inputSources : Language → List String
  | .java => ["Scanner", "BufferedReader", "Console"]
  | .typescript => []

def inputMethods : List (String × Scalar) :=
  [("nextInt", .integer), ("nextLong", .integer), ("nextDouble", .real), ("nextFloat", .real),
   ("nextBoolean", .boolean), ("next", .string), ("nextLine", .string), ("readLine", .string)]

def inputCalls : List String := ["prompt", "readline", "readLine", "input"]

def numberParsers : List (String × Scalar) :=
  [("Integer.parseInt", .integer), ("Integer.valueOf", .integer), ("Long.parseLong", .integer),
   ("Double.parseDouble", .real), ("Float.parseFloat", .real), ("parseInt", .integer),
   ("Number.parseInt", .integer), ("parseFloat", .real), ("Number.parseFloat", .real),
   ("Number", .real)]

def numberParser? (name : Option String) : Option Scalar := name.bind fun n => numberParsers.lookup n

def globals : List String :=
  ["Math", "System", "console", "String", "Integer", "Double", "Long", "Float", "Character",
   "Boolean", "Arrays", "Collections", "Objects", "Number", "Array", "Object", "JSON", "Date",
   "NaN", "Infinity", "window", "document", "process"]

def mathResults : List (String × Scalar) :=
  [("round", .integer), ("floor", .integer), ("ceil", .integer), ("sqrt", .real), ("pow", .real), ("random", .real)]

/-- The type of what a method on texts gives. One language has no type of single characters. -/
def methodResult? (l : Language) (name : String) : Option Scalar :=
  if name = "toString" then some .string
  else if l = .typescript && name = "charAt" then some .string
  else (Pseudo.StringMethod.all.find? (·.name == name)).map (·.result)

def listTypes : List String :=
  ["List", "ArrayList", "LinkedList", "Vector", "Array", "ReadonlyArray"]

def characterType : Language → Scalar
  | .java => .char
  | .typescript => .string

def dividesWhole : Language → Bool
  | .java => true
  | .typescript => false

end Blackboard.Conversion
