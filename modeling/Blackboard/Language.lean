/-! The source languages and the names they go by. -/
namespace Blackboard

inductive Language where
  | java
  | typescript
deriving DecidableEq, Repr

namespace Language

def name : Language → String
  | java => "java"
  | typescript => "typescript"

def aliases : List (String × Language) :=
  [("java", java), ("typescript", typescript), ("ts", typescript), ("javascript", typescript), ("js", typescript)]

def extensions : List (String × Language) :=
  [(".java", java), (".ts", typescript), (".tsx", typescript), (".js", typescript), (".mjs", typescript)]

def ofName? (s : String) : Option Language := aliases.lookup s.toLower

def ofExtension? (s : String) : Option Language := extensions.lookup s.toLower

end Language

end Blackboard
