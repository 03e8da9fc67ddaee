import Blackboard.Grammar.Java
import Blackboard.Grammar.TypeScript
import Blackboard.Grammar.Tree

/-! The grammars of the two languages, ready for parsing. -/
namespace Blackboard

namespace Grammar

def java : Grammar := ofRules Java.rules

def typescript : Grammar := ofRules TypeScript.rules

end Grammar

def Language.grammar : Language → Grammar
  | .java => .java
  | .typescript => .typescript

namespace Grammar

def parse (l : Language) (c : Category) (text : List Char) : Except ParseError Tree :=
  Tree.parse l l.grammar c text

end Grammar

end Blackboard
