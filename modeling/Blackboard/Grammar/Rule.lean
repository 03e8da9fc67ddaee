import Blackboard.Grammar.Category
import Blackboard.Token.Terminal

/-!
Grammar rules as they are written down: sequences, choices, options and repetitions of terminals
and categories.
-/
namespace Blackboard.Grammar

/-- A pattern of symbols. A terminal is kept in the parse tree or only required. -/
inductive Pattern where
  | empty
  | terminal (t : Terminal) (kept : Bool)
  | category (c : Category)
  | seq (a b : Pattern)
  | alt (a b : Pattern)
  | repeated (a : Pattern)
deriving DecidableEq, Repr

instance : Coe Category Pattern := ⟨.category⟩

instance : Coe Terminal Pattern := ⟨fun t => .terminal t false⟩

namespace Pattern

def keep (t : Terminal) : Pattern := .terminal t true

def all : List Pattern → Pattern
  | [] => .empty
  | [p] => p
  | p :: ps => .seq p (all ps)

def opt (ps : List Pattern) : Pattern := .alt (all ps) .empty

def some1 (ps : List Pattern) : Pattern := .repeated (all ps)

def many (ps : List Pattern) : Pattern := .alt (some1 ps) .empty

def oneOf : List Pattern → Pattern
  | [] => .empty
  | [p] => p
  | p :: ps => .alt p (oneOf ps)

def separated (p separator : Pattern) : Pattern := all [p, many [separator, p]]

def keepAll : Pattern → Pattern
  | .terminal t _ => .terminal t true
  | .seq a b => .seq a.keepAll b.keepAll
  | .alt a b => .alt a.keepAll b.keepAll
  | .repeated a => .repeated a.keepAll
  | p => p

def repetitions : Pattern → List Pattern
  | .seq a b | .alt a b => a.repetitions ++ b.repetitions
  | .repeated a => a.repetitions ++ [a]
  | _ => []

end Pattern

inductive Shape where
  /-- a node with the parts as children -/
  | node
  /-- the parts take the place of the node -/
  | spliced
  /-- a single part takes the place of the node -/
  | collapsed
  /-- a node that keeps all its terminals -/
  | verbatim
deriving DecidableEq, Repr

/-- One way to read a rule, and the category of its node if that is not the rule's own. -/
structure Alternative where
  body : Pattern
  label : Option Category := none

structure Rule where
  category : Category
  shape : Shape := .node
  /-- readings of higher priority are preferred -/
  priority : Nat := 0
  alternatives : List Alternative

namespace Rule

open Pattern

def node (c : Category) (bodies : List (List Pattern)) : Rule :=
  { category := c, alternatives := bodies.map fun ps => { body := all ps } }

def spliced (c : Category) (bodies : List (List Pattern)) : Rule :=
  { node c bodies with shape := .spliced }

def collapsed (c : Category) (bodies : List (List Pattern)) : Rule :=
  { node c bodies with shape := .collapsed }

def verbatim (c : Category) (ts : List Terminal) : Rule :=
  { category := c, shape := .verbatim,
    alternatives := ts.map fun t => { body := .terminal t true } }

def withCase (r : Rule) (label : Category) (ps : List Pattern) : Rule :=
  { r with alternatives := r.alternatives ++ [{ body := all ps, label := some label }] }

/-- A level of left-associative operators: the next tighter level, or this level, an operator and
the next level. -/
def binaryLevel (c op next : Category) : Rule :=
  (collapsed c [[next]]).withCase .binaryExpression [c, op, next]

end Rule

end Blackboard.Grammar
