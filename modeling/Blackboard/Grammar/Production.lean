import Std.Data.TreeMap
import Blackboard.Grammar.Rule

/-!
Productions: the rules of a grammar with all options, choices and repetitions multiplied out.

A repetition of `p` becomes a category of its own that is `p` or itself followed by `p`. The
alternatives of a rule are numbered in the order in which they are written, where an optional part
is first taken and then left out.
-/
namespace Blackboard.Grammar

/-- A symbol of a production. Categories are numbered, those made for repetitions after the named
ones. -/
inductive Symbol where
  | terminal (t : Terminal) (kept : Bool)
  | category (c : Nat)
deriving DecidableEq, Repr

structure Production where
  /-- the number of the category it describes -/
  origin : Nat
  symbols : List Symbol
  /-- its number among the productions of its origin -/
  order : Nat
  priority : Nat
  shape : Shape
  label : Category
  /-- the number of the place before its first symbol, among all places of all productions -/
  base : Nat

def categoryCount : Nat := Category.literal.ctorIdx + 1

def Pattern.sequences (number : Pattern → Nat) : Pattern → List (List Symbol)
  | .empty => [[]]
  | .terminal t kept => [[.terminal t kept]]
  | .category c => [[.category c.ctorIdx]]
  | .seq a b =>
    let tails := b.sequences number
    (a.sequences number).flatMap fun s => tails.map (s ++ ·)
  | .alt a b => a.sequences number ++ b.sequences number
  | .repeated a => [[.category (number a)]]

namespace Production

def repetitions (rules : List Rule) : List Pattern :=
  (rules.flatMap fun r => r.alternatives.flatMap fun a => a.body.repetitions).eraseDups

def repetitionNumber (repeated : List Pattern) (p : Pattern) : Nat :=
  categoryCount + repeated.idxOf p

def sequencesOf (number : Pattern → Nat) (r : Rule) : List (List Symbol × Category) :=
  let all := r.alternatives.flatMap fun a =>
    (a.body.sequences number).map fun s => (s, a.label.getD r.category)
  all.eraseDups

def shapeOf (r : Rule) (label : Category) : Shape :=
  if r.shape = .collapsed && label ≠ r.category then .node else r.shape

def ofRule (number : Pattern → Nat) (r : Rule) : List Production :=
  (sequencesOf number r).zipIdx.map fun ((symbols, label), order) =>
    { origin := r.category.ctorIdx, symbols, order, priority := r.priority,
      shape := shapeOf r label, label, base := 0 }

def ofRepetition (number : Pattern → Nat) (p : Pattern) : List Production :=
  let once := p.sequences number
  let origin := number p
  (once ++ once.map (.category origin :: ·)).zipIdx.map fun (symbols, order) =>
    { origin, symbols, order, priority := 0, shape := .spliced, label := .program, base := 0 }

def numberPlaces : Nat → List Production → List Production × Nat
  | next, [] => ([], next)
  | next, p :: ps =>
    let (rest, last) := numberPlaces (next + p.symbols.length + 1) ps
    ({ p with base := next } :: rest, last)

def firstCategory? (p : Production) : Option Nat :=
  match p.symbols with
  | .category c :: _ => some c
  | _ => none

def addNew (xs : List Nat) (x : Nat) : List Nat := if xs.contains x then xs else xs ++ [x]

/-- The productions that may begin where the categories of `queue` may: those of the queued
categories, and then those of the categories they begin with, each category once. -/
def reachable (byOrigin : Nat → List Production) : (fuel : Nat) → (queue visited : List Nat) → List Production
  | 0, _, _ => []
  | _ + 1, [], _ => []
  | fuel + 1, c :: queue, visited =>
    let own := byOrigin c
    let seen := (own.filterMap firstCategory?).foldl addNew visited
    own ++ reachable byOrigin fuel (queue ++ seen.drop visited.length) seen

end Production

end Blackboard.Grammar

namespace Blackboard

open Grammar

structure Grammar where
  /-- the productions that may begin where a category may -/
  predictions : Std.TreeMap Nat (List Production)
  /-- all numbers of categories and places lie below -/
  width : Nat
  /-- whether any production has a priority -/
  ranked : Bool

namespace Grammar

def productionsOf (rules : List Rule) : List Production × Nat :=
  let repeated := Production.repetitions rules
  let number := Production.repetitionNumber repeated
  Production.numberPlaces (categoryCount + repeated.length)
    (rules.flatMap (Production.ofRule number) ++ repeated.flatMap (Production.ofRepetition number))

def ofRules (rules : List Rule) : Grammar :=
  let (productions, width) := productionsOf rules
  let byOrigin : Std.TreeMap Nat (List Production) := productions.foldl
    (fun m p => m.insert p.origin ((m[p.origin]?).getD [] ++ [p])) ∅
  let lookup c := (byOrigin[c]?).getD []
  { predictions := byOrigin.foldl
      (fun m c _ => m.insert c (Production.reachable lookup (byOrigin.size + 1) [c] [c])) ∅,
    width,
    ranked := productions.any fun p => p.priority != 0 }

def predict (g : Grammar) (c : Nat) : List Production := (g.predictions[c]?).getD []

end Grammar

end Blackboard
