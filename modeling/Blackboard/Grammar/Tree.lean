import Blackboard.Grammar.Chart
import Blackboard.Token.Lexer

/-!
Parse trees, and the choice of one among all readings of a token sequence. Of several readings
the one taken is the first in this order: readings of at least one symbol, higher rank, earlier
alternative of the rule, earlier discovery.
-/
namespace Blackboard.Grammar

/-- A parse tree, in which only the kept tokens are shown. -/
inductive Tree where
  | leaf (t : Token)
  | node (label : Category) (children : List Tree)

namespace Forest

/-- The best rank of what is read, and the ranks of all its parts. A reading ranks as the sum of
the ranks of its parts and, once complete, the priority of its production. -/
def rankFrom (f : Forest) : (fuel : Nat) → (code start stop : Nat) → (symbols : List Symbol) →
    Std.TreeMap Nat Nat → Nat × Std.TreeMap Nat Nat
  | 0, _, _, _, _, ranks => (0, ranks)
  | fuel + 1, code, start, stop, symbols, ranks =>
    let key := f.key code start stop
    match ranks[key]? with
    | some n => (n, ranks)
    | none =>
      let (best, ranks) := (f.get code start stop).foldl (fun (best, ranks) r =>
        let p := r.production
        let complete := code == p.origin
        let symbols := if complete then p.symbols.reverse else symbols
        let (n, ranks) : Nat × Std.TreeMap Nat Nat := match symbols with
          | [] => (0, ranks)
          | last :: before =>
            let (left, ranks) :=
              if before.isEmpty then (0, ranks)
              else f.rankFrom fuel (p.base + before.length) start r.split before ranks
            let (right, ranks) := match last with
              | .terminal _ _ => (0, ranks)
              | .category c => f.rankFrom fuel c r.split stop [] ranks
            (left + right, ranks)
        (max best (if complete then n + p.priority else n), ranks)) (0, ranks)
      (best, ranks.insert key best)

def rankOf (f : Forest) (ranks : Std.TreeMap Nat Nat) (complete : Bool) (symbols : List Symbol)
    (start stop : Nat) (r : Reading) : Nat :=
  let rank code start stop := (ranks[f.key code start stop]?).getD 0
  let own := if complete then r.production.priority else 0
  match symbols with
  | [] => own
  | last :: before =>
    let left := if before.isEmpty then 0 else rank (r.production.base + before.length) start r.split
    let right := match last with
      | .terminal _ _ => 0
      | .category c => rank c r.split stop
    own + left + right

def better (a : Reading × Nat) (b : Reading × Nat) : Bool :=
  let empty (r : Reading) := r.production.symbols.isEmpty
  if empty a.1 != empty b.1 then !empty a.1
  else if a.2 != b.2 then a.2 > b.2
  else a.1.production.order < b.1.production.order

def best? : List (Reading × Nat) → Option Reading
  | [] => none
  | r :: rs => some (rs.foldl (fun a b => if better b a then b else a) r).1

def categoryReading? (f : Forest) (ranks : Std.TreeMap Nat Nat) (c start stop : Nat) : Option Reading :=
  best? ((f.get c start stop).map fun r =>
    (r, f.rankOf ranks true r.production.symbols.reverse start stop r))

def partReading? (f : Forest) (ranks : Std.TreeMap Nat Nat) (p : Production)
    (symbols : List Symbol) (start stop : Nat) : Option Reading :=
  best? ((f.get (p.base + symbols.length) start stop).map fun r =>
    (r, f.rankOf ranks false symbols start stop r))

end Forest

namespace Tree

def shaped (p : Production) (parts : List Tree) : List Tree :=
  match p.shape, parts with
  | .spliced, parts => parts
  | .collapsed, [part] => [part]
  | _, parts => [.node p.label parts]

/-- The trees of the first symbols of a production, given in reverse, of which the last begins at
`split`. Every step goes to a part of what is read, so `fuel` need not exceed the number of
stretches in the forest. -/
def parts (f : Forest) (ranks : Std.TreeMap Nat Nat) (tokens : Array Token) :
    (fuel : Nat) → Production → (symbols : List Symbol) → (start split stop : Nat) → List Tree
  | 0, _, _, _, _, _ => []
  | _ + 1, _, [], _, _, _ => []
  | fuel + 1, p, last :: before, start, split, stop =>
    let left := match before with
      | [] => []
      | _ => match f.partReading? ranks p before start split with
        | some r => parts f ranks tokens fuel p before start r.split split
        | none => []
    let right := match last with
      | .terminal _ false => []
      | .terminal _ true => (tokens[split]?).toList.map .leaf
      | .category c => match f.categoryReading? ranks c split stop with
        | some r =>
          let q := r.production
          shaped q (parts f ranks tokens fuel q q.symbols.reverse split r.split stop)
        | none => []
    left ++ right

def ofForest? (g : Grammar) (f : Forest) (c : Category) (tokens : Array Token) : Option Tree :=
  let fuel := f.readings.size + 1
  let n := tokens.size
  let ranks := if g.ranked then (f.rankFrom fuel c.ctorIdx 0 n [] ∅).2 else ∅
  match f.categoryReading? ranks c.ctorIdx 0 n with
  | none => none
  | some r =>
    let p := r.production
    (shaped p (parts f ranks tokens fuel p p.symbols.reverse 0 r.split n)).head?

end Tree

inductive ParseError where
  /-- no token can stand where `token` does except one of the `expected` -/
  | unexpectedToken (token : Token) (expected : List Terminal)
  | strayCharacter (stray : Token.Stray)
  | unexpectedEnd

namespace Tree

/-- Parses a text as the category `c`. Tokens are taken one by one, so an unexpected token is
reported before a stray character behind it. -/
def parse (l : Language) (g : Grammar) (c : Category) (text : List Char) : Except ParseError Tree :=
  let (tokens, stray) := Token.lex l text
  match Chart.ofTerminals g c (tokens.map (·.terminal)) with
  | .error failure =>
    match tokens[failure.place]? with
    | some token => .error (.unexpectedToken token failure.expected)
    | none => .error .unexpectedEnd
  | .ok forest =>
    match stray with
    | some stray => .error (.strayCharacter stray)
    | none =>
      match ofForest? g forest c tokens.toArray with
      | some tree => .ok tree
      | none => .error .unexpectedEnd

end Tree

end Blackboard.Grammar
