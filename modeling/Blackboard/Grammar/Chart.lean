import Blackboard.Grammar.Production

/-!
The chart of a token sequence: for every place between two tokens, the productions that may be
under way there, and for every stretch of tokens, how it can be read.

The order in which items and readings are found is part of the result, because of two readings
that are otherwise equal the one found first is preferred.
-/
namespace Blackboard.Grammar

/-- A production read up to `dot`, from the place `start` on. -/
structure Item where
  production : Production
  dot : Nat
  rest : List Symbol
  start : Nat

namespace Item

def begin (p : Production) (start : Nat) : Item := ⟨p, 0, p.symbols, start⟩

def advance (i : Item) : Item := { i with dot := i.dot + 1, rest := i.rest.tail }

def place (i : Item) : Nat := i.production.base + i.dot

/-- What the item has read: its category when it is complete, otherwise the place reached. -/
def code (i : Item) : Nat := if i.rest.isEmpty then i.production.origin else i.place

def terminal? (i : Item) : Option Terminal :=
  match i.rest with
  | .terminal t _ :: _ => some t
  | _ => none

def awaits (i : Item) (c : Nat) : Bool :=
  match i.rest with
  | .category c' :: _ => c' == c
  | _ => false

end Item

structure ItemSet where
  items : List Item := []
  keys : Std.TreeMap Nat Unit := ∅

namespace ItemSet

def key (width : Nat) (i : Item) : Nat := i.start * width + i.place

def contains (s : ItemSet) (width : Nat) (i : Item) : Bool := s.keys.contains (key width i)

def add (s : ItemSet) (width : Nat) (i : Item) : ItemSet :=
  if s.contains width i then s else ⟨i :: s.items, s.keys.insert (key width i) ()⟩

def toList (s : ItemSet) : List Item := s.items.reverse

end ItemSet

/-- A way to read a stretch of tokens: by `production`, of which the last symbol read begins at
`split`. -/
structure Reading where
  production : Production
  split : Nat

namespace Reading

def same (a b : Reading) : Bool := a.production.base == b.production.base && a.split == b.split

end Reading

/-- The readings of all stretches, each list in the order of discovery. `code` is what is read, a
category or a place within a production, from `start` to `stop`. -/
structure Forest where
  width : Nat
  stride : Nat
  readings : Std.TreeMap Nat (List Reading) := ∅

namespace Forest

def key (f : Forest) (code start stop : Nat) : Nat := (stop * f.stride + start) * f.width + code

def get (f : Forest) (code start stop : Nat) : List Reading :=
  (f.readings[f.key code start stop]?).getD []

def add (f : Forest) (code start stop : Nat) (r : Reading) : Forest :=
  let known := f.get code start stop
  if known.any r.same then f
  else { f with readings := f.readings.insert (f.key code start stop) (known ++ [r]) }

end Forest

structure Work where
  column : ItemSet
  /-- items of the column that are still to be looked at, the next one first -/
  pending : List Item
  /-- items that stand before a terminal -/
  scan : ItemSet
  /-- categories read here from no token at all -/
  held : List Nat
  forest : Forest

namespace Work

def push (w : Work) (i : Item) : Work :=
  match i.terminal? with
  | some _ => { w with scan := w.scan.add w.forest.width i }
  | none =>
    if w.column.contains w.forest.width i then w
    else { w with column := w.column.add w.forest.width i, pending := i :: w.pending }

/-- Notes that `i`, at the place `stop`, was reached with a last symbol that begins at `split`. -/
def record (w : Work) (i : Item) (split stop : Nat) : Work :=
  { w with forest := w.forest.add i.code i.start stop ⟨i.production, split⟩ }

def move (w : Work) (i : Item) (split stop : Nat) : Work :=
  let next := i.advance
  (w.record next split stop).push next

def complete (columns : Array ItemSet) (here : Nat) (w : Work) (i : Item) : Work :=
  let c := i.production.origin
  let w := if i.dot = 0 then w.record i here here else w
  let w := if i.start = here then { w with held := c :: w.held } else w
  let column := if i.start = here then w.column else columns.getD i.start {}
  (column.toList.filter (·.awaits c)).foldl (fun w waiting => w.move waiting i.start here) w

/-- An item before a category starts the productions that may begin there. If the category was
already read from no token, the item moves on as well. -/
def predict (g : Grammar) (here : Nat) (w : Work) (i : Item) (c : Nat) : Work :=
  let started := (g.predict c).foldl (fun w p => w.push (.begin p here)) w
  if w.held.contains c then started.move i here here else started

def step (g : Grammar) (columns : Array ItemSet) (here : Nat) (w : Work) (i : Item) : Work :=
  match i.rest with
  | [] => w.complete columns here i
  | .category c :: _ => w.predict g here i c
  | .terminal _ _ :: _ => w

/-- Looks at pending items until none is left. An item is pending at most once, so `fuel` need not
exceed the number of items that can exist here. -/
def saturate (g : Grammar) (columns : Array ItemSet) (here : Nat) : (fuel : Nat) → Work → Work
  | 0, w => w
  | fuel + 1, w =>
    match w.pending with
    | [] => w
    | i :: rest => saturate g columns here fuel (step g columns here { w with pending := rest } i)

def itemBound (g : Grammar) (here : Nat) : Nat := g.width * (here + 1) + 1

def shift (w : Work) (here : Nat) (t : Terminal) : Work :=
  let width := w.forest.width
  let empty : Work := { column := {}, pending := [], scan := {}, held := [], forest := w.forest }
  let next := w.scan.toList.foldl (fun n i =>
    if i.terminal? == some t then
      let i' := i.advance
      let n := n.record i' here (here + 1)
      match i'.terminal? with
      | some _ => { n with scan := n.scan.add width i' }
      | none => { n with column := n.column.add width i' }
    else n) empty
  { next with pending := next.column.items }

end Work

/-- Where a token sequence stops being the beginning of any sentence: at the token number `place`,
where one of the terminals `expected` could have stood. -/
structure Failure where
  place : Nat
  expected : List Terminal

namespace Chart

def first (g : Grammar) (c : Nat) (tokenCount : Nat) : Work :=
  let empty : Work :=
    { column := {}, pending := [], scan := {}, held := [],
      forest := { width := g.width, stride := tokenCount + 1 } }
  (g.predict c).foldl (fun w p => w.push (.begin p 0)) empty

def run (g : Grammar) : (here : Nat) → (columns : Array ItemSet) → Work → List Terminal → Except Failure Forest
  | here, columns, w, ts =>
    let w := w.saturate g columns here (Work.itemBound g here)
    match ts with
    | [] => .ok w.forest
    | t :: ts =>
      let next := w.shift here t
      if next.column.items.isEmpty && next.scan.items.isEmpty then
        .error ⟨here, w.scan.toList.filterMap Item.terminal?⟩
      else run g (here + 1) (columns.push w.column) next ts

def ofTerminals (g : Grammar) (c : Category) (ts : List Terminal) : Except Failure Forest :=
  run g 0 #[] (first g c.ctorIdx ts.length) ts

end Chart

end Blackboard.Grammar
