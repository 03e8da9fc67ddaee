/-! Places in a source text: positions and the spans between two of them. -/
namespace Blackboard.Source

structure Position where
  line : Nat
  column : Nat
deriving DecidableEq, Repr

namespace Position

def start : Position := ⟨1, 1⟩

def after (p : Position) (c : Char) : Position :=
  if c = '\n' then ⟨p.line + 1, 1⟩ else ⟨p.line, p.column + 1⟩

def afterAll (p : Position) (cs : List Char) : Position := cs.foldl after p

def ofOffset (cs : List Char) (offset : Nat) : Position := start.afterAll (cs.take offset)

@[simp] theorem afterAll_nil (p : Position) : p.afterAll [] = p := rfl

@[simp] theorem afterAll_cons (p : Position) (c : Char) (cs : List Char) :
    p.afterAll (c :: cs) = (p.after c).afterAll cs := rfl

@[simp] theorem afterAll_append (p : Position) (cs ds : List Char) :
    p.afterAll (cs ++ ds) = (p.afterAll cs).afterAll ds := by
  simp [afterAll, List.foldl_append]

end Position

/-- From the first character of a construct to the place after its last one. -/
structure Span where
  line : Nat
  column : Nat
  endLine : Nat
  endColumn : Nat
deriving DecidableEq, Repr

namespace Span

def unplaced : Span := ⟨1, 1, 1, 1⟩

def start (s : Span) : Position := ⟨s.line, s.column⟩

def cover (a b : Span) : Span := ⟨a.line, a.column, b.endLine, b.endColumn⟩

def coverAll : List Span → Span
  | [] => unplaced
  | s :: rest => s.cover ((s :: rest).getLast (by simp))

end Span

end Blackboard.Source
