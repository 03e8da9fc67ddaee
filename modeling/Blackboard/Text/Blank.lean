/-! Blank characters, trimming, and the division of a text into lines. -/
namespace Blackboard.Text

def isBlank (c : Char) : Bool :=
  let n := c.toNat
  (9 ≤ n && n ≤ 13) || (28 ≤ n && n ≤ 32) || n == 0x85 || n == 0xa0 || n == 0x1680 ||
    (0x2000 ≤ n && n ≤ 0x200a) || n == 0x2028 || n == 0x2029 || n == 0x202f || n == 0x205f ||
    n == 0x3000

def isLineEnd (c : Char) : Bool :=
  let n := c.toNat
  (10 ≤ n && n ≤ 13) || (28 ≤ n && n ≤ 30) || n == 0x85 || n == 0x2028 || n == 0x2029

def trimStart (cs : List Char) : List Char := cs.dropWhile isBlank

def trimEnd (cs : List Char) : List Char := (cs.reverse.dropWhile isBlank).reverse

def trim (cs : List Char) : List Char := trimEnd (trimStart cs)

def strip (s : String) : String := String.ofList (trim s.toList)

def stripEnd (s : String) : String := String.ofList (trimEnd s.toList)

/-- The lines of a text, without their line ends. A carriage return and the line feed after it
count as one line end, and a text that ends with a line end has no further line. -/
def lines : List Char → List (List Char)
  | cs => go cs []
where
  go : List Char → List Char → List (List Char)
    | [], [] => []
    | [], acc => [acc.reverse]
    | '\r' :: '\n' :: rest, acc => acc.reverse :: go rest []
    | c :: rest, acc => if isLineEnd c then acc.reverse :: go rest [] else go rest (c :: acc)

theorem isBlank_of_isLineEnd {c : Char} (h : isLineEnd c = true) : isBlank c = true := by
  simp only [isLineEnd, isBlank] at *
  grind

end Blackboard.Text
