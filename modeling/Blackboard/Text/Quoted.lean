/-! Texts in quotes, as they are shown in messages. -/
namespace Blackboard.Text

def invisibleRanges : List (Nat × Nat) :=
  [(0x0, 0x1f), (0x7f, 0xa0), (0xad, 0xad), (0x600, 0x605), (0x61c, 0x61c), (0x6dd, 0x6dd),
   (0x70f, 0x70f), (0x890, 0x891), (0x8e2, 0x8e2), (0x1680, 0x1680), (0x180e, 0x180e),
   (0x2000, 0x200f), (0x2028, 0x202f), (0x205f, 0x2064), (0x2066, 0x206f), (0x3000, 0x3000),
   (0xd800, 0xf8ff), (0xfeff, 0xfeff), (0xfff9, 0xfffb), (0x110bd, 0x110bd),
   (0x110cd, 0x110cd), (0x13430, 0x13438), (0x1bca0, 0x1bca3), (0x1d173, 0x1d17a),
   (0xe0001, 0xe0001), (0xe0020, 0xe007f), (0xf0000, 0xffffd), (0x100000, 0x10fffd)]

def isVisible (c : Char) : Bool :=
  !(invisibleRanges.any fun (lo, hi) => lo ≤ c.toNat && c.toNat ≤ hi)

def paddedHex (width n : Nat) : List Char :=
  let ds := Nat.toDigits 16 n
  List.replicate (width - ds.length) '0' ++ ds

def shown (mark c : Char) : List Char :=
  let n := c.toNat
  if c = mark || c = '\\' then ['\\', c]
  else if c = '\n' then ['\\', 'n']
  else if c = '\r' then ['\\', 'r']
  else if c = '\t' then ['\\', 't']
  else if isVisible c then [c]
  else if n < 0x100 then '\\' :: 'x' :: paddedHex 2 n
  else if n < 0x10000 then '\\' :: 'u' :: paddedHex 4 n
  else '\\' :: 'U' :: paddedHex 8 n

/-- A text in single quotes, or in double quotes if it has single quotes and no double quotes. -/
def quoted (s : String) : String :=
  let cs := s.toList
  let mark := if cs.contains '\'' && !cs.contains '"' then '"' else '\''
  String.ofList (mark :: cs.flatMap (shown mark) ++ [mark])

end Blackboard.Text
