import Blackboard.Number.Decimal

/-!
The text of a floating-point number: the fewest decimal digits that read back as the same number,
and among those the nearest. A decimal is first rounded to the nearest number of 53 binary digits,
half to even. All arithmetic is exact.
-/
namespace Blackboard.Shortest

/-- The positive number `mantissa · 2 ^ exponent` of 53 binary digits at most. -/
structure Binary where
  mantissa : Nat
  exponent : Int
deriving DecidableEq, Repr

def roundDiv (n d : Nat) : Nat :=
  let q := n / d
  let r := n % d
  if 2 * r > d || (2 * r == d && q % 2 == 1) then q + 1 else q

def scaled (n d : Nat) (e : Int) : Nat :=
  if 0 ≤ e then roundDiv n (d * Nat.pow 2 e.toNat) else roundDiv (n * Nat.pow 2 (-e).toNat) d

def leastExponent : Int := -1074

def greatestExponent : Int := 971

def nearest? (n d : Nat) : Option Binary :=
  let e : Int := max ((n.log2 : Int) - d.log2 - 52) leastExponent
  let m := scaled n d e
  -- the estimate of the exponent is one too large when the quotient is just below a power of two
  let (m, e) := if m < Nat.pow 2 52 && leastExponent < e then (scaled n d (e - 1), e - 1)
    else (m, e)
  let (m, e) := if m = Nat.pow 2 53 then (Nat.pow 2 52, e + 1) else (m, e)
  if e > greatestExponent then none else some ⟨m, e⟩

def quotient (m : Nat) (e : Int) : Nat × Nat :=
  if 0 ≤ e then (m * Nat.pow 10 e.toNat, 1) else (m, Nat.pow 10 (-e).toNat)

def Binary.quotient (b : Binary) : Nat × Nat :=
  if 0 ≤ b.exponent then (b.mantissa * Nat.pow 2 b.exponent.toNat, 1)
  else (b.mantissa, Nat.pow 2 (-b.exponent).toNat)

def readsBack (b : Binary) (m : Nat) (e : Int) : Bool :=
  let (n, d) := Shortest.quotient m e
  nearest? n d == some b

def compareMiddle (n d lo : Nat) (e : Int) : Ordering :=
  let (p, q) := Shortest.quotient (2 * lo + 1) e
  compare (2 * n * q) (p * d)

/-- The decimal on the grid of unit `10 ^ e` that reads back as `b` and is nearest to it, if the
grid has one. An exact tie goes to the even mantissa. -/
def onGrid? (b : Binary) (e : Int) : Option Nat :=
  let (n, d) := b.quotient
  let lo := if 0 ≤ e then n / (d * Nat.pow 10 e.toNat) else n * Nat.pow 10 (-e).toNat / d
  match readsBack b lo e, readsBack b (lo + 1) e with
  | false, false => none
  | true, false => some lo
  | false, true => some (lo + 1)
  | true, true => match compareMiddle n d lo e with
    | .lt => some lo
    | .gt => some (lo + 1)
    | .eq => if lo % 2 == 0 then some lo else some (lo + 1)

def digitCount (n : Nat) : Nat := (Nat.toDigits 10 n).length

/-- The exponent of the leading decimal digit of a binary number, up to an error of one. -/
def magnitude (b : Binary) : Int :=
  let (n, d) := b.quotient
  (digitCount n : Int) - digitCount d

/-- The first grid, from coarse to fine, with a decimal that reads back. Grids are tried down to
the 18th digit, which is always fine enough. -/
def firstGrid (b : Binary) : (steps : Nat) → (e : Int) → Nat × Int
  | 0, _ => (0, 0)
  | steps + 1, e => match onGrid? b e with
    | some m => if m = 0 then firstGrid b steps (e - 1) else (m, e)
    | none => firstGrid b steps (e - 1)

/-- The digits of a decimal without zeros at the end, and the place of the point before them. -/
def digits (m : Nat) (e : Int) : List Char × Int :=
  let ds := Nat.toDigits 10 m
  ((ds.reverse.dropWhile (· == '0')).reverse, e + ds.length)

/-- Positional notation reaches from four zeros after the point to sixteen digits before it; beyond
that the exponent is written with a sign and at least two digits. -/
def layout (ds : List Char) (point : Int) : List Char :=
  if point ≤ -4 || point > 16 then
    let e := point - 1
    let es := Nat.toDigits 10 e.natAbs
    let es := if es.length < 2 then '0' :: es else es
    let fraction := if ds.length > 1 then '.' :: ds.drop 1 else []
    ds.take 1 ++ fraction ++ 'e' :: (if e < 0 then '-' else '+') :: es
  else if point ≤ 0 then
    '0' :: '.' :: List.replicate (-point).toNat '0' ++ ds
  else if ds.length ≤ point.toNat then
    ds ++ List.replicate (point.toNat - ds.length) '0' ++ ".0".toList
  else ds.take point.toNat ++ '.' :: ds.drop point.toNat

def positive (m : Nat) (e : Int) : List Char :=
  let size : Int := e + digitCount m
  if size > 310 then "inf".toList
  else if size < -325 then "0.0".toList
  else
    let (n, d) := Shortest.quotient m e
    match nearest? n d with
    | none => "inf".toList
    | some ⟨0, _⟩ => "0.0".toList
    | some b =>
      let (m, e) := firstGrid b 20 (magnitude b + 1)
      let (ds, point) := digits m e
      layout ds point

end Blackboard.Shortest

def Blackboard.Decimal.text (d : Blackboard.Decimal) : String :=
  let body := if d.mantissa = 0 then "0.0".toList
    else Blackboard.Shortest.positive d.mantissa d.exponent
  String.ofList (if d.negative then '-' :: body else body)
