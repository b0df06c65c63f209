import ControlFile.Number.Binary

/-!
# The shortest decimal

A double is written with the fewest digits that read back as the same double; of two decimals of
that length the nearer is taken, and the larger if both are equally near.

The reals that read back as `m · 2 ^ q` form an interval around it, which reaches half way to
either neighbour and holds its ends exactly if `m` is even.  For one digit, two digits and so on,
`Shortest.digits` tries the two decimals next to the double, until one of them is in the interval;
with seventeen digits one always is.
-/

namespace ControlFile

namespace Shortest

/-- The reals that read back as one double, over a common denominator. -/
structure Interval where
  low : Nat
  middle : Nat
  high : Nat
  denominator : Nat
  closed : Bool
deriving Inhabited

/-- The interval of a nonzero double.  A power of two has a nearer neighbour below it. -/
def interval (b : Binary) : Interval :=
  let m := b.mantissa
  let below := if m = Nat.pow 2 52 && Binary.leastExponent < b.exponent then 1 else 2
  let unit := Nat.pow 2 (b.exponent - 2).toNat
  { low := (4 * m - below) * unit
    middle := 4 * m * unit
    high := (4 * m + 2) * unit
    denominator := Nat.pow 2 (2 - b.exponent).toNat
    closed := m % 2 = 0 }

/-- Whether `n · 10 ^ k` is in the interval. -/
def Interval.holds (i : Interval) (n : Nat) (k : Int) : Bool :=
  let (value, one) := Binary.scaleRatio 10 k (n * i.denominator) 1
  if i.closed then i.low * one ≤ value && value ≤ i.high * one
  else i.low * one < value && value < i.high * one

/-- Of the two multiples of `10 ^ k` next to the middle, the one to write, if one is in the
interval. -/
def Interval.candidate? (i : Interval) (k : Int) : Option Nat :=
  let (num, den) := Binary.scaleRatio 10 (-k) i.middle i.denominator
  let n := num / den
  match i.holds n k, i.holds (n + 1) k with
  | true, true => some (if 2 * (num % den) < den then n else n + 1)
  | true, false => some n
  | false, true => some (n + 1)
  | false, false => none

/-- Raises `k` while `10 ^ (k + 1)` is at most the middle of the interval. -/
def Interval.raise (i : Interval) : Nat → Int → Int
  | 0, k => k
  | steps + 1, k =>
    let (num, den) := Binary.scaleRatio 10 (-(k + 1)) i.middle i.denominator
    if den ≤ num then i.raise steps (k + 1) else k

/-- The largest `k` with `10 ^ k` at most the double.  The number of its bits gives a first guess
that is at most three too small. -/
def magnitude (b : Binary) : Int :=
  let bits : Int := b.mantissa.log2 + b.exponent
  (interval b).raise 3 (bits * 30103 / 100000 - 1)

/-- The first candidate among the decimals of `17 - left`, … , 17 digits. -/
def Interval.search (i : Interval) (top : Int) : (left : Nat) → Nat × Int
  | 0 => let k := top - 16; ((i.candidate? k).getD 0, k)
  | left + 1 =>
    let k := top - (16 - (left + 1 : Nat))
    match i.candidate? k with
    | some n => (n, k)
    | none => i.search top left

/-- The shortest decimal of a nonzero double: its digits as a number, and the power of ten of the
last of them. -/
def digits (b : Binary) : Nat × Int := (interval b).search (magnitude b) 16

/-! ### Layout -/

/-- A row of `n` zeros. -/
def zeros (n : Nat) : List Char := List.replicate n '0'

/-- The digits of `n` without the zeros at its end. -/
def digitRow (n : Nat) : List Char := ((Nat.toDigits 10 n).reverse.dropWhile (· == '0')).reverse

/-- Writes `0.ds · 10 ^ point`.  The exponent form is used from `10 ^ 16` on and below `10 ^ -4`;
in the other form at least one digit follows the point. -/
def layout (ds : List Char) (point : Int) : List Char :=
  if point < -3 || 16 < point then
    let exponent := ['e'] ++ (toString (point - 1)).toList
    match ds with
    | [] => exponent
    | [d] => d :: exponent
    | d :: rest => d :: '.' :: rest ++ exponent
  else if point ≤ 0 then ['0', '.'] ++ zeros (-point).toNat ++ ds
  else if (ds.length : Int) ≤ point then ds ++ zeros (point.toNat - ds.length) ++ ['.', '0']
  else ds.take point.toNat ++ ['.'] ++ ds.drop point.toNat

/-- The text of a finite double without its sign. -/
def magnitudeText (b : Binary) : List Char :=
  if b.mantissa = 0 then ['0', '.', '0']
  else
    let (n, k) := digits b
    layout (digitRow n) ((Nat.toDigits 10 n).length + k)

end Shortest

/-- The text of a double. -/
def floatText (x : Float) : String :=
  match Binary.ofFloat? x with
  | some b =>
    String.ofList ((if b.negative then ['-'] else []) ++ Shortest.magnitudeText b)
  | none => if x.isNaN then "NaN" else if x < 0.0 then "-inf" else "inf"

end ControlFile
