import ControlFile.Number.Binary

/-!
# Reading decimals

A decimal is an optional sign, digits with an optional point among or beside them, and an
optional exponent; `inf`, `infinity` and `nan`, in either case, are read too.  `Decimal.read?`
gives the nearest double.

A control file may also write a power of ten with a fraction, as in `2e5.5`.  `Decimal.readNumber?`
reads both forms, and refuses what is not a finite number.
-/

namespace ControlFile.Decimal

/-- The number that a row of digits stands for. -/
def digitsValue (ds : List Char) : Nat := ds.foldl (fun n d => 10 * n + (d.toNat - '0'.toNat)) 0

/-- A whole number with an optional sign. -/
def readInt? : List Char → Option Int
  | [] => none
  | c :: cs =>
    let digits := if c = '-' || c = '+' then cs else c :: cs
    if digits.isEmpty || !digits.all Char.isDigit then none
    else some (if c = '-' then -(digitsValue digits : Int) else digitsValue digits)

/-- The bits of the double nearest to the number that `digits`, times `10 ^ scale`, stand for.
A number with no digit among the first 400 places before or after the point is out of reach of
doubles, and is not computed. -/
def nearestBits (digits : List Char) (scale : Int) : Nat :=
  let significant := digits.dropWhile (· == '0')
  let top : Int := significant.length + scale
  if significant.isEmpty || top < -400 then 0
  else if 400 < top then Binary.infinityBits
  else
    let (n, d) := Binary.scaleRatio 10 scale (digitsValue significant) 1
    Binary.nearestBits n d

/-- An exponent, with its mark. Nothing stands for the exponent zero. -/
def readExponent? : List Char → Option Int
  | [] => some 0
  | c :: cs => if c = 'e' || c = 'E' then readInt? cs else none

/-- A decimal without a sign. -/
def readUnsigned? (negative : Bool) (cs : List Char) : Option Float :=
  let whole := cs.takeWhile Char.isDigit
  let afterWhole := cs.dropWhile Char.isDigit
  let (fraction, rest) :=
    match afterWhole with
    | '.' :: r => (r.takeWhile Char.isDigit, r.dropWhile Char.isDigit)
    | r => ([], r)
  if whole.isEmpty && fraction.isEmpty then none
  else
    (readExponent? rest).map fun e =>
      Binary.ofBits negative (nearestBits (whole ++ fraction) (e - fraction.length))

/-- A decimal without a sign, or the name of a number that is not finite. -/
def readMagnitude? (negative : Bool) (cs : List Char) : Option Float :=
  match String.ofList (cs.map Char.toLower) with
  | "inf" | "infinity" => some (Binary.ofBits negative Binary.infinityBits)
  | "nan" => some (Binary.ofBits negative (Binary.infinityBits + Nat.pow 2 51))
  | _ => readUnsigned? negative cs

/-- The double nearest to a decimal. -/
def read? : List Char → Option Float
  | '-' :: cs => readMagnitude? true cs
  | '+' :: cs => readMagnitude? false cs
  | cs => readMagnitude? false cs

/-- Whether `c` marks an exponent. -/
def isExponentMark (c : Char) : Bool := c == 'e' || c == 'E'

/-- A real power of ten.  Nothing but the bits of `Float.pow` says that such a power has no sign, so
its magnitude is taken. -/
def powerOfTen (e : Float) : Float := (Float.pow 10.0 e).abs

/-- A number of a control file.  After the first exponent mark a decimal with a point is a real
power of ten; what is too large for a double is refused. -/
def readNumber? (cs : List Char) : Option Float :=
  let mantissa := cs.takeWhile (!isExponentMark ·)
  let exponent := (cs.dropWhile (!isExponentMark ·)).drop 1
  let value :=
    if exponent.contains '.' then do
      let m ← read? mantissa
      let e ← read? exponent
      some (m * powerOfTen e)
    else read? cs
  value.filter Float.isFinite

end ControlFile.Decimal
