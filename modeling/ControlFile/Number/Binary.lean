/-!
# Binary numbers

A finite double is `± mantissa · 2 ^ exponent`.  `Binary.ofFloat?` reads the three parts off the
bits, and `Binary.ofRatio` goes the other way: it is the double nearest to a ratio of natural
numbers, a half going to the even neighbour.  Every step between is exact arithmetic on natural
numbers, so what is rounded, and where, can be read off the definitions.

The bits of a nonnegative double grow with the double.  So a mantissa that is rounded up to the
next power of two needs no case of its own: its carry runs into the exponent field.
-/

namespace ControlFile

/-- The finite number `± mantissa · 2 ^ exponent`. -/
structure Binary where
  negative : Bool
  mantissa : Nat
  exponent : Int
deriving DecidableEq, Inhabited

namespace Binary

/-- The least exponent of a double. -/
def leastExponent : Int := -1074

/-- The bits of infinity; those of every finite nonnegative double are below. -/
def infinityBits : Nat := 2047 * Nat.pow 2 52

/-- The sign, mantissa and exponent of a finite double. -/
def ofFloat? (x : Float) : Option Binary :=
  let bits := x.toBits.toNat
  let field := bits / Nat.pow 2 52 % 2048
  let fraction := bits % Nat.pow 2 52
  let negative := Nat.pow 2 63 ≤ bits
  if field = 2047 then none
  else if field = 0 then some ⟨negative, fraction, leastExponent⟩
  else some ⟨negative, Nat.pow 2 52 + fraction, leastExponent + (field - 1 : Nat)⟩

/-! ### Ratios -/

/-- The ratio `num / den`, times `base ^ k`. -/
def scaleRatio (base : Nat) (k : Int) (num den : Nat) : Nat × Nat :=
  (num * base.pow k.toNat, den * base.pow (-k).toNat)

/-- The whole number nearest to `num / den`, a half going to the even one. -/
def roundRatio (num den : Nat) : Nat :=
  let low := num / den
  let twice := 2 * (num % den)
  if twice < den then low else if den < twice then low + 1 else low + low % 2

/-- The largest `k` with `2 ^ k ≤ num / den`, both being positive. -/
def logRatio (num den : Nat) : Int :=
  let k : Int := num.log2 - den.log2
  let (n, d) := scaleRatio 2 (-k) num den
  if d ≤ n then k else k - 1

/-- The bits of the nonnegative double nearest to `num / den`. -/
def nearestBits (num den : Nat) : Nat :=
  if num = 0 then 0
  else
    let exponent := max (logRatio num den - 52) leastExponent
    let (n, d) := scaleRatio 2 (-exponent) num den
    min ((exponent - leastExponent).toNat * Nat.pow 2 52 + roundRatio n d) infinityBits

/-- The double with the given sign and the given bits below it. -/
def ofBits (negative : Bool) (bits : Nat) : Float :=
  Float.ofBits (UInt64.ofNat (if negative then Nat.pow 2 63 + bits else bits))

/-- The double nearest to `± num / den`. -/
def ofRatio (negative : Bool) (num den : Nat) : Float := ofBits negative (nearestBits num den)

/-! ### Whole numbers and remainders -/

/-- The number itself, if it is whole. -/
def toInt? (b : Binary) : Option Int :=
  let (n, d) := scaleRatio 2 b.exponent b.mantissa 1
  if n % d = 0 then some (if b.negative then -(n / d : Nat) else (n / d : Nat)) else none

/-- The double nearest to a whole number. -/
def ofInt (v : Int) : Float := ofRatio (v < 0) v.natAbs 1

/-- What is left of `x` after taking `y` away as often as its size allows, with the sign of `x`.
It is exact: the remainder is a multiple of the smaller of the two powers of two. -/
def remainder (x y : Binary) : Float :=
  let e := min x.exponent y.exponent
  let a := x.mantissa * Nat.pow 2 (x.exponent - e).toNat
  let b := y.mantissa * Nat.pow 2 (y.exponent - e).toNat
  let (n, d) := scaleRatio 2 e (a % b) 1
  ofRatio x.negative n d

end Binary

/-- The remainder of two finite doubles; other doubles have none. -/
def floatRemainder (x y : Float) : Float :=
  match Binary.ofFloat? x, Binary.ofFloat? y with
  | some a, some b => a.remainder b
  | _, _ => 0.0 / 0.0

end ControlFile
