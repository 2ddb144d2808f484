/-!
# Binary floating point, exactly

A finite number of the 64-bit binary format is a sign and a magnitude
`mantissa · 2^exponent`. Magnitudes are kept in one canonical form: the
exponent lies between -1074 and 971, the mantissa is below `2^53`, and it is at
least `2^52` unless the exponent is the least one. So two magnitudes are the
same number exactly when they are equal as data.

All arithmetic goes through `Magnitude.ofRatio`, which rounds a quotient of
natural numbers to the nearest magnitude, a tie going to the even mantissa.
Nothing here touches machine floats, so every operation computes in proofs.
-/

namespace DocPlan

/-- A finite non-negative number `mantissa · 2^exponent`, in canonical form. -/
structure Magnitude where
  mantissa : Nat
  exponent : Int
  deriving DecidableEq, Repr

namespace Magnitude

def leastExponent : Int := -1074

def greatestExponent : Int := 971

/-- The least mantissa above the least exponent: a one and 52 zeros. -/
def leastMantissa : Nat := Nat.pow 2 52

def zero : Magnitude := ⟨0, leastExponent⟩

def isZero (x : Magnitude) : Bool := x.mantissa == 0

/-- A quotient of natural numbers, to be rounded. -/
structure Ratio where
  num : Nat
  den : Nat

/-- `num / den · 2^shift`, without rounding. -/
def Ratio.shift (r : Ratio) (shift : Int) : Ratio :=
  if 0 ≤ shift then ⟨r.num * Nat.pow 2 shift.toNat, r.den⟩
  else ⟨r.num, r.den * Nat.pow 2 (-shift).toNat⟩

/-- The value of a magnitude as a quotient. -/
def toRatio (x : Magnitude) : Ratio :=
  Ratio.shift ⟨x.mantissa, 1⟩ x.exponent

/-- The integer nearest to a quotient; a half goes to the even neighbour. -/
def Ratio.nearest (r : Ratio) : Nat :=
  let quotient := r.num / r.den
  let twice := 2 * (r.num % r.den)
  if twice < r.den then quotient
  else if r.den < twice then quotient + 1
  else if quotient % 2 = 0 then quotient else quotient + 1

/-- The exponent at which the mantissa of a quotient has 53 bits, or the least
exponent for a smaller quotient. -/
def Ratio.scale (r : Ratio) : Int :=
  let guess : Int := (Nat.log2 r.num : Int) - Nat.log2 r.den - 52
  let scaled := r.shift (-guess)
  max leastExponent (if scaled.num < leastMantissa * scaled.den then guess - 1 else guess)

/-- The magnitude nearest to a quotient, or nothing when it is too large. -/
def ofRatio (r : Ratio) : Option Magnitude :=
  if r.num = 0 then some zero
  else
    let exponent := r.scale
    let mantissa := (r.shift (-exponent)).nearest
    let carried : Magnitude :=
      if mantissa = 2 * leastMantissa then ⟨leastMantissa, exponent + 1⟩ else ⟨mantissa, exponent⟩
    if greatestExponent < carried.exponent then none else some carried

def ofNat? (n : Nat) : Option Magnitude :=
  ofRatio ⟨n, 1⟩

def mul? (x y : Magnitude) : Option Magnitude :=
  let a := x.toRatio
  let b := y.toRatio
  ofRatio ⟨a.num * b.num, a.den * b.den⟩

def div? (x y : Magnitude) : Option Magnitude :=
  let a := x.toRatio
  let b := y.toRatio
  ofRatio ⟨a.num * b.den, a.den * b.num⟩

end Magnitude

/-- A finite number: a sign and a magnitude. Zero has two signs. -/
structure Binary64 where
  negative : Bool
  magnitude : Magnitude
  deriving DecidableEq, Repr

namespace Binary64

def isZero (x : Binary64) : Bool := x.magnitude.isZero

/-- Equality as numbers: the sign of zero does not count. -/
def sameValue (x y : Binary64) : Bool :=
  x.magnitude == y.magnitude && (x.isZero || x.negative == y.negative)

end Binary64

example : Magnitude.ofNat? 1 = some ⟨4503599627370496, -52⟩ := by decide
example : Magnitude.ofNat? 9007199254740993 = some ⟨4503599627370496, 1⟩ := by decide

end DocPlan
