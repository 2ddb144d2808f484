import DocPlan.Number.Binary64

/-!
# The shortest decimal that reads back

The numbers that round to a magnitude form an interval around it; its ends
belong to it exactly when the mantissa is even. `Shortest.digits` looks for the
coarsest decimal grid that has a point in that interval. If any point of a grid
lies in the interval then one of the two grid neighbours of the magnitude does,
so two candidates per grid are enough. Of two hits the nearer one is taken, and
of two equally near ones the even one.

`Shortest.render` is the layout: positional from `1e-5` up to below `1e16`,
with a fraction that is never empty, and otherwise one digit before the point
and a signed exponent.
-/

namespace DocPlan.Shortest

open Magnitude (Ratio)

/-- Digits `d₁d₂…dₙ` with the value `d₁.d₂…dₙ · 10^exponent`. -/
structure Decimal where
  digits : List Nat
  exponent : Int
  deriving DecidableEq, Repr

/-- `r / 10^power`, without rounding. -/
def overPower (r : Ratio) (power : Int) : Ratio :=
  if 0 ≤ power then ⟨r.num, r.den * Nat.pow 10 power.toNat⟩
  else ⟨r.num * Nat.pow 10 (-power).toNat, r.den⟩

/-- The decimal digits of a natural number, the most significant first. -/
def digitsOf (n : Nat) : List Nat :=
  (Nat.toDigits 10 n).map fun c => c.toNat - '0'.toNat

/-- A power of ten that makes every positive magnitude greater than one. -/
def lift : Nat := 340

/-- The exponent of the leading decimal digit of a positive quotient. -/
def leadingExponent (r : Ratio) : Int :=
  let lifted := r.num * Nat.pow 10 lift / r.den
  ((digitsOf lifted).length : Int) - 1 - lift

/-- The interval of numbers that round to a magnitude, as quotients. -/
structure Interval where
  low : Ratio
  high : Ratio
  closed : Bool

/-- The ends lie half a step away; below a power of two the step is halved. -/
def interval (x : Magnitude) : Interval :=
  let narrow := x.mantissa = Magnitude.leastMantissa ∧ Magnitude.leastExponent < x.exponent
  let below := if narrow then 1 else 2
  { low := Ratio.shift ⟨4 * x.mantissa - below, 1⟩ (x.exponent - 2)
    high := Ratio.shift ⟨4 * x.mantissa + 2, 1⟩ (x.exponent - 2)
    closed := x.mantissa % 2 = 0 }

/-- Whether `count · 10^power` lies in an interval. -/
def Interval.contains (i : Interval) (count : Nat) (power : Int) : Bool :=
  let low := overPower i.low power
  let high := overPower i.high power
  let candidate := count
  if i.closed then
    low.num ≤ candidate * low.den && candidate * high.den ≤ high.num
  else
    low.num < candidate * low.den && candidate * high.den < high.num

/-- The grid neighbour of a magnitude to print, if one of the two reads back. -/
def onGrid (x : Magnitude) (power : Int) : Option Nat :=
  let r := overPower x.toRatio power
  let below := r.num / r.den
  let above := below + 1
  let i := interval x
  let remainder := 2 * (r.num % r.den)
  match i.contains below power, i.contains above power with
  | true, true =>
    if remainder < r.den then some below
    else if r.den < remainder then some above
    else if below % 2 = 0 then some below else some above
  | true, false => some below
  | false, true => some above
  | false, false => none

/-- A decimal without zeros at the end; `leading` is the exponent that the first
digit of `count` has on the grid. -/
def trimmed (count : Nat) (power : Int) : Decimal :=
  let all := digitsOf count
  let kept := (all.reverse.dropWhile (· = 0)).reverse
  ⟨kept, power + (all.length : Int) - 1⟩

/-- The first grid with a hit, trying `tries` grids from the coarsest on. -/
def search (x : Magnitude) : Nat → Int → Decimal
  | 0, power => trimmed (x.toRatio.num / x.toRatio.den) power
  | tries + 1, power =>
    match onGrid x power with
    | some count => trimmed count power
    | none => search x tries (power - 1)

/-- The shortest decimal of a positive magnitude. Seventeen digits always read
back. -/
def decimal (x : Magnitude) : Decimal :=
  search x 17 (leadingExponent x.toRatio)

/-! ## Layout -/

def digitChar (d : Nat) : Char := Char.ofNat ('0'.toNat + d)

def digitChars (ds : List Nat) : List Char := ds.map digitChar

/-- The sign and digits of an exponent. -/
def exponentChars (e : Int) : List Char :=
  'e' :: (if e < 0 then '-' else '+') :: digitChars (digitsOf e.natAbs)

/-- A positive decimal in positional or exponent form. -/
def layout (d : Decimal) : List Char :=
  let e := d.exponent
  if -5 ≤ e ∧ e < 16 then
    if e < 0 then
      '0' :: '.' :: (List.replicate (-e - 1).toNat '0' ++ digitChars d.digits)
    else
      let whole := e.toNat + 1
      let padded := d.digits ++ List.replicate (whole - d.digits.length) 0
      let fraction := d.digits.drop whole
      digitChars (padded.take whole) ++
        '.' :: (if fraction.isEmpty then ['0'] else digitChars fraction)
  else
    match d.digits with
    | [] => []
    | first :: [] => digitChar first :: exponentChars e
    | first :: rest => digitChar first :: '.' :: (digitChars rest ++ exponentChars e)

/-- The text of a number. -/
def render (x : Binary64) : List Char :=
  let sign := if x.negative then ['-'] else []
  if x.isZero then sign ++ ['0', '.', '0']
  else sign ++ layout (decimal x.magnitude)

end DocPlan.Shortest
