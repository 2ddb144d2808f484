import DocPlan.Json.Basic
import DocPlan.Json.ReadError

/-!
# Reading numbers

A number without fraction and exponent is an integer when it fits 64 bits,
signed or unsigned; minus zero and everything larger is `real`.

A `real` is read in two steps, each rounding once. The digits are taken into a
significand as long as it fits 64 bits, and further digits only move the
decimal exponent. The significand is then rounded to a magnitude and scaled by
the magnitude nearest to a power of ten, or divided by `1e308` first as often
as needed (`NumberReader.scale?`).
-/

namespace DocPlan.Json

/-- What a reader returns: a value and the text after it. -/
abbrev Reading (α : Type) := Except Fault (α × List Char)

/-- Fails at the place reached so far. -/
def failHere {α : Type} (cause : Cause) (rest : List Char) : Except Fault α :=
  .error ⟨cause, Utf8.size rest⟩

/-- Fails on the next byte, or at the end of the text. -/
def failNext {α : Type} (cause : Cause) (rest : List Char) : Except Fault α :=
  .error ⟨cause, Utf8.size rest - 1⟩

namespace NumberReader

/-- The largest significand. -/
def significandLimit : Nat := Nat.pow 2 64 - 1

/-- The largest exponent that is read as a number. -/
def exponentLimit : Nat := Nat.pow 2 31 - 1

/-- The largest power of ten among the magnitudes. -/
def greatestPower : Nat := 308

def digitValue (c : Char) : Nat := c.toNat - '0'.toNat

def startsWithDigit : List Char → Bool
  | [] => false
  | c :: _ => c.isDigit

/-- Takes digits into a number as long as it stays within a limit. Gives the
number, how many digits it took, and the text after them. -/
def gather (limit : Nat) : Nat → List Char → Nat × Nat × List Char
  | value, [] => (value, 0, [])
  | value, c :: rest =>
    if c.isDigit && value * 10 + digitValue c ≤ limit then
      let (total, count, after) := gather limit (value * 10 + digitValue c) rest
      (total, count + 1, after)
    else (value, 0, c :: rest)

/-- Drops digits and counts them. -/
def skipDigits : List Char → Nat × List Char
  | [] => (0, [])
  | c :: rest =>
    if c.isDigit then
      let (count, after) := skipDigits rest
      (count + 1, after)
    else (0, c :: rest)

/-- The magnitude nearest to a power of ten. -/
def powerOfTen (power : Nat) : Magnitude :=
  (Magnitude.ofNat? (Nat.pow 10 power)).getD .zero

/-- Divides by the greatest power of ten, so many times. -/
def divideByGreatest : Nat → Magnitude → Magnitude
  | 0, x => x
  | times + 1, x =>
    if x.isZero then x
    else divideByGreatest times ((x.div? (powerOfTen greatestPower)).getD .zero)

/-- Scales by a power of ten; nothing when the result is too large. Down to
`10^-308` one division is enough. -/
def scale? (x : Magnitude) (exponent : Int) : Option Magnitude :=
  let power := exponent.natAbs
  if x.isZero then some x
  else if 0 ≤ exponent then
    if power ≤ greatestPower then x.mul? (powerOfTen power) else none
  else
    let times := (power - 1) / greatestPower
    (divideByGreatest times x).div? (powerOfTen (power - times * greatestPower))

/-- A number from its sign, significand and decimal exponent. -/
def ofParts (negative : Bool) (significand : Nat) (exponent : Int) (rest : List Char) :
    Reading Number :=
  match (Magnitude.ofNat? significand).bind (scale? · exponent) with
  | some magnitude => .ok (.real ⟨negative, magnitude⟩, rest)
  | none => failHere .numberOutOfRange rest

/-- Reads the digits of an exponent and finishes the number. An exponent above
the limit makes the number zero when it is negative or there is nothing to
scale, and out of range otherwise. -/
def readExponentDigits (negative : Bool) (significand : Nat) (start : Int) (down : Bool)
    (digits : List Char) : Reading Number :=
  let (exponent, _, rest) := gather exponentLimit 0 digits
  if startsWithDigit rest then
    if significand ≠ 0 && !down then failHere .numberOutOfRange (rest.drop 1)
    else .ok (.real ⟨negative, .zero⟩, (skipDigits rest).2)
  else
    ofParts negative significand (if down then start - exponent else start + exponent) rest

/-- Reads an exponent after its mark. -/
def readExponent (negative : Bool) (significand : Nat) (start : Int) (input : List Char) :
    Reading Number :=
  let (down, digits) : Bool × List Char :=
    match input with
    | '+' :: rest => (false, rest)
    | '-' :: rest => (true, rest)
    | rest => (false, rest)
  match digits with
  | [] => failHere .endInValue []
  | c :: _ =>
    if c.isDigit then readExponentDigits negative significand start down digits
    else failNext .invalidNumber digits

/-- Finishes a number after its digits: an exponent may follow. -/
def finishReal (negative : Bool) (significand : Nat) (exponent : Int) (rest : List Char) :
    Reading Number :=
  match rest with
  | c :: after =>
    if c = 'e' || c = 'E' then readExponent negative significand exponent after
    else ofParts negative significand exponent rest
  | [] => ofParts negative significand exponent []

/-- Reads a fraction after the point. -/
def readFraction (negative : Bool) (significand : Nat) (before : Int) (input : List Char) :
    Reading Number :=
  let (total, count, rest) := gather significandLimit significand input
  if startsWithDigit rest then
    finishReal negative total (before - count) (skipDigits rest).2
  else if count = 0 then
    failNext (if rest.isEmpty then .endInValue else .invalidNumber) rest
  else finishReal negative total (before - count) rest

/-- The number that integer digits alone stand for. -/
def ofInteger (negative : Bool) (value : Nat) (rest : List Char) : Reading Number :=
  if !negative then .ok (.integer value, rest)
  else if 0 < value && value ≤ Nat.pow 2 63 then .ok (.integer (-value), rest)
  else ofParts true value 0 rest

/-- Finishes a number after its integer part. `dropped` digits did not fit the
significand. -/
def afterInteger (negative : Bool) (significand dropped : Nat) (rest : List Char) :
    Reading Number :=
  match rest with
  | '.' :: after => readFraction negative significand dropped after
  | 'e' :: after => readExponent negative significand dropped after
  | 'E' :: after => readExponent negative significand dropped after
  | _ =>
    if dropped = 0 then ofInteger negative significand rest
    else ofParts negative significand dropped rest

/-- Reads the digits of a number after its sign. -/
def readDigits (negative : Bool) (input : List Char) : Reading Number :=
  match input with
  | [] => failHere .endInValue []
  | '0' :: rest =>
    if startsWithDigit rest then failNext .invalidNumber rest
    else afterInteger negative 0 0 rest
  | c :: _ =>
    if c.isDigit then
      let (significand, _, rest) := gather significandLimit 0 input
      let (dropped, after) := skipDigits rest
      afterInteger negative significand dropped after
    else failNext .invalidNumber input

end NumberReader

/-- Reads a number. -/
def readNumber (input : List Char) : Reading Number :=
  match input with
  | '-' :: rest => NumberReader.readDigits true rest
  | _ => NumberReader.readDigits false input

end DocPlan.Json
