/-!
# UTF-8

Texts are lists of characters; files and paths hold bytes. `Utf8.encode` writes
the bytes of a text and `Utf8.decodeLossy` reads any bytes at all: each longest
run of bytes that begins a character but does not finish it becomes one
replacement character. `Utf8.decode?` reads the bytes of a text only.

The reader is a machine that takes one byte at a time (`Utf8.step`). Between
characters its state is `none`; inside one it knows the bits read so far, the
number of bytes still owed, and the range that the next byte must lie in.
-/

namespace DocPlan.Utf8

/-- The character that stands for bytes that are no character. -/
def replacement : Char := '\ufffd'

/-- The mark that some editors write at the beginning of a file. -/
def byteOrderMark : Char := '\ufeff'

/-- The bytes of a text. -/
def encode (text : List Char) : List UInt8 :=
  text.flatMap String.utf8EncodeChar

/-- The number of bytes of a text. -/
def size : List Char → Nat
  | [] => 0
  | c :: rest => c.utf8Size + size rest

@[simp] theorem size_append (a b : List Char) : size (a ++ b) = size a + size b := by
  induction a with
  | nil => simp [size]
  | cons c rest ih => simp [size, ih, Nat.add_assoc]

/-- A character that has begun: its bits so far, the bytes still owed, and the
least and the greatest value that the next byte may have. -/
structure Pending where
  bits : Nat
  owed : Nat
  low : Nat
  high : Nat
  deriving DecidableEq, Repr

/-- What a byte at the start of a character means: a whole character, the
beginning of one, or nothing. -/
inductive Lead where
  | whole (c : Char)
  | begins (pending : Pending)
  | invalid
  deriving Repr

/-- The meaning of the first byte of a character. The ranges of the second
byte leave out overlong forms, surrogates and values above the last code
point. -/
def lead (b : Nat) : Lead :=
  if b < 0x80 then .whole (Char.ofNat b)
  else if b < 0xC2 then .invalid
  else if b < 0xE0 then .begins ⟨b - 0xC0, 1, 0x80, 0xBF⟩
  else if b = 0xE0 then .begins ⟨0, 2, 0xA0, 0xBF⟩
  else if b = 0xED then .begins ⟨0xD, 2, 0x80, 0x9F⟩
  else if b < 0xF0 then .begins ⟨b - 0xE0, 2, 0x80, 0xBF⟩
  else if b = 0xF0 then .begins ⟨0, 3, 0x90, 0xBF⟩
  else if b < 0xF4 then .begins ⟨b - 0xF0, 3, 0x80, 0xBF⟩
  else if b = 0xF4 then .begins ⟨4, 3, 0x80, 0x8F⟩
  else .invalid

/-- One byte between characters: the characters it completes, and the state
after it. -/
def stepStart (b : Nat) : List Char × Option Pending :=
  match lead b with
  | .whole c => ([c], none)
  | .begins pending => ([], some pending)
  | .invalid => ([replacement], none)

/-- One byte in any state. A byte that cannot continue the character that has
begun ends it, and is read again as a first byte. -/
def step : Option Pending → Nat → List Char × Option Pending
  | none, b => stepStart b
  | some p, b =>
    if p.low ≤ b ∧ b ≤ p.high then
      let bits := p.bits * 0x40 + (b - 0x80)
      if p.owed = 1 then ([Char.ofNat bits], none)
      else ([], some ⟨bits, p.owed - 1, 0x80, 0xBF⟩)
    else (replacement :: (stepStart b).1, (stepStart b).2)

/-- Reads bytes from any state; a character that the end cuts off is replaced. -/
def decodeFrom : Option Pending → List UInt8 → List Char
  | none, [] => []
  | some _, [] => [replacement]
  | state, b :: rest => (step state b.toNat).1 ++ decodeFrom (step state b.toNat).2 rest

/-- Reads any bytes, replacing what is no character. -/
def decodeLossy (bytes : List UInt8) : List Char :=
  decodeFrom none bytes

/-- The text whose bytes these are. -/
def decode? (bytes : List UInt8) : Option (List Char) :=
  if encode (decodeLossy bytes) = bytes then some (decodeLossy bytes) else none

/-- A text without the byte order mark that it may begin with. -/
def dropByteOrderMark : List Char → List Char
  | [] => []
  | c :: rest => if c = byteOrderMark then rest else c :: rest

example : decodeLossy [0x48, 0x80, 0x81] = ['H', replacement, replacement] := by decide
example : decodeLossy [0xE2, 0x82, 0x41] = [replacement, 'A'] := by decide
example : decodeLossy (encode "é日😀".toList) = "é日😀".toList := by decide
example : decode? [0x41, 0xFF] = none := by decide

end DocPlan.Utf8
