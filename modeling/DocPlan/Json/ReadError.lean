import DocPlan.Text.Utf8

/-!
# Why a text is not JSON

A reader that fails knows the cause and how many bytes of the text it has not
consumed. `Fault.locate` turns that count into a line and a column: lines count
from one, and the column is the number of bytes of the line that were consumed,
the offending byte included.
-/

namespace DocPlan.Json

/-- What a reader found wrong. -/
inductive Cause where
  | endInValue
  | endInObject
  | endInList
  | endInString
  | expectedValue
  | expectedLiteral
  | expectedColon
  | expectedObjectCommaOrEnd
  | expectedListCommaOrEnd
  | keyNotString
  | trailingComma
  | trailingCharacters
  | invalidNumber
  | numberOutOfRange
  | invalidEscape
  | unfinishedSurrogatePair
  | loneSurrogate
  | controlCharacter
  | tooDeep
  deriving DecidableEq, Repr

def Cause.message : Cause → String
  | .endInValue => "EOF while parsing a value"
  | .endInObject => "EOF while parsing an object"
  | .endInList => "EOF while parsing a list"
  | .endInString => "EOF while parsing a string"
  | .expectedValue => "expected value"
  | .expectedLiteral => "expected ident"
  | .expectedColon => "expected `:`"
  | .expectedObjectCommaOrEnd => "expected `,` or `\x7d`"
  | .expectedListCommaOrEnd => "expected `,` or `]`"
  | .keyNotString => "key must be a string"
  | .trailingComma => "trailing comma"
  | .trailingCharacters => "trailing characters"
  | .invalidNumber => "invalid number"
  | .numberOutOfRange => "number out of range"
  | .invalidEscape => "invalid escape"
  | .unfinishedSurrogatePair => "unexpected end of hex escape"
  | .loneSurrogate => "lone leading surrogate in hex escape"
  | .controlCharacter => "control character (\\u0000-\\u001F) found while parsing a string"
  | .tooDeep => "recursion limit exceeded"

/-- A cause, and the bytes left when it was found. -/
structure Fault where
  cause : Cause
  left : Nat
  deriving DecidableEq, Repr

/-- A place in a text. -/
structure Position where
  line : Nat
  column : Nat
  deriving DecidableEq, Repr

/-- The position after some bytes of a text, counted on from a position. -/
def Position.advance (position : Position) : Nat → List Char → Position
  | 0, _ => position
  | _, [] => position
  | bytes, c :: rest =>
    if bytes < c.utf8Size then ⟨position.line, position.column + bytes⟩
    else if c = '\n' then advance ⟨position.line + 1, 0⟩ (bytes - 1) rest
    else advance ⟨position.line, position.column + c.utf8Size⟩ (bytes - c.utf8Size) rest

/-- The position at which so many bytes of a text are left. -/
def Position.withLeft (text : List Char) (left : Nat) : Position :=
  Position.advance ⟨1, 0⟩ (Utf8.size text - left) text

/-- A message followed by the place it is about. -/
def Position.describe (position : Position) (message : String) : String :=
  s!"{message} at line {position.line} column {position.column}"

/-- The text of a fault found in `text`. -/
def Fault.describe (fault : Fault) (text : List Char) : String :=
  (Position.withLeft text fault.left).describe fault.cause.message

end DocPlan.Json
