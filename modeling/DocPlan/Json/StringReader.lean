import DocPlan.Json.NumberReader

/-!
# Reading strings

A string is read from the character after its opening quote. A backslash is
resolved by looking ahead (`StringReader.escape`), which gives the character it
stands for and how many characters it covers; the reader then steps over those,
so that it recurses on the text alone.

A `\u` escape covers four bytes. Escapes of surrogates are accepted only as a
pair, the leading one first.
-/

namespace DocPlan.Json.StringReader

/-- The value of a hexadecimal digit. -/
def hexDigit? (c : Char) : Option Nat :=
  if '0' ≤ c && c ≤ '9' then some (c.toNat - '0'.toNat)
  else if 'a' ≤ c && c ≤ 'f' then some (c.toNat - 'a'.toNat + 10)
  else if 'A' ≤ c && c ≤ 'F' then some (c.toNat - 'A'.toNat + 10)
  else none

/-- The number that four hexadecimal digits stand for. -/
def hexUnit? : List Char → Option Nat
  | a :: b :: c :: d :: _ => do
    let a ← hexDigit? a
    let b ← hexDigit? b
    let c ← hexDigit? c
    let d ← hexDigit? d
    return ((a * 16 + b) * 16 + c) * 16 + d
  | _ => none

/-- Reads the four digits of a `\u` escape. -/
def readUnit (input : List Char) : Except Fault Nat :=
  if Utf8.size input < 4 then failHere .endInString []
  else
    match hexUnit? input with
    | some unit => .ok unit
    | none => .error ⟨.invalidEscape, Utf8.size input - 4⟩

/-- The character of a pair of surrogates. -/
def joinSurrogates (high low : Nat) : Char :=
  Char.ofNat ((high - 0xD800) * 0x400 + (low - 0xDC00) + 0x10000)

/-- Reads the trailing half of a pair, which must follow at once. -/
def readTrailing (high : Nat) : List Char → Except Fault Char
  | [] => failHere .endInString []
  | '\\' :: [] => failHere .endInString []
  | '\\' :: 'u' :: rest =>
    match readUnit rest with
    | .error fault => .error fault
    | .ok low =>
      if 0xDC00 ≤ low && low ≤ 0xDFFF then .ok (joinSurrogates high low)
      else failHere .loneSurrogate (rest.drop 4)
  | '\\' :: rest => failNext .unfinishedSurrogatePair rest
  | rest => failNext .unfinishedSurrogatePair rest

/-- The character of a `\u` escape and the number of characters after the `u`
that belong to it. -/
def readUnicode (input : List Char) : Except Fault (Char × Nat) :=
  match readUnit input with
  | .error fault => .error fault
  | .ok unit =>
    if 0xDC00 ≤ unit && unit ≤ 0xDFFF then failHere .loneSurrogate (input.drop 4)
    else if 0xD800 ≤ unit && unit ≤ 0xDBFF then
      match readTrailing unit (input.drop 4) with
      | .error fault => .error fault
      | .ok c => .ok (c, 10)
    else .ok (Char.ofNat unit, 4)

/-- The character that an escape of one letter stands for. -/
def simpleEscape? : Char → Option Char
  | '"' => some '"'
  | '\\' => some '\\'
  | '/' => some '/'
  | 'b' => some '\x08'
  | 'f' => some '\x0c'
  | 'n' => some '\n'
  | 'r' => some '\r'
  | 't' => some '\t'
  | _ => none

/-- The character that the text after a backslash stands for, and the number of
characters that belong to the escape. -/
def escape (input : List Char) : Except Fault (Char × Nat) :=
  match input with
  | [] => failHere .endInString []
  | 'u' :: rest =>
    match readUnicode rest with
    | .error fault => .error fault
    | .ok (c, width) => .ok (c, width + 1)
  | c :: _ =>
    match simpleEscape? c with
    | some plain => .ok (plain, 1)
    | none => failNext .invalidEscape input

/-- Reads up to the closing quote, after stepping over `skip` characters. -/
def read : (skip : Nat) → List Char → Reading (List Char)
  | _, [] => failHere .endInString []
  | skip + 1, _ :: rest => read skip rest
  | 0, c :: rest =>
    if c = '"' then .ok ([], rest)
    else if c = '\\' then
      match escape rest with
      | .error fault => .error fault
      | .ok (plain, width) =>
        match read width rest with
        | .error fault => .error fault
        | .ok (text, after) => .ok (plain :: text, after)
    else if c.toNat < 0x20 then failNext .controlCharacter (c :: rest)
    else
      match read 0 rest with
      | .error fault => .error fault
      | .ok (text, after) => .ok (c :: text, after)

end DocPlan.Json.StringReader
