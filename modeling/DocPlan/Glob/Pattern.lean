/-!
# Patterns over path texts

A pattern is a list of tokens. `?` stands for one character and `*` for any
number of them; both also stand for separators when a whole path is matched.
`[…]` stands for one character of a class and `[!…]` for one outside of it.
`**` is allowed only as a whole component: it stands for nothing, for a text
that ends with a separator, or for all that is left. Everything else stands for
itself; there is no escape except a class with one member.

`Pattern.compile` reads the tokens of a text, `Pattern.escape` writes a text
whose pattern matches that text only, and `Pattern.accepts` decides a match.
-/

namespace DocPlan.Glob

/-- A member of a character class. -/
inductive Specifier where
  | single (c : Char)
  | range (first last : Char)
  deriving DecidableEq, Repr

def Specifier.accepts (c : Char) : Specifier → Bool
  | .single own => c = own
  | .range first last => first ≤ c && c ≤ last

inductive Token where
  | char (c : Char)
  | anyChar
  /-- `*` -/
  | anySequence
  /-- `**` and the separator after it. -/
  | anyDepth
  | oneOf (specifiers : List Specifier)
  | noneOf (specifiers : List Specifier)
  deriving DecidableEq, Repr

/-- Whether a token stands for a character; sequences do not. -/
def Token.acceptsChar (c : Char) : Token → Bool
  | .char own => c = own
  | .anyChar => true
  | .oneOf specifiers => specifiers.any (Specifier.accepts c)
  | .noneOf specifiers => !specifiers.any (Specifier.accepts c)
  | .anySequence => false
  | .anyDepth => false

/-- Why a text is no pattern. -/
inductive PatternFault where
  | threeStars
  | depthNotAlone
  | badRange
  deriving DecidableEq, Repr

def PatternFault.message : PatternFault → String
  | .threeStars => "wildcards are either regular `*` or recursive `**`"
  | .depthNotAlone => "recursive wildcards must form a single path component"
  | .badRange => "invalid range pattern"

/-- A fault and the index of the character it is about. -/
structure PatternError where
  position : Nat
  fault : PatternFault
  deriving DecidableEq, Repr

def PatternError.message (error : PatternError) : String :=
  s!"Pattern syntax error near position {error.position}: {error.fault.message}"

/-- The members of a class. -/
def specifiers : List Char → List Specifier
  | first :: '-' :: last :: rest => .range first last :: specifiers rest
  | c :: rest => .single c :: specifiers rest
  | [] => []

/-- The class after an opening bracket and the number of characters in it, the
closing bracket included. Its first character may be a closing bracket. -/
def readClass? : List Char → Option (Token × Nat)
  | '!' :: first :: rest =>
    if rest.contains ']' then
      let others := rest.takeWhile (· ≠ ']')
      some (.noneOf (specifiers (first :: others)), others.length + 3)
    else none
  | '!' :: [] => none
  | first :: rest =>
    if rest.contains ']' then
      let others := rest.takeWhile (· ≠ ']')
      some (.oneOf (specifiers (first :: others)), others.length + 2)
    else none
  | [] => none

/-- What stands at a star: the token and how many characters after the star
belong to it. `componentStart` says whether the star begins a component. -/
def readStar (position : Nat) (componentStart : Bool) (rest : List Char) :
    Except PatternError (Token × Nat) :=
  match rest with
  | '*' :: '*' :: _ => .error ⟨position + 2, .threeStars⟩
  | '*' :: after =>
    if componentStart then
      match after with
      | [] => .ok (.anyDepth, 1)
      | '/' :: _ => .ok (.anyDepth, 2)
      | _ => .error ⟨position + 2, .depthNotAlone⟩
    else .error ⟨position - 1, .depthNotAlone⟩
  | _ => .ok (.anySequence, 0)

/-- The token at a character and how many of the characters after it belong to
it. -/
def readToken (position : Nat) (componentStart : Bool) (c : Char) (rest : List Char) :
    Except PatternError (Token × Nat) :=
  if c = '?' then .ok (.anyChar, 0)
  else if c = '*' then readStar position componentStart rest
  else if c = '[' then
    match readClass? rest with
    | some found => .ok found
    | none => .error ⟨position, .badRange⟩
  else .ok (.char c, 0)

/-- Reads tokens from a position on, after stepping over `skip` characters. -/
def compileFrom (position : Nat) (componentStart : Bool) :
    (skip : Nat) → List Char → Except PatternError (List Token)
  | _, [] => .ok []
  | skip + 1, c :: rest => compileFrom (position + 1) (c = '/') skip rest
  | 0, c :: rest => do
    let (token, width) ← readToken position componentStart c rest
    let tokens ← compileFrom (position + 1) (c = '/') width rest
    return token :: tokens

/-- The tokens of a pattern. -/
def compile (pattern : List Char) : Except PatternError (List Token) :=
  compileFrom 0 true 0 pattern

/-- The characters with a meaning of their own. -/
def isMeta (c : Char) : Bool :=
  c = '?' || c = '*' || c = '[' || c = ']'

/-- A pattern that matches a text only. -/
def escape (text : List Char) : List Char :=
  text.flatMap fun c => if isMeta c then ['[', c, ']'] else [c]

/-! ## Matching -/

/-- A text and all that is left of it after some characters. -/
def suffixes : List Char → List (List Char)
  | [] => [[]]
  | c :: rest => (c :: rest) :: suffixes rest

/-- What is left of a text after each of its separators. -/
def afterSeparators : List Char → List (List Char)
  | [] => []
  | c :: rest => if c = '/' then rest :: afterSeparators rest else afterSeparators rest

/-- Whether a list of tokens stands for a whole text. -/
def accepts : List Token → List Char → Bool
  | [], text => text.isEmpty
  | .anySequence :: rest, text => (suffixes text).any (accepts rest)
  | .anyDepth :: rest, text => (text :: [] :: afterSeparators text).any (accepts rest)
  | token :: rest, c :: text => token.acceptsChar c && accepts rest text
  | _ :: _, [] => false

end DocPlan.Glob
