import DocPlan.CommandLine.Flag
import DocPlan.Text.Utf8

/-!
# The words of a command line

The words of a command line are told apart before any of them is acted on
(`items`): which are flags, and which are values and of what. Letters may share
a dash, a value may stand in the same word as its flag, and after a word `--`
there are only paths. What makes no sense is an item too, so that it counts only
when its turn comes.

Words are bytes: a path may be no text.
-/

namespace DocPlan.CommandLine

/-- What stands between two blanks of a command line. -/
abbrev Word := List UInt8

namespace Word

def ofText (text : String) : Word := Utf8.encode text.toList

/-- A word as it is shown. -/
def shown (word : Word) : String := String.ofList (Utf8.decodeLossy word)

def dash : UInt8 := '-'.toUInt8

def equalsSign : UInt8 := '='.toUInt8

end Word

/-- Why a command line makes no sense. -/
inductive UsageError where
  | unknownFlag (text : String)
  | valueMissing (setting : Setting)
  | valueUnwanted (switch : Switch)
  | repeated (text : String)
  | emptyPath (setting : Setting)
  | notText (setting : Setting)
  | badModuleName (text : String)
  deriving DecidableEq, Repr

def UsageError.message : UsageError → String
  | .unknownFlag text => s!"unexpected argument '{text}' found"
  | .valueMissing setting => s!"a value is required for '{setting.text}' but none was supplied"
  | .valueUnwanted switch => s!"unexpected value for '{switch.text}' found"
  | .repeated text => s!"the argument '{text}' cannot be used multiple times"
  | .emptyPath setting => s!"a value is required for '{setting.text}' but none was supplied"
  | .notText setting => s!"invalid UTF-8 was detected in the value of '{setting.text}'"
  | .badModuleName text => s!"invalid value for a module name: expected ID=NAME, got '{text}'"

/-- What a word of the command line turns out to be. -/
inductive Item where
  | setting (setting : Setting) (value : Word)
  | switch (switch : Switch)
  | wrong (error : UsageError)
  deriving DecidableEq, Repr

open Word (dash equalsSign)

/-- Whether a word is a value wherever it stands. A dash alone is one. -/
def isPlain (word : Word) : Bool :=
  word.head? ≠ some dash || word = [dash]

/-- The items of a long flag, and the setting that waits for its value. -/
def longItems (body : Word) : List Item × Option Setting :=
  let name := Word.shown (body.takeWhile (· ≠ equalsSign))
  let attached := (body.dropWhile (· ≠ equalsSign)).drop 1
  match Flag.ofLong? name with
  | some (.setting setting) =>
    if body.contains equalsSign then ([.setting setting attached], none)
    else ([], some setting)
  | some (.switch switch) =>
    if body.contains equalsSign then ([.wrong (.valueUnwanted switch)], none)
    else ([.switch switch], none)
  | none => ([.wrong (.unknownFlag ("--" ++ name))], none)

/-- The items of letters behind a dash. A letter that takes a value takes the
rest of the word, with or without a sign of equality before it. -/
def letterItems : Word → List Item × Option Setting
  | [] => ([], none)
  | letter :: rest =>
    match Flag.ofLetter? (Char.ofUInt8 letter) with
    | some (.setting setting) =>
      match rest with
      | [] => ([], some setting)
      | next :: value =>
        ([.setting setting (if next = equalsSign then value else next :: value)], none)
    | some (.switch switch) =>
      let (found, waiting) := letterItems rest
      (.switch switch :: found, waiting)
    | none =>
      let shown := (Utf8.decodeLossy (letter :: rest)).take 1
      ([.wrong (.unknownFlag (String.ofList ('-' :: shown)))], none)

/-- The items of a word that begins with a dash. -/
def flagItems (word : Word) : List Item × Option Setting :=
  if word.take 2 = [dash, dash] then longItems (word.drop 2) else letterItems (word.drop 1)

/-- The items of words, the first of which may be the value of a waiting
setting. -/
def itemsAfter (waiting : Option Setting) : List Word → List Item
  | [] =>
    match waiting with
    | some setting => [.wrong (.valueMissing setting)]
    | none => []
  | word :: rest =>
    match waiting with
    | some setting =>
      if isPlain word then .setting setting word :: itemsAfter none rest
      else [.wrong (.valueMissing setting)]
    | none =>
      if isPlain word then .setting .path word :: itemsAfter none rest
      else if word = [dash, dash] then rest.map (.setting .path)
      else
        let (found, waiting) := flagItems word
        found ++ itemsAfter waiting rest

/-- The items of a command line. -/
def items (words : List Word) : List Item := itemsAfter none words

end DocPlan.CommandLine
