import Mathlib.Data.List.Chain
import DocPlan.Json.Reader

/-!
# How JSON is written

A JSON text is told in two layers. A `Tree` is what is written, up to the gaps between tokens: it
gives the tokens in order (`Tree.tokens`). A text spells these tokens with a gap before each and
one at the end (`Spelled`). Words and strings are told by their characters only, so every JSON
number, literal and string is one, and some words are none of them.

Both layers have a parameter. With trailing commas, the tokens of a tree have those that the tree
marks; without, they are those of JSON proper. A gap is blank in JSON (`Blank`) and may hold
comments in a commented text (`Gap`).

The tokens of a text are unique (`Spelled.unique`), because no two words stand side by side
(`Tree.separated_tokens`).
-/

namespace DocPlan.Json

/-! ## Tokens -/

inductive Mark where
  | openList
  | closeList
  | openObject
  | closeObject
  | colon
  | comma
  deriving DecidableEq

def Mark.char : Mark → Char
  | .openList => '['
  | .closeList => ']'
  | .openObject => '\x7b'
  | .closeObject => '\x7d'
  | .colon => ':'
  | .comma => ','

theorem Mark.char_injective {a b : Mark} (h : a.char = b.char) : a = b := by
  cases a <;> cases b <;> first | rfl | exact absurd h (by decide)

/-- Whether a mark closes a container. -/
def Mark.closes : Mark → Bool
  | .closeList => true
  | .closeObject => true
  | _ => false

/-- The characters of literals and numbers. -/
def isWordChar (c : Char) : Bool :=
  c.isAlphanum || c = '+' || c = '-' || c = '.'

/-- A literal or a number, by its characters. -/
@[ext]
structure Word where
  chars : List Char
  nonempty : chars ≠ []
  proper : ∀ c ∈ chars, isWordChar c = true

/-- A part of a string: a character that stands for itself, or one behind a backslash. -/
inductive Piece where
  | plain (c : Char) (quote : c ≠ '"') (backslash : c ≠ '\\')
  | escaped (c : Char)

def Piece.text : Piece → List Char
  | .plain c _ _ => [c]
  | .escaped c => ['\\', c]

/-- What stands between the quotes of a string. -/
def bodyText (body : List Piece) : List Char := body.flatMap Piece.text

inductive Token where
  | mark (mark : Mark)
  | word (word : Word)
  | string (body : List Piece)

namespace Token

def text : Token → List Char
  | .mark sign => [sign.char]
  | .word letters => letters.chars
  | .string body => '"' :: (bodyText body ++ ['"'])

def isWord : Token → Bool
  | .word _ => true
  | _ => false

/-- Whether a token closes a container. -/
def closes : Token → Bool
  | .mark sign => sign.closes
  | _ => false

end Token

/-! ## Trees -/

/-- What a text says, up to gaps. A container that is marked may end in a comma. -/
inductive Tree where
  | word (word : Word)
  | string (body : List Piece)
  | array (items : List Tree) (marked : Bool)
  | object (members : List (List Piece × Tree)) (marked : Bool)

/-- Induction over a tree: in a container the statement may be assumed of every tree that
stands directly in it. -/
@[elab_as_elim, induction_eliminator]
theorem Tree.nestedInduction {motive : Tree → Prop}
    (word : ∀ letters, motive (.word letters))
    (string : ∀ body, motive (.string body))
    (array : ∀ items marked, (∀ item ∈ items, motive item) → motive (.array items marked))
    (object : ∀ members marked, (∀ member ∈ members, motive member.2) →
      motive (.object members marked))
    (tree : Tree) : motive tree :=
  @Tree.rec motive (fun items => ∀ item ∈ items, motive item)
    (fun members => ∀ member ∈ members, motive member.2) (fun member => motive member.2)
    word string (fun items marked h => array items marked h)
    (fun members marked h => object members marked h)
    (by simp) (fun _ _ head tail => List.forall_mem_cons.mpr ⟨head, tail⟩)
    (by simp) (fun _ _ head tail => List.forall_mem_cons.mpr ⟨head, tail⟩)
    (fun _ _ second => second) tree

/-- The comma before an item that is not the first. -/
def separator (first : Bool) : List Token := if first then [] else [.mark .comma]

/-- The end of a container. -/
def ending (trailing : Bool) (mark : Mark) : List Token :=
  if trailing then [.mark .comma, .mark mark] else [.mark mark]

mutual

/-- The tokens of a tree, with trailing commas where there are some or without. -/
def Tree.tokens (commas : Bool) : Tree → List Token
  | .word word => [.word word]
  | .string body => [.string body]
  | .array items marked =>
    .mark .openList :: (itemTokens commas true items ++
      ending (commas && marked && !items.isEmpty) .closeList)
  | .object members marked =>
    .mark .openObject :: (memberTokens commas true members ++
      ending (commas && marked && !members.isEmpty) .closeObject)

/-- The tokens of the items of a list. -/
def itemTokens (commas first : Bool) : List Tree → List Token
  | [] => []
  | item :: rest => separator first ++ (item.tokens commas ++ itemTokens commas false rest)

/-- The tokens of the members of an object. -/
def memberTokens (commas first : Bool) : List (List Piece × Tree) → List Token
  | [] => []
  | (key, value) :: rest =>
    separator first ++ (.string key :: .mark .colon ::
      (value.tokens commas ++ memberTokens commas false rest))

end

/-- Parts with a comma between them. -/
def joined (first : Bool) : List (List Token) → List Token
  | [] => []
  | part :: rest => separator first ++ (part ++ joined false rest)

theorem itemTokens_eq (commas first : Bool) (items : List Tree) :
    itemTokens commas first items = joined first (items.map (Tree.tokens commas)) := by
  induction items generalizing first with
  | nil => rfl
  | cons item rest ih => rw [itemTokens, ih, List.map_cons, joined]

/-- The tokens of a member. -/
def memberPart (commas : Bool) (member : List Piece × Tree) : List Token :=
  .string member.1 :: .mark .colon :: member.2.tokens commas

theorem memberTokens_eq (commas first : Bool) (members : List (List Piece × Tree)) :
    memberTokens commas first members = joined first (members.map (memberPart commas)) := by
  induction members generalizing first with
  | nil => rfl
  | cons member rest ih => rw [memberTokens, ih, List.map_cons, joined, memberPart]; rfl

/-! ## Texts -/

/-- Nothing but the space of JSON. -/
def Blank (text : List Char) : Prop := ∀ c ∈ text, isSpace c = true

/-- Space and comments. A comment to the end of the line holds no line break, and one between
marks does not hold the mark that ends it. -/
inductive Gap : List Char → Prop
  | nil : Gap []
  | space {c : Char} {rest : List Char} (hspace : isSpace c = true) (hrest : Gap rest) :
    Gap (c :: rest)
  | line {body rest : List Char} (hbody : '\n' ∉ body) (hrest : Gap rest) :
    Gap ('/' :: '/' :: (body ++ '\n' :: rest))
  | block {body rest : List Char} (hbody : ¬ ['*', '/'] <:+: body) (hrest : Gap rest) :
    Gap ('/' :: '*' :: (body ++ '*' :: '/' :: rest))

/-- A gap at the end of a text, where a comment may end with the text. -/
inductive LastGap : List Char → Prop
  | whole {gap : List Char} (hgap : Gap gap) : LastGap gap
  | line {gap body : List Char} (hgap : Gap gap) (hbody : '\n' ∉ body) :
    LastGap (gap ++ '/' :: '/' :: body)

/-- A text spells tokens: there is a gap before each of them, and one after the last. -/
inductive Spelled (gap last : List Char → Prop) : List Token → List Char → Prop
  | done {space : List Char} (hlast : last space) : Spelled gap last [] space
  | next {space text : List Char} {token : Token} {tokens : List Token} (hgap : gap space)
    (hrest : Spelled gap last tokens text) :
    Spelled gap last (token :: tokens) (space ++ (token.text ++ text))

/-- A JSON text of a tree, without comments and trailing commas. -/
def Strict (tree : Tree) (text : List Char) : Prop :=
  Spelled Blank Blank (tree.tokens false) text

/-- A text of the same tree that may hold comments, and a comma at the end of each container
that is marked and not empty. -/
def Commented (tree : Tree) (text : List Char) : Prop :=
  Spelled Gap LastGap (tree.tokens true) text

/-- A text that ends with the last of its tokens. -/
abbrev Front (tokens : List Token) (text : List Char) : Prop :=
  Spelled Blank (· = []) tokens text

theorem Spelled.append {gap last : List Char → Prop} {front back : List Token}
    {used text : List Char} (hfront : Spelled gap (· = []) front used)
    (hback : Spelled gap last back text) : Spelled gap last (front ++ back) (used ++ text) := by
  induction hfront with
  | done hlast =>
    subst hlast
    exact hback
  | next hgap _ ih =>
    rw [List.cons_append, List.append_assoc, List.append_assoc]
    exact .next hgap ih

theorem Spelled.split {gap last : List Char → Prop} {front back : List Token} {text : List Char}
    (h : Spelled gap last (front ++ back) text) :
    ∃ used rest, text = used ++ rest ∧ Spelled gap (· = []) front used ∧
      Spelled gap last back rest := by
  induction front generalizing text with
  | nil => exact ⟨[], text, rfl, .done rfl, h⟩
  | cons token tokens ih =>
    cases h with
    | next hgap hrest =>
      obtain ⟨used, rest, rfl, hused, hback⟩ := ih hrest
      exact ⟨_, rest, by simp only [List.append_assoc], .next hgap hused, hback⟩

theorem Blank.append {space more : List Char} (h : Blank space) (hmore : Blank more) :
    Blank (space ++ more) :=
  List.forall_mem_append.mpr ⟨h, hmore⟩

theorem Spelled.space {last : List Char → Prop} {space text : List Char} {token : Token}
    {tokens : List Token} (hspace : Blank space) (h : Spelled Blank last (token :: tokens) text) :
    Spelled Blank last (token :: tokens) (space ++ text) := by
  cases h with
  | next hgap hrest =>
    rw [← List.append_assoc]
    exact .next (hspace.append hgap) hrest

/-! ## The first character of a token -/

theorem Mark.isWordChar_char (sign : Mark) : isWordChar sign.char = false := by
  cases sign <;> decide

theorem isWordChar_of_isSpace {c : Char} (h : isSpace c = true) : isWordChar c = false := by
  simp only [isSpace, Bool.or_eq_true, decide_eq_true_eq] at h
  rcases h with ((rfl | rfl) | rfl) | rfl <;> decide

theorem isSpace_of_isWordChar {c : Char} (h : isWordChar c = true) : isSpace c = false := by
  apply Bool.eq_false_iff.mpr
  intro hspace
  rw [isWordChar_of_isSpace hspace] at h
  cases h

theorem Token.exists_text (token : Token) :
    ∃ c rest, token.text = c :: rest ∧ isSpace c = false ∧ isWordChar c = token.isWord := by
  cases token with
  | mark sign => exact ⟨sign.char, [], rfl, by cases sign <;> decide, sign.isWordChar_char⟩
  | word letters =>
    obtain ⟨c, rest, hchars⟩ := List.exists_cons_of_ne_nil letters.nonempty
    have hproper : isWordChar c = true :=
      letters.proper c (hchars ▸ List.mem_cons_self)
    exact ⟨c, rest, hchars, isSpace_of_isWordChar hproper, hproper⟩
  | string body => exact ⟨'"', _, rfl, by decide, rfl⟩

theorem Token.string_append (body : List Piece) (rest : List Char) :
    (Token.string body).text ++ rest = '"' :: (bodyText body ++ '"' :: rest) := by
  rw [text, List.cons_append, List.append_assoc, List.singleton_append]

/-- A text does not go on with the characters of a word. -/
def Stops (rest : List Char) : Prop := ∀ c, rest.head? = some c → isWordChar c = false

theorem stops_nil : Stops [] := fun _ h => nomatch h

theorem stops_cons {c : Char} {rest : List Char} (h : isWordChar c = false) : Stops (c :: rest) :=
  fun _ hhead => Option.some.inj hhead ▸ h

/-- Space does not go on with a word. -/
theorem Blank.stops {space : List Char} (h : Blank space) : Stops space := by
  cases space with
  | nil => exact stops_nil
  | cons c rest => exact stops_cons (isWordChar_of_isSpace (h c List.mem_cons_self))

theorem Blank.stops_append {space rest : List Char} (h : Blank space) (hrest : Stops rest) :
    Stops (space ++ rest) := by
  cases space with
  | nil => exact hrest
  | cons c others => exact stops_cons (isWordChar_of_isSpace (h c List.mem_cons_self))

theorem skipSpace_append {space : List Char} (h : Blank space) (rest : List Char) :
    skipSpace (space ++ rest) = skipSpace rest := by
  induction space with
  | nil => rfl
  | cons c others ih =>
    obtain ⟨hc, hothers⟩ := List.forall_mem_cons.mp h
    rw [List.cons_append, skipSpace, if_pos hc]
    exact ih hothers

theorem skipSpace_of_blank {space : List Char} (h : Blank space) : skipSpace space = [] := by
  rw [← List.append_nil space, skipSpace_append h, skipSpace]

theorem skipSpace_text (token : Token) (rest : List Char) :
    skipSpace (token.text ++ rest) = token.text ++ rest := by
  obtain ⟨c, others, htext, hc, -⟩ := token.exists_text
  rw [htext, List.cons_append, skipSpace, hc]
  rfl

/-- A closing mark stands where a token that closes a container does. -/
theorem Token.exists_open_text {token : Token} (h : token.closes = false) {close : Mark}
    (hclose : close.closes = true) : ∃ c rest, token.text = c :: rest ∧ c ≠ close.char := by
  obtain ⟨c, rest, htext, -, hword⟩ := token.exists_text
  refine ⟨c, rest, htext, ?_⟩
  rintro rfl
  cases token with
  | mark sign =>
    obtain rfl : sign = close := Mark.char_injective (List.cons.inj htext).1
    exact Bool.false_ne_true (h.symm.trans hclose)
  | word letters => exact Bool.false_ne_true (close.isWordChar_char.symm.trans hword)
  | string body =>
    have hquote : '"' = close.char := (List.cons.inj htext).1
    cases close <;> cases hquote

/-- A text is space, and then nothing or a character that is none. -/
theorem exists_skipSpace (text : List Char) : ∃ space, Blank space ∧
    text = space ++ skipSpace text := by
  induction text with
  | nil => exact ⟨[], fun _ h => (nomatch h), rfl⟩
  | cons c rest ih =>
    rw [skipSpace]
    split
    next hc =>
      obtain ⟨space, hspace, hrest⟩ := ih
      exact ⟨c :: space, List.forall_mem_cons.mpr ⟨hc, hspace⟩, congrArg (c :: ·) hrest⟩
    next => exact ⟨[], fun _ h => (nomatch h), rfl⟩

/-! ## The tokens of a text -/

/-- No two words stand side by side. -/
def Separated (tokens : List Token) : Prop :=
  tokens.IsChain fun token next => ¬ (token.isWord = true ∧ next.isWord = true)

/-- Tokens that may follow a word. -/
def Follows (tokens : List Token) : Prop :=
  Separated tokens ∧ ∀ token, tokens.head? = some token → token.isWord = false

theorem Follows.cons {tokens : List Token} (h : Follows tokens) (token : Token) :
    Separated (token :: tokens) :=
  List.isChain_cons.mpr
    ⟨fun next hnext hboth => Bool.false_ne_true ((h.2 next hnext).symm.trans hboth.2), h.1⟩

theorem follows_cons {token : Token} {tokens : List Token} (htoken : token.isWord = false)
    (h : Separated tokens) : Follows (token :: tokens) := by
  refine ⟨List.isChain_cons.mpr ⟨fun next _ hboth => ?_, h⟩, fun other hother => ?_⟩
  · exact Bool.false_ne_true (htoken.symm.trans hboth.1)
  · obtain rfl := Option.some.inj hother
    exact htoken

/-- Tokens that may stand before all that may follow a word. -/
def Precedes (tokens : List Token) : Prop :=
  ∀ rest, Follows rest → Separated (tokens ++ rest)

theorem follows_joined {parts : List (List Token)} (hparts : ∀ part ∈ parts, Precedes part)
    {rest : List Token} (hrest : Follows rest) : Follows (joined false parts ++ rest) := by
  induction parts with
  | nil => exact hrest
  | cons part others ih =>
    obtain ⟨hpart, hothers⟩ := List.forall_mem_cons.mp hparts
    rw [joined, List.append_assoc, List.append_assoc]
    exact follows_cons rfl (hpart _ (ih hothers))

theorem precedes_joined {parts : List (List Token)} (hparts : ∀ part ∈ parts, Precedes part) :
    Precedes (joined true parts) := by
  intro rest hrest
  cases parts with
  | nil => exact hrest.1
  | cons part others =>
    obtain ⟨hpart, hothers⟩ := List.forall_mem_cons.mp hparts
    rw [joined, List.append_assoc, List.append_assoc]
    exact hpart _ (follows_joined hothers hrest)

/-- A container may stand before all tokens without two words side by side. -/
theorem precedes_container {parts : List (List Token)} {start stop : Mark}
    (hparts : ∀ part ∈ parts, Precedes part) :
    Precedes (.mark start :: (joined true parts ++ ending false stop)) := by
  intro rest hrest
  rw [List.cons_append, List.append_assoc]
  have hstop : Follows (ending false stop ++ rest) := follows_cons rfl hrest.1
  exact (follows_cons rfl (precedes_joined hparts _ hstop)).1

theorem Tree.precedes (tree : Tree) : Precedes (tree.tokens false) := by
  induction tree with
  | word letters => exact fun rest hrest => hrest.cons _
  | string body => exact fun rest hrest => hrest.cons _
  | array items marked ih =>
    rw [tokens, itemTokens_eq]
    exact precedes_container (List.forall_mem_map.mpr ih)
  | object members marked ih =>
    rw [tokens, memberTokens_eq]
    refine precedes_container (List.forall_mem_map.mpr fun member hmember rest hrest => ?_)
    exact (follows_cons rfl (follows_cons rfl (ih member hmember rest hrest)).1).1

/-- No two words of a tree stand side by side. -/
theorem Tree.separated_tokens (tree : Tree) : Separated (tree.tokens false) := by
  have hnothing : Follows [] := ⟨List.IsChain.nil, fun token h => nomatch h⟩
  have h := tree.precedes [] hnothing
  rwa [List.append_nil] at h

/-! ## The tokens of a text are unique -/

/-- A string ends at the first quote that is not behind a backslash. -/
theorem bodyText_unique {body other : List Piece} {rest after : List Char}
    (h : bodyText body ++ '"' :: rest = bodyText other ++ '"' :: after) :
    body = other ∧ rest = after := by
  induction body generalizing other with
  | nil =>
    cases other with
    | nil => exact ⟨rfl, (List.cons.inj h).2⟩
    | cons piece pieces =>
      cases piece with
      | plain c quote backslash => exact absurd (List.cons.inj h).1.symm quote
      | escaped c => exact absurd (List.cons.inj h).1 (by decide)
  | cons piece pieces ih =>
    cases other with
    | nil =>
      cases piece with
      | plain c quote backslash => exact absurd (List.cons.inj h).1 quote
      | escaped c => exact absurd (List.cons.inj h).1 (by decide)
    | cons piece' pieces' =>
      cases piece with
      | plain c quote backslash =>
        cases piece' with
        | plain c' quote' backslash' =>
          obtain ⟨rfl, hrest⟩ := List.cons.inj h
          obtain ⟨rfl, hafter⟩ := ih hrest
          exact ⟨rfl, hafter⟩
        | escaped c' => exact absurd (List.cons.inj h).1 backslash
      | escaped c =>
        cases piece' with
        | plain c' quote' backslash' => exact absurd (List.cons.inj h).1.symm backslash'
        | escaped c' =>
          obtain ⟨rfl, hrest⟩ := List.cons.inj (List.cons.inj h).2
          obtain ⟨rfl, hafter⟩ := ih hrest
          exact ⟨rfl, hafter⟩

/-- A word is all the characters of words at the start of a text. -/
theorem Word.takeWhile_append (word : Word) {rest : List Char} (h : Stops rest) :
    (word.chars ++ rest).takeWhile isWordChar = word.chars := by
  rw [List.takeWhile_append_of_pos word.proper]
  cases rest with
  | nil => exact List.append_nil _
  | cons c others => rw [List.takeWhile_cons, h c rfl]; exact List.append_nil _

/-- The first token of a text is told by the text, if a word is followed by something else. -/
theorem Token.text_unique {token other : Token} {text rest : List Char}
    (h : token.text ++ text = other.text ++ rest) (htext : token.isWord = true → Stops text)
    (hrest : other.isWord = true → Stops rest) : token = other ∧ text = rest := by
  have hword : token.isWord = other.isWord := by
    obtain ⟨c, more, hc, -, hcword⟩ := token.exists_text
    obtain ⟨d, others, hd, -, hdword⟩ := other.exists_text
    rw [hc, hd] at h
    rw [← hcword, ← hdword, (List.cons.inj h).1]
  cases token with
  | mark sign =>
    cases other with
    | mark sign' =>
      obtain ⟨hchar, hsame⟩ := List.cons.inj h
      exact ⟨congrArg Token.mark (Mark.char_injective hchar), hsame⟩
    | word letters => cases hword
    | string body =>
      have hchar : sign.char = '"' := (List.cons.inj h).1
      cases sign <;> cases hchar
  | word letters =>
    cases other with
    | mark sign => cases hword
    | word letters' =>
      have hchars : letters.chars = letters'.chars := by
        rw [← letters.takeWhile_append (htext rfl), ← letters'.takeWhile_append (hrest rfl)]
        exact congrArg _ h
      obtain rfl := Word.ext hchars
      exact ⟨rfl, List.append_cancel_left h⟩
    | string body => cases hword
  | string body =>
    cases other with
    | mark sign =>
      have hchar : '"' = sign.char := (List.cons.inj h).1
      cases sign <;> cases hchar
    | word letters => cases hword
    | string body' =>
      rw [string_append, string_append] at h
      obtain ⟨rfl, hsame⟩ := bodyText_unique (List.cons.inj h).2
      exact ⟨rfl, hsame⟩

theorem Spelled.stops {tokens : List Token} {text : List Char}
    (h : Spelled Blank Blank tokens text) (hfollows : Follows tokens) : Stops text := by
  cases h with
  | done hlast => exact hlast.stops
  | @next space text token tokens hgap hrest =>
    refine hgap.stops_append ?_
    obtain ⟨c, others, htext, -, hword⟩ := token.exists_text
    rw [htext]
    exact stops_cons (hword.trans (hfollows.2 token rfl))

/-- What comes after a word does not go on with it. -/
theorem Separated.follows {token : Token} {tokens : List Token}
    (h : Separated (token :: tokens)) (hword : token.isWord = true) : Follows tokens := by
  obtain ⟨hnext, hrest⟩ := List.isChain_cons.mp h
  refine ⟨hrest, fun next hhead => Bool.eq_false_iff.mpr fun hnextWord => ?_⟩
  exact hnext next hhead ⟨hword, hnextWord⟩

/-- A text spells one list of tokens only. -/
theorem Spelled.unique {tokens others : List Token} {text : List Char}
    (h : Spelled Blank Blank tokens text) (hsame : Spelled Blank Blank others text)
    (hseparated : Separated tokens) (hothers : Separated others) : tokens = others := by
  have hempty : ∀ {space rest text : List Char} (token : Token), Blank space → Blank text →
      text ≠ space ++ (token.text ++ rest) := by
    intro space rest text token hspace htext heq
    obtain ⟨c, more, hc, -, -⟩ := token.exists_text
    have hskip := skipSpace_of_blank htext
    rw [heq, skipSpace_append hspace, skipSpace_text, hc] at hskip
    cases hskip
  induction h generalizing others with
  | @done last hlast =>
    generalize htext : last = text at hsame
    cases hsame with
    | done hother => rfl
    | next hgap hrest => exact absurd htext (hempty _ hgap hlast)
  | @next space text token tokens hgap hrest ih =>
    generalize htext : space ++ (token.text ++ text) = whole at hsame
    cases hsame with
    | done hother => exact absurd htext.symm (hempty _ hgap hother)
    | @next space' text' token' tokens' hgap' hrest' =>
      have hskip := congrArg skipSpace htext
      rw [skipSpace_append hgap, skipSpace_append hgap', skipSpace_text, skipSpace_text] at hskip
      obtain ⟨rfl, rfl⟩ := Token.text_unique hskip
        (fun hword => hrest.stops (hseparated.follows hword))
        (fun hword => hrest'.stops (hothers.follows hword))
      rw [ih hrest' hseparated.tail hothers.tail]

end DocPlan.Json
