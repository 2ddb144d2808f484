import DocPlan.Error
import DocPlan.Proofs.TokenReading

/-!
# Reading containers

A reader is told by tokens (`Told`) when it takes what spells some tokens, and takes any other
text of these tokens to the same meaning. The readers of lists and of objects are two loops of one
kind (`Loops`): they take parts with a comma between them, up to a mark that closes. What such a
loop reads is a relation that has no bound (`ReadsParts`), and each bound above the number of parts
is enough (`Loops.eq_ok`).

Main results: `ReadsParts.told`, a container is told by its tokens when its parts are, and
`told_readMember`, a member of an object is when its value is.
-/

namespace DocPlan.Json

variable {α β γ : Type}

/-! ## Readers that are told by tokens -/

/-- Every text of the tokens is read to its end, and all to one meaning. -/
def ReadsAs (read : List Char → Reading α) (meaning : α → β) (tokens : List Token) (value : β) :
    Prop :=
  ∀ text rest, Front tokens text → Stops rest →
    ∃ found, read (text ++ rest) = .ok (found, rest) ∧ meaning found = value

/-- A reader takes the tokens of what was written, and reads the same from each text of them. -/
def Told (read : List Char → Reading α) (meaning : α → β) (spell : γ → List Token) : Prop :=
  ∀ input found rest, read input = .ok (found, rest) → Stops rest →
    ∃ written used, input = used ++ rest ∧ Front (spell written) used ∧
      ReadsAs read meaning (spell written) (meaning found)

/-! ## The parts of a container -/

/-- A text that does not go on with the mark that closes a container. -/
def Opens (close : Mark) (input : List Char) : Prop :=
  ∃ c rest, skipSpace input = c :: rest ∧ c ≠ close.char

theorem opens_of_ne {close : Mark} {input : List Char} (hnil : skipSpace input ≠ [])
    (hclose : ∀ rest, skipSpace input ≠ close.char :: rest) : Opens close input := by
  obtain ⟨c, rest, hskip⟩ := List.exists_cons_of_ne_nil hnil
  refine ⟨c, rest, hskip, ?_⟩
  rintro rfl
  exact hclose rest hskip

/-- A container is read part by part, with a comma before each part but the first. -/
inductive ReadsParts (close : Mark) (read : List Char → Reading α) :
    (first : Bool) → List Char → List α → List Char → Prop
  | done {first : Bool} {input rest : List Char} (hend : skipSpace input = close.char :: rest) :
    ReadsParts close read first input [] rest
  | first {input after rest : List Char} {part : α} {parts : List α}
    (hopen : Opens close input) (hpart : read input = .ok (part, after))
    (hrest : ReadsParts close read false after parts rest) :
    ReadsParts close read true input (part :: parts) rest
  | next {input more after rest : List Char} {part : α} {parts : List α}
    (hcomma : skipSpace input = ',' :: more) (hopen : Opens close more)
    (hpart : read more = .ok (part, after))
    (hrest : ReadsParts close read false after parts rest) :
    ReadsParts close read false input (part :: parts) rest

theorem skipSpace_skipSpace (input : List Char) :
    skipSpace (skipSpace input) = skipSpace input := by
  induction input with
  | nil => rfl
  | cons c rest ih =>
    rw [skipSpace]
    split
    next => exact ih
    next hc => rw [skipSpace, if_neg hc]

theorem stops_of_skipSpace {input rest : List Char} {c : Char} (h : skipSpace input = c :: rest)
    (hc : isWordChar c = false) : Stops input := by
  obtain ⟨space, hspace, hinput⟩ := exists_skipSpace input
  rw [hinput, h]
  exact hspace.stops_append (stops_cons hc)

/-- What comes after a part does not go on with a word. -/
theorem ReadsParts.stops {close : Mark} {read : List Char → Reading α} {input rest : List Char}
    {parts : List α} (h : ReadsParts close read false input parts rest) : Stops input := by
  cases h with
  | done hend => exact stops_of_skipSpace hend close.isWordChar_char
  | next hcomma => exact stops_of_skipSpace hcomma (by decide)

/-- The first token of a text is what comes after its space. -/
theorem exists_skipSpace_front {token : Token} {tokens : List Token} {text : List Char}
    (h : Front (token :: tokens) text) :
    ∃ more, Front tokens more ∧ more.length < text.length ∧
      ∀ rest, skipSpace (text ++ rest) = token.text ++ (more ++ rest) := by
  cases h with
  | @next space more _ _ hgap hmore =>
    obtain ⟨c, others, htext, -⟩ := token.exists_text
    refine ⟨more, hmore, ?_, fun rest => ?_⟩
    · simp only [htext, List.length_append, List.length_cons]
      omega
    · rw [List.append_assoc, skipSpace_append hgap, List.append_assoc, skipSpace_text]

theorem opens_append {close : Mark} (hclose : close.closes = true) {token : Token}
    {tokens : List Token} (htoken : token.closes = false) {text : List Char}
    (h : Front (token :: tokens) text) (rest : List Char) : Opens close (text ++ rest) := by
  obtain ⟨c, others, htext, hc⟩ := Token.exists_open_text htoken hclose
  obtain ⟨more, -, -, hskip⟩ := exists_skipSpace_front h
  exact ⟨c, _, by rw [hskip, htext, List.cons_append], hc⟩

theorem stops_append_of_mark {sign : Mark} {tokens : List Token} {text : List Char}
    (h : Front (.mark sign :: tokens) text) (rest : List Char) : Stops (text ++ rest) := by
  obtain ⟨more, -, -, hskip⟩ := exists_skipSpace_front h
  exact stops_of_skipSpace (hskip rest) sign.isWordChar_char

/-- The parts that follow a part start with a mark. -/
theorem exists_mark_of_joined (parts : List (List Token)) (close : Mark) :
    ∃ sign tokens, joined false parts ++ [.mark close] = .mark sign :: tokens := by
  cases parts with
  | nil => exact ⟨close, [], rfl⟩
  | cons part others => exact ⟨.comma, part ++ joined false others ++ [.mark close], rfl⟩

section

variable {close : Mark} {read : List Char → Reading α} {meaning : α → β} {spell : γ → List Token}

/-- Every text of the tokens is read part by part to its end, and all to one meaning. -/
def PartsReadAs (close : Mark) (read : List Char → Reading α) (meaning : α → β) (first : Bool)
    (tokens : List Token) (values : List β) : Prop :=
  ∀ text rest, Front tokens text →
    ∃ parts, ReadsParts close read first (text ++ rest) parts rest ∧ parts.length < text.length ∧
      parts.map meaning = values

theorem partsReadAs_nil (first : Bool) :
    PartsReadAs close read meaning first [.mark close] [] := by
  intro text rest h
  obtain ⟨more, hmore, hlength, hskip⟩ := exists_skipSpace_front h
  cases hmore with
  | done hlast =>
    subst hlast
    exact ⟨[], .done (hskip rest), hlength, rfl⟩

/-- A part and the parts after it: the first is followed by a mark, so that it ends there in
each text. -/
theorem partsReadAs_cons {tokens others : List Token} {value : β} {values : List β}
    (hclose : close.closes = true) (hpart : ReadsAs read meaning tokens value)
    (hopen : ∃ token more, tokens = token :: more ∧ token.closes = false)
    (hothers : PartsReadAs close read meaning false others values)
    (hmark : ∃ sign more, others = .mark sign :: more) (first : Bool) :
    PartsReadAs close read meaning first (separator first ++ (tokens ++ others))
      (value :: values) := by
  obtain ⟨token, more, rfl, htoken⟩ := hopen
  obtain ⟨sign, less, rfl⟩ := hmark
  have hboth : ∀ text rest, Front (token :: more ++ .mark sign :: less) text →
      Opens close (text ++ rest) ∧ ∃ part after parts, read (text ++ rest) = .ok (part, after) ∧
        ReadsParts close read false after parts rest ∧ parts.length + 1 < text.length ∧
        meaning part = value ∧ parts.map meaning = values := by
    intro text rest h
    refine ⟨opens_append hclose htoken h rest, ?_⟩
    obtain ⟨used, last, rfl, hused, hlast⟩ := h.split
    obtain ⟨part, hread, hvalue⟩ := hpart used (last ++ rest) hused
      (stops_append_of_mark hlast rest)
    obtain ⟨parts, hparts, hlength, hvalues⟩ := hothers last rest hlast
    obtain ⟨_, -, hpos, -⟩ := exists_skipSpace_front hused
    refine ⟨part, last ++ rest, parts, ?_, hparts, ?_, hvalue, hvalues⟩
    · rw [List.append_assoc, hread]
    · rw [List.length_append]
      omega
  intro text rest h
  cases first with
  | true =>
    obtain ⟨hopens, part, after, parts, hread, hparts, hlength, rfl, rfl⟩ := hboth text rest h
    exact ⟨part :: parts, .first hopens hread hparts, hlength, rfl⟩
  | false =>
    obtain ⟨more, hmore, hshorter, hskip⟩ := exists_skipSpace_front h
    obtain ⟨hopens, part, after, parts, hread, hparts, hlength, rfl, rfl⟩ := hboth more rest hmore
    exact ⟨part :: parts, .next (hskip rest) hopens hread hparts, hlength.trans hshorter, rfl⟩

/-- A container is told by its tokens if its parts are. -/
theorem ReadsParts.told (hclose : close.closes = true) (hread : Told read meaning spell)
    (hspell : ∀ written, ∃ token tokens, spell written = token :: tokens ∧ token.closes = false)
    {first : Bool} {input rest : List Char} {parts : List α}
    (h : ReadsParts close read first input parts rest) :
    ∃ (written : List γ) (used : List Char), input = used ++ rest ∧
      Front (joined first (written.map spell) ++ [.mark close]) used ∧
      PartsReadAs close read meaning first (joined first (written.map spell) ++ [.mark close])
        (parts.map meaning) := by
  induction h with
  | @done first input rest hend =>
    obtain ⟨space, hspace, hinput⟩ := exists_skipSpace input
    rw [hend] at hinput
    refine ⟨[], space ++ ((Token.mark close).text ++ []), ?_, .next hspace (.done rfl),
      partsReadAs_nil first⟩
    rw [hinput, List.append_nil, List.append_assoc]
    rfl
  | @first input after rest part parts hopen hpart hrest ih =>
    obtain ⟨others, last, rfl, hlast, hothers⟩ := ih
    obtain ⟨written, used, rfl, hused, hsame⟩ := hread _ _ _ hpart hrest.stops
    refine ⟨written :: others, used ++ last, (List.append_assoc _ _ _).symm, ?_, ?_⟩
    all_goals rw [List.map_cons, joined, List.append_assoc, List.append_assoc]
    · exact hused.append hlast
    · exact partsReadAs_cons hclose hsame (hspell written) hothers
        (exists_mark_of_joined _ _) _
  | @next input more after rest part parts hcomma hopen hpart hrest ih =>
    obtain ⟨others, last, rfl, hlast, hothers⟩ := ih
    obtain ⟨written, used, rfl, hused, hsame⟩ := hread _ _ _ hpart hrest.stops
    obtain ⟨space, hspace, hinput⟩ := exists_skipSpace input
    rw [hcomma] at hinput
    refine ⟨written :: others, space ++ ((Token.mark .comma).text ++ (used ++ last)), ?_, ?_, ?_⟩
    · rw [hinput]
      simp only [List.append_assoc]
      rfl
    all_goals rw [List.map_cons, joined, List.append_assoc, List.append_assoc]
    · exact .next hspace (hused.append hlast)
    · exact partsReadAs_cons hclose hsame (hspell written) hothers
        (exists_mark_of_joined _ _) _

end

/-! ## The readers of containers -/

/-- A bounded loop that reads a container part by part. -/
structure Loops (close : Mark) (read : List Char → Reading α)
    (loop : Nat → Bool → List Char → Reading (List α)) : Prop where
  exhausted : ∀ first input result, loop 0 first input ≠ .ok result
  unfinished : ∀ bound first input result, skipSpace input = [] →
    loop (bound + 1) first input ≠ .ok result
  done : ∀ bound first input rest, skipSpace input = close.char :: rest →
    loop (bound + 1) first input = .ok ([], rest)
  first : ∀ bound input parts rest, Opens close input →
    (loop (bound + 1) true input = .ok (parts, rest) ↔
      ∃ part after others, read input = .ok (part, after) ∧
        loop bound false after = .ok (others, rest) ∧ parts = part :: others)
  next : ∀ bound input parts rest, Opens close input →
    (loop (bound + 1) false input = .ok (parts, rest) ↔
      ∃ more part after others, skipSpace input = ',' :: more ∧ Opens close more ∧
        read more = .ok (part, after) ∧ loop bound false after = .ok (others, rest) ∧
        parts = part :: others)

namespace Loops

variable {close : Mark} {read : List Char → Reading α}
  {loop : Nat → Bool → List Char → Reading (List α)}

/-- What the loop reads, it reads part by part. -/
theorem parts (h : Loops close read loop) {bound : Nat} {first : Bool} {input rest : List Char}
    {parts : List α} (hread : loop bound first input = .ok (parts, rest)) :
    ReadsParts close read first input parts rest := by
  induction bound generalizing first input parts with
  | zero => exact absurd hread (h.exhausted _ _ _)
  | succ bound ih =>
    cases hskip : skipSpace input with
    | nil => exact absurd hread (h.unfinished _ _ _ _ hskip)
    | cons c more =>
      by_cases hc : c = close.char
      · subst hc
        rw [h.done _ _ _ _ hskip] at hread
        obtain ⟨rfl, rfl⟩ := Prod.mk.inj (Except.ok.inj hread)
        exact .done hskip
      · cases first with
        | true =>
          obtain ⟨part, after, others, hpart, hothers, rfl⟩ :=
            (h.first _ _ _ _ ⟨c, more, hskip, hc⟩).mp hread
          exact .first ⟨c, more, hskip, hc⟩ hpart (ih hothers)
        | false =>
          obtain ⟨left, part, after, others, hcomma, hopen, hpart, hothers, rfl⟩ :=
            (h.next _ _ _ _ ⟨c, more, hskip, hc⟩).mp hread
          exact .next hcomma hopen hpart (ih hothers)

/-- What is read part by part, the loop reads if its bound is above the number of parts. -/
theorem eq_ok (h : Loops close read loop) (hclose : close.closes = true) {bound : Nat}
    {first : Bool} {input rest : List Char} {parts : List α}
    (hparts : ReadsParts close read first input parts rest) (hbound : parts.length < bound) :
    loop bound first input = .ok (parts, rest) := by
  induction hparts generalizing bound with
  | done hskip =>
    obtain ⟨bound, rfl⟩ := Nat.exists_eq_succ_of_ne_zero (Nat.ne_zero_of_lt hbound)
    exact h.done _ _ _ _ hskip
  | first hopen hpart _ ih =>
    obtain ⟨bound, rfl⟩ := Nat.exists_eq_succ_of_ne_zero (Nat.ne_zero_of_lt hbound)
    exact (h.first _ _ _ _ hopen).mpr ⟨_, _, _, hpart, ih (Nat.lt_of_succ_lt_succ hbound), rfl⟩
  | next hcomma hopen hpart _ ih =>
    obtain ⟨bound, rfl⟩ := Nat.exists_eq_succ_of_ne_zero (Nat.ne_zero_of_lt hbound)
    have hstart : ',' ≠ close.char := by
      intro hcomma
      obtain rfl : Mark.comma = close := Mark.char_injective hcomma
      cases hclose
    exact (h.next _ _ _ _ ⟨_, _, hcomma, hstart⟩).mpr
      ⟨_, _, _, _, hcomma, hopen, hpart, ih (Nat.lt_of_succ_lt_succ hbound), rfl⟩

end Loops

/-- Reads a part of a container, and then the parts after it. -/
def partsFrom (readPart : List Char → Reading α) (readRest : List Char → Reading (List α))
    (start : List Char) : Except Fault (List α × List Char) := do
  let (part, after) ← readPart start
  let (parts, last) ← readRest after
  return (part :: parts, last)

theorem partsFrom_eq_ok_iff {readPart : List Char → Reading α}
    {readRest : List Char → Reading (List α)} {start rest : List Char} {parts : List α} :
    partsFrom readPart readRest start = .ok (parts, rest) ↔
      ∃ part after others, readPart start = .ok (part, after) ∧
        readRest after = .ok (others, rest) ∧ parts = part :: others := by
  constructor
  · intro h
    obtain ⟨⟨part, after⟩, hpart, h⟩ := Error.bind_eq_ok_iff.mp h
    obtain ⟨⟨others, last⟩, hothers, h⟩ := Error.bind_eq_ok_iff.mp h
    obtain ⟨rfl, rfl⟩ := Prod.mk.inj (Except.ok.inj h)
    exact ⟨part, after, others, hpart, hothers, rfl⟩
  · rintro ⟨part, after, others, hpart, hothers, rfl⟩
    exact Error.bind_eq_ok_iff.mpr ⟨_, hpart, Error.bind_eq_ok_iff.mpr ⟨_, hothers, rfl⟩⟩

theorem nextItem_eq_ok_iff {input start : List Char} :
    nextItem input = .ok start ↔
      ∃ more, input = ',' :: more ∧ Opens .closeList more ∧ start = skipSpace more := by
  constructor
  · intro h
    unfold nextItem at h
    split at h
    next more =>
      split at h
      next => cases h
      next => cases h
      next hnil hclose => exact ⟨more, rfl, opens_of_ne hnil hclose, (Except.ok.inj h).symm⟩
    next => cases h
  · rintro ⟨more, rfl, ⟨c, others, hskip, hc⟩, rfl⟩
    unfold nextItem
    simp only
    rw [hskip]
    split
    next heq => cases heq
    next heq => exact absurd (List.cons.inj heq).1 hc
    next => rfl

theorem readItems_of_opens (readItem : List Char → Reading α) (bound : Nat) (first : Bool)
    {input : List Char} (h : Opens .closeList input) :
    readItems readItem (bound + 1) first input =
      (if first then .ok (skipSpace input) else nextItem (skipSpace input)) >>=
        partsFrom readItem (readItems readItem bound false) := by
  obtain ⟨c, more, hskip, hc⟩ := h
  rw [readItems, hskip]
  split
  next heq => cases heq
  next heq => exact absurd (List.cons.inj heq).1 hc
  next => cases first <;> rfl

theorem loops_readItems {readItem : List Char → Reading α}
    (hspace : ∀ input, readItem (skipSpace input) = readItem input) :
    Loops .closeList readItem (readItems readItem) where
  exhausted := fun first input result h => by cases h
  unfinished := fun bound first input result hskip h => by
    rw [readItems, hskip] at h
    cases h
  done := fun bound first input rest hskip => by
    rw [readItems, hskip]
    rfl
  first := fun bound input parts rest hopen => by
    rw [readItems_of_opens _ _ _ hopen, ← hspace input]
    exact partsFrom_eq_ok_iff
  next := fun bound input parts rest hopen => by
    rw [readItems_of_opens _ _ _ hopen]
    simp only [Bool.false_eq_true, if_false, Error.bind_eq_ok_iff, nextItem_eq_ok_iff,
      partsFrom_eq_ok_iff]
    constructor
    · rintro ⟨_, ⟨more, hcomma, hstart, rfl⟩, part, after, others, hpart, hothers⟩
      exact ⟨more, part, after, others, hcomma, hstart, hspace more ▸ hpart, hothers⟩
    · rintro ⟨more, part, after, others, hcomma, hstart, hpart, hothers⟩
      rw [← hspace] at hpart
      exact ⟨_, ⟨more, hcomma, hstart, rfl⟩, part, after, others, hpart, hothers⟩

theorem nextKey_eq_ok_iff {input start : List Char} :
    nextKey input = .ok start ↔
      ∃ more, input = ',' :: more ∧ Opens .closeObject more ∧
        firstKey (skipSpace more) = .ok start := by
  constructor
  · intro h
    unfold nextKey at h
    split at h
    next more =>
      split at h
      next => cases h
      next => cases h
      next hnil hclose => exact ⟨more, rfl, opens_of_ne hnil hclose, h⟩
    next => cases h
  · rintro ⟨more, rfl, ⟨c, others, hskip, hc⟩, hkey⟩
    unfold nextKey
    simp only
    rw [hskip] at hkey ⊢
    split
    next heq => cases heq
    next heq => exact absurd (List.cons.inj heq).1 hc
    next => exact hkey

/-- Reads a member of an object after the opening quote of its key. -/
def readPair (readValue : List Char → Reading α) (start : List Char) :
    Except Fault ((Key × α) × List Char) := do
  let (key, afterKey) ← readKey start
  let (value, after) ← readValue afterKey
  return ((key, value), after)

/-- Reads a member of an object. -/
def readMember (readValue : List Char → Reading α) (input : List Char) :
    Except Fault ((Key × α) × List Char) := do
  let start ← firstKey (skipSpace input)
  readPair readValue start

theorem membersFrom_eq (readValue : List Char → Reading α) (bound : Nat) (start : List Char) :
    (do
      let (key, afterKey) ← readKey start
      let (value, after) ← readValue afterKey
      let (members, last) ← readMembers readValue bound false after
      return ((key, value) :: members, last)) =
      partsFrom (readPair readValue) (readMembers readValue bound false) start := by
  simp only [partsFrom, readPair, bind_assoc]
  rfl

theorem readMembers_of_opens (readValue : List Char → Reading α) (bound : Nat) (first : Bool)
    {input : List Char} (h : Opens .closeObject input) :
    readMembers readValue (bound + 1) first input =
      (if first then firstKey (skipSpace input) else nextKey (skipSpace input)) >>=
        partsFrom (readPair readValue) (readMembers readValue bound false) := by
  obtain ⟨c, more, hskip, hc⟩ := h
  rw [readMembers, hskip]
  split
  next heq => cases heq
  next heq => exact absurd (List.cons.inj heq).1 hc
  next =>
    cases first with
    | true => exact congrArg (firstKey (c :: more) >>= ·) (funext (membersFrom_eq readValue bound))
    | false => exact congrArg (nextKey (c :: more) >>= ·) (funext (membersFrom_eq readValue bound))

theorem loops_readMembers (readValue : List Char → Reading α) :
    Loops .closeObject (readMember readValue) (readMembers readValue) where
  exhausted := fun first input result h => by cases h
  unfinished := fun bound first input result hskip h => by
    rw [readMembers, hskip] at h
    cases h
  done := fun bound first input rest hskip => by
    rw [readMembers, hskip]
    rfl
  first := fun bound input parts rest hopen => by
    rw [readMembers_of_opens _ _ _ hopen]
    simp only [if_true, readMember, Error.bind_eq_ok_iff, partsFrom_eq_ok_iff]
    constructor
    · rintro ⟨start, hstart, part, after, others, hpart, hothers⟩
      exact ⟨part, after, others, ⟨start, hstart, hpart⟩, hothers⟩
    · rintro ⟨part, after, others, ⟨start, hstart, hpart⟩, hothers⟩
      exact ⟨start, hstart, part, after, others, hpart, hothers⟩
  next := fun bound input parts rest hopen => by
    rw [readMembers_of_opens _ _ _ hopen]
    simp only [Bool.false_eq_true, if_false, readMember, Error.bind_eq_ok_iff, nextKey_eq_ok_iff,
      partsFrom_eq_ok_iff]
    constructor
    · rintro ⟨start, ⟨more, hcomma, hnext, hstart⟩, part, after, others, hpart, hothers⟩
      exact ⟨more, part, after, others, hcomma, hnext, ⟨start, hstart, hpart⟩, hothers⟩
    · rintro ⟨more, part, after, others, hcomma, hnext, ⟨start, hstart, hpart⟩, hothers⟩
      exact ⟨start, ⟨more, hcomma, hnext, hstart⟩, part, after, others, hpart, hothers⟩

theorem readKey_eq_ok_iff {input after : List Char} {key : Key} :
    readKey input = .ok (key, after) ↔
      ∃ text rest, StringReader.read 0 input = .ok (text, rest) ∧ skipSpace rest = ':' :: after ∧
        key = ⟨String.ofList text, Utf8.size (':' :: after)⟩ := by
  constructor
  · intro h
    obtain ⟨⟨text, rest⟩, hread, h⟩ := Error.bind_eq_ok_iff.mp h
    simp only at h
    split at h
    next => cases h
    next hcolon =>
      obtain ⟨rfl, rfl⟩ := Prod.mk.inj (Except.ok.inj h)
      exact ⟨text, rest, hread, hcolon, rfl⟩
    next => cases h
  · rintro ⟨text, rest, hread, hcolon, rfl⟩
    refine Error.bind_eq_ok_iff.mpr ⟨_, hread, ?_⟩
    simp only [hcolon]
    rfl

/-- What a member says: its key without its place, and its value. -/
def memberMeaning (meaning : α → β) (member : Key × α) : String × β :=
  (member.1.text, meaning member.2)

theorem readMember_eq_ok_iff {readValue : List Char → Reading α} {input rest : List Char}
    {member : Key × α} :
    readMember readValue input = .ok (member, rest) ↔
      ∃ start after, skipSpace input = '"' :: start ∧
        readKey start = .ok (member.1, after) ∧ readValue after = .ok (member.2, rest) := by
  constructor
  · intro h
    obtain ⟨start, hstart, h⟩ := Error.bind_eq_ok_iff.mp h
    obtain ⟨⟨key, after⟩, hkey, h⟩ := Error.bind_eq_ok_iff.mp h
    obtain ⟨⟨value, last⟩, hvalue, h⟩ := Error.bind_eq_ok_iff.mp h
    obtain ⟨rfl, rfl⟩ := Prod.mk.inj (Except.ok.inj h)
    unfold firstKey at hstart
    split at hstart
    next hquote =>
      obtain rfl := Except.ok.inj hstart
      exact ⟨_, after, hquote, hkey, hvalue⟩
    next => cases hstart
  · rintro ⟨start, after, hquote, hkey, hvalue⟩
    refine Error.bind_eq_ok_iff.mpr ⟨start, by rw [hquote]; rfl, ?_⟩
    exact Error.bind_eq_ok_iff.mpr ⟨_, hkey, Error.bind_eq_ok_iff.mpr ⟨_, hvalue, rfl⟩⟩

/-- A member is told by its tokens if its value is. -/
theorem told_readMember {readValue : List Char → Reading α} {meaning : α → β}
    (hvalue : Told readValue meaning (Tree.tokens false)) :
    Told (readMember readValue) (memberMeaning meaning) (memberPart false) := by
  intro input member rest h hrest
  obtain ⟨start, after, hquote, hkey, hread⟩ := readMember_eq_ok_iff.mp h
  obtain ⟨text, last, hstring, hcolon, hsame⟩ := readKey_eq_ok_iff.mp hkey
  obtain ⟨tree, used, rfl, hused, hagain⟩ := hvalue _ _ _ hread hrest
  obtain ⟨body, hbody, hbodies⟩ := StringReader.exists_body_of_read hstring
  obtain ⟨space, hspace, hinput⟩ := exists_skipSpace input
  obtain ⟨gap, hgap, hlast⟩ := exists_skipSpace last
  rw [hcolon] at hlast
  rw [List.drop_zero] at hbody
  refine ⟨(body, tree),
    space ++ ((Token.string body).text ++ (gap ++ ((Token.mark .colon).text ++ used))), ?_,
    .next hspace (.next hgap hused), fun other others hother hothers => ?_⟩
  · rw [hinput, hquote, hbody, hlast]
    simp [Token.text, Mark.char]
  · obtain ⟨more, hmore, -, hskip⟩ := exists_skipSpace_front hother
    obtain ⟨left, hleft, -, hnext⟩ := exists_skipSpace_front hmore
    obtain ⟨found, hfound, hmeaning⟩ := hagain left others hleft hothers
    have hstart : skipSpace (other ++ others) = '"' :: (bodyText body ++ '"' :: (more ++ others)) :=
      (hskip others).trans (Token.string_append body (more ++ others))
    have hkeys : readKey (bodyText body ++ '"' :: (more ++ others)) =
        .ok (⟨String.ofList text, Utf8.size (':' :: (left ++ others))⟩, left ++ others) :=
      readKey_eq_ok_iff.mpr ⟨text, more ++ others, hbodies _, hnext others, rfl⟩
    refine ⟨(_, found), readMember_eq_ok_iff.mpr ⟨_, _, hstart, hkeys, hfound⟩, ?_⟩
    rw [memberMeaning, memberMeaning, hsame, hmeaning]

end DocPlan.Json
