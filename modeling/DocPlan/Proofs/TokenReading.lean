import DocPlan.Proofs.JsonGrammar

/-!
# Reading words and strings

Readers of single tokens look at the characters of the token only, and at whether the text goes
on with a word. For numbers this is said of every step (`Local`): what comes after the characters
of words is handed on, and nothing else depends on it. The steps are made of two kinds, one that
looks for a character and goes on behind it (`NumberReader.afterChar`) and one that goes on from a
digit (`NumberReader.fromDigit`), so that each is local because its parts are.

Main results: `exists_word_of_readNumber`, a number is read up to the end of its word, and
`StringReader.exists_body_of_read`, a string is read up to the quote that ends it, with escapes
that look ahead within the string only.
-/

namespace DocPlan.Json

variable {α : Type}

/-! ## Numbers -/

/-- Two readings come to the same, the second with a text left after what the first leaves. -/
def Agree (rest : List Char) : Reading α → Reading α → Prop
  | .ok (value, left), .ok (other, after) => value = other ∧ after = left ++ rest
  | .error _, .error _ => True
  | _, _ => False

/-- A reader that stops where no word goes on, and leaves an end of what it is given. -/
structure Local (read : List Char → Reading α) : Prop where
  agree : ∀ chars rest, Stops rest → Agree rest (read chars) (read (chars ++ rest))
  suffix : ∀ chars value left, read chars = .ok (value, left) → left <:+ chars

namespace NumberReader

theorem isDigit_eq_false {c : Char} (h : isWordChar c = false) : c.isDigit = false := by
  simp only [isWordChar, Char.isAlphanum, Bool.or_eq_false_iff] at h
  exact h.1.1.1.2

theorem startsWithDigit_append (chars : List Char) {rest : List Char} (h : Stops rest) :
    startsWithDigit (chars ++ rest) = startsWithDigit chars := by
  cases chars with
  | cons c others => rfl
  | nil =>
    cases rest with
    | nil => rfl
    | cons c others => exact isDigit_eq_false (h c rfl)

theorem gather_append (limit value : Nat) (chars : List Char) {rest : List Char} (h : Stops rest) :
    gather limit value (chars ++ rest) = ((gather limit value chars).1,
      (gather limit value chars).2.1, (gather limit value chars).2.2 ++ rest) := by
  induction chars generalizing value with
  | nil =>
    cases rest with
    | nil => rfl
    | cons c others => simp [gather, isDigit_eq_false (h c rfl)]
  | cons c others ih =>
    rw [List.cons_append, gather, gather]
    split
    next => rw [ih]
    next => rfl

theorem gather_suffix (limit value : Nat) (chars : List Char) :
    (gather limit value chars).2.2 <:+ chars := by
  induction chars generalizing value with
  | nil => exact List.suffix_rfl
  | cons c others ih =>
    rw [gather]
    split
    next => exact (ih _).trans (List.suffix_cons c others)
    next => exact List.suffix_rfl

theorem skipDigits_append (chars : List Char) {rest : List Char} (h : Stops rest) :
    skipDigits (chars ++ rest) = ((skipDigits chars).1, (skipDigits chars).2 ++ rest) := by
  induction chars with
  | nil =>
    cases rest with
    | nil => rfl
    | cons c others => simp [skipDigits, isDigit_eq_false (h c rfl)]
  | cons c others ih =>
    rw [List.cons_append, skipDigits, skipDigits]
    split
    next => rw [ih]
    next => rfl

theorem skipDigits_suffix (chars : List Char) : (skipDigits chars).2 <:+ chars := by
  induction chars with
  | nil => exact List.suffix_rfl
  | cons c others ih =>
    rw [skipDigits]
    split
    next => exact ih.trans (List.suffix_cons c others)
    next => exact List.suffix_rfl

theorem local_ofParts (negative : Bool) (significand : Nat) (exponent : Int) :
    Local (ofParts negative significand exponent) where
  agree := by
    intro chars rest _
    unfold ofParts
    split
    next => exact ⟨rfl, rfl⟩
    next => trivial
  suffix := by
    intro chars value left h
    unfold ofParts at h
    split at h
    next =>
      obtain ⟨-, rfl⟩ := Prod.mk.inj (Except.ok.inj h)
      exact List.suffix_rfl
    next => cases h

theorem local_readExponentDigits (negative : Bool) (significand : Nat) (start : Int)
    (down : Bool) : Local (readExponentDigits negative significand start down) where
  agree := by
    intro chars rest h
    unfold readExponentDigits
    rw [gather_append _ _ _ h]
    simp only
    rw [startsWithDigit_append _ h, skipDigits_append _ h]
    split
    next =>
      split
      next => trivial
      next => exact ⟨rfl, rfl⟩
    next => exact (local_ofParts _ _ _).agree _ _ h
  suffix := by
    intro chars value left h
    have hgather := gather_suffix exponentLimit 0 chars
    unfold readExponentDigits at h
    simp only at h
    split at h
    next =>
      split at h
      next => cases h
      next =>
        obtain ⟨-, rfl⟩ := Prod.mk.inj (Except.ok.inj h)
        exact (skipDigits_suffix _).trans hgather
    next => exact ((local_ofParts _ _ _).suffix _ _ _ h).trans hgather

theorem local_ofInteger (negative : Bool) (value : Nat) : Local (ofInteger negative value) where
  agree := by
    intro chars rest h
    unfold ofInteger
    split
    next => exact ⟨rfl, rfl⟩
    next =>
      split
      next => exact ⟨rfl, rfl⟩
      next => exact (local_ofParts _ _ _).agree chars rest h
  suffix := by
    intro chars result left h
    unfold ofInteger at h
    split at h
    next =>
      obtain ⟨-, rfl⟩ := Prod.mk.inj (Except.ok.inj h)
      exact List.suffix_rfl
    next =>
      split at h
      next =>
        obtain ⟨-, rfl⟩ := Prod.mk.inj (Except.ok.inj h)
        exact List.suffix_rfl
      next => exact (local_ofParts _ _ _).suffix _ _ _ h

/-- Reads on from a digit, which there must be. -/
def fromDigit (read : List Char → Reading α) : List Char → Reading α
  | [] => failHere .endInValue []
  | c :: rest => if c.isDigit then read (c :: rest) else failNext .invalidNumber (c :: rest)

theorem local_fromDigit {read : List Char → Reading α} (hread : Local read) :
    Local (fromDigit read) where
  agree := by
    intro chars rest h
    cases chars with
    | nil =>
      cases rest with
      | nil => trivial
      | cons c others =>
        rw [List.nil_append, fromDigit, fromDigit, isDigit_eq_false (h c rfl)]
        trivial
    | cons c others =>
      rw [List.cons_append, fromDigit, fromDigit]
      split
      next => exact hread.agree (c :: others) rest h
      next => trivial
  suffix := by
    intro chars value left h
    cases chars with
    | nil => cases h
    | cons c others =>
      rw [fromDigit] at h
      split at h
      next => exact hread.suffix _ _ _ h
      next => cases h

/-- Reads after a character that is looked for, or else from the same place. -/
def afterChar (sought : Char → Bool) (found missing : List Char → Reading α) :
    List Char → Reading α
  | [] => missing []
  | c :: rest => if sought c then found rest else missing (c :: rest)

/-- Looking for characters of words keeps a reader to the word. -/
theorem local_afterChar {sought : Char → Bool} {found missing : List Char → Reading α}
    (hsought : ∀ c, sought c = true → isWordChar c = true) (hfound : Local found)
    (hmissing : Local missing) : Local (afterChar sought found missing) where
  agree := by
    intro chars rest h
    cases chars with
    | nil =>
      have hrest : afterChar sought found missing rest = missing rest := by
        cases rest with
        | nil => rfl
        | cons c others =>
          refine if_neg fun hc => Bool.false_ne_true ?_
          rw [← h c rfl, hsought c hc]
      rw [List.nil_append, hrest]
      exact hmissing.agree [] rest h
    | cons c others =>
      rw [List.cons_append, afterChar, afterChar]
      split
      next => exact hfound.agree others rest h
      next => exact hmissing.agree (c :: others) rest h
  suffix := by
    intro chars value left h
    cases chars with
    | nil => exact hmissing.suffix [] _ _ h
    | cons c others =>
      rw [afterChar] at h
      split at h
      next => exact (hfound.suffix _ _ _ h).trans (List.suffix_cons _ _)
      next => exact hmissing.suffix _ _ _ h

theorem isWordChar_of_eq {mark : Char} (hmark : isWordChar mark = true) (c : Char)
    (h : decide (c = mark) = true) : isWordChar c = true := by
  rw [of_decide_eq_true h, hmark]

/-- The marks of an exponent. -/
def isExponentMark (c : Char) : Bool := c = 'e' || c = 'E'

theorem isWordChar_of_isExponentMark (c : Char) (h : isExponentMark c = true) :
    isWordChar c = true := by
  simp only [isExponentMark, Bool.or_eq_true, decide_eq_true_eq] at h
  rcases h with rfl | rfl <;> rfl

/-- A sign before the digits of an exponent is stepped over. -/
theorem readExponent_eq (negative : Bool) (significand : Nat) (start : Int) :
    readExponent negative significand start =
      afterChar (· = '+') (fromDigit (readExponentDigits negative significand start false))
        (afterChar (· = '-') (fromDigit (readExponentDigits negative significand start true))
          (fromDigit (readExponentDigits negative significand start false))) := by
  funext input
  cases input with
  | nil => rfl
  | cons c rest =>
    by_cases hplus : c = '+'
    · subst hplus
      cases rest <;> rfl
    · by_cases hminus : c = '-'
      · subst hminus
        cases rest <;> rfl
      · simp only [afterChar, hplus, hminus, decide_false, Bool.false_eq_true, if_false]
        unfold readExponent
        split
        next hsign =>
          split at hsign
          next heq => exact absurd (List.cons.inj heq).1 hplus
          next heq => exact absurd (List.cons.inj heq).1 hminus
          next =>
            cases hsign
            rfl

theorem local_readExponent (negative : Bool) (significand : Nat) (start : Int) :
    Local (readExponent negative significand start) := by
  rw [readExponent_eq]
  exact local_afterChar (isWordChar_of_eq rfl) (local_fromDigit (local_readExponentDigits ..))
    (local_afterChar (isWordChar_of_eq rfl) (local_fromDigit (local_readExponentDigits ..))
      (local_fromDigit (local_readExponentDigits ..)))

theorem finishReal_eq (negative : Bool) (significand : Nat) (exponent : Int) :
    finishReal negative significand exponent =
      afterChar isExponentMark (readExponent negative significand exponent)
        (ofParts negative significand exponent) := by
  funext input
  cases input <;> rfl

theorem local_finishReal (negative : Bool) (significand : Nat) (exponent : Int) :
    Local (finishReal negative significand exponent) := by
  rw [finishReal_eq]
  exact local_afterChar isWordChar_of_isExponentMark (local_readExponent ..) (local_ofParts ..)

theorem local_readFraction (negative : Bool) (significand : Nat) (before : Int) :
    Local (readFraction negative significand before) where
  agree := by
    intro chars rest h
    unfold readFraction
    rw [gather_append _ _ _ h]
    simp only
    rw [startsWithDigit_append _ h, skipDigits_append _ h]
    split
    next => exact (local_finishReal _ _ _).agree _ _ h
    next =>
      split
      next => trivial
      next => exact (local_finishReal _ _ _).agree _ _ h
  suffix := by
    intro chars value left h
    have hgather := gather_suffix significandLimit significand chars
    unfold readFraction at h
    simp only at h
    split at h
    next =>
      exact ((local_finishReal _ _ _).suffix _ _ _ h).trans
        ((skipDigits_suffix _).trans hgather)
    next =>
      split at h
      next => cases h
      next => exact ((local_finishReal _ _ _).suffix _ _ _ h).trans hgather

/-- The number whose digits before the point are all that is written. -/
def withoutFraction (negative : Bool) (significand dropped : Nat) (rest : List Char) :
    Reading Number :=
  if dropped = 0 then ofInteger negative significand rest
  else ofParts negative significand dropped rest

theorem local_withoutFraction (negative : Bool) (significand dropped : Nat) :
    Local (withoutFraction negative significand dropped) where
  agree := by
    intro chars rest h
    unfold withoutFraction
    split
    next => exact (local_ofInteger _ _).agree chars rest h
    next => exact (local_ofParts _ _ _).agree chars rest h
  suffix := by
    intro chars value left h
    unfold withoutFraction at h
    split at h
    next => exact (local_ofInteger _ _).suffix _ _ _ h
    next => exact (local_ofParts _ _ _).suffix _ _ _ h

theorem afterInteger_eq (negative : Bool) (significand dropped : Nat) :
    afterInteger negative significand dropped =
      afterChar (· = '.') (readFraction negative significand dropped)
        (afterChar isExponentMark (readExponent negative significand dropped)
          (withoutFraction negative significand dropped)) := by
  funext input
  unfold afterInteger
  split
  next => rfl
  next => rfl
  next => rfl
  next hpoint hsmall hlarge =>
    cases input with
    | nil => rfl
    | cons c rest =>
      have hc : c ≠ '.' := fun hc => hpoint rest (congrArg (· :: rest) hc)
      have hmark : isExponentMark c = false := by
        rw [isExponentMark, Bool.or_eq_false_iff, decide_eq_false_iff_not,
          decide_eq_false_iff_not]
        exact ⟨fun hc => hsmall rest (congrArg (· :: rest) hc),
          fun hc => hlarge rest (congrArg (· :: rest) hc)⟩
      simp only [afterChar, hc, hmark, decide_false, Bool.false_eq_true, if_false]
      rfl

theorem local_afterInteger (negative : Bool) (significand dropped : Nat) :
    Local (afterInteger negative significand dropped) := by
  rw [afterInteger_eq]
  exact local_afterChar (isWordChar_of_eq rfl) (local_readFraction ..)
    (local_afterChar isWordChar_of_isExponentMark (local_readExponent ..)
      (local_withoutFraction ..))

/-- What follows a zero at the start of a number. -/
def afterZero (negative : Bool) (rest : List Char) : Reading Number :=
  if startsWithDigit rest then failNext .invalidNumber rest
  else afterInteger negative 0 0 rest

theorem local_afterZero (negative : Bool) : Local (afterZero negative) where
  agree := by
    intro chars rest h
    unfold afterZero
    rw [startsWithDigit_append _ h]
    split
    next => trivial
    next => exact (local_afterInteger _ _ _).agree chars rest h
  suffix := by
    intro chars value left h
    unfold afterZero at h
    split at h
    next => cases h
    next => exact (local_afterInteger _ _ _).suffix _ _ _ h

/-- A number from the digits it starts with. -/
def afterDigits (negative : Bool) (input : List Char) : Reading Number :=
  let (significand, _, rest) := gather significandLimit 0 input
  let (dropped, after) := skipDigits rest
  afterInteger negative significand dropped after

theorem local_afterDigits (negative : Bool) : Local (afterDigits negative) where
  agree := by
    intro chars rest h
    unfold afterDigits
    rw [gather_append _ _ _ h]
    simp only
    rw [skipDigits_append _ h]
    exact (local_afterInteger _ _ _).agree _ rest h
  suffix := by
    intro chars value left h
    exact ((local_afterInteger _ _ _).suffix _ _ _ h).trans
      ((skipDigits_suffix _).trans (gather_suffix _ _ _))

theorem readDigits_eq (negative : Bool) :
    readDigits negative =
      afterChar (· = '0') (afterZero negative) (fromDigit (afterDigits negative)) := by
  funext input
  unfold readDigits
  split
  next => rfl
  next => rfl
  next c rest hzero =>
    simp only [afterChar, show c ≠ '0' from hzero, decide_false, Bool.false_eq_true, if_false]
    rfl

theorem local_readDigits (negative : Bool) : Local (readDigits negative) := by
  rw [readDigits_eq]
  exact local_afterChar (isWordChar_of_eq rfl) (local_afterZero _)
    (local_fromDigit (local_afterDigits _))

end NumberReader

theorem readNumber_eq :
    readNumber = NumberReader.afterChar (· = '-') (NumberReader.readDigits true)
      (NumberReader.readDigits false) := by
  funext input
  unfold readNumber
  split
  next => rfl
  next hminus =>
    cases input with
    | nil => rfl
    | cons c rest =>
      have hc : c ≠ '-' := fun hc => hminus rest (congrArg (· :: rest) hc)
      simp only [NumberReader.afterChar, hc, decide_false, Bool.false_eq_true, if_false]

theorem local_readNumber : Local readNumber := by
  rw [readNumber_eq]
  exact NumberReader.local_afterChar (NumberReader.isWordChar_of_eq rfl)
    (NumberReader.local_readDigits _) (NumberReader.local_readDigits _)

theorem Agree.of_ok_right {rest after : List Char} {reading : Reading α} {value : α}
    (h : Agree rest reading (.ok (value, after))) :
    ∃ left, reading = .ok (value, left) ∧ after = left ++ rest := by
  cases reading with
  | ok result => exact ⟨result.2, congrArg Except.ok (Prod.ext h.1 rfl), h.2⟩
  | error fault => exact h.elim

theorem Agree.of_ok_left {rest left : List Char} {reading : Reading α} {value : α}
    (h : Agree rest (.ok (value, left)) reading) : reading = .ok (value, left ++ rest) := by
  cases reading with
  | ok result => exact congrArg Except.ok (Prod.ext h.1.symm h.2)
  | error fault => exact h.elim

/-- A number is read up to the end of its word: the same word is read alike in each text. -/
theorem exists_word_of_readNumber {input rest : List Char} {value : Number}
    (h : readNumber input = .ok (value, rest)) (hrest : Stops rest) :
    ∃ word : Word, input = word.chars ++ rest ∧
      ∀ after, Stops after → readNumber (word.chars ++ after) = .ok (value, after) := by
  obtain ⟨chars, others, rfl, hproper, hothers⟩ :
      ∃ chars others, input = chars ++ others ∧ (∀ c ∈ chars, isWordChar c = true) ∧
        Stops others := by
    refine ⟨input.takeWhile isWordChar, input.dropWhile isWordChar,
      List.takeWhile_append_dropWhile.symm,
      List.all_eq_true.mp List.all_takeWhile, fun c hc => ?_⟩
    have hhead := List.head?_dropWhile_not isWordChar input
    rwa [hc] at hhead
  obtain ⟨left, hleft, hafter⟩ := (h ▸ local_readNumber.agree chars others hothers).of_ok_right
  -- nothing of the word is left, since the text does not go on with a word
  obtain rfl : left = [] := by
    cases left with
    | nil => rfl
    | cons c more =>
      have hsuffix : c :: more <:+ chars := local_readNumber.suffix _ _ _ hleft
      have hword := hproper c (hsuffix.mem List.mem_cons_self)
      rw [hrest c (congrArg List.head? hafter)] at hword
      cases hword
  obtain rfl : rest = others := hafter
  have hnonempty : chars ≠ [] := by
    rintro rfl
    cases hleft
  refine ⟨⟨chars, hnonempty, hproper⟩, rfl, fun after hstops => ?_⟩
  exact (hleft ▸ local_readNumber.agree chars after hstops).of_ok_left

/-! ## Literals -/

theorem readWord_eq_ok_iff {word input rest : List Char} :
    readWord word input = .ok rest ↔ input = word ++ rest := by
  induction word generalizing input with
  | nil => simp [readWord]
  | cons expected word ih =>
    cases input with
    | nil => simp [readWord, failHere]
    | cons c others =>
      rw [readWord]
      split
      next heq => simp [ih, heq]
      next hne => simp [failNext, hne]

/-! ## Strings -/

namespace StringReader

/-- What a reader that looks ahead gives depends on some characters of a string only. -/
def Covers (look : List Char → Except Fault α) (value : α) (used : List Char) : Prop :=
  (∃ body, used = bodyText body) ∧ ∀ after, look (used ++ after) = .ok value

theorem plain_of_hexDigit? {c : Char} {value : Nat} (h : hexDigit? c = some value) :
    c ≠ '"' ∧ c ≠ '\\' := by
  constructor <;>
  · rintro rfl
    cases (show none = some value from h)

theorem exists_hexUnit? {input : List Char} {unit : Nat} (h : hexUnit? input = some unit) :
    ∃ digits rest, input = digits ++ rest ∧ digits.length = 4 ∧
      (∀ c ∈ digits, c ≠ '"' ∧ c ≠ '\\') ∧ ∀ after, hexUnit? (digits ++ after) = some unit := by
  unfold hexUnit? at h
  split at h
  next a b c d rest =>
    refine ⟨[a, b, c, d], rest, rfl, rfl, ?_, fun after => ?_⟩
    · simp only [Option.bind_eq_bind, Option.bind_eq_some_iff] at h
      obtain ⟨_, ha, _, hb, _, hc, _, hd, -⟩ := h
      simp only [List.forall_mem_cons]
      exact ⟨plain_of_hexDigit? ha, plain_of_hexDigit? hb, plain_of_hexDigit? hc,
        plain_of_hexDigit? hd, fun _ h => nomatch h⟩
    · exact h
  next => cases h

/-- Characters that are neither quotes nor backslashes stand for themselves. -/
theorem exists_body_of_plain {chars : List Char} (h : ∀ c ∈ chars, c ≠ '"' ∧ c ≠ '\\') :
    ∃ body, chars = bodyText body := by
  induction chars with
  | nil => exact ⟨[], rfl⟩
  | cons c rest ih =>
    obtain ⟨hc, hrest⟩ := List.forall_mem_cons.mp h
    obtain ⟨body, rfl⟩ := ih hrest
    exact ⟨.plain c hc.1 hc.2 :: body, rfl⟩

theorem length_le_size (text : List Char) : text.length ≤ Utf8.size text := by
  induction text with
  | nil => exact Nat.le_refl _
  | cons c rest ih =>
    have hc := c.utf8Size_pos
    rw [List.length_cons, Utf8.size]
    omega

theorem exists_covers_of_readUnit {input : List Char} {unit : Nat}
    (h : readUnit input = .ok unit) :
    ∃ digits rest, input = digits ++ rest ∧ digits.length = 4 ∧ Covers readUnit unit digits := by
  unfold readUnit at h
  split at h
  next => cases h
  next =>
    split at h
    next found hunit =>
      obtain rfl := Except.ok.inj h
      obtain ⟨digits, rest, hinput, hlength, hplain, hsame⟩ := exists_hexUnit? hunit
      refine ⟨digits, rest, hinput, hlength, exists_body_of_plain hplain, fun after => ?_⟩
      have hsize := length_le_size (digits ++ after)
      rw [List.length_append, hlength] at hsize
      rw [readUnit, if_neg (by omega), hsame]
    next => cases h

theorem exists_covers_of_readTrailing {high : Nat} {input : List Char} {c : Char}
    (h : readTrailing high input = .ok c) :
    ∃ used rest, input = used ++ rest ∧ used.length = 6 ∧ Covers (readTrailing high) c used := by
  unfold readTrailing at h
  split at h
  next => cases h
  next => cases h
  next rest =>
    split at h
    next => cases h
    next low hlow =>
      split at h
      next hrange =>
        obtain ⟨digits, more, rfl, hlength, ⟨body, rfl⟩, hsame⟩ := exists_covers_of_readUnit hlow
        refine ⟨'\\' :: 'u' :: bodyText body, more, rfl, congrArg (· + 2) hlength,
          ⟨.escaped 'u' :: body, rfl⟩, fun after => ?_⟩
        rw [List.cons_append, List.cons_append, readTrailing, hsame]
        exact (if_pos hrange).trans h
      next => cases h
  next => cases h
  next => cases h

theorem exists_covers_of_readUnicode {input : List Char} {c : Char} {width : Nat}
    (h : readUnicode input = .ok (c, width)) :
    ∃ used rest, input = used ++ rest ∧ used.length = width ∧
      Covers readUnicode (c, width) used := by
  unfold readUnicode at h
  split at h
  next => cases h
  next unit hunit =>
    obtain ⟨digits, more, rfl, hlength, ⟨body, rfl⟩, hsame⟩ := exists_covers_of_readUnit hunit
    have hdrop : ∀ after, (bodyText body ++ after).drop 4 = after :=
      fun after => hlength ▸ List.drop_left
    split at h
    next => cases h
    next hlow =>
      split at h
      next hhigh =>
        split at h
        next => cases h
        next found htrailing =>
          rw [hdrop] at htrailing
          obtain ⟨used, rest, rfl, hused, ⟨other, rfl⟩, hagain⟩ :=
            exists_covers_of_readTrailing htrailing
          obtain ⟨rfl, rfl⟩ := Prod.mk.inj (Except.ok.inj h)
          refine ⟨bodyText body ++ bodyText other, rest, (List.append_assoc _ _ _).symm,
            by rw [List.length_append, hlength, hused], ⟨body ++ other, ?_⟩, fun after => ?_⟩
          · exact (List.flatMap_append).symm
          · rw [List.append_assoc, readUnicode, hsame]
            simp only
            rw [if_neg hlow, if_pos hhigh, hdrop, hagain]
      next hhigh =>
        obtain ⟨rfl, rfl⟩ := Prod.mk.inj (Except.ok.inj h)
        refine ⟨bodyText body, more, rfl, hlength, ⟨body, rfl⟩, fun after => ?_⟩
        rw [readUnicode, hsame]
        simp only
        rw [if_neg hlow, if_neg hhigh]

/-- An escape is told by the characters that belong to it. -/
theorem exists_pieces_of_escape {input : List Char} {plain : Char} {width : Nat}
    (h : escape input = .ok (plain, width)) :
    ∃ used rest pieces, input = used ++ rest ∧ used.length = width ∧
      '\\' :: used = bodyText pieces ∧ ∀ after, escape (used ++ after) = .ok (plain, width) := by
  unfold escape at h
  split at h
  next => cases h
  next rest =>
    split at h
    next => cases h
    next c count hunicode =>
      obtain ⟨used, more, rfl, hlength, ⟨body, rfl⟩, hsame⟩ :=
        exists_covers_of_readUnicode hunicode
      obtain ⟨rfl, rfl⟩ := Prod.mk.inj (Except.ok.inj h)
      refine ⟨'u' :: bodyText body, more, .escaped 'u' :: body, rfl,
        congrArg (· + 1) hlength, rfl, fun after => ?_⟩
      rw [List.cons_append, escape, hsame]
  next c rest hletter =>
    split at h
    next found hsimple =>
      obtain ⟨rfl, rfl⟩ := Prod.mk.inj (Except.ok.inj h)
      refine ⟨[c], rest, [.escaped c], rfl, rfl, rfl, fun after => ?_⟩
      unfold escape
      split
      next heq => cases heq
      next heq => exact absurd (List.cons.inj heq).1 hletter
      next heq =>
        cases heq
        rw [hsimple]
    next => cases h

theorem read_skipped (used rest : List Char) :
    read used.length (used ++ rest) = read 0 rest := by
  induction used with
  | nil => rfl
  | cons c others ih => exact ih

/-- A string is read to the quote that ends it, and the same string is read alike in each text. -/
theorem exists_body_of_read {skip : Nat} {input rest text : List Char}
    (h : read skip input = .ok (text, rest)) :
    ∃ body, input.drop skip = bodyText body ++ '"' :: rest ∧
      ∀ after, read 0 (bodyText body ++ '"' :: after) = .ok (text, after) := by
  induction input generalizing skip text with
  | nil => cases skip <;> cases h
  | cons c others ih =>
    cases skip with
    | succ skip => exact ih h
    | zero =>
      rw [read] at h
      split at h
      next hquote =>
        obtain ⟨rfl, rfl⟩ := Prod.mk.inj (Except.ok.inj h)
        exact ⟨[], congrArg (· :: others) hquote, fun after => rfl⟩
      next hquote =>
        split at h
        next hbackslash =>
          subst hbackslash
          split at h
          next => cases h
          next plain width hescape =>
            split at h
            next => cases h
            next found after hread =>
              obtain ⟨rfl, rfl⟩ := Prod.mk.inj (Except.ok.inj h)
              obtain ⟨used, more, pieces, rfl, rfl, hpieces, hsame⟩ :=
                exists_pieces_of_escape hescape
              obtain ⟨body, hbody, hagain⟩ := ih hread
              rw [List.drop_left] at hbody
              have htext : ∀ after, bodyText (pieces ++ body) ++ '"' :: after =
                  '\\' :: (used ++ (bodyText body ++ '"' :: after)) := by
                intro after
                rw [bodyText, List.flatMap_append, ← bodyText, ← hpieces, ← bodyText,
                  List.cons_append, List.cons_append, List.append_assoc]
              refine ⟨pieces ++ body, ?_, fun last => ?_⟩
              · rw [htext, ← hbody, List.drop_zero]
              · rw [htext, read, if_neg hquote, if_pos rfl, hsame]
                simp only
                rw [read_skipped, hagain]
        next hbackslash =>
          split at h
          next => cases h
          next hcontrol =>
            split at h
            next => cases h
            next found after hread =>
              obtain ⟨rfl, rfl⟩ := Prod.mk.inj (Except.ok.inj h)
              obtain ⟨body, hbody, hagain⟩ := ih hread
              refine ⟨.plain c hquote hbackslash :: body, congrArg (c :: ·) hbody,
                fun last => ?_⟩
              change read 0 (c :: (bodyText body ++ '"' :: last)) = _
              rw [read, if_neg hquote, if_neg hbackslash, if_neg hcontrol, hagain]

end StringReader

end DocPlan.Json
