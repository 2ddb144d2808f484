import DocPlan.Proofs.SourceSpans
import DocPlan.Proofs.TextReading
import DocPlan.Proofs.TrailingCommas

/-!
# Which texts stripping forgives

A text should be read as what it says once a space is put for each comment and each comma after
the last item of a list, or the last member of an object, is deleted (`Forgives`). Stripping gives
a value to some more texts, for two reasons: a comment without line breaks leaves nothing, so the
words on its two sides become one (`JoinsWords`), and a comma is taken away before a closing mark
even if no item is before it (`CommaFirst`).

`forgives_iff`: of the texts that are read once they are stripped, these are the only ones that
say nothing by themselves.

The proofs go over the spans of a text, and take the first character off the tokens that it
spells (`Spelled.heads`).
-/

namespace DocPlan.Json

/-! ## The first character of a text -/

/-- A token without a gap before it. -/
theorem Spelled.token {last : List Char → Prop} {tokens : List Token} {rest : List Char}
    (token : Token) (h : Spelled Blank last tokens rest) :
    Spelled Blank last (token :: tokens) (token.text ++ rest) :=
  .next (fun _ hc => nomatch hc : Blank []) h

/-- How a text spells tokens with its first character. -/
inductive Heads (tokens : List Token) (c : Char) (rest : List Char) : Prop
  | space (hc : isSpace c = true) (hrest : Spelled Blank Blank tokens rest)
  | mark (sign : Mark) (others : List Token) (hc : c = sign.char)
    (htokens : tokens = .mark sign :: others) (hrest : Spelled Blank Blank others rest)
  | lastLetter (letters : Word) (others : List Token) (hc : isWordChar c = true)
    (hletters : letters.chars = [c]) (htokens : tokens = .word letters :: others)
    (hrest : Spelled Blank Blank others rest)
  | letter (letters more : Word) (others : List Token) (hc : isWordChar c = true)
    (hletters : letters.chars = c :: more.chars) (htokens : tokens = .word letters :: others)
    (hrest : Spelled Blank Blank (.word more :: others) rest)
    (hnext : ∃ d after, rest = d :: after ∧ isWordChar d = true)
  | quote (body : List Piece) (others : List Token) (after : List Char) (hc : c = '"')
    (htokens : tokens = .string body :: others) (hrest : rest = bodyText body ++ '"' :: after)
    (hafter : Spelled Blank Blank others after)

theorem Spelled.heads {tokens : List Token} {c : Char} {rest : List Char}
    (h : Spelled Blank Blank tokens (c :: rest)) : Heads tokens c rest := by
  generalize htext : c :: rest = text at h
  cases h with
  | done hlast =>
    subst htext
    obtain ⟨hc, hrest⟩ := List.forall_mem_cons.mp hlast
    exact .space hc (.done hrest)
  | @next space text token others hgap hrest =>
    cases space with
    | cons d space =>
      obtain ⟨rfl, rfl⟩ := List.cons.inj htext
      obtain ⟨hc, hspace⟩ := List.forall_mem_cons.mp hgap
      exact .space hc (.next hspace hrest)
    | nil =>
      cases token with
      | mark sign =>
        obtain ⟨rfl, rfl⟩ := List.cons.inj htext
        exact .mark sign others rfl rfl hrest
      | string body =>
        rw [List.nil_append, Token.string_append] at htext
        obtain ⟨rfl, rfl⟩ := List.cons.inj htext
        exact .quote body others text rfl rfl rfl hrest
      | word letters =>
        have hproper := letters.proper
        rcases hchars : letters.chars with _ | ⟨d, chars⟩
        · exact absurd hchars letters.nonempty
        · rw [List.nil_append, Token.text, hchars] at htext
          obtain ⟨rfl, rfl⟩ := List.cons.inj htext
          rw [hchars] at hproper
          obtain ⟨hc, hmore⟩ := List.forall_mem_cons.mp hproper
          cases chars with
          | nil => exact .lastLetter letters others hc hchars rfl hrest
          | cons e more =>
            exact .letter letters ⟨e :: more, List.cons_ne_nil e more, hmore⟩ others hc hchars rfl
              (hrest.token _) ⟨e, more ++ text, rfl, hmore e List.mem_cons_self⟩

section

variable {tokens : List Token} {c : Char} {rest space : List Char}

/-- Space before a text is in none of its tokens. -/
theorem Spelled.of_cons_space (hc : isSpace c = true)
    (h : Spelled Blank Blank tokens (c :: rest)) : Spelled Blank Blank tokens rest := by
  cases h.heads with
  | space _ hrest => exact hrest
  | mark sign _ hsign =>
    subst hsign
    cases sign <;> cases hc
  | lastLetter _ _ hword => rw [isSpace_of_isWordChar hword] at hc; cases hc
  | letter _ _ _ hword => rw [isSpace_of_isWordChar hword] at hc; cases hc
  | quote _ _ _ hquote => subst hquote; cases hc

theorem Spelled.of_space (hspace : Blank space)
    (h : Spelled Blank Blank tokens (space ++ rest)) : Spelled Blank Blank tokens rest := by
  induction space with
  | nil => exact h
  | cons c others ih =>
    obtain ⟨hc, hothers⟩ := List.forall_mem_cons.mp hspace
    exact ih hothers (h.of_cons_space hc)

theorem Spelled.ne_nil {gap last : List Char → Prop} {token : Token}
    (h : Spelled gap last (token :: tokens) rest) : rest ≠ [] := by
  cases h with
  | next =>
    obtain ⟨c, more, htext, -⟩ := token.exists_text
    simp [htext]

/-- One more letter before a word. -/
theorem Spelled.letter {letters more : Word} {others : List Token}
    (hletters : letters.chars = c :: more.chars)
    (hrest : ∀ d, rest.head? = some d → isSpace d = false)
    (h : Spelled Blank Blank (.word more :: others) rest) :
    Spelled Blank Blank (.word letters :: others) (c :: rest) := by
  cases h with
  | @next space text _ _ hgap hother =>
    cases space with
    | nil =>
      have hword := hother.token (.word letters)
      rwa [Token.text, hletters] at hword
    | cons d space =>
      have hd : isSpace d = true := hgap d List.mem_cons_self
      rw [hrest d rfl] at hd
      cases hd

end

namespace Comments

/-! ## Spaces for comments -/

/-- What becomes of a span when a space is put for each comment. -/
def Span.spaced : Span → List Char
  | .code c => [c]
  | .enclosed .string taken => '"' :: taken
  | .enclosed _ _ => [' ']

/-- A text says a value, if a space is put for each of its comments, and each comma after the
last item of a list or the last member of an object is deleted. -/
def Forgives (spans : List Span) (value : Json) : Prop :=
  ∃ (tree : Tree) (text : String),
    Deletes (tree.tokens true) (tree.tokens false) (spans.flatMap Span.spaced) text.toList ∧
      read text = .ok value

/-- Two words have only comments without line breaks between them. -/
def JoinsWords (spans : List Span) : Prop :=
  ∃ before c comments d after, spans = before ++ .code c :: (comments ++ .code d :: after) ∧
    isWordChar c = true ∧ isWordChar d = true ∧ comments ≠ [] ∧ comments.flatMap Span.plain = []

/-- A mark that opens a container has only space and comments between it and a comma. -/
def CommaFirst (spans : List Span) : Prop :=
  ∃ before sign gap after,
    spans = before ++ .code (Mark.char sign) :: (gap ++ .code ',' :: after) ∧
      (Token.mark sign).opens = true ∧ Blank (gap.flatMap Span.spaced)

theorem JoinsWords.cons {spans : List Span} (h : JoinsWords spans) (span : Span) :
    JoinsWords (span :: spans) := by
  obtain ⟨before, c, comments, d, after, rfl, hwords⟩ := h
  exact ⟨span :: before, c, comments, d, after, rfl, hwords⟩

theorem CommaFirst.cons {spans : List Span} (h : CommaFirst spans) (span : Span) :
    CommaFirst (span :: spans) := by
  obtain ⟨before, sign, gap, after, rfl, hgap⟩ := h
  exact ⟨span :: before, sign, gap, after, rfl, hgap⟩

/-- Looking for a closing mark finds the same past spaces and past what is left of comments. -/
theorem closesNext_spaced (spans : List Span) :
    closesNext (spans.flatMap Span.spaced) = closesNext (spans.flatMap Span.plain) := by
  induction spans with
  | nil => rfl
  | cons span rest ih =>
    rw [List.flatMap_cons, List.flatMap_cons]
    cases span with
    | code c =>
      show closesNext (c :: rest.flatMap Span.spaced) = closesNext (c :: rest.flatMap Span.plain)
      rw [closesNext, closesNext, ih]
    | enclosed kind taken =>
      have hspace : Blank [' '] := List.forall_mem_singleton.mpr rfl
      cases kind with
      | string => rfl
      | lineComment => exact (closesNext_space hspace _).trans ih
      | blockComment =>
        exact (closesNext_space hspace _).trans
          (ih.trans (closesNext_space (blank_lineBreaks taken) _).symm)

/-- Where a closing mark is next, no word is. -/
theorem isWordChar_of_closesNext {text rest : List Char} {c : Char}
    (hcloses : closesNext text = true) (htext : removeTrailingCommas .code text = c :: rest) :
    isWordChar c = false := by
  cases text with
  | nil => cases hcloses
  | cons d others =>
    have hcopy : d ≠ ',' → d ≠ '"' → d = c := by
      intro hcomma hquote
      rw [scans_removeTrailingCommas.copy_char hcomma hquote] at htext
      exact (List.cons.inj htext).1
    rw [closesNext] at hcloses
    split at hcloses
    next hblank =>
      obtain rfl : d = c := by
        apply hcopy <;> (rintro rfl; exact absurd hblank (by decide))
      apply Bool.eq_false_iff.mpr
      intro hword
      exact Bool.false_ne_true ((isBlankChar_of_isWordChar hword).symm.trans hblank)
    next =>
      rcases Bool.or_eq_true_iff.mp hcloses with hbrace | hbracket
      · obtain rfl := of_decide_eq_true hbrace
        rw [← hcopy (by decide) (by decide)]
        decide
      · obtain rfl := of_decide_eq_true hbracket
        rw [← hcopy (by decide) (by decide)]
        decide

/-- If a word comes first once the comments are removed, it does but for some comments. -/
theorem exists_comments {spans : List Span} {d : Char} {rest : List Char}
    (hd : isWordChar d = true)
    (h : removeTrailingCommas .code (spans.flatMap Span.plain) = d :: rest) :
    ∃ comments after, spans = comments ++ .code d :: after ∧ comments.flatMap Span.plain = [] := by
  induction spans with
  | nil => cases h
  | cons span spans ih =>
    have hpast : span.plain = [] → ∃ comments after, span :: spans = comments ++ .code d :: after ∧
        comments.flatMap Span.plain = [] := by
      intro hplain
      rw [List.flatMap_cons, hplain] at h
      obtain ⟨comments, after, rfl, hcomments⟩ := ih h
      exact ⟨span :: comments, after, rfl, by rw [List.flatMap_cons, hplain, hcomments]; rfl⟩
    rw [List.flatMap_cons] at h
    cases span with
    | code c =>
      rw [Span.plain, List.singleton_append, removeTrailingCommas] at h
      · split at h
        next hdrop =>
          have hword := isWordChar_of_closesNext (Bool.and_eq_true_iff.mp hdrop).2 h
          rw [hd] at hword
          cases hword
        next =>
          obtain ⟨rfl, -⟩ := List.cons.inj h
          exact ⟨[], spans, rfl, rfl⟩
      all_goals
        intro hplace
        cases hplace
    | enclosed kind taken =>
      cases kind with
      | string =>
        obtain rfl : '"' = d := by
          rw [Span.plain, List.cons_append,
            scans_removeTrailingCommas.code '"' _ (by decide)] at h
          exact (List.cons.inj h).1
        cases hd
      | lineComment => exact hpast rfl
      | blockComment =>
        by_cases hbreaks : (Span.enclosed .blockComment taken).plain = []
        · exact hpast hbreaks
        · obtain ⟨c, more, hmore⟩ := List.exists_cons_of_ne_nil hbreaks
          rw [Span.plain] at h hmore
          rw [removeTrailingCommas_lineBreaks, hmore] at h
          obtain ⟨rfl, -⟩ := List.cons.inj h
          have hc := isWordChar_of_isSpace (blank_lineBreaks taken c (hmore ▸ List.mem_cons_self))
          rw [hd] at hc
          cases hc

/-- If a comma comes first, it does but for some space and comments. -/
theorem exists_gap {spans : List Span} {others : List Token}
    (h : Spelled Blank Blank (.mark .comma :: others) (spans.flatMap Span.spaced)) :
    ∃ gap after, spans = gap ++ .code ',' :: after ∧ Blank (gap.flatMap Span.spaced) := by
  induction spans with
  | nil => exact absurd rfl h.ne_nil
  | cons span spans ih =>
    have hpast : ∀ {c : Char}, span.spaced = [c] → isSpace c = true →
        ∃ gap after, span :: spans = gap ++ .code ',' :: after ∧
          Blank (gap.flatMap Span.spaced) := by
      intro c hspan hc
      rw [List.flatMap_cons, hspan] at h
      obtain ⟨gap, after, rfl, hgap⟩ := ih (h.of_cons_space hc)
      refine ⟨span :: gap, after, rfl, ?_⟩
      rw [List.flatMap_cons, hspan]
      exact List.forall_mem_cons.mpr ⟨hc, hgap⟩
    cases span with
    | code c =>
      cases h.heads with
      | space hc => exact hpast rfl hc
      | mark sign _ hc htokens =>
        obtain ⟨⟨rfl⟩, rfl⟩ := List.cons.inj htokens
        subst hc
        exact ⟨[], spans, rfl, fun _ h => nomatch h⟩
      | lastLetter _ _ _ _ htokens => cases htokens
      | letter _ _ _ _ _ htokens => cases htokens
      | quote _ _ _ _ htokens => cases htokens
    | enclosed kind taken =>
      cases kind with
      | string =>
        cases h.heads with
        | space hc => cases hc
        | mark sign _ hc htokens =>
          obtain ⟨⟨rfl⟩, rfl⟩ := List.cons.inj htokens
          cases hc
        | lastLetter _ _ _ _ htokens => cases htokens
        | letter _ _ _ _ _ htokens => cases htokens
        | quote _ _ _ _ htokens => cases htokens
      | lineComment => exact hpast rfl rfl
      | blockComment => exact hpast rfl rfl

theorem exists_body_of_spelled {tokens : List Token} {taken text : List Char}
    (htaken : Takes .string taken text)
    (h : Spelled Blank Blank tokens ('"' :: (taken ++ text))) :
    ∃ body others, tokens = .string body :: others ∧ taken = bodyText body ++ ['"'] ∧
      Spelled Blank Blank others text := by
  cases h.heads with
  | space hc => cases hc
  | mark sign _ hc => cases sign <;> cases hc
  | lastLetter _ _ hc => cases hc
  | letter _ _ _ hc => cases hc
  | quote body others after _ htokens hrest hafter =>
    cases htaken with
    | string body' =>
      rw [List.append_assoc] at hrest
      obtain ⟨rfl, rfl⟩ := bodyText_unique hrest
      exact ⟨body', others, htokens, rfl, hafter⟩
    | cutString body' hlast =>
      rw [List.append_nil] at hrest
      exact absurd hrest.symm (bodyText_ne_cut hlast)

/-! ## From the stripped text to the spaces -/

/-- With a space for each comment, a text spells tokens of which those that are given are left. -/
def Respells (spans : List Span) (tokens : List Token) : Prop :=
  ∃ written, Spelled Blank Blank written (spans.flatMap Span.spaced) ∧
    dropCommas written = tokens ∧ Ordered written

section

variable {spans : List Span} {tokens others : List Token} {c : Char}

theorem Respells.space {span : Span} (hspan : Blank span.spaced) (h : Respells spans tokens) :
    Respells (span :: spans) tokens := by
  obtain ⟨written, hwritten, hrest⟩ := h
  exact ⟨written, spelled_append hspan hwritten, hrest⟩

/-- Whether a closing mark is next is the same before and after. -/
theorem closesFirst_of_spelled {written : List Token}
    (h : Spelled Blank Blank written (spans.flatMap Span.spaced)) :
    closesFirst written = closesNext (spans.flatMap Span.plain) := by
  rw [← closesNext_of_spelled h, closesNext_spaced]

theorem Respells.comma (hcloses : closesNext (spans.flatMap Span.plain) = true)
    (h : Respells spans tokens) : Respells (.code ',' :: spans) tokens := by
  obtain ⟨written, hwritten, hdrop, hordered⟩ := h
  refine ⟨.mark .comma :: written, ?_, ?_, ordered_cons rfl hordered⟩
  · exact hwritten.token (.mark .comma)
  · have hfirst := closesFirst_of_spelled hwritten
    rw [dropCommas, hfirst, hcloses]
    exact hdrop

theorem Respells.mark {sign : Mark} (hfirst : ¬ CommaFirst (.code sign.char :: spans))
    (hkept : (sign.char = ',' && closesNext (spans.flatMap Span.plain)) ≠ true)
    (h : Respells spans others) :
    Respells (.code sign.char :: spans) (.mark sign :: others) := by
  obtain ⟨written, hwritten, rfl, hordered⟩ := h
  refine ⟨.mark sign :: written, ?_, ?_, ?_⟩
  · exact hwritten.token (.mark sign)
  · have hstays : (isComma (.mark sign) && closesFirst written) ≠ true := by
      rw [closesFirst_of_spelled hwritten]
      intro hdrop
      obtain ⟨hcomma, hcloses⟩ := Bool.and_eq_true_iff.mp hdrop
      cases eq_comma_of_isComma hcomma
      exact hkept hcloses
    rw [dropCommas, if_neg hstays]
  · refine List.isChain_cons.mpr ⟨fun next hnext hboth => ?_, hordered⟩
    obtain ⟨rest, rfl⟩ := List.head?_eq_some_iff.mp hnext
    obtain rfl := eq_comma_of_isComma hboth.2
    obtain ⟨gap, after, rfl, hgap⟩ := exists_gap hwritten
    exact hfirst ⟨[], sign, gap, after, rfl, hboth.1, hgap⟩

theorem Respells.lastLetter {letters : Word} (hletters : letters.chars = [c])
    (h : Respells spans others) : Respells (.code c :: spans) (.word letters :: others) := by
  obtain ⟨written, hwritten, rfl, hordered⟩ := h
  refine ⟨.word letters :: written, ?_, dropCommas_cons rfl, ordered_cons rfl hordered⟩
  have hspelled := hwritten.token (.word letters)
  rwa [Token.text, hletters] at hspelled

theorem Respells.letter {letters more : Word} (hletters : letters.chars = c :: more.chars)
    (hnext : ∀ d, (spans.flatMap Span.spaced).head? = some d → isSpace d = false)
    (h : Respells spans (.word more :: others)) :
    Respells (.code c :: spans) (.word letters :: others) := by
  obtain ⟨written, hwritten, hdrop, hordered⟩ := h
  obtain ⟨rest, rfl, rfl⟩ := exists_of_dropCommas_open rfl hdrop
  exact ⟨.word letters :: rest, hwritten.letter hletters hnext, dropCommas_cons rfl,
    ordered_cons rfl hordered.tail⟩

theorem Respells.string {body : List Piece} (h : Respells spans others) :
    Respells (.enclosed .string (bodyText body ++ ['"']) :: spans) (.string body :: others) := by
  obtain ⟨written, hwritten, rfl, hordered⟩ := h
  refine ⟨.string body :: written, ?_, dropCommas_cons rfl, ordered_cons rfl hordered⟩
  exact hwritten.token (.string body)

/-- Where no words are joined, a word goes on with the next character. -/
theorem isSpace_head_spaced (hjoins : ¬ JoinsWords (.code c :: spans)) (hc : isWordChar c = true)
    (hnext : ∃ d after, removeTrailingCommas .code (spans.flatMap Span.plain) = d :: after ∧
      isWordChar d = true) :
    ∀ d, (spans.flatMap Span.spaced).head? = some d → isSpace d = false := by
  obtain ⟨d, rest, hrest, hd⟩ := hnext
  obtain ⟨comments, after, rfl, hcomments⟩ := exists_comments hd hrest
  by_cases hnone : comments = []
  · subst hnone
    intro e he
    obtain rfl := Option.some.inj he
    exact isSpace_of_isWordChar hd
  · exact absurd ⟨[], c, comments, d, after, rfl, hc, hd, hnone, hcomments⟩ hjoins

end

/-- What the stripped text spells is what is left of the tokens that the text spells itself. -/
theorem respells_of_spelled {spans : List Span} {text : List Char} (h : Reads spans text)
    (hjoins : ¬ JoinsWords spans) (hfirst : ¬ CommaFirst spans) {tokens : List Token}
    (hspelled : Spelled Blank Blank tokens
      (removeTrailingCommas .code (spans.flatMap Span.plain))) :
    Respells spans tokens := by
  -- One span at a time; within a word, the tokens are those that the rest of the word gives.
  induction h generalizing tokens with
  | done =>
    cases tokens with
    | nil => exact ⟨[], hspelled, rfl, List.IsChain.nil⟩
    | cons => exact absurd rfl hspelled.ne_nil
  | @code c spans rest hcode _ ih =>
    have hrest := @ih (fun h => hjoins (h.cons _)) (fun h => hfirst (h.cons _))
    rw [List.flatMap_cons, Span.plain, List.singleton_append,
      removeTrailingCommas_code (ne_quote_of_code hcode)] at hspelled
    split at hspelled
    next hdrop =>
      obtain ⟨hcomma, hcloses⟩ := Bool.and_eq_true_iff.mp hdrop
      obtain rfl := of_decide_eq_true hcomma
      exact (hrest hspelled).comma hcloses
    next hkept =>
      cases hspelled.heads with
      | space hc hothers => exact (hrest hothers).space (List.forall_mem_singleton.mpr hc)
      | mark sign others hc htokens hothers =>
        subst hc htokens
        exact (hrest hothers).mark hfirst hkept
      | lastLetter letters others _ hletters htokens hothers =>
        subst htokens
        exact (hrest hothers).lastLetter hletters
      | letter letters more others hc hletters htokens hothers hnext =>
        subst htokens
        exact (hrest hothers).letter hletters (isSpace_head_spaced hjoins hc hnext)
      | quote _ _ _ hc => exact absurd hc (ne_quote_of_code hcode)
  | @enclosed kind taken spans rest htaken hrest ih =>
    have hspans := @ih (fun h => hjoins (h.cons _)) (fun h => hfirst (h.cons _))
    have hspace : Blank [' '] := List.forall_mem_singleton.mpr rfl
    cases kind with
    | string =>
      rw [List.flatMap_cons, Span.plain, List.cons_append,
        removeTrailingCommas_string htaken hrest] at hspelled
      obtain ⟨body, others, rfl, rfl, hothers⟩ :=
        exists_body_of_spelled (htaken.of_reads hrest fun hnil => by rw [hnil]; rfl) hspelled
      exact (hspans hothers).string
    | lineComment => exact (hspans hspelled).space hspace
    | blockComment =>
      rw [List.flatMap_cons, Span.plain, removeTrailingCommas_lineBreaks] at hspelled
      exact (hspans (hspelled.of_space (blank_lineBreaks taken))).space hspace

/-! ## What the spaces keep apart -/

/-- What holds of tokens holds of them further on in a text. -/
structure Hereditary (holds : List Token → Prop) : Prop where
  tail : ∀ token tokens, holds (token :: tokens) → holds tokens
  word : ∀ (letters more : Word) tokens, holds (.word letters :: tokens) →
    holds (.word more :: tokens)

theorem hereditary_separated : Hereditary Separated where
  tail := fun _ _ h => h.tail
  word := fun _ _ _ h => (h.follows rfl).cons _

theorem hereditary_ordered : Hereditary Ordered where
  tail := fun _ _ h => h.tail
  word := fun _ _ _ h => ordered_cons rfl h.tail

theorem Hereditary.further {holds : List Token → Prop} (hholds : Hereditary holds)
    {before after : List Span} {text : List Char} (h : Reads (before ++ after) text)
    {tokens : List Token} (htokens : holds tokens)
    (hspelled : Spelled Blank Blank tokens ((before ++ after).flatMap Span.spaced)) :
    ∃ others, holds others ∧ Spelled Blank Blank others (after.flatMap Span.spaced) := by
  induction before generalizing tokens text with
  | nil => exact ⟨tokens, htokens, hspelled⟩
  | cons span before ih =>
    rw [List.cons_append, List.flatMap_cons] at hspelled
    cases h with
    | code hcode hrest =>
      cases hspelled.heads with
      | space _ hspelled => exact ih hrest htokens hspelled
      | mark sign others _ hsplit hspelled =>
        exact ih hrest (hholds.tail _ _ (hsplit ▸ htokens)) hspelled
      | lastLetter letters others _ _ hsplit hspelled =>
        exact ih hrest (hholds.tail _ _ (hsplit ▸ htokens)) hspelled
      | letter letters more others _ _ hsplit hspelled =>
        exact ih hrest (hholds.word _ _ _ (hsplit ▸ htokens)) hspelled
      | quote _ _ _ hc => exact absurd hc (ne_quote_of_code hcode)
    | @enclosed kind taken _ _ htaken hrest =>
      cases kind with
      | string =>
        have hstring := htaken.of_reads hrest (congrArg (List.flatMap Span.spaced))
        obtain ⟨body, others, rfl, -, hothers⟩ := exists_body_of_spelled hstring hspelled
        exact ih hrest (hholds.tail _ _ htokens) hothers
      | lineComment => exact ih hrest htokens (hspelled.of_cons_space rfl)
      | blockComment => exact ih hrest htokens (hspelled.of_cons_space rfl)

theorem exists_word_of_spelled {tokens : List Token} {c : Char} {rest : List Char}
    (hc : isWordChar c = true) (h : Spelled Blank Blank tokens (c :: rest)) :
    ∃ letters others, tokens = .word letters :: others ∧
      (Spelled Blank Blank others rest ∨ ∃ d after, rest = d :: after ∧ isWordChar d = true) := by
  cases h.heads with
  | space hspace =>
    rw [isSpace_of_isWordChar hc] at hspace
    cases hspace
  | mark sign _ hsign =>
    rw [hsign, sign.isWordChar_char] at hc
    cases hc
  | lastLetter letters others _ _ htokens hothers =>
    exact ⟨letters, others, htokens, .inl hothers⟩
  | letter letters _ others _ _ htokens _ hnext => exact ⟨letters, others, htokens, .inr hnext⟩
  | quote _ _ _ hquote =>
    subst hquote
    cases hc

theorem exists_of_spelled_mark (sign : Mark) {tokens : List Token} {rest : List Char}
    (h : Spelled Blank Blank tokens (sign.char :: rest)) :
    ∃ others, tokens = .mark sign :: others ∧ Spelled Blank Blank others rest := by
  cases h.heads with
  | space hspace => cases sign <;> cases hspace
  | mark other others hsign htokens hothers =>
    obtain rfl := Mark.char_injective hsign
    exact ⟨others, htokens, hothers⟩
  | lastLetter _ _ hword => rw [sign.isWordChar_char] at hword; cases hword
  | letter _ _ _ hword => rw [sign.isWordChar_char] at hword; cases hword
  | quote _ _ _ hquote => cases sign <;> cases hquote

/-- Comments of which nothing is left become spaces. -/
theorem blank_spaced {comments : List Span} (h : comments.flatMap Span.plain = []) :
    Blank (comments.flatMap Span.spaced) := by
  intro c hc
  obtain ⟨span, hspan, hc⟩ := List.mem_flatMap.mp hc
  have hplain := List.flatMap_eq_nil_iff.mp h span hspan
  cases span with
  | code d => cases hplain
  | enclosed kind taken =>
    cases kind with
    | string => cases hplain
    | lineComment => rw [List.mem_singleton.mp hc]; rfl
    | blockComment => rw [List.mem_singleton.mp hc]; rfl

/-- Words with a space between them are two. -/
theorem not_joinsWords_of_spelled {spans : List Span} {text : List Char} (h : Reads spans text)
    {tokens : List Token} (hspelled : Spelled Blank Blank tokens (spans.flatMap Span.spaced))
    (hseparated : Separated tokens) : ¬ JoinsWords spans := by
  rintro ⟨before, c, comments, d, after, rfl, hc, hd, hnone, hcomments⟩
  obtain ⟨others, hothers, hword⟩ := hereditary_separated.further h hseparated hspelled
  have hspaces := blank_spaced hcomments
  rw [List.flatMap_cons, List.flatMap_append] at hword
  obtain ⟨letters, others, rfl, hnext | ⟨e, rest, hrest, he⟩⟩ := exists_word_of_spelled hc hword
  · obtain ⟨more, others, rfl, -⟩ := exists_word_of_spelled hd (hnext.of_space hspaces)
    exact (List.isChain_cons_cons.mp hothers).1 ⟨rfl, rfl⟩
  · -- The word does not go on, as there is a space for the first comment.
    have hsome : comments.flatMap Span.spaced ≠ [] := by
      intro hnil
      obtain ⟨span, others, rfl⟩ := List.exists_cons_of_ne_nil hnone
      have hspan := List.flatMap_eq_nil_iff.mp hnil span List.mem_cons_self
      cases span with
      | code => cases hspan
      | enclosed kind => cases kind <;> cases hspan
    obtain ⟨space, spaces, hspace⟩ := List.exists_cons_of_ne_nil hsome
    rw [hspace] at hrest hspaces
    obtain ⟨rfl, -⟩ := List.cons.inj hrest
    have hblank := hspaces space List.mem_cons_self
    rw [isSpace_of_isWordChar he] at hblank
    cases hblank

/-- In the tokens of a text, a comma stands where it does in the text. -/
theorem not_commaFirst_of_spelled {spans : List Span} {text : List Char} (h : Reads spans text)
    {tokens : List Token} (hspelled : Spelled Blank Blank tokens (spans.flatMap Span.spaced))
    (hordered : Ordered tokens) : ¬ CommaFirst spans := by
  rintro ⟨before, sign, gap, after, rfl, hopens, hgap⟩
  obtain ⟨others, hothers, hmark⟩ := hereditary_ordered.further h hordered hspelled
  rw [List.flatMap_cons, List.flatMap_append] at hmark
  obtain ⟨others, rfl, hrest⟩ := exists_of_spelled_mark sign hmark
  obtain ⟨others, rfl, -⟩ := exists_of_spelled_mark .comma (hrest.of_space hgap)
  exact (List.isChain_cons_cons.mp hothers).1 ⟨hopens, rfl⟩

/-! ## The texts that are forgiven -/

section

variable {spans : List Span} {text : List Char} {value : Json}

theorem Forgives.not_joinsWords (h : Forgives spans value) (hspans : Reads spans text) :
    ¬ JoinsWords spans := by
  obtain ⟨tree, _, hdeletes, -⟩ := h
  exact not_joinsWords_of_spelled hspans hdeletes.spelled (separated_tokens tree)

theorem Forgives.not_commaFirst (h : Forgives spans value) (hspans : Reads spans text) :
    ¬ CommaFirst spans := by
  obtain ⟨tree, _, hdeletes, -⟩ := h
  exact not_commaFirst_of_spelled hspans hdeletes.spelled (ordered_tokens tree)

end

/-- A text that is read once it is stripped says the same by itself, unless two words of it are
joined or a comma is taken away that has no item before it. -/
theorem forgives_iff {spans : List Span} {text : String} {value : Json}
    (hspans : Reads spans text.toList) (hread : read (strip text) = .ok value) :
    Forgives spans value ↔ ¬ JoinsWords spans ∧ ¬ CommaFirst spans := by
  constructor
  · intro h
    exact ⟨h.not_joinsWords hspans, h.not_commaFirst hspans⟩
  · rintro ⟨hjoins, hfirst⟩
    obtain ⟨document, hdocument, -⟩ := read_eq_ok_iff.mp hread
    obtain ⟨tree, htree, -⟩ := exists_tree_of_readText hdocument
    have hstripped := htree
    rw [Strict, strip, String.toList_ofList, stripChars_of_reads hspans] at hstripped
    obtain ⟨written, hwritten, hdrop, hordered⟩ :=
      respells_of_spelled hspans hjoins hfirst hstripped
    obtain ⟨marked, rfl, hmarked⟩ := exists_marked_tree hordered hdrop
    obtain ⟨rest, hrest⟩ := exists_deletes hwritten
    rw [dropCommas_tokens] at hrest
    refine ⟨marked, String.ofList rest, by rwa [String.toList_ofList], ?_⟩
    refine read_of_strict htree ?_ hread
    rw [Strict, String.toList_ofList, ← hmarked]
    exact hrest.spelled_rest

/-- The spans of `[1,/**/]`. -/
def trailingComma : List Span :=
  [.code '[', .code '1', .code ',', .enclosed .blockComment ['*', '/'], .code ']']

theorem reads_trailingComma : Reads trailingComma "[1,/**/]".toList := by
  have hcomment : Takes .blockComment ['*', '/'] [']'] :=
    .blockComment (by decide : ¬ ['*', '/'] <:+: []) [']']
  have hend : Reads [.code ']'] [']'] := Reads.done.plain (by decide)
  have hrest : Reads _ "/**/]".toList := .enclosed hcomment hend
  exact ((hrest.plain (by decide)).plain (by decide)).plain (by decide)

theorem not_joinsWords_trailingComma : ¬ JoinsWords trailingComma := by
  rintro ⟨before, c, comments, d, after, hspans, hc, hd, -⟩
  -- There is but one character of a word.
  have hone : trailingComma.countP (·.text.any isWordChar) = 1 := by decide
  rw [hspans] at hone
  simp [Span.text, hc, hd] at hone
  omega

theorem not_commaFirst_trailingComma : ¬ CommaFirst trailingComma := by
  rintro ⟨before, sign, gap, after, hspans, hopens, hgap⟩
  cases before with
  | cons span before =>
    have hmem : Span.code sign.char ∈ trailingComma.tail := by
      rw [hspans]
      exact List.mem_append_right _ List.mem_cons_self
    cases sign <;> first | exact absurd hmem (by decide) | cases hopens
  | nil =>
    have hrest := (List.cons.inj hspans).2
    cases gap with
    | nil => cases (List.cons.inj hrest).1
    | cons span gap =>
      obtain rfl := (List.cons.inj hrest).1
      exact absurd (hgap '1' List.mem_cons_self) (by decide)

/-- A comma after the last item is forgiven. -/
theorem forgives_iff_of_trailingComma :
    read (strip "[1,/**/]") = .ok (.array [.number (.integer 1)]) ∧
      Forgives trailingComma (.array [.number (.integer 1)]) := by
  have hread : read (strip "[1,/**/]") = .ok (.array [.number (.integer 1)]) :=
    read_eq_ok_iff.mpr ⟨.array [.number (.integer 1)], rfl, rfl⟩
  exact ⟨hread, (forgives_iff reads_trailingComma hread).mpr
    ⟨not_joinsWords_trailingComma, not_commaFirst_trailingComma⟩⟩

/-- The spans of `[1/**/2]`. -/
def gluedNumber : List Span :=
  [.code '[', .code '1', .enclosed .blockComment ['*', '/'], .code '2', .code ']']

/-- The spans of `[,]`. -/
def loneComma : List Span := [.code '[', .code ',', .code ']']

theorem reads_gluedNumber : Reads gluedNumber "[1/**/2]".toList := by
  have hcomment : Takes .blockComment ['*', '/'] ['2', ']'] :=
    .blockComment (by decide : ¬ ['*', '/'] <:+: []) ['2', ']']
  have hend : Reads [.code '2', .code ']'] ['2', ']'] :=
    (Reads.done.plain (by decide)).plain (by decide)
  have hrest : Reads _ "/**/2]".toList := .enclosed hcomment hend
  exact (hrest.plain (by decide)).plain (by decide)

theorem reads_loneComma : Reads loneComma "[,]".toList :=
  ((Reads.done.plain (by decide)).plain (by decide)).plain (by decide)

theorem read_gluedNumber : read (strip "[1/**/2]") = .ok (.array [.number (.integer 12)]) :=
  read_eq_ok_iff.mpr ⟨.array [.number (.integer 12)], rfl, rfl⟩

theorem read_loneComma : read (strip "[,]") = .ok (.array []) :=
  read_eq_ok_iff.mpr ⟨.array [], rfl, rfl⟩

/-- Not all texts that are read once they are stripped say something by themselves: a comment may
have been all between two numbers, and a comma all that a list had. -/
theorem not_all_forgiven :
    (Reads gluedNumber "[1/**/2]".toList ∧
      read (strip "[1/**/2]") = .ok (.array [.number (.integer 12)]) ∧
      ¬ Forgives gluedNumber (.array [.number (.integer 12)])) ∧
    Reads loneComma "[,]".toList ∧ read (strip "[,]") = .ok (.array []) ∧
      ¬ Forgives loneComma (.array []) := by
  have hjoins : JoinsWords gluedNumber :=
    ⟨[.code '['], '1', [.enclosed .blockComment ['*', '/']], '2', [.code ']'], rfl, rfl, rfl,
      nofun, rfl⟩
  have hfirst : CommaFirst loneComma :=
    ⟨[], .openList, [], [.code ']'], rfl, rfl, fun _ h => nomatch h⟩
  exact ⟨⟨reads_gluedNumber, read_gluedNumber,
      fun h => h.not_joinsWords reads_gluedNumber hjoins⟩,
    reads_loneComma, read_loneComma, fun h => h.not_commaFirst reads_loneComma hfirst⟩

end Comments

end DocPlan.Json
