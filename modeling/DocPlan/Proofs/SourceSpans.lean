import DocPlan.Proofs.CommentStripping

/-!
# The strings and comments of a text

A text, well-formed or not, is a list of spans (`Reads`): characters in code, and strings and
comments, each of which begins where code comes to its start and reaches as far as it takes
(`Takes`). One that is not ended takes all that is left. Every text is read into spans
(`exists_reads`), and into these only (`Reads.unique`).

What the passes over a text do is told by its spans: `removeComments_of_reads` for the first, and
one lemma for each sort of span for the second.
-/

namespace DocPlan.Json.Comments

/-! ## Spans -/

/-- What encloses characters that are not code. -/
inductive Enclosure where
  | string
  | lineComment
  | blockComment
  deriving DecidableEq, Repr

/-- The characters that begin an enclosure. -/
def Enclosure.start : Enclosure → List Char
  | .string => ['"']
  | .lineComment => ['/', '/']
  | .blockComment => ['/', '*']

/-- How far an enclosure reaches after its start: the first part of what follows is in it, and
the rest is not. -/
inductive Takes : Enclosure → List Char → List Char → Prop
  | string (body : List Piece) (rest : List Char) : Takes .string (bodyText body ++ ['"']) rest
  | cutString (body : List Piece) {last : List Char} (hlast : last = [] ∨ last = ['\\']) :
    Takes .string (bodyText body ++ last) []
  | lineComment {body rest : List Char} (hbody : '\n' ∉ body)
    (hrest : ∀ c, rest.head? = some c → c = '\n') : Takes .lineComment body rest
  | blockComment {body : List Char} (hbody : ¬ ['*', '/'] <:+: body) (rest : List Char) :
    Takes .blockComment (body ++ ['*', '/']) rest
  | cutBlockComment {body : List Char} (hbody : ¬ ['*', '/'] <:+: body) :
    Takes .blockComment body []

/-- A part of a text: a character in code, or what an enclosure takes. -/
inductive Span where
  | code (c : Char)
  | enclosed (kind : Enclosure) (taken : List Char)
  deriving DecidableEq, Repr

def Span.text : Span → List Char
  | .code c => [c]
  | .enclosed kind taken => kind.start ++ taken

/-- The spans of a text. No enclosure begins with a character in code. -/
inductive Reads : List Span → List Char → Prop
  | done : Reads [] []
  | code {c : Char} {spans : List Span} {rest : List Char}
    (hcode : ∀ kind : Enclosure, ¬ kind.start <+: c :: rest) (hrest : Reads spans rest) :
    Reads (.code c :: spans) (c :: rest)
  | enclosed {kind : Enclosure} {taken : List Char} {spans : List Span} {rest : List Char}
    (htaken : Takes kind taken rest) (hrest : Reads spans rest) :
    Reads (.enclosed kind taken :: spans) (kind.start ++ (taken ++ rest))

theorem Reads.text {spans : List Span} {text : List Char} (h : Reads spans text) :
    spans.flatMap Span.text = text := by
  induction h with
  | done => rfl
  | code _ _ ih => rw [List.flatMap_cons, ih]; rfl
  | enclosed _ _ ih => rw [List.flatMap_cons, ih, Span.text, List.append_assoc]

/-- A character that begins neither a string nor a comment is in code. -/
theorem Reads.plain {c : Char} {spans : List Span} {rest : List Char} (h : Reads spans rest)
    (hc : c ≠ '"' ∧ c ≠ '/') : Reads (.code c :: spans) (c :: rest) := by
  refine .code (fun kind hstart => ?_) h
  cases kind with
  | string => exact hc.1 (List.cons_prefix_cons.mp hstart).1.symm
  | lineComment => exact hc.2 (List.cons_prefix_cons.mp hstart).1.symm
  | blockComment => exact hc.2 (List.cons_prefix_cons.mp hstart).1.symm

/-! ## Every text has spans -/

theorem exists_takes_string : ∀ text : List Char,
    ∃ taken rest, text = taken ++ rest ∧ Takes .string taken rest
  | [] => ⟨[], [], rfl, .cutString [] (.inl rfl)⟩
  | c :: text => by
    -- What a string takes after a piece, it takes with the piece.
    have hpiece : ∀ (piece : Piece) {after : List Char},
        (∃ taken rest, after = taken ++ rest ∧ Takes .string taken rest) →
          ∃ taken rest, piece.text ++ after = taken ++ rest ∧ Takes .string taken rest := by
      rintro piece _ ⟨taken, rest, rfl, htaken⟩
      refine ⟨piece.text ++ taken, rest, (List.append_assoc _ _ _).symm, ?_⟩
      cases htaken with
      | string body =>
        rw [← List.append_assoc]
        exact .string (piece :: body) rest
      | cutString body hlast =>
        rw [← List.append_assoc]
        exact .cutString (piece :: body) hlast
    by_cases hquote : c = '"'
    · subst hquote
      exact ⟨['"'], text, rfl, .string [] text⟩
    · by_cases hbackslash : c = '\\'
      · subst hbackslash
        cases text with
        | nil => exact ⟨['\\'], [], rfl, .cutString [] (.inr rfl)⟩
        | cons d rest => exact hpiece (.escaped d) (exists_takes_string rest)
      · exact hpiece (.plain c hquote hbackslash) (exists_takes_string text)

theorem exists_takes_lineComment (text : List Char) :
    ∃ taken rest, text = taken ++ rest ∧ Takes .lineComment taken rest := by
  induction text with
  | nil => exact ⟨[], [], rfl, .lineComment List.not_mem_nil nofun⟩
  | cons c text ih =>
    by_cases hc : c = '\n'
    · refine ⟨[], c :: text, rfl, .lineComment List.not_mem_nil fun d hd => ?_⟩
      exact (Option.some.inj hd).symm.trans hc
    · obtain ⟨taken, rest, rfl, htaken⟩ := ih
      cases htaken with
      | lineComment hbody hrest =>
        exact ⟨c :: taken, rest, rfl,
          .lineComment (List.not_mem_cons_of_ne_of_not_mem (Ne.symm hc) hbody) hrest⟩

theorem exists_takes_blockComment (text : List Char) :
    ∃ taken rest, text = taken ++ rest ∧ Takes .blockComment taken rest := by
  induction text with
  | nil => exact ⟨[], [], rfl, .cutBlockComment (by decide)⟩
  | cons c text ih =>
    by_cases hend : ['*', '/'] <+: c :: text
    · obtain ⟨rest, hrest⟩ := hend
      exact ⟨['*', '/'], rest, hrest.symm, .blockComment (by decide : ¬ _ <:+: []) rest⟩
    · obtain ⟨taken, rest, rfl, htaken⟩ := ih
      have hbefore : ∀ {body after : List Char}, taken ++ rest = body ++ after →
          ¬ ['*', '/'] <:+: body → ¬ ['*', '/'] <:+: c :: body := by
        intro body after hsplit hbody hinfix
        rcases List.infix_cons_iff.mp hinfix with hhead | hlater
        · refine hend (hhead.trans ?_)
          rw [hsplit]
          exact List.prefix_append (c :: body) after
        · exact hbody hlater
      refine ⟨c :: taken, rest, rfl, ?_⟩
      cases htaken with
      | blockComment hbody => exact .blockComment (hbefore (List.append_assoc _ _ _) hbody) rest
      | cutBlockComment hbody => exact .cutBlockComment (hbefore rfl hbody)

theorem exists_takes (kind : Enclosure) (text : List Char) :
    ∃ taken rest, text = taken ++ rest ∧ Takes kind taken rest := by
  cases kind with
  | string => exact exists_takes_string text
  | lineComment => exact exists_takes_lineComment text
  | blockComment => exact exists_takes_blockComment text

/-- Every text has spans. -/
theorem exists_reads (text : List Char) : ∃ spans, Reads spans text := by
  -- An enclosure may take all of a text, so the induction is on the length of what is left.
  induction hlength : text.length using Nat.strong_induction_on generalizing text with
  | _ length ih =>
    cases text with
    | nil => exact ⟨[], .done⟩
    | cons c rest =>
      by_cases hcode : ∀ kind : Enclosure, ¬ kind.start <+: c :: rest
      · obtain ⟨spans, hspans⟩ := ih rest.length (by rw [← hlength]; simp) rest rfl
        exact ⟨.code c :: spans, .code hcode hspans⟩
      · simp only [not_forall, not_not] at hcode
        obtain ⟨kind, after, hstart⟩ := hcode
        obtain ⟨taken, left, rfl, htaken⟩ := exists_takes kind after
        have hshorter : left.length < length := by
          have hpos : 0 < kind.start.length := by cases kind <;> decide
          rw [← hlength, ← hstart, List.length_append, List.length_append]
          omega
        obtain ⟨spans, hspans⟩ := ih left.length hshorter left rfl
        exact ⟨.enclosed kind taken :: spans, hstart ▸ .enclosed htaken hspans⟩

/-! ## The spans of a text are unique -/

/-- A string that is cut off has no end. -/
theorem bodyText_ne_cut {body other : List Piece} {rest last : List Char}
    (hlast : last = [] ∨ last = ['\\']) :
    bodyText body ++ '"' :: rest ≠ bodyText other ++ last := by
  intro h
  induction body generalizing other with
  | nil =>
    cases other with
    | nil => rcases hlast with rfl | rfl <;> cases h
    | cons piece pieces =>
      cases piece with
      | plain c quote backslash => exact quote (List.cons.inj h).1.symm
      | escaped c => cases h
  | cons piece pieces ih =>
    cases other with
    | nil =>
      cases piece with
      | plain c quote backslash => rcases hlast with rfl | rfl <;> grind [bodyText, Piece.text]
      | escaped c => rcases hlast with rfl | rfl <;> simp [bodyText, Piece.text] at h
    | cons piece' pieces' =>
      cases piece with
      | plain c quote backslash =>
        cases piece' with
        | plain c' quote' backslash' => exact ih (List.cons.inj h).2
        | escaped c' => exact backslash (List.cons.inj h).1
      | escaped c =>
        cases piece' with
        | plain c' quote' backslash' => exact backslash' (List.cons.inj h).1.symm
        | escaped c' => exact ih (List.cons.inj (List.cons.inj h).2).2

/-- A comment to the end of the line is all before the first line break. -/
theorem takeWhile_lineComment {body rest : List Char} (hbody : '\n' ∉ body)
    (hrest : ∀ c, rest.head? = some c → c = '\n') :
    (body ++ rest).takeWhile (· ≠ '\n') = body := by
  have hall : ∀ c ∈ body, decide (c ≠ '\n') = true := fun c hc =>
    decide_eq_true fun heq => hbody (heq ▸ hc)
  rw [List.takeWhile_append_of_pos hall]
  cases rest with
  | nil => exact List.append_nil _
  | cons c others => rw [hrest c rfl]; exact List.append_nil _

/-- A comment between marks ends at the first mark that ends it. -/
theorem blockComment_unique {body other rest after : List Char} (hbody : ¬ ['*', '/'] <:+: body)
    (hother : ¬ ['*', '/'] <:+: other)
    (h : body ++ '*' :: '/' :: rest = other ++ '*' :: '/' :: after) : body = other := by
  have hempty : ∀ {body rest after : List Char}, ¬ ['*', '/'] <:+: body →
      '*' :: '/' :: rest = body ++ '*' :: '/' :: after → body = [] := by
    intro body rest after hbody h
    rcases body with _ | ⟨c, _ | ⟨d, more⟩⟩
    · rfl
    · cases (List.cons.inj (List.cons.inj h).2).1
    · obtain ⟨rfl, hnext⟩ := List.cons.inj h
      obtain ⟨rfl, -⟩ := List.cons.inj hnext
      exact absurd ⟨[], more, rfl⟩ hbody
  induction body generalizing other with
  | nil => exact (hempty hother h).symm
  | cons c others ih =>
    cases other with
    | nil => exact hempty hbody h.symm
    | cons d more =>
      obtain ⟨rfl, hnext⟩ := List.cons.inj h
      rw [ih (mt List.infix_cons hbody) (mt List.infix_cons hother) hnext]

theorem Takes.unique {kind : Enclosure} {taken rest other after : List Char}
    (h : Takes kind taken rest) (hother : Takes kind other after)
    (hsame : taken ++ rest = other ++ after) : taken = other ∧ rest = after := by
  suffices htaken : taken = other by
    subst htaken
    exact ⟨rfl, List.append_cancel_left hsame⟩
  -- Two that are cut off are all of the text.
  have hcut : ∀ {taken other : List Char}, taken ++ [] = other ++ [] → taken = other := by
    intro taken other h
    rwa [List.append_nil, List.append_nil] at h
  cases h with
  | string body =>
    rw [List.append_assoc] at hsame
    cases hother with
    | string =>
      rw [List.append_assoc] at hsame
      rw [(bodyText_unique hsame).1]
    | cutString _ hlast =>
      rw [List.append_nil] at hsame
      exact absurd hsame (bodyText_ne_cut hlast)
  | cutString body hlast =>
    cases hother with
    | string =>
      rw [List.append_nil, List.append_assoc] at hsame
      exact absurd hsame.symm (bodyText_ne_cut hlast)
    | cutString => exact hcut hsame
  | lineComment hbody hrest =>
    cases hother with
    | lineComment hbody' hrest' =>
      rw [← takeWhile_lineComment hbody hrest, hsame, takeWhile_lineComment hbody' hrest']
  | @blockComment body hbody =>
    rw [List.append_assoc] at hsame
    cases hother with
    | blockComment hbody' =>
      rw [List.append_assoc] at hsame
      rw [blockComment_unique hbody hbody' hsame]
    | cutBlockComment hbody' =>
      exact absurd ⟨body, rest, by simpa using hsame⟩ hbody'
  | cutBlockComment hbody =>
    cases hother with
    | @blockComment body' => exact absurd ⟨body', after, by simpa using hsame.symm⟩ hbody
    | cutBlockComment => exact hcut hsame

theorem Enclosure.start_unique {kind other : Enclosure} {rest after : List Char}
    (h : kind.start ++ rest = other.start ++ after) : kind = other ∧ rest = after := by
  cases kind <;> cases other <;> simp_all [start]

/-- A text has one list of spans only. -/
theorem Reads.unique {spans others : List Span} {text : List Char} (h : Reads spans text)
    (hsame : Reads others text) : spans = others := by
  induction h generalizing others with
  | done =>
    generalize htext : [] = text at hsame
    cases hsame with
    | done => rfl
    | code => cases htext
    | @enclosed kind => cases kind <;> cases htext
  | @code c spans rest hcode _ ih =>
    generalize htext : c :: rest = text at hsame
    cases hsame with
    | done => cases htext
    | code _ hrest =>
      obtain ⟨rfl, rfl⟩ := List.cons.inj htext
      rw [ih hrest]
    | @enclosed kind => exact absurd ⟨_, htext.symm⟩ (hcode kind)
  | @enclosed kind taken spans rest htaken _ ih =>
    generalize htext : kind.start ++ (taken ++ rest) = text at hsame
    cases hsame with
    | done => cases kind <;> cases htext
    | code hcode => exact absurd ⟨_, htext⟩ (hcode kind)
    | enclosed hother hrest =>
      obtain ⟨rfl, hafter⟩ := Enclosure.start_unique htext
      obtain ⟨rfl, rfl⟩ := htaken.unique hother hafter
      rw [ih hrest]

/-- A string that is not cut off takes the same before any text. -/
theorem Takes.of_reads {taken rest text : List Char} {spans : List Span}
    (h : Takes .string taken rest) (hrest : Reads spans rest) (htext : spans = [] → text = []) :
    Takes .string taken text := by
  cases h with
  | string body => exact .string body _
  | cutString body hlast =>
    obtain rfl := htext (hrest.unique .done)
    exact .cutString body hlast

/-! ## What the passes do -/

/-- What the first pass leaves of a span: of a comment, its line breaks. -/
def Span.plain : Span → List Char
  | .code c => [c]
  | .enclosed .string taken => '"' :: taken
  | .enclosed .lineComment _ => []
  | .enclosed .blockComment taken => taken.filter (· = '\n')

/-- A string is copied, cut off or not. -/
theorem Scans.copy_string {special : Char} {scan : Place → List Char → List Char}
    (h : Scans special scan) (hquote : '"' ≠ special) {taken rest : List Char}
    (htaken : Takes .string taken rest) :
    scan .code ('"' :: (taken ++ rest)) = '"' :: (taken ++ scan .code rest) := by
  have hopen : scan .code ('"' :: (taken ++ rest)) = '"' :: scan .string (taken ++ rest) :=
    h.code '"' _ hquote
  rw [hopen]
  cases htaken with
  | string body =>
    rw [List.append_assoc, List.append_assoc]
    exact congrArg ('"' :: ·) (h.copy_body body rest)
  | cutString body hlast =>
    rw [List.append_assoc, h.copy_pieces, List.append_assoc]
    rcases hlast with rfl | rfl
    · rw [List.append_nil, h.nil, h.nil]
      rfl
    · have hplace : afterStringChar '\\' = .escape := by decide
      have hlast : scan .string ['\\'] = ['\\'] := by rw [h.string, hplace, h.nil]
      rw [List.append_nil, hlast, h.nil, List.append_nil]

theorem removeComments_lineComment {taken rest : List Char}
    (h : Takes .lineComment taken rest) :
    removeComments .lineComment (taken ++ rest) = removeComments .code rest := by
  cases h with
  | lineComment hbody hrest =>
    cases rest with
    | nil => rw [List.append_nil, removeComments_lastLine hbody, scans_removeComments.nil]
    | cons c others =>
      obtain rfl := hrest c rfl
      rw [removeComments_line hbody, scans_removeComments.copy_char (by decide) (by decide)]

theorem removeComments_cutBlock {body : List Char} (h : ¬ ['*', '/'] <:+: body) :
    removeComments .blockComment body = body.filter (· = '\n') := by
  induction body with
  | nil => rfl
  | cons c others ih =>
    obtain ⟨hhead, hothers⟩ := not_or.mp (mt List.infix_cons_iff.mpr h)
    rw [removeComments_block_cons hhead, ih hothers, ← List.filter_append, List.singleton_append]

theorem removeComments_blockComment {taken rest : List Char}
    (h : Takes .blockComment taken rest) :
    removeComments .blockComment (taken ++ rest) =
      taken.filter (· = '\n') ++ removeComments .code rest := by
  cases h with
  | blockComment hbody =>
    rw [List.append_assoc, List.filter_append]
    simpa using removeComments_block hbody rest
  | cutBlockComment hbody =>
    rw [List.append_nil, scans_removeComments.nil, List.append_nil]
    exact removeComments_cutBlock hbody

theorem ne_quote_of_code {c : Char} {rest : List Char}
    (h : ∀ kind : Enclosure, ¬ kind.start <+: c :: rest) : c ≠ '"' := by
  rintro rfl
  exact h .string ⟨rest, rfl⟩

/-- A character in code is copied. -/
theorem removeComments_code {c : Char} {rest : List Char}
    (h : ∀ kind : Enclosure, ¬ kind.start <+: c :: rest) :
    removeComments .code (c :: rest) = c :: removeComments .code rest := by
  rw [removeComments, afterCodeChar, if_neg (ne_quote_of_code h)]
  · rintro after rfl rfl
    exact h .lineComment ⟨after, rfl⟩
  · rintro after rfl rfl
    exact h .blockComment ⟨after, rfl⟩

/-- The first pass leaves of each span what is not in a comment, and the line breaks. -/
theorem removeComments_of_reads {spans : List Span} {text : List Char} (h : Reads spans text) :
    removeComments .code text = spans.flatMap Span.plain := by
  induction h with
  | done => rfl
  | code hcode _ ih => rw [removeComments_code hcode, ih, List.flatMap_cons]; rfl
  | @enclosed kind taken spans rest htaken _ ih =>
    rw [List.flatMap_cons, ← ih]
    cases kind with
    | string => exact scans_removeComments.copy_string (by decide) htaken
    | lineComment =>
      have hstart : removeComments .code (Enclosure.lineComment.start ++ (taken ++ rest)) =
          removeComments .lineComment (taken ++ rest) := by
        show removeComments .code ('/' :: '/' :: (taken ++ rest)) = _
        rw [removeComments]
      rw [hstart, removeComments_lineComment htaken]
      rfl
    | blockComment =>
      have hstart : removeComments .code (Enclosure.blockComment.start ++ (taken ++ rest)) =
          removeComments .blockComment (taken ++ rest) := by
        show removeComments .code ('/' :: '*' :: (taken ++ rest)) = _
        rw [removeComments]
      rw [hstart, removeComments_blockComment htaken]
      rfl

/-- Both passes over a text, by its spans. -/
theorem stripChars_of_reads {spans : List Span} {text : List Char} (h : Reads spans text) :
    stripChars text = removeTrailingCommas .code (spans.flatMap Span.plain) := by
  rw [stripChars, removeComments_of_reads h]

/-- In code, the second pass takes a comma away if a closing mark is next. -/
theorem removeTrailingCommas_code {c : Char} (h : c ≠ '"') (rest : List Char) :
    removeTrailingCommas .code (c :: rest) =
      if c = ',' && closesNext rest then removeTrailingCommas .code rest
      else c :: removeTrailingCommas .code rest := by
  rw [removeTrailingCommas, afterCodeChar, if_neg h]
  all_goals
    intro hplace
    cases hplace

/-- The second pass copies the strings that the first has left. -/
theorem removeTrailingCommas_string {taken rest : List Char} {spans : List Span}
    (htaken : Takes .string taken rest) (hrest : Reads spans rest) :
    removeTrailingCommas .code ('"' :: (taken ++ spans.flatMap Span.plain)) =
      '"' :: (taken ++ removeTrailingCommas .code (spans.flatMap Span.plain)) := by
  have hplain : Takes .string taken (spans.flatMap Span.plain) :=
    htaken.of_reads hrest fun hnil => by rw [hnil]; rfl
  exact scans_removeTrailingCommas.copy_string (by decide) hplain

theorem removeTrailingCommas_lineBreaks (taken rest : List Char) :
    removeTrailingCommas .code (taken.filter (· = '\n') ++ rest) =
      taken.filter (· = '\n') ++ removeTrailingCommas .code rest :=
  scans_removeTrailingCommas.copy_space (by decide) (blank_lineBreaks taken) rest

end DocPlan.Json.Comments
