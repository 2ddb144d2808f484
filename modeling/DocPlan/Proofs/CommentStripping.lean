import DocPlan.Json.Comments
import DocPlan.Proofs.JsonGrammar

/-!
# Stripping comments and trailing commas

Both passes copy a token as it is written and stand in code again after it (`Scans.copy_text`),
whatever a string holds. So what they do to a text is told by its tokens and gaps: the first
leaves of every gap its line breaks, and the second takes away the commas before a closing mark
(`dropCommas`), which are the trailing commas of a tree (`dropCommas_tokens`).

Main results: `Comments.stripChars_of_strict`, a JSON text is left as it is, and
`Comments.strict_stripChars`, a commented text becomes a JSON text of the same tree.
-/

namespace DocPlan.Json.Comments

/-! ## Copying -/

/-- A pass over a text copies all but one character in code, and everything in strings. -/
structure Scans (special : Char) (scan : Place → List Char → List Char) : Prop where
  nil : ∀ place, scan place [] = []
  code : ∀ c rest, c ≠ special → scan .code (c :: rest) = c :: scan (afterCodeChar c) rest
  string : ∀ c rest, scan .string (c :: rest) = c :: scan (afterStringChar c) rest
  escape : ∀ c rest, scan .escape (c :: rest) = c :: scan .string rest

theorem scans_removeComments : Scans '/' removeComments where
  nil := fun place => by cases place <;> rfl
  code := fun c rest h => by simp [removeComments, h]
  string := fun c rest => by simp [removeComments]
  escape := fun c rest => by simp [removeComments]

theorem scans_removeTrailingCommas : Scans ',' removeTrailingCommas where
  nil := fun place => by cases place <;> rfl
  code := fun c rest h => by simp [removeTrailingCommas, h]
  string := fun c rest => by simp [removeTrailingCommas]
  escape := fun c rest => by simp [removeTrailingCommas]

namespace Scans

variable {special : Char} {scan : Place → List Char → List Char}

/-- A character that begins no string is copied in code. -/
theorem copy_char (h : Scans special scan) {c : Char} (hc : c ≠ special) (hquote : c ≠ '"')
    (rest : List Char) : scan .code (c :: rest) = c :: scan .code rest := by
  rw [h.code c rest hc, afterCodeChar, if_neg hquote]

theorem copy_chars (h : Scans special scan) {chars : List Char}
    (hchars : ∀ c ∈ chars, c ≠ special ∧ c ≠ '"') (rest : List Char) :
    scan .code (chars ++ rest) = chars ++ scan .code rest := by
  induction chars with
  | nil => rfl
  | cons c others ih =>
    obtain ⟨hc, hothers⟩ := List.forall_mem_cons.mp hchars
    rw [List.cons_append, h.copy_char hc.1 hc.2, ih hothers, List.cons_append]

theorem copy_pieces (h : Scans special scan) (body : List Piece) (rest : List Char) :
    scan .string (bodyText body ++ rest) = bodyText body ++ scan .string rest := by
  induction body with
  | nil => rfl
  | cons piece pieces ih =>
    have hsplit : bodyText (piece :: pieces) = piece.text ++ bodyText pieces := rfl
    rw [hsplit, List.append_assoc, List.append_assoc, ← ih]
    cases piece with
    | plain c quote backslash =>
      have hplace : afterStringChar c = .string := by
        rw [afterStringChar, if_neg backslash, if_neg quote]
      refine (h.string c _).trans ?_
      rw [hplace]
      rfl
    | escaped c =>
      have hplace : afterStringChar '\\' = .escape := by decide
      refine (h.string '\\' _).trans ?_
      rw [hplace]
      exact congrArg ('\\' :: ·) (h.escape c _)

theorem copy_body (h : Scans special scan) (body : List Piece) (rest : List Char) :
    scan .string (bodyText body ++ '"' :: rest) = bodyText body ++ '"' :: scan .code rest := by
  rw [h.copy_pieces]
  exact congrArg (bodyText body ++ ·) (h.string '"' rest)

/-- Space is copied. -/
theorem copy_space (h : Scans special scan) (hspecial : isSpace special = false)
    {space : List Char} (hspace : Blank space) (rest : List Char) :
    scan .code (space ++ rest) = space ++ scan .code rest := by
  refine h.copy_chars (fun c hc => ⟨?_, ?_⟩) rest
  · rintro rfl
    exact Bool.false_ne_true (hspecial.symm.trans (hspace c hc))
  · rintro rfl
    exact Bool.false_ne_true ((by decide : isSpace '"' = false).symm.trans (hspace '"' hc))

/-- A token is copied, but for the mark that is special. -/
theorem copy_text (h : Scans special scan) (hspecial : isWordChar special = false)
    {token : Token} (hmark : ∀ sign, token = .mark sign → sign.char ≠ special)
    (hquote : special ≠ '"') (rest : List Char) :
    scan .code (token.text ++ rest) = token.text ++ scan .code rest := by
  cases token with
  | mark sign =>
    exact h.copy_char (hmark sign rfl) (by cases sign <;> decide) rest
  | word letters =>
    refine h.copy_chars (fun c hc => ⟨?_, ?_⟩) rest
    · rintro rfl
      exact Bool.false_ne_true (hspecial.symm.trans (letters.proper c hc))
    · rintro rfl
      exact Bool.false_ne_true
        ((by decide : isWordChar '"' = false).symm.trans (letters.proper '"' hc))
  | string body =>
    have hopen : scan .code ('"' :: (bodyText body ++ '"' :: rest)) =
        '"' :: scan .string (bodyText body ++ '"' :: rest) := h.code '"' _ hquote.symm
    rw [Token.string_append, Token.string_append, hopen, h.copy_body]

end Scans

/-! ## The trailing commas of a tree -/

/-- Whether a token is a comma. -/
def isComma : Token → Bool
  | .mark .comma => true
  | _ => false

/-- Whether the first token closes a container. -/
def closesFirst (tokens : List Token) : Bool := tokens.head?.any Token.closes

/-- Tokens without the commas before a closing mark. -/
def dropCommas : List Token → List Token
  | [] => []
  | token :: rest =>
    if isComma token && closesFirst rest then dropCommas rest else token :: dropCommas rest

theorem eq_comma_of_isComma {token : Token} (h : isComma token = true) : token = .mark .comma := by
  unfold isComma at h
  split at h
  next => rfl
  next => cases h

theorem length_dropCommas_le (tokens : List Token) :
    (dropCommas tokens).length ≤ tokens.length := by
  induction tokens with
  | nil => exact Nat.le_refl _
  | cons token rest ih =>
    rw [dropCommas, List.length_cons]
    split
    next => exact Nat.le_succ_of_le ih
    next => exact Nat.succ_le_succ ih

/-- Without its trailing commas, a part is another, wherever it stands. -/
structure DropsTo (part plain : List Token) : Prop where
  drop : ∀ rest, dropCommas (part ++ rest) = plain ++ dropCommas rest
  opens : ∀ rest, closesFirst (part ++ rest) = false

theorem dropCommas_cons {token : Token} {rest : List Token} (h : isComma token = false) :
    dropCommas (token :: rest) = token :: dropCommas rest := by
  rw [dropCommas, h, Bool.false_and, if_neg Bool.false_ne_true]

/-- The commas between parts stay. -/
theorem dropCommas_joined {α : Type} {part plain : α → List Token} {items : List α}
    (h : ∀ item ∈ items, DropsTo (part item) (plain item)) (first : Bool) (rest : List Token) :
    dropCommas (joined first (items.map part) ++ rest) =
      joined first (items.map plain) ++ dropCommas rest := by
  induction items generalizing first with
  | nil => rfl
  | cons item others ih =>
    obtain ⟨hitem, hothers⟩ := List.forall_mem_cons.mp h
    rw [List.map_cons, List.map_cons, joined, joined]
    simp only [List.append_assoc]
    cases first with
    | true =>
      show dropCommas (part item ++ _) = plain item ++ _
      rw [hitem.drop, ih hothers]
    | false =>
      show dropCommas (.mark .comma :: (part item ++ _)) = .mark .comma :: (plain item ++ _)
      rw [dropCommas, hitem.opens, Bool.and_false, if_neg Bool.false_ne_true, hitem.drop,
        ih hothers]

theorem dropCommas_ending {stop : Mark} (hstop : stop.closes = true) (trailing : Bool)
    (rest : List Token) :
    dropCommas (ending trailing stop ++ rest) = ending false stop ++ dropCommas rest := by
  have hmark : isComma (.mark stop) = false := by
    cases stop with
    | comma => cases hstop
    | _ => rfl
  have hlast : dropCommas (.mark stop :: rest) = .mark stop :: dropCommas rest :=
    dropCommas_cons hmark
  cases trailing with
  | false => exact hlast
  | true =>
    show dropCommas (.mark .comma :: .mark stop :: rest) = _
    have hcloses : closesFirst (.mark stop :: rest) = true := hstop
    rw [dropCommas, hcloses]
    exact hlast

theorem dropsTo_container {α : Type} {part plain : α → List Token} {items : List α}
    (h : ∀ item ∈ items, DropsTo (part item) (plain item)) {start stop : Mark}
    (hstart : isComma (.mark start) = false) (hopen : start.closes = false)
    (hstop : stop.closes = true) (trailing : Bool) :
    DropsTo (.mark start :: (joined true (items.map part) ++ ending trailing stop))
      (.mark start :: (joined true (items.map plain) ++ ending false stop)) where
  drop := by
    intro rest
    rw [List.cons_append, List.append_assoc, dropCommas_cons hstart, dropCommas_joined h,
      dropCommas_ending hstop, List.cons_append, List.append_assoc]
  opens := fun rest => hopen

/-- A tree without its trailing commas is written as in JSON. -/
theorem dropsTo_tokens (commas : Bool) (tree : Tree) :
    DropsTo (tree.tokens commas) (tree.tokens false) := by
  induction tree with
  | word letters => exact ⟨fun rest => dropCommas_cons rfl, fun rest => rfl⟩
  | string body => exact ⟨fun rest => dropCommas_cons rfl, fun rest => rfl⟩
  | array items marked ih =>
    rw [Tree.tokens, Tree.tokens, itemTokens_eq, itemTokens_eq]
    exact dropsTo_container ih rfl rfl rfl _
  | object members marked ih =>
    rw [Tree.tokens, Tree.tokens, memberTokens_eq, memberTokens_eq]
    refine dropsTo_container (fun member hmember => ?_) rfl rfl rfl _
    refine ⟨fun rest => ?_, fun rest => rfl⟩
    show dropCommas (.string member.1 :: .mark .colon :: (member.2.tokens commas ++ rest)) = _
    rw [dropCommas_cons rfl, dropCommas_cons rfl, (ih member hmember).drop]
    rfl

theorem dropCommas_tokens (commas : Bool) (tree : Tree) :
    dropCommas (tree.tokens commas) = tree.tokens false := by
  have h := (dropsTo_tokens commas tree).drop []
  rwa [List.append_nil, dropCommas, List.append_nil] at h

/-! ## Comments -/

theorem removeComments_line {body rest : List Char} (h : '\n' ∉ body) :
    removeComments .lineComment (body ++ '\n' :: rest) = '\n' :: removeComments .code rest := by
  induction body with
  | nil => simp [removeComments]
  | cons c others ih =>
    obtain ⟨hc, hothers⟩ := List.ne_and_not_mem_of_not_mem_cons h
    rw [List.cons_append, removeComments, if_neg (Ne.symm hc)]
    exact ih hothers

/-- A comment that ends with the text leaves nothing. -/
theorem removeComments_lastLine {body : List Char} (h : '\n' ∉ body) :
    removeComments .lineComment body = [] := by
  induction body with
  | nil => rfl
  | cons c others ih =>
    obtain ⟨hc, hothers⟩ := List.ne_and_not_mem_of_not_mem_cons h
    rw [removeComments, if_neg (Ne.symm hc)]
    exact ih hothers

/-- A character of a comment goes, unless it breaks the line or the comment ends there. -/
theorem removeComments_block_cons {c : Char} {rest : List Char} (h : ¬ ['*', '/'] <+: c :: rest) :
    removeComments .blockComment (c :: rest) =
      [c].filter (· = '\n') ++ removeComments .blockComment rest := by
  rw [removeComments]
  · by_cases hc : c = '\n' <;> simp [hc]
  · rintro after rfl rfl
    exact h ⟨after, rfl⟩

/-- A comment between marks leaves its line breaks. -/
theorem removeComments_block {body : List Char} (h : ¬ ['*', '/'] <:+: body) (rest : List Char) :
    removeComments .blockComment (body ++ '*' :: '/' :: rest) =
      body.filter (· = '\n') ++ removeComments .code rest := by
  induction body with
  | nil => simp [removeComments]
  | cons c others ih =>
    obtain ⟨hhead, hothers⟩ := not_or.mp (mt List.infix_cons_iff.mpr h)
    -- The mark that ends the comment does not begin here.
    have hnot : ¬ ['*', '/'] <+: c :: (others ++ '*' :: '/' :: rest) := by
      rintro ⟨after, hafter⟩
      obtain ⟨rfl, hnext⟩ := List.cons.inj hafter
      cases others with
      | nil => cases hnext
      | cons d more =>
        obtain rfl := (List.cons.inj hnext).1
        exact hhead ⟨more, rfl⟩
    rw [List.cons_append, removeComments_block_cons hnot, ih hothers, ← List.append_assoc,
      ← List.filter_append, List.singleton_append]

theorem blank_lineBreaks (body : List Char) : Blank (body.filter (· = '\n')) := by
  intro c hc
  obtain rfl : c = '\n' := by simpa using (List.mem_filter.mp hc).2
  decide

/-- Of a gap there is only space left. -/
theorem exists_removeComments_gap {gap : List Char} (h : Gap gap) :
    ∃ space, Blank space ∧ ∀ rest, removeComments .code (gap ++ rest) =
      space ++ removeComments .code rest := by
  induction h with
  | nil => exact ⟨[], fun _ hmem => (nomatch hmem), fun rest => rfl⟩
  | @space c gap hspace _ ih =>
    obtain ⟨space, hblank, hall⟩ := ih
    refine ⟨c :: space, List.forall_mem_cons.mpr ⟨hspace, hblank⟩, fun rest => ?_⟩
    have hone : Blank [c] := List.forall_mem_singleton.mpr hspace
    have hcopy := scans_removeComments.copy_space (by decide) hone (gap ++ rest)
    rw [List.cons_append, List.cons_append, ← hall]
    exact hcopy
  | @line body gap hbody _ ih =>
    obtain ⟨space, hblank, hall⟩ := ih
    refine ⟨'\n' :: space, List.forall_mem_cons.mpr ⟨by decide, hblank⟩, fun rest => ?_⟩
    have hsplit : '/' :: '/' :: (body ++ '\n' :: gap) ++ rest =
        '/' :: '/' :: (body ++ '\n' :: (gap ++ rest)) := by simp
    rw [hsplit, removeComments, removeComments_line hbody, hall, List.cons_append]
  | @block body gap hbody _ ih =>
    obtain ⟨space, hblank, hall⟩ := ih
    refine ⟨body.filter (· = '\n') ++ space, (blank_lineBreaks body).append hblank, fun rest => ?_⟩
    have hsplit : '/' :: '*' :: (body ++ '*' :: '/' :: gap) ++ rest =
        '/' :: '*' :: (body ++ '*' :: '/' :: (gap ++ rest)) := by simp
    rw [hsplit, removeComments, removeComments_block hbody, hall, List.append_assoc]

theorem blank_removeComments {last : List Char} (h : LastGap last) :
    Blank (removeComments .code last) := by
  cases h with
  | whole hgap =>
    obtain ⟨space, hspace, hall⟩ := exists_removeComments_gap hgap
    have hlast := hall []
    rw [List.append_nil, scans_removeComments.nil, List.append_nil] at hlast
    rwa [hlast]
  | line hgap hbody =>
    obtain ⟨space, hspace, hall⟩ := exists_removeComments_gap hgap
    rw [hall, removeComments, removeComments_lastLine hbody, List.append_nil]
    exact hspace

/-- Without its comments, a text spells the same tokens. -/
theorem spelled_removeComments {tokens : List Token} {text : List Char}
    (h : Spelled Gap LastGap tokens text) :
    Spelled Blank Blank tokens (removeComments .code text) := by
  induction h with
  | done hlast => exact .done (blank_removeComments hlast)
  | next hgap _ ih =>
    obtain ⟨space, hspace, hall⟩ := exists_removeComments_gap hgap
    rw [hall, scans_removeComments.copy_text (by decide) (fun sign _ => by cases sign <;> decide)
      (by decide)]
    exact .next hspace ih

/-- A text without comments is left as it is. -/
theorem removeComments_of_blank {tokens : List Token} {text : List Char}
    (h : Spelled Blank Blank tokens text) : removeComments .code text = text := by
  induction h with
  | @done last hlast =>
    have hcopy := scans_removeComments.copy_space (by decide) hlast []
    rwa [List.append_nil, scans_removeComments.nil, List.append_nil] at hcopy
  | next hgap _ ih =>
    rw [scans_removeComments.copy_space (by decide) hgap,
      scans_removeComments.copy_text (by decide) (fun sign _ => by cases sign <;> decide)
        (by decide), ih]

/-! ## Trailing commas -/

theorem isBlankChar_of_isSpace {c : Char} (h : isSpace c = true) : Text.isBlankChar c = true := by
  simp only [isSpace, Bool.or_eq_true, decide_eq_true_eq] at h
  rcases h with ((rfl | rfl) | rfl) | rfl <;> decide

theorem isBlankChar_of_isWordChar {c : Char} (h : isWordChar c = true) :
    Text.isBlankChar c = false := by
  have hcode : c.toNat = 43 ∨ c.toNat = 45 ∨ c.toNat = 46 ∨ (48 ≤ c.toNat ∧ c.toNat ≤ 122) := by
    delta isWordChar Char.isAlphanum Char.isAlpha Char.isUpper Char.isLower Char.isDigit at h
    simp only [Bool.or_eq_true, Bool.and_eq_true, decide_eq_true_eq, ge_iff_le,
      UInt32.le_iff_toNat_le] at h
    have hval : c.toNat = c.val.toNat := rfl
    rcases h with ((hletter | rfl) | rfl) | rfl
    · have hlimits : 'A'.val.toNat = 65 ∧ 'Z'.val.toNat = 90 ∧ 'a'.val.toNat = 97 ∧
          'z'.val.toNat = 122 ∧ '0'.val.toNat = 48 ∧ '9'.val.toNat = 57 := by decide
      omega
    · decide
    · decide
    · decide
  simp only [Text.isBlankChar, Text.blankRanges, List.any_cons, List.any_nil, Bool.or_false,
    Bool.or_eq_false_iff, Bool.and_eq_false_iff, decide_eq_false_iff_not]
  omega

theorem closesNext_space {space : List Char} (h : Blank space) (rest : List Char) :
    closesNext (space ++ rest) = closesNext rest := by
  induction space with
  | nil => rfl
  | cons c others ih =>
    obtain ⟨hc, hothers⟩ := List.forall_mem_cons.mp h
    rw [List.cons_append, closesNext, if_pos (isBlankChar_of_isSpace hc), ih hothers]

theorem closesNext_text (token : Token) (rest : List Char) :
    closesNext (token.text ++ rest) = token.closes := by
  cases token with
  | mark sign => cases sign <;> rfl
  | word letters =>
    obtain ⟨c, others, hchars⟩ := List.exists_cons_of_ne_nil letters.nonempty
    have hc : isWordChar c = true := letters.proper c (hchars ▸ List.mem_cons_self)
    have hbrace : c ≠ '\x7d' := by
      rintro rfl
      exact absurd hc (by decide)
    have hbracket : c ≠ ']' := by
      rintro rfl
      exact absurd hc (by decide)
    rw [Token.text, hchars, List.cons_append, closesNext, isBlankChar_of_isWordChar hc]
    simp [hbrace, hbracket, Token.closes]
  | string body => rfl

/-- Looking for a closing mark over space finds what the tokens say. -/
theorem closesNext_of_spelled {tokens : List Token} {text : List Char}
    (h : Spelled Blank Blank tokens text) : closesNext text = closesFirst tokens := by
  cases h with
  | done hlast =>
    rw [← List.append_nil text, closesNext_space hlast]
    rfl
  | next hgap _ =>
    rw [closesNext_space hgap, closesNext_text]
    rfl

theorem spelled_append {space text : List Char} {tokens : List Token} (hspace : Blank space)
    (h : Spelled Blank Blank tokens text) : Spelled Blank Blank tokens (space ++ text) := by
  cases h with
  | done hlast => exact .done (hspace.append hlast)
  | next hgap hrest => exact (Spelled.next hgap hrest).space hspace

/-- What becomes of a token: a comma goes if a closing mark is next, all else stays. -/
theorem removeTrailingCommas_text (token : Token) {tokens : List Token} {text : List Char}
    (h : Spelled Blank Blank tokens text) :
    removeTrailingCommas .code (token.text ++ text) =
      if isComma token && closesFirst tokens then removeTrailingCommas .code text
      else token.text ++ removeTrailingCommas .code text := by
  rw [← closesNext_of_spelled h]
  cases hcomma : isComma token with
  | true =>
    obtain rfl := eq_comma_of_isComma hcomma
    show removeTrailingCommas .code (',' :: text) = _
    rw [removeTrailingCommas]
    · rfl
    all_goals exact nofun
  | false =>
    rw [Bool.false_and, if_neg Bool.false_ne_true]
    refine scans_removeTrailingCommas.copy_text (by decide) ?_ (by decide) text
    rintro sign rfl hchar
    obtain rfl : sign = .comma := Mark.char_injective hchar
    cases hcomma

theorem removeTrailingCommas_blank {space : List Char} (h : Blank space) :
    removeTrailingCommas .code space = space := by
  have hcopy := scans_removeTrailingCommas.copy_space (by decide) h []
  rwa [List.append_nil, scans_removeTrailingCommas.nil, List.append_nil] at hcopy

/-- Without its trailing commas, a text spells the tokens without them. -/
theorem spelled_removeTrailingCommas {tokens : List Token} {text : List Char}
    (h : Spelled Blank Blank tokens text) :
    Spelled Blank Blank (dropCommas tokens) (removeTrailingCommas .code text) := by
  induction h with
  | done hlast =>
    rw [removeTrailingCommas_blank hlast]
    exact .done hlast
  | next hgap hrest ih =>
    rw [scans_removeTrailingCommas.copy_space (by decide) hgap, removeTrailingCommas_text _ hrest,
      dropCommas]
    split
    next => exact spelled_append hgap ih
    next => exact .next hgap ih

/-- A text without trailing commas is left as it is. -/
theorem removeTrailingCommas_of_spelled {tokens : List Token} {text : List Char}
    (h : Spelled Blank Blank tokens text) (htokens : dropCommas tokens = tokens) :
    removeTrailingCommas .code text = text := by
  induction h with
  | done hlast => exact removeTrailingCommas_blank hlast
  | @next space text token tokens hgap hrest ih =>
    rw [dropCommas] at htokens
    rw [scans_removeTrailingCommas.copy_space (by decide) hgap, removeTrailingCommas_text _ hrest]
    split at htokens
    next =>
      have hlength := length_dropCommas_le tokens
      rw [htokens, List.length_cons] at hlength
      omega
    next hkept =>
      rw [if_neg hkept, ih (List.cons.inj htokens).2]

/-! ## Both passes -/

/-- A JSON text is left as it is. -/
theorem stripChars_of_strict {tree : Tree} {text : List Char} (h : Strict tree text) :
    stripChars text = text := by
  rw [stripChars, removeComments_of_blank h,
    removeTrailingCommas_of_spelled h (dropCommas_tokens false tree)]

/-- What is left of a commented text is a JSON text of the same tree. -/
theorem strict_stripChars {tree : Tree} {text : List Char} (h : Commented tree text) :
    Strict tree (stripChars text) := by
  have hstripped := spelled_removeTrailingCommas (spelled_removeComments h)
  rwa [dropCommas_tokens] at hstripped

end DocPlan.Json.Comments
