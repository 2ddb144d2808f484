import DocPlan.Json.ReadError
import DocPlan.Proofs.SourceSpans

/-!
# What stripping deletes

Each character of a text is in code or in the string or comment that its span is (`Cell`). Which
of them stripping deletes is said by the character and what comes after it (`isRemoved`), for all
texts, so the passes delete these and leave the others in order (`kept_of_reads`). No line break is
among them. So what is left of a text has as many lines, and a place in it is on the line that it
had in the text (`exists_split_of_kept`), which is the line that the reader reports
(`Position.line_withLeft`).

Main result: `strip_only_deletes`.
-/

namespace DocPlan.Json

/-- The line that is reported for a place is told by the line breaks before it. -/
theorem Position.line_withLeft (before after : List Char) :
    (Position.withLeft (before ++ after) (Utf8.size after)).line = 1 + before.count '\n' := by
  have hadvance : ∀ position : Position,
      (position.advance (Utf8.size before) (before ++ after)).line =
        position.line + before.count '\n' := by
    induction before with
    | nil =>
      intro position
      rw [Utf8.size, Position.advance]
      rfl
    | cons c rest ih =>
      intro position
      have hpos : 0 < c.utf8Size := c.utf8Size_pos
      obtain ⟨bytes, hbytes⟩ : ∃ bytes, c.utf8Size + Utf8.size rest = bytes + 1 :=
        ⟨c.utf8Size + Utf8.size rest - 1, by omega⟩
      rw [Utf8.size, hbytes, List.cons_append,
        Position.advance.eq_3 position (bytes + 1) c _ (Nat.succ_ne_zero bytes), ← hbytes,
        if_neg (by omega)]
      by_cases hc : c = '\n'
      · have hsize : c.utf8Size + Utf8.size rest - 1 = Utf8.size rest := by
          rw [hc, Nat.add_comm]
          rfl
        rw [if_pos hc, hsize, ih, hc, List.count_cons_self]
        show position.line + 1 + _ = _
        omega
      · rw [if_neg hc, Nat.add_sub_cancel_left, ih, List.count_cons_of_ne hc]
  rw [Position.withLeft, Utf8.size_append, Nat.add_sub_cancel, hadvance]

namespace Comments

/-! ## Characters and what they are in -/

/-- A character of a text, and the string or comment that it belongs to, if any. -/
structure Cell where
  char : Char
  inside : Option Enclosure
  deriving DecidableEq, Repr

def Cell.isComment (cell : Cell) : Bool :=
  cell.inside = some .lineComment || cell.inside = some .blockComment

/-- The characters of a span. -/
def Span.cells : Span → List Cell
  | .code c => [⟨c, none⟩]
  | .enclosed kind taken => (kind.start ++ taken).map (⟨·, some kind⟩)

/-- The first character that is neither in a comment nor blank. -/
def nextVisible (cells : List Cell) : Option Cell :=
  cells.find? fun cell => !cell.isComment && !Text.isBlankChar cell.char

/-- What is left of an enclosure: a string as it is, and of a comment between marks its line
breaks. -/
def Enclosure.keeps : Enclosure → Char → Bool
  | .string, _ => true
  | .lineComment, _ => false
  | .blockComment, c => c = '\n'

/-- Whether a character closes a container. -/
def Cell.closes (cell : Cell) : Bool := cell.char = '\x7d' || cell.char = ']'

/-- Whether stripping deletes a character, before the characters that are given. -/
def isRemoved (cell : Cell) (after : List Cell) : Bool :=
  match cell.inside with
  | some kind => !kind.keeps cell.char
  | none => cell.char = ',' && (nextVisible after).any Cell.closes

/-- The characters that stripping does not delete. -/
def kept : List Cell → List Cell
  | [] => []
  | cell :: after => if isRemoved cell after then kept after else cell :: kept after

/-- No line break and no character of a string is deleted. -/
def Spares (cells : List Cell) : Prop :=
  ∀ before cell after, cells = before ++ cell :: after → isRemoved cell after = true →
    cell.char ≠ '\n' ∧ cell.inside ≠ some .string

/-- What stripping does to a text, whose characters are given with what they are in. -/
structure OnlyDeletes (cells : List Cell) (text stripped : List Char) : Prop where
  source : cells.map Cell.char = text
  output : (kept cells).map Cell.char = stripped
  spares : Spares cells
  /-- There are as many line breaks as before. -/
  lineBreaks : stripped.count '\n' = text.count '\n'
  /-- Each character that is left stands somewhere in the text, so that after it the same
  characters are left, and the same line is reported for both places. -/
  lines : ∀ before cell after, kept cells = before ++ cell :: after →
    ∃ front back, cells = front ++ cell :: back ∧ kept back = after ∧
      (Position.withLeft stripped (Utf8.size ((cell :: after).map Cell.char))).line =
        (Position.withLeft text (Utf8.size ((cell :: back).map Cell.char))).line

/-! ## What is left -/

theorem Span.plain_enclosed (kind : Enclosure) (taken : List Char) :
    (Span.enclosed kind taken).plain = (kind.start ++ taken).filter kind.keeps := by
  cases kind with
  | string => exact (List.filter_eq_self.mpr fun _ _ => rfl).symm
  | lineComment => exact (List.filter_eq_nil_iff.mpr fun _ _ => Bool.false_ne_true).symm
  | blockComment => rfl

theorem kept_enclosed (kind : Enclosure) (chars : List Char) (after : List Cell) :
    kept (chars.map (⟨·, some kind⟩) ++ after) =
      (chars.filter kind.keeps).map (⟨·, some kind⟩) ++ kept after := by
  induction chars with
  | nil => rfl
  | cons c rest ih =>
    rw [List.map_cons, List.cons_append, kept, ih, List.filter_cons, isRemoved]
    cases hkeeps : kind.keeps c <;> simp [hkeeps]

theorem nextVisible_code (c : Char) (after : List Cell) :
    nextVisible (⟨c, none⟩ :: after) =
      if Text.isBlankChar c then nextVisible after else some ⟨c, none⟩ := by
  rw [nextVisible, List.find?_cons]
  cases Text.isBlankChar c <;> simp [Cell.isComment, nextVisible]

/-- Characters in comments are not seen. -/
theorem nextVisible_comment {kind : Enclosure} (h : kind ≠ .string) (chars : List Char)
    (after : List Cell) :
    nextVisible (chars.map (⟨·, some kind⟩) ++ after) = nextVisible after := by
  induction chars with
  | nil => rfl
  | cons c rest ih =>
    have hcomment : Cell.isComment ⟨c, some kind⟩ = true := by
      cases kind with
      | string => exact absurd rfl h
      | _ => rfl
    rw [List.map_cons, List.cons_append, nextVisible, List.find?_cons, hcomment]
    exact ih

/-- The second pass looks past the comments that the first has removed. -/
theorem closesNext_plain (spans : List Span) :
    closesNext (spans.flatMap Span.plain) =
      (nextVisible (spans.flatMap Span.cells)).any Cell.closes := by
  induction spans with
  | nil => rfl
  | cons span rest ih =>
    rw [List.flatMap_cons, List.flatMap_cons]
    cases span with
    | code c =>
      rw [Span.plain, Span.cells, List.singleton_append, List.singleton_append, closesNext,
        nextVisible_code]
      cases Text.isBlankChar c with
      | true => exact ih
      | false => rfl
    | enclosed kind taken =>
      cases kind with
      | string => rfl
      | lineComment => rw [Span.cells, nextVisible_comment (by decide), ← ih]; rfl
      | blockComment =>
        rw [Span.cells, nextVisible_comment (by decide), ← ih]
        exact closesNext_space (blank_lineBreaks taken) _

/-- The characters that are not deleted are what the passes leave. -/
theorem kept_of_reads {spans : List Span} {text : List Char} (h : Reads spans text) :
    (kept (spans.flatMap Span.cells)).map Cell.char =
      removeTrailingCommas .code (spans.flatMap Span.plain) := by
  induction h with
  | done => rfl
  | @code c spans rest hcode _ ih =>
    have hremoved : isRemoved ⟨c, none⟩ (spans.flatMap Span.cells) =
        (c = ',' && closesNext (spans.flatMap Span.plain)) := by
      rw [closesNext_plain]
      rfl
    rw [List.flatMap_cons, List.flatMap_cons, Span.plain, Span.cells, List.singleton_append,
      List.singleton_append, removeTrailingCommas_code (ne_quote_of_code hcode), kept, hremoved,
      ← ih]
    split
    next => rfl
    next => rfl
  | @enclosed kind taken spans rest htaken hrest ih =>
    have hchars : Cell.char ∘ (⟨·, some kind⟩) = id := rfl
    rw [List.flatMap_cons, List.flatMap_cons, Span.cells, kept_enclosed, List.map_append, ih,
      ← Span.plain_enclosed, List.map_map, hchars, List.map_id]
    cases kind with
    | string => exact (removeTrailingCommas_string htaken hrest).symm
    | lineComment => rfl
    | blockComment => exact (removeTrailingCommas_lineBreaks taken _).symm

/-! ## The line breaks -/

theorem spares_cons {cell : Cell} {after : List Cell} :
    Spares (cell :: after) ↔
      (isRemoved cell after = true → cell.char ≠ '\n' ∧ cell.inside ≠ some .string) ∧
        Spares after := by
  constructor
  · intro h
    exact ⟨h [] cell after rfl, fun before other rest hsplit =>
      h (cell :: before) other rest (congrArg (cell :: ·) hsplit)⟩
  · rintro ⟨hcell, hafter⟩ before other rest hsplit
    cases before with
    | nil =>
      obtain ⟨rfl, rfl⟩ := List.cons.inj hsplit
      exact hcell
    | cons first before => exact hafter before other rest (List.cons.inj hsplit).2

theorem spares_enclosed {kind : Enclosure} {chars : List Char} {after : List Cell}
    (hchars : ∀ c ∈ chars, kind.keeps c = false → c ≠ '\n' ∧ kind ≠ .string)
    (hafter : Spares after) : Spares (chars.map (⟨·, some kind⟩) ++ after) := by
  induction chars with
  | nil => exact hafter
  | cons c rest ih =>
    obtain ⟨hc, hrest⟩ := List.forall_mem_cons.mp hchars
    refine spares_cons.mpr ⟨fun hremoved => ?_, ih hrest⟩
    obtain ⟨hbreak, hkind⟩ := hc (by simpa [isRemoved] using hremoved)
    exact ⟨hbreak, fun hstring => hkind (Option.some.inj hstring)⟩

theorem spares_of_reads {spans : List Span} {text : List Char} (h : Reads spans text) :
    Spares (spans.flatMap Span.cells) := by
  induction h with
  | done => exact fun before cell after hsplit => absurd hsplit (by simp)
  | @code c spans rest _ _ ih =>
    rw [List.flatMap_cons, Span.cells, List.singleton_append]
    refine spares_cons.mpr ⟨fun hremoved => ⟨?_, nofun⟩, ih⟩
    rintro rfl
    cases hremoved
  | @enclosed kind taken spans rest htaken _ ih =>
    rw [List.flatMap_cons, Span.cells]
    refine spares_enclosed (fun c hc hgoes => ?_) ih
    cases htaken with
    | string => cases hgoes
    | cutString => cases hgoes
    | lineComment hbody =>
      refine ⟨?_, nofun⟩
      rintro rfl
      rcases List.mem_append.mp hc with hstart | htaken
      · exact absurd hstart (by decide)
      · exact hbody htaken
    | blockComment => exact ⟨of_decide_eq_false hgoes, nofun⟩
    | cutBlockComment => exact ⟨of_decide_eq_false hgoes, nofun⟩

theorem count_kept {cells : List Cell} (h : Spares cells) :
    ((kept cells).map Cell.char).count '\n' = (cells.map Cell.char).count '\n' := by
  induction cells with
  | nil => rfl
  | cons cell after ih =>
    obtain ⟨hcell, hafter⟩ := spares_cons.mp h
    rw [kept, List.map_cons]
    split
    next hremoved => rw [ih hafter, List.count_cons_of_ne (hcell hremoved).1]
    next => rw [List.map_cons, List.count_cons, List.count_cons, ih hafter]

/-- A character that is left is one of the text, with as many line breaks before it. -/
theorem exists_split_of_kept {cells before after : List Cell} {cell : Cell} (hspares : Spares cells)
    (h : kept cells = before ++ cell :: after) :
    ∃ front back, cells = front ++ cell :: back ∧ kept back = after ∧
      (front.map Cell.char).count '\n' = (before.map Cell.char).count '\n' := by
  induction cells generalizing before with
  | nil => exact absurd h (by simp [kept])
  | cons first rest ih =>
    obtain ⟨hfirst, hrest⟩ := spares_cons.mp hspares
    rw [kept] at h
    split at h
    next hremoved =>
      obtain ⟨front, back, rfl, hback, hcount⟩ := ih hrest h
      refine ⟨first :: front, back, rfl, hback, ?_⟩
      rw [← hcount, List.map_cons, List.count_cons_of_ne (hfirst hremoved).1]
    next =>
      cases before with
      | nil =>
        obtain ⟨rfl, hafter⟩ := List.cons.inj h
        exact ⟨[], rest, rfl, hafter, rfl⟩
      | cons other before =>
        obtain ⟨rfl, hafter⟩ := List.cons.inj h
        obtain ⟨front, back, rfl, hback, hcount⟩ := ih hrest hafter
        refine ⟨first :: front, back, rfl, hback, ?_⟩
        rw [List.map_cons, List.map_cons, List.count_cons, List.count_cons, hcount]

theorem chars_cells (spans : List Span) :
    (spans.flatMap Span.cells).map Cell.char = spans.flatMap Span.text := by
  rw [List.map_flatMap]
  refine List.flatMap_congr fun span _ => ?_
  cases span with
  | code c => rfl
  | enclosed kind taken =>
    rw [Span.cells, Span.text, List.map_map]
    exact List.map_id _

theorem onlyDeletes_of_reads {spans : List Span} {text : List Char} (h : Reads spans text) :
    OnlyDeletes (spans.flatMap Span.cells) text (stripChars text) := by
  have hsource : (spans.flatMap Span.cells).map Cell.char = text := (chars_cells spans).trans h.text
  have houtput : (kept (spans.flatMap Span.cells)).map Cell.char = stripChars text :=
    (kept_of_reads h).trans (stripChars_of_reads h).symm
  have hspares := spares_of_reads h
  refine ⟨hsource, houtput, hspares, ?_, fun before cell after hsplit => ?_⟩
  · rw [← houtput, ← hsource, count_kept hspares]
  · obtain ⟨front, back, hcells, hback, hcount⟩ := exists_split_of_kept hspares hsplit
    refine ⟨front, back, hcells, hback, ?_⟩
    rw [← houtput, hsplit, ← hsource, hcells, List.map_append, List.map_append,
      Position.line_withLeft, Position.line_withLeft, hcount]

/-- Stripping only deletes characters, and moves none to another line. -/
theorem strip_only_deletes (text : String) :
    (∃! spans, Reads spans text.toList) ∧
      ∀ spans, Reads spans text.toList →
        OnlyDeletes (spans.flatMap Span.cells) text.toList (strip text).toList := by
  obtain ⟨spans, hspans⟩ := exists_reads text.toList
  refine ⟨⟨spans, hspans, fun others hothers => hothers.unique hspans⟩, fun others hothers => ?_⟩
  rw [strip, String.toList_ofList]
  exact onlyDeletes_of_reads hothers

end Comments

end DocPlan.Json
