import DocPlan.Proofs.CommentStripping
import DocPlan.Proofs.ContainerReading

/-!
# What a JSON text says

A value is told by its tokens: tokens that stand for themselves are, and a container is if the
values in it are, so the induction is on the depth of the reader (`told_readValue`). Each text that
is read is therefore a JSON text of a tree, and the texts of a tree are read alike
(`read_of_strict`), because the tokens of a text are unique.

Main result: `strip_keeps_meaning`, comments and trailing commas do not count.
-/

namespace DocPlan.Json

variable {α β γ : Type}

/-! ## Values -/

/-- Space before a value is stepped over. -/
theorem readValue_skipSpace (depth : Nat) (input : List Char) :
    readValue depth (skipSpace input) = readValue depth input := by
  unfold readValue
  rw [skipSpace_skipSpace]

/-- A part of a text spells a tree, and each text of the tree is read to one value. -/
def Stands (depth : Nat) (value : Json) (input rest : List Char) : Prop :=
  ∃ (tree : Tree) (used : List Char), input = used ++ rest ∧ Front (tree.tokens false) used ∧
    ReadsAs (readValue depth) Document.toJson (tree.tokens false) value

/-- A token that is a value, read alike wherever it stands. -/
theorem stands_token {depth : Nat} (tree : Tree) (token : Token) {found : Document}
    {input rest : List Char} (htree : tree.tokens false = [token])
    (hinput : skipSpace input = token.text ++ rest)
    (hread : ∀ after, Stops after → readValue depth (token.text ++ after) = .ok (found, after)) :
    Stands depth found.toJson input rest := by
  obtain ⟨space, hspace, hspaces⟩ := exists_skipSpace input
  refine ⟨tree, space ++ (token.text ++ []), ?_, ?_, fun other others hother hothers => ?_⟩
  · rw [hspaces, hinput, List.append_nil, List.append_assoc]
  · rw [htree]
    exact .next hspace (.done rfl)
  · rw [htree] at hother
    obtain ⟨more, hmore, -, hskip⟩ := exists_skipSpace_front hother
    cases hmore with
    | done hlast =>
      subst hlast
      refine ⟨found, ?_, rfl⟩
      rw [← readValue_skipSpace, hskip]
      exact hread others hothers

/-- The literals and what they stand for. -/
def literals : List (List Char × Document) :=
  [(['n', 'u', 'l', 'l'], .null), (['t', 'r', 'u', 'e'], .boolean true),
    (['f', 'a', 'l', 's', 'e'], .boolean false)]

theorem readValue_literal {literal : List Char × Document} (h : literal ∈ literals) (depth : Nat)
    (rest : List Char) : readValue depth (literal.1 ++ rest) = .ok (literal.2, rest) := by
  simp only [literals, List.mem_cons, List.not_mem_nil, or_false] at h
  unfold readValue
  rcases h with rfl | rfl | rfl <;> rfl

/-- The word that a literal is. -/
theorem exists_word_of_literal {literal : List Char × Document} (h : literal ∈ literals) :
    ∃ word : Word, word.chars = literal.1 := by
  have hproper : literal.1 ≠ [] ∧ ∀ c ∈ literal.1, isWordChar c = true := by
    simp only [literals, List.mem_cons, List.not_mem_nil, or_false] at h
    rcases h with rfl | rfl | rfl <;> exact ⟨List.cons_ne_nil _ _, List.all_eq_true.mp rfl⟩
  exact ⟨⟨literal.1, hproper.1, hproper.2⟩, rfl⟩

theorem stands_literal {depth : Nat} {c : Char} {word : List Char} {value found : Document}
    (h : (c :: word, value) ∈ literals) {input start rest : List Char}
    (hinput : skipSpace input = c :: start)
    (hread : readConstant word value start = .ok (found, rest)) :
    Stands depth found.toJson input rest := by
  obtain ⟨last, hlast, hfound⟩ := Error.bind_eq_ok_iff.mp hread
  obtain ⟨rfl, rfl⟩ := Prod.mk.inj (Except.ok.inj hfound)
  obtain rfl := readWord_eq_ok_iff.mp hlast
  obtain ⟨letters, hletters⟩ := exists_word_of_literal h
  refine stands_token (.word letters) (.word letters) rfl ?_ fun after _ => ?_
  all_goals rw [Token.text, hletters]
  · exact hinput
  · exact readValue_literal h depth after

theorem stands_string {depth : Nat} {input start text rest : List Char}
    (hinput : skipSpace input = '"' :: start) (h : StringReader.read 0 start = .ok (text, rest)) :
    Stands depth (Document.string (String.ofList text)).toJson input rest := by
  obtain ⟨body, hbody, hsame⟩ := StringReader.exists_body_of_read h
  rw [List.drop_zero] at hbody
  refine stands_token (.string body) (.string body) rfl ?_ fun after _ => ?_
  all_goals rw [Token.string_append]
  · rw [hinput, hbody]
  · unfold readValue
    exact Error.bind_eq_ok_iff.mpr ⟨_, hsame after, rfl⟩

theorem readValue_number {c : Char} (hc : (c = '-' || c.isDigit) = true) (depth : Nat)
    {rest after : List Char} {number : Number} (h : readNumber (c :: rest) = .ok (number, after)) :
    readValue depth (c :: rest) = .ok (.number number, after) := by
  have hspace : isSpace c = false := by
    apply Bool.eq_false_iff.mpr
    intro hspace
    simp only [isSpace, Bool.or_eq_true, decide_eq_true_eq] at hspace
    rcases hspace with ((rfl | rfl) | rfl) | rfl <;> cases hc
  unfold readValue
  rw [skipSpace, hspace]
  simp only [Bool.false_eq_true, if_false]
  -- none of the characters that the reader looks for begins a number
  split
  next heq => cases heq
  next heq => cases heq; cases hc
  next heq => cases heq; cases hc
  next heq => cases heq; cases hc
  next heq => cases heq; cases hc
  next heq => cases heq; cases hc
  next heq => cases heq; cases hc
  next heq =>
    cases heq
    rw [if_pos hc]
    exact Error.bind_eq_ok_iff.mpr ⟨_, h, rfl⟩

theorem stands_number {depth : Nat} {input start rest : List Char} {c : Char} {number : Number}
    (hinput : skipSpace input = c :: start) (hc : (c = '-' || c.isDigit) = true)
    (h : readNumber (c :: start) = .ok (number, rest)) (hrest : Stops rest) :
    Stands depth (Document.number number).toJson input rest := by
  obtain ⟨word, hword, hsame⟩ := exists_word_of_readNumber h hrest
  refine stands_token (.word word) (.word word) rfl (hinput.trans hword)
    fun after hafter => ?_
  obtain ⟨d, others, hchars⟩ := List.exists_cons_of_ne_nil word.nonempty
  have hread := hsame after hafter
  rw [hchars] at hword hread
  obtain rfl : c = d := (List.cons.inj hword).1
  rw [Token.text, hchars]
  exact readValue_number hc depth hread

section

variable {close : Mark} {read : List Char → Reading α} {meaning : α → β}
  {spell : γ → List Token} {loop : Nat → Bool → List Char → Reading (List α)} {depth : Nat}
  {value : List α → Document}

/-- A container stands for the meanings of its parts. -/
theorem stands_container (start : Mark) (tree : List γ → Tree)
    (hloops : Loops close read loop) (hclose : close.closes = true)
    (hread : Told read meaning spell)
    (hspell : ∀ written, ∃ token tokens, spell written = token :: tokens ∧ token.closes = false)
    (htree : ∀ written, (tree written).tokens false =
      .mark start :: (joined true (written.map spell) ++ [.mark close]))
    (hvalue : ∀ text parts rest, loop (text.length + 1) true text = .ok (parts, rest) →
      readValue depth (start.char :: text) = .ok (value parts, rest))
    (hmeaning : ∀ parts others, parts.map meaning = others.map meaning →
      (value parts).toJson = (value others).toJson)
    {input text rest : List Char} {parts : List α} {bound : Nat}
    (hinput : skipSpace input = start.char :: text)
    (h : loop bound true text = .ok (parts, rest)) :
    Stands depth (value parts).toJson input rest := by
  obtain ⟨space, hspace, hspaces⟩ := exists_skipSpace input
  obtain ⟨written, used, rfl, hused, hsame⟩ := (hloops.parts h).told hclose hread hspell
  rw [hinput] at hspaces
  refine ⟨tree written, space ++ ((Token.mark start).text ++ used), ?_, ?_,
    fun other others hother _ => ?_⟩
  · rw [hspaces, List.append_assoc]
    rfl
  · rw [htree]
    exact .next hspace hused
  · rw [htree] at hother
    obtain ⟨more, hmore, -, hskip⟩ := exists_skipSpace_front hother
    obtain ⟨again, hparts, hlength, hmap⟩ := hsame more others hmore
    refine ⟨value again, ?_, hmeaning _ _ hmap⟩
    rw [← readValue_skipSpace, hskip]
    refine hvalue _ _ _ (hloops.eq_ok hclose hparts ?_)
    change again.length < (more ++ others).length + 1
    rw [List.length_append]
    omega

end

theorem Tree.exists_open_tokens (tree : Tree) :
    ∃ token tokens, tree.tokens false = token :: tokens ∧ token.closes = false := by
  cases tree <;> exact ⟨_, _, rfl, rfl⟩

theorem stands_list {inner : Nat}
    (hinner : Told (readValue inner) Document.toJson (Tree.tokens false))
    {input text rest : List Char} {items : List Document} {bound : Nat}
    (hinput : skipSpace input = '[' :: text)
    (h : readItems (readValue inner) bound true text = .ok (items, rest)) :
    Stands (inner + 1) (Document.array items).toJson input rest := by
  refine stands_container .openList (fun items => .array items false)
    (loops_readItems (readValue_skipSpace inner)) rfl hinner Tree.exists_open_tokens
    (fun items => ?_) (fun text items rest h => ?_) (fun items others h => ?_) hinput h
  · rw [Tree.tokens, itemTokens_eq]
    rfl
  · unfold readValue
    exact Error.bind_eq_ok_iff.mpr ⟨_, h, rfl⟩
  · rw [Document.toJson, Document.toJson, itemsToJson_eq_map, itemsToJson_eq_map, h]

theorem stands_object {inner : Nat}
    (hinner : Told (readValue inner) Document.toJson (Tree.tokens false))
    {input text rest : List Char} {members : List (Key × Document)} {bound : Nat}
    (hinput : skipSpace input = '\x7b' :: text)
    (h : readMembers (readValue inner) bound true text = .ok (members, rest)) :
    Stands (inner + 1) (Document.object members).toJson input rest := by
  refine stands_container .openObject (fun members => .object members false)
    (loops_readMembers (readValue inner)) rfl (told_readMember hinner)
    (fun member => ⟨_, _, rfl, rfl⟩)
    (fun members => ?_) (fun text members rest h => ?_) (fun members others h => ?_) hinput h
  · rw [Tree.tokens, memberTokens_eq]
    rfl
  · unfold readValue
    exact Error.bind_eq_ok_iff.mpr ⟨_, h, rfl⟩
  · rw [Document.toJson, Document.toJson, membersToJson_eq_map, membersToJson_eq_map]
    exact congrArg (fun members => Json.object (Keyed.collapse members)) h

/-- If the values inside of a value are told by their tokens, so is the value. -/
theorem told_readValue_of_inner {depth : Nat}
    (hinner : ∀ inner, depth = inner + 1 →
      Told (readValue inner) Document.toJson (Tree.tokens false)) :
    Told (readValue depth) Document.toJson (Tree.tokens false) := by
  intro input found rest h hrest
  unfold readValue at h
  split at h
  next => cases h
  next hinput => exact stands_literal (by simp [literals]) hinput h
  next hinput => exact stands_literal (by simp [literals]) hinput h
  next hinput => exact stands_literal (by simp [literals]) hinput h
  next hinput =>
    obtain ⟨⟨text, after⟩, hread, h⟩ := Error.bind_eq_ok_iff.mp h
    obtain ⟨rfl, rfl⟩ := Prod.mk.inj (Except.ok.inj h)
    exact stands_string hinput hread
  next hinput =>
    split at h
    next => cases h
    next inner =>
      obtain ⟨⟨items, after⟩, hread, h⟩ := Error.bind_eq_ok_iff.mp h
      obtain ⟨rfl, rfl⟩ := Prod.mk.inj (Except.ok.inj h)
      exact stands_list (hinner inner rfl) hinput hread
  next hinput =>
    split at h
    next => cases h
    next inner =>
      obtain ⟨⟨members, after⟩, hread, h⟩ := Error.bind_eq_ok_iff.mp h
      obtain ⟨rfl, rfl⟩ := Prod.mk.inj (Except.ok.inj h)
      exact stands_object (hinner inner rfl) hinput hread
  next hinput =>
    split at h
    next hc =>
      obtain ⟨⟨number, after⟩, hread, h⟩ := Error.bind_eq_ok_iff.mp h
      obtain ⟨rfl, rfl⟩ := Prod.mk.inj (Except.ok.inj h)
      exact stands_number hinput hc hread hrest
    next => cases h

theorem told_readValue (depth : Nat) :
    Told (readValue depth) Document.toJson (Tree.tokens false) := by
  induction depth with
  | zero => exact told_readValue_of_inner fun inner h => nomatch h
  | succ depth ih =>
    refine told_readValue_of_inner fun inner h => ?_
    obtain rfl := Nat.succ.inj h
    exact ih

/-! ## Texts -/

theorem readText_eq_ok_iff {text : List Char} {document : Document} :
    readText text = .ok document ↔
      ∃ rest, readValue nestingLimit text = .ok (document, rest) ∧ skipSpace rest = [] := by
  constructor
  · intro h
    obtain ⟨⟨found, rest⟩, hread, h⟩ := Error.bind_eq_ok_iff.mp h
    simp only at h
    split at h
    next hend =>
      obtain rfl := Except.ok.inj h
      exact ⟨rest, hread, hend⟩
    next => cases h
  · rintro ⟨rest, hread, hend⟩
    refine Error.bind_eq_ok_iff.mpr ⟨_, hread, ?_⟩
    simp only [hend]
    rfl

theorem blank_of_skipSpace {text : List Char} (h : skipSpace text = []) : Blank text := by
  obtain ⟨space, hspace, htext⟩ := exists_skipSpace text
  rw [h, List.append_nil] at htext
  exact htext ▸ hspace

/-- A text that is read is a JSON text of a tree, and so are all the texts of this tree, to
the same value. -/
theorem exists_tree_of_readText {text : List Char} {document : Document}
    (h : readText text = .ok document) :
    ∃ tree, Strict tree text ∧ ∀ other, Strict tree other →
      ∃ found, readText other = .ok found ∧ found.toJson = document.toJson := by
  obtain ⟨rest, hread, hend⟩ := readText_eq_ok_iff.mp h
  have hrest : Blank rest := blank_of_skipSpace hend
  obtain ⟨tree, used, rfl, hused, hsame⟩ := told_readValue _ _ _ _ hread hrest.stops
  refine ⟨tree, ?_, fun other hother => ?_⟩
  · rw [Strict, ← List.append_nil (tree.tokens false)]
    exact hused.append (.done hrest)
  · rw [Strict, ← List.append_nil (tree.tokens false)] at hother
    obtain ⟨front, last, rfl, hfront, hlast⟩ := hother.split
    cases hlast with
    | done hblank =>
      obtain ⟨found, hfound, hvalue⟩ := hsame front last hfront hblank.stops
      exact ⟨found, readText_eq_ok_iff.mpr ⟨last, hfound, skipSpace_of_blank hblank⟩, hvalue⟩

theorem read_eq_ok_iff {text : String} {value : Json} :
    read text = .ok value ↔
      ∃ document, readText text.toList = .ok document ∧ document.toJson = value := by
  rw [read, Document.read, Error.map_eq_ok_iff]
  cases readText text.toList with
  | error fault => simp [Except.mapError]
  | ok document => simp [Except.mapError]

/-- The texts of a tree are read alike. -/
theorem read_of_strict {tree : Tree} {text other : String} (h : Strict tree text.toList)
    (hother : Strict tree other.toList) {value : Json} (hread : read text = .ok value) :
    read other = .ok value := by
  obtain ⟨document, hdocument, rfl⟩ := read_eq_ok_iff.mp hread
  obtain ⟨found, hfound, hsame⟩ := exists_tree_of_readText hdocument
  have htokens : tree.tokens false = found.tokens false :=
    h.unique hfound tree.separated_tokens found.separated_tokens
  rw [Strict, htokens] at hother
  exact read_eq_ok_iff.mpr (hsame _ hother)

/-- Stripping comments and trailing commas loses no meaning: a JSON text is left as it is, and
a text that comments, space and trailing commas were put into is read as the text that it was
before. Every text that is read is a JSON text. -/
theorem strip_keeps_meaning :
    (∀ tree text, Strict tree text.toList → Comments.strip text = text) ∧
      (∀ tree text commented, Strict tree text.toList → Commented tree commented.toList →
        ∀ value, read text = .ok value ↔ read (Comments.strip commented) = .ok value) ∧
      (∀ text value, read text = .ok value → ∃ tree, Strict tree text.toList) := by
  refine ⟨fun tree text h => ?_, fun tree text commented htext hcommented value => ?_,
    fun text value h => ?_⟩
  · rw [Comments.strip, Comments.stripChars_of_strict h, String.ofList_toList]
  · have hstripped : Strict tree (Comments.strip commented).toList := by
      rw [Comments.strip, String.toList_ofList]
      exact Comments.strict_stripChars hcommented
    exact ⟨read_of_strict htext hstripped, read_of_strict hstripped htext⟩
  · obtain ⟨document, hdocument, -⟩ := read_eq_ok_iff.mp h
    obtain ⟨tree, htree, -⟩ := exists_tree_of_readText hdocument
    exact ⟨tree, htree⟩

/-- The characters of a string that looks like a comment. -/
def slashes : List Piece :=
  [.plain '/' (by decide) (by decide), .plain '/' (by decide) (by decide)]

/-- The word of the digit one. -/
def one : Word := ⟨['1'], by decide, List.forall_mem_singleton.mpr rfl⟩

/-- A list of a string and a number, which may end in a comma. -/
def markedList : Tree := .array [.string slashes, .word one] true

theorem strict_markedList : Strict markedList "[\"//\", 1]".toList := by
  have hnone : Blank [] := fun _ h => nomatch h
  have hspace : Blank [' '] := List.forall_mem_singleton.mpr rfl
  have htext : "[\"//\", 1]".toList =
      [] ++ (['['] ++ ([] ++ ((Token.string slashes).text ++ ([] ++ ([','] ++ ([' '] ++ (['1'] ++
        ([] ++ ([']'] ++ []))))))))) := rfl
  rw [htext]
  exact .next hnone (.next hnone (.next hnone (.next hspace (.next hnone (.done hnone)))))

theorem commented_markedList :
    Commented markedList "/* \" */[\"//\", // one\n1,] // end".toList := by
  have hquote : ¬ ['*', '/'] <:+: " \" ".toList := by decide
  have hone : '\n' ∉ " one".toList := by decide
  have hend : '\n' ∉ " end".toList := by decide
  have hblock : Gap "/* \" */".toList := .block hquote .nil
  have hline : Gap " // one\n".toList := .space rfl (.line hone .nil)
  have hlast : LastGap " // end".toList := .line (.space rfl .nil) hend
  have htext : "/* \" */[\"//\", // one\n1,] // end".toList =
      "/* \" */".toList ++ (['['] ++ ([] ++ ((Token.string slashes).text ++ ([] ++ ([','] ++
        (" // one\n".toList ++ (['1'] ++ ([] ++ ([','] ++ ([] ++ ([']'] ++
          " // end".toList))))))))))) := rfl
  rw [htext]
  exact .next hblock (.next .nil (.next .nil (.next hline (.next .nil (.next .nil (.done hlast))))))

theorem strip_keeps_meaning_of_markedList :
    Comments.strip "[\"//\", 1]" = "[\"//\", 1]" ∧
      read (Comments.strip "/* \" */[\"//\", // one\n1,] // end") =
        .ok (.array [.string "//", .number (.integer 1)]) := by
  have hread : read "[\"//\", 1]" = .ok (.array [.string "//", .number (.integer 1)]) :=
    read_eq_ok_iff.mpr ⟨.array [.string "//", .number (.integer 1)], rfl, rfl⟩
  exact ⟨strip_keeps_meaning.1 _ _ strict_markedList,
    (strip_keeps_meaning.2.1 _ _ _ strict_markedList commented_markedList _).mp hread⟩

end DocPlan.Json
