import DocPlan.Proofs.CommentStripping

/-!
# Trailing commas and the trees that have them

The commas that stripping takes away are those before a closing mark (`dropCommas`). Such a comma
may also stand where a tree has none: right after the mark that opens an empty container. Tokens
without such a comma (`Ordered`) are those of a tree with its trailing commas, if what is left of
them are the tokens of a tree (`exists_marked_tree`), and the tokens of a tree have none
(`Tree.ordered_tokens`).

`Deletes` is the same on a text: some of its commas are deleted, and all else stays as it is.
-/

namespace DocPlan.Json

/-- Whether a token opens a container. -/
def Token.opens : Token → Bool
  | .mark .openList => true
  | .mark .openObject => true
  | _ => false

namespace Comments

/-! ## Tokens before a dropped comma -/

/-- No comma stands right after a mark that opens a container. -/
def Ordered (tokens : List Token) : Prop :=
  tokens.IsChain fun token next => ¬ (token.opens = true ∧ isComma next = true)

theorem isComma_of_closes {token : Token} (h : token.closes = true) : isComma token = false := by
  cases token with
  | mark sign =>
    cases sign with
    | comma => cases h
    | _ => rfl
  | _ => rfl

/-- A comma goes only if a closing mark is next, so not all tokens go. -/
theorem dropCommas_eq_nil {tokens : List Token} (h : dropCommas tokens = []) : tokens = [] := by
  induction tokens with
  | nil => rfl
  | cons token rest ih =>
    rw [dropCommas] at h
    split at h
    next hdrop =>
      rw [ih h] at hdrop
      simp [closesFirst] at hdrop
    next => cases h

/-- Before a token that is left there may be a comma that goes, and then it is a closing mark. -/
theorem exists_of_dropCommas_cons {tokens others : List Token} {token : Token}
    (h : dropCommas tokens = token :: others) :
    (∃ rest, tokens = token :: rest ∧ dropCommas rest = others) ∨
      (token.closes = true ∧
        ∃ rest, tokens = .mark .comma :: token :: rest ∧ dropCommas rest = others) := by
  cases tokens with
  | nil => cases h
  | cons first rest =>
    rw [dropCommas] at h
    split at h
    next hdrop =>
      obtain ⟨hcomma, hcloses⟩ := Bool.and_eq_true_iff.mp hdrop
      obtain rfl := eq_comma_of_isComma hcomma
      cases rest with
      | nil => cases hcloses
      | cons next rest =>
        have hnext : next.closes = true := hcloses
        rw [dropCommas_cons (isComma_of_closes hnext)] at h
        obtain ⟨rfl, hrest⟩ := List.cons.inj h
        exact .inr ⟨hnext, rest, rfl, hrest⟩
    next =>
      obtain ⟨rfl, hrest⟩ := List.cons.inj h
      exact .inl ⟨rest, rfl, hrest⟩

/-- A token that does not close a container stands where it is left. -/
theorem exists_of_dropCommas_open {tokens others : List Token} {token : Token}
    (htoken : token.closes = false) (h : dropCommas tokens = token :: others) :
    ∃ rest, tokens = token :: rest ∧ dropCommas rest = others := by
  rcases exists_of_dropCommas_cons h with hkept | ⟨hcloses, -⟩
  · exact hkept
  · exact absurd (htoken.symm.trans hcloses) Bool.false_ne_true

/-! ## The tree with its trailing commas -/

/-- Tokens of which a part is left were another part, which may have trailing commas. -/
def Regains {α : Type} (plain marked : α → List Token) (item : α) : Prop :=
  ∀ tokens rest, Ordered tokens → dropCommas tokens = plain item ++ rest →
    ∃ (other : α) (left : List Token), tokens = marked other ++ left ∧ dropCommas left = rest ∧
      plain other = plain item

theorem regains_items {α : Type} {plain marked : α → List Token} {items : List α}
    (h : ∀ item ∈ items, Regains plain marked item) (first : Bool) {tokens rest : List Token}
    (hordered : Ordered tokens)
    (hdrop : dropCommas tokens = joined first (items.map plain) ++ rest) :
    ∃ (others : List α) (left : List Token), tokens = joined first (others.map marked) ++ left ∧
      dropCommas left = rest ∧ others.map plain = items.map plain := by
  induction items generalizing first tokens with
  | nil => exact ⟨[], tokens, rfl, hdrop, rfl⟩
  | cons item items ih =>
    obtain ⟨hitem, hitems⟩ := List.forall_mem_cons.mp h
    rw [List.map_cons, joined, List.append_assoc, List.append_assoc] at hdrop
    -- The separator stands where it is left.
    obtain ⟨start, rfl, hstart⟩ : ∃ start, tokens = separator first ++ start ∧
        dropCommas start = plain item ++ (joined false (items.map plain) ++ rest) := by
      cases first with
      | true => exact ⟨tokens, rfl, hdrop⟩
      | false => exact exists_of_dropCommas_open rfl hdrop
    obtain ⟨other, after, rfl, hafter, hother⟩ :=
      hitem start _ hordered.right_of_append hstart
    obtain ⟨others, left, rfl, hleft, hothers⟩ :=
      ih hitems false hordered.right_of_append.right_of_append hafter
    refine ⟨other :: others, left, ?_, hleft, ?_⟩
    · rw [List.map_cons, joined, List.append_assoc, List.append_assoc]
    · rw [List.map_cons, List.map_cons, hother, hothers]

/-- A container of which the tokens are left had them, with a trailing comma if it is not empty. -/
theorem regains_container {α : Type} {plain marked : α → List Token} {items : List α}
    (h : ∀ item ∈ items, Regains plain marked item) {start stop : Mark}
    (hstart : (Token.mark start).closes = false) (hopens : (Token.mark start).opens = true)
    {tokens rest : List Token} (hordered : Ordered tokens)
    (hdrop : dropCommas tokens =
      .mark start :: (joined true (items.map plain) ++ ending false stop) ++ rest) :
    ∃ (others : List α) (trailing : Bool) (left : List Token),
      tokens = .mark start :: (joined true (others.map marked) ++
        ending (trailing && !others.isEmpty) stop) ++ left ∧
      dropCommas left = rest ∧ others.map plain = items.map plain := by
  rw [List.cons_append, List.append_assoc] at hdrop
  obtain ⟨inner, rfl, hinner⟩ := exists_of_dropCommas_open hstart hdrop
  obtain ⟨others, last, rfl, hlast, hothers⟩ := regains_items h true hordered.tail hinner
  rcases exists_of_dropCommas_cons hlast with ⟨left, rfl, hleft⟩ | ⟨-, left, rfl, hleft⟩
  · refine ⟨others, false, left, ?_, hleft, hothers⟩
    rw [Bool.false_and, List.cons_append, List.append_assoc]
    rfl
  · -- There is an item before the comma, as it does not stand after the mark that opens.
    have hsome : others.isEmpty = false := by
      cases others with
      | nil => exact absurd ⟨hopens, rfl⟩ ((List.isChain_cons_cons.mp hordered).1)
      | cons => rfl
    refine ⟨others, true, left, ?_, hleft, hothers⟩
    rw [hsome, List.cons_append, List.append_assoc]
    rfl

theorem regains_tokens (tree : Tree) : Regains (Tree.tokens false) (Tree.tokens true) tree := by
  induction tree with
  | word letters =>
    intro tokens rest _ hdrop
    obtain ⟨left, rfl, hleft⟩ := exists_of_dropCommas_open rfl hdrop
    exact ⟨.word letters, left, rfl, hleft, rfl⟩
  | string body =>
    intro tokens rest _ hdrop
    obtain ⟨left, rfl, hleft⟩ := exists_of_dropCommas_open rfl hdrop
    exact ⟨.string body, left, rfl, hleft, rfl⟩
  | array items marked ih =>
    intro tokens rest hordered hdrop
    rw [Tree.tokens, itemTokens_eq] at hdrop
    obtain ⟨others, trailing, left, rfl, hleft, hothers⟩ :=
      regains_container ih rfl rfl hordered hdrop
    refine ⟨.array others trailing, left, ?_, hleft, ?_⟩
    · rw [Tree.tokens, itemTokens_eq]
      rfl
    · rw [Tree.tokens, Tree.tokens, itemTokens_eq, itemTokens_eq, hothers]
      rfl
  | object members marked ih =>
    intro tokens rest hordered hdrop
    rw [Tree.tokens, memberTokens_eq] at hdrop
    have hmembers : ∀ member ∈ members, Regains (memberPart false) (memberPart true) member := by
      intro member hmember tokens rest hordered hdrop
      obtain ⟨afterKey, rfl, hafterKey⟩ := exists_of_dropCommas_open rfl hdrop
      obtain ⟨afterColon, rfl, hafterColon⟩ := exists_of_dropCommas_open rfl hafterKey
      obtain ⟨value, left, rfl, hleft, hvalue⟩ :=
        ih member hmember afterColon rest hordered.tail.tail hafterColon
      refine ⟨(member.1, value), left, rfl, hleft, ?_⟩
      rw [memberPart, memberPart, hvalue]
    obtain ⟨others, trailing, left, rfl, hleft, hothers⟩ :=
      regains_container hmembers rfl rfl hordered hdrop
    refine ⟨.object others trailing, left, ?_, hleft, ?_⟩
    · rw [Tree.tokens, memberTokens_eq]
      rfl
    · rw [Tree.tokens, Tree.tokens, memberTokens_eq, memberTokens_eq, hothers]
      rfl

/-- Tokens of which those of a tree are left are those of a tree with trailing commas. -/
theorem exists_marked_tree {tree : Tree} {tokens : List Token} (hordered : Ordered tokens)
    (h : dropCommas tokens = tree.tokens false) :
    ∃ marked : Tree, tokens = marked.tokens true ∧ marked.tokens false = tree.tokens false := by
  rw [← List.append_nil (tree.tokens false)] at h
  obtain ⟨marked, left, rfl, hleft, hmarked⟩ := regains_tokens tree tokens [] hordered h
  rw [dropCommas_eq_nil hleft, List.append_nil]
  exact ⟨marked, rfl, hmarked⟩

/-! ## The tokens of a tree are in order -/

theorem ordered_cons {token : Token} {tokens : List Token} (htoken : token.opens = false)
    (h : Ordered tokens) : Ordered (token :: tokens) :=
  List.isChain_cons.mpr
    ⟨fun _ _ hboth => Bool.false_ne_true (htoken.symm.trans hboth.1), h⟩

/-- Tokens that begin with no comma, and may stand before all that are in order. -/
structure Leads (part : List Token) : Prop where
  starts : ∃ token tokens, part = token :: tokens ∧ isComma token = false
  append : ∀ rest, Ordered rest → Ordered (part ++ rest)

theorem ordered_joined {parts : List (List Token)} (h : ∀ part ∈ parts, Leads part) (first : Bool)
    {rest : List Token} (hrest : Ordered rest) : Ordered (joined first parts ++ rest) := by
  induction parts generalizing first with
  | nil => exact hrest
  | cons part others ih =>
    obtain ⟨hpart, hothers⟩ := List.forall_mem_cons.mp h
    rw [joined, List.append_assoc, List.append_assoc]
    have hparts := hpart.append _ (ih hothers false)
    cases first with
    | true => exact hparts
    | false => exact ordered_cons rfl hparts

theorem leads_container {α : Type} {part : α → List Token} {items : List α}
    (h : ∀ item ∈ items, Leads (part item)) {start stop : Mark}
    (hstart : isComma (.mark start) = false) (hstop : (Token.mark stop).closes = true)
    (trailing : Bool) :
    Leads (.mark start :: (joined true (items.map part) ++
      ending (trailing && !items.isEmpty) stop)) where
  starts := ⟨_, _, rfl, hstart⟩
  append := by
    intro rest hrest
    have hstopped : Ordered (.mark stop :: rest) := by
      refine ordered_cons ?_ hrest
      cases stop <;> first | rfl | cases hstop
    have hending : Ordered (ending (trailing && !items.isEmpty) stop ++ rest) := by
      cases trailing && !items.isEmpty with
      | true => exact ordered_cons rfl hstopped
      | false => exact hstopped
    rw [List.cons_append, List.append_assoc]
    refine List.isChain_cons.mpr ⟨fun next hnext hboth => ?_,
      ordered_joined (List.forall_mem_map.mpr h) true hending⟩
    -- The first token in the container is that of an item, or the mark that closes it.
    have hcomma : isComma next = false := by
      cases items with
      | nil =>
        rw [List.isEmpty_nil, Bool.not_true, Bool.and_false] at hnext
        obtain rfl := Option.some.inj hnext
        exact isComma_of_closes hstop
      | cons item others =>
        obtain ⟨token, tokens, htokens, htoken⟩ := (h item List.mem_cons_self).starts
        rw [List.map_cons, joined, htokens] at hnext
        obtain rfl := Option.some.inj hnext
        exact htoken
    exact Bool.false_ne_true (hcomma.symm.trans hboth.2)

theorem leads_tokens (tree : Tree) : Leads (tree.tokens true) := by
  induction tree with
  | word letters => exact ⟨⟨_, _, rfl, rfl⟩, fun rest => ordered_cons rfl⟩
  | string body => exact ⟨⟨_, _, rfl, rfl⟩, fun rest => ordered_cons rfl⟩
  | array items marked ih =>
    rw [Tree.tokens, itemTokens_eq]
    exact leads_container ih rfl rfl marked
  | object members marked ih =>
    rw [Tree.tokens, memberTokens_eq]
    refine leads_container (fun member hmember => ?_) rfl rfl marked
    refine ⟨⟨_, _, rfl, rfl⟩, fun rest hrest => ?_⟩
    exact ordered_cons rfl (ordered_cons rfl ((ih member hmember).append rest hrest))

/-- In a tree, a trailing comma stands after an item or a member. -/
theorem ordered_tokens (tree : Tree) : Ordered (tree.tokens true) := by
  rw [← List.append_nil (tree.tokens true)]
  exact (leads_tokens tree).append [] List.IsChain.nil

/-- Where words stand side by side, they still do without trailing commas. -/
theorem separated_of_dropCommas {tokens : List Token} (h : Separated (dropCommas tokens)) :
    Separated tokens := by
  induction tokens with
  | nil => exact List.IsChain.nil
  | cons token rest ih =>
    rw [dropCommas] at h
    split at h
    next hdrop =>
      obtain ⟨hcomma, -⟩ := Bool.and_eq_true_iff.mp hdrop
      obtain rfl := eq_comma_of_isComma hcomma
      exact (follows_cons rfl (ih h)).1
    next =>
      refine List.isChain_cons.mpr ⟨fun next hnext hboth => ?_, ih h.tail⟩
      cases rest with
      | nil => cases hnext
      | cons first others =>
        obtain rfl := Option.some.inj hnext
        have hcomma : isComma first = false := by
          cases first with
          | word => rfl
          | _ => cases hboth.2
        rw [dropCommas_cons hcomma] at h
        exact (List.isChain_cons_cons.mp h).1 hboth

theorem separated_tokens (tree : Tree) : Separated (tree.tokens true) := by
  apply separated_of_dropCommas
  rw [dropCommas_tokens]
  exact tree.separated_tokens

/-! ## Texts -/

/-- A text spells tokens, and others once some of its commas are deleted. -/
inductive Deletes : List Token → List Token → List Char → List Char → Prop
  | done {space : List Char} (hspace : Blank space) : Deletes [] [] space space
  | keep {space text rest : List Char} {token : Token} {tokens others : List Token}
    (hspace : Blank space) (hrest : Deletes tokens others text rest) :
    Deletes (token :: tokens) (token :: others) (space ++ (token.text ++ text))
      (space ++ (token.text ++ rest))
  | comma {space text rest : List Char} {tokens others : List Token}
    (hspace : Blank space) (hrest : Deletes tokens others text rest) :
    Deletes (.mark .comma :: tokens) others (space ++ ',' :: text) (space ++ rest)

section

variable {tokens others : List Token} {text rest : List Char}

theorem Deletes.spelled (h : Deletes tokens others text rest) :
    Spelled Blank Blank tokens text := by
  induction h with
  | done hspace => exact .done hspace
  | keep hspace _ ih => exact .next hspace ih
  | @comma space text _ tokens _ hspace _ ih =>
    have hcomma : Spelled Blank Blank (.mark .comma :: tokens)
        (space ++ ((Token.mark .comma).text ++ text)) := .next hspace ih
    exact hcomma

theorem Deletes.spelled_rest (h : Deletes tokens others text rest) :
    Spelled Blank Blank others rest := by
  induction h with
  | done hspace => exact .done hspace
  | keep hspace _ ih => exact .next hspace ih
  | comma hspace _ ih => exact spelled_append hspace ih

/-- The trailing commas of a text can be deleted. -/
theorem exists_deletes (h : Spelled Blank Blank tokens text) :
    ∃ rest, Deletes tokens (dropCommas tokens) text rest := by
  induction h with
  | done hlast => exact ⟨_, .done hlast⟩
  | @next space text token tokens hgap _ ih =>
    obtain ⟨rest, hrest⟩ := ih
    rw [dropCommas]
    split
    next hdrop =>
      obtain rfl := eq_comma_of_isComma (Bool.and_eq_true_iff.mp hdrop).1
      exact ⟨space ++ rest, .comma hgap hrest⟩
    next => exact ⟨_, .keep hgap hrest⟩

end

end Comments

end DocPlan.Json
