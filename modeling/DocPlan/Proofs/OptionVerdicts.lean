import DocPlan.Proofs.CheckedOptions
import Mathlib.Data.List.Forall2

/-!
# What the check of compiler options says of each option

The check judges each option on its own: by the kind that the table gives to its name (no name is
listed twice, `kind?_eq_some_iff`), and by whether its value is of that kind (`HasKind`). Case does
not count for choices and for the texts of a lowercase list. With these in lower case (`folded`) an
option is judged as it was, so the check is blind to their case and keeps what it kept.

Main result: `check_judges_each`.
-/

namespace DocPlan.CompilerOptions

/-! ## The table -/

/-- No name is listed twice. -/
theorem nodup_keys_table : (Keyed.keys table).Nodup := by decide +kernel

theorem kind?_eq_get? (name : String) : kind? name = Keyed.get? name table := by
  have hlookup : ∀ entries : List (String × OptionKind),
      entries.lookup name = Keyed.get? name entries := by
    intro entries
    induction entries with
    | nil => rfl
    | cons entry rest ih =>
      obtain ⟨key, kind⟩ := entry
      by_cases hname : key = name
      · subst hname
        rw [List.lookup_cons_self, Keyed.get?, if_pos rfl]
      · have hne : (name == key) = false := beq_eq_false_iff_ne.mpr (Ne.symm hname)
        rw [List.lookup_cons, hne, Keyed.get?, if_neg hname]
        exact ih
  exact hlookup table

theorem kind?_eq_some_iff {name : String} {kind : OptionKind} :
    kind? name = some kind ↔ (name, kind) ∈ table := by
  rw [kind?_eq_get?]
  exact ⟨Keyed.mem_of_get?_eq_some, Keyed.get?_of_mem nodup_keys_table⟩

theorem kind?_eq_none_iff {name : String} : kind? name = none ↔ name ∉ Keyed.keys table := by
  rw [kind?_eq_get?, Keyed.get?_eq_none_iff]

/-- All choices are listed in lower case. -/
theorem lowerAscii_of_mem_choice {name own : String} {allowed : List String}
    (h : (name, .choice allowed) ∈ table) (hown : own ∈ allowed) : lowerAscii own = own := by
  have hchoices : ∀ entry ∈ choiceOptions, ∀ choice ∈ entry.2, lowerAscii choice = choice := by
    decide +kernel
  have hentry : (name, allowed) ∈ choiceOptions := by
    simpa [table, ofKind] using h
  exact hchoices _ hentry own hown

/-! ## Values of a kind -/

/-- Two texts differ at most in the case of ASCII letters. -/
def SameLetters (text other : String) : Prop := lowerAscii text = lowerAscii other

instance (text other : String) : Decidable (SameLetters text other) :=
  inferInstanceAs (Decidable (lowerAscii text = lowerAscii other))

/-- Whether a value is of a kind. -/
def HasKind : OptionKind → Json → Prop
  | .boolean, .boolean _ => True
  | .text, .string _ => True
  | .number, .number _ => True
  | .object, .object _ => True
  | .objectList, .array items => ∀ item ∈ items, item.isObject = true
  | .textList, .array items => ∀ item ∈ items, item.string?.isSome = true
  | .lowercaseList, .array items => ∀ item ∈ items, item.string?.isSome = true
  | .choice allowed, .string text => ∃ own ∈ allowed, SameLetters text own
  | _, _ => False

instance (kind : OptionKind) (value : Json) : Decidable (HasKind kind value) := by
  unfold HasKind
  split <;> infer_instance

/-- A text in lower case; no other value changes. -/
def foldText : Json → Json
  | .string text => .string (lowerAscii text)
  | other => other

/-- A value of a kind, in lower case where case does not count. -/
def foldValue : OptionKind → Json → Json
  | .choice _, value => foldText value
  | .lowercaseList, .array items => .array (items.map foldText)
  | _, value => value

theorem texts?_eq_some_iff {items : List Json} {texts : List String} :
    texts? items = some texts ↔ items = texts.map .string := by
  constructor
  · intro h
    induction items generalizing texts with
    | nil => obtain rfl := Option.some.inj h; rfl
    | cons item rest ih =>
      cases item with
      | string text =>
        obtain ⟨others, hothers, rfl⟩ := Option.map_eq_some_iff.mp h
        rw [ih hothers, List.map_cons]
      | _ => cases h
  · rintro rfl
    exact texts?_strings texts

theorem exists_texts_iff {items : List Json} :
    (∃ texts : List String, items = texts.map .string) ↔
      ∀ item ∈ items, item.string?.isSome = true := by
  constructor
  · rintro ⟨texts, rfl⟩ item hitem
    obtain ⟨text, -, rfl⟩ := List.mem_map.mp hitem
    rfl
  · intro h
    induction items with
    | nil => exact ⟨[], rfl⟩
    | cons item rest ih =>
      obtain ⟨hitem, hrest⟩ := List.forall_mem_cons.mp h
      obtain ⟨texts, rfl⟩ := ih hrest
      cases item with
      | string text => exact ⟨text :: texts, rfl⟩
      | _ => cases hitem

theorem checkTexts_eq_ok_iff {name : String} {write : String → String} {items : List Json}
    {checked : Json} :
    checkTexts name write items = .ok checked ↔
      ∃ texts : List String, items = texts.map .string ∧
        checked = Json.strings (texts.map write) := by
  unfold checkTexts
  cases htexts : texts? items with
  | none =>
    have hnone : ∀ texts : List String, items ≠ texts.map .string := by
      rintro texts rfl
      rw [texts?_strings] at htexts
      cases htexts
    simp [hnone]
  | some texts =>
    obtain rfl := texts?_eq_some_iff.mp htexts
    simp [List.map_inj_right, eq_comm]

theorem strings_map_lowerAscii (texts : List String) :
    Json.strings (texts.map lowerAscii) = .array ((texts.map Json.string).map foldText) := by
  rw [Json.strings, List.map_map, List.map_map]
  rfl

/-- A value can be used when it is of its kind; then case is all that changes. -/
theorem checkValue_eq_ok_iff {name : String} {kind : OptionKind} (hlisted : (name, kind) ∈ table)
    {value checked : Json} :
    checkValue name kind value = .ok checked ↔
      HasKind kind value ∧ checked = foldValue kind value := by
  have hkept : ∀ {kept : Json},
      (Except.ok kept : Except String Json) = .ok checked ↔ True ∧ checked = kept := by
    intro kept
    rw [Except.ok.injEq, true_and, eq_comm]
  have herror : ∀ problem : String,
      ¬ (Except.error problem : Except String Json) = .ok checked := by
    intro problem h
    cases h
  unfold checkValue
  split
  next => exact hkept
  next => exact hkept
  next => exact hkept
  next => exact hkept
  next items =>
    by_cases hobjects : items.all Json.isObject = true
    · rw [if_pos hobjects, hkept, HasKind]
      exact and_congr_left' (iff_of_true trivial (List.all_eq_true.mp hobjects))
    · rw [if_neg hobjects, HasKind]
      refine iff_of_false (herror _) fun h => hobjects (List.all_eq_true.mpr h.1)
  next items =>
    rw [checkTexts_eq_ok_iff, HasKind, ← exists_texts_iff, foldValue]
    constructor
    · rintro ⟨texts, rfl, rfl⟩
      exact ⟨⟨texts, rfl⟩, by rw [List.map_id]; rfl⟩
    · rintro ⟨⟨texts, rfl⟩, rfl⟩
      exact ⟨texts, rfl, by rw [List.map_id]; rfl⟩
    all_goals
      intros
      contradiction
  next items =>
    rw [checkTexts_eq_ok_iff, HasKind, ← exists_texts_iff, foldValue]
    constructor
    · rintro ⟨texts, rfl, rfl⟩
      exact ⟨⟨texts, rfl⟩, strings_map_lowerAscii texts⟩
    · rintro ⟨⟨texts, rfl⟩, rfl⟩
      exact ⟨texts, rfl, (strings_map_lowerAscii texts).symm⟩
  next allowed text =>
    have hmem : lowerAscii text ∈ allowed ↔ ∃ own ∈ allowed, SameLetters text own := by
      constructor
      · intro h
        exact ⟨_, h, (lowerAscii_lowerAscii text).symm⟩
      · rintro ⟨own, hown, hsame⟩
        rw [hsame, lowerAscii_of_mem_choice hlisted hown]
        exact hown
    rw [HasKind, ← hmem, foldValue, foldText]
    split
    next hallowed => rw [hkept, true_and, and_iff_right hallowed]
    next hallowed => exact iff_of_false (herror _) fun h => hallowed h.1
  next =>
    have hno : ¬ HasKind kind value := by
      intro h
      unfold HasKind at h
      split at h <;> simp_all
    exact iff_of_false (herror _) fun h => hno h.1

theorem texts?_map_foldText (items : List Json) :
    texts? (items.map foldText) = (texts? items).map (·.map lowerAscii) := by
  induction items with
  | nil => rfl
  | cons item rest ih =>
    cases item with
    | string text =>
      show (texts? (rest.map foldText)).map (lowerAscii text :: ·) = _
      rw [ih, texts?, Option.map_map, Option.map_map]
      rfl
    | _ => rfl

/-- A value is used alike in any case that does not count. -/
theorem checkValue_foldValue (name : String) (kind : OptionKind) (value : Json) :
    checkValue name kind (foldValue kind value) = checkValue name kind value := by
  cases kind with
  | choice allowed =>
    cases value with
    | string text =>
      show (if lowerAscii (lowerAscii text) ∈ allowed then _ else _) = _
      rw [lowerAscii_lowerAscii]
      rfl
    | _ => rfl
  | lowercaseList =>
    cases value with
    | array items =>
      show checkTexts name lowerAscii (items.map foldText) = checkTexts name lowerAscii items
      rw [checkTexts, checkTexts, texts?_map_foldText]
      cases texts? items with
      | none => rfl
      | some texts =>
        have htwice : lowerAscii ∘ lowerAscii = lowerAscii := funext lowerAscii_lowerAscii
        show Except.ok (Json.strings ((texts.map lowerAscii).map lowerAscii)) = _
        rw [List.map_map, htwice]
    | _ => rfl
  | _ => rfl

/-- What is wrong with a value is said with the name of its option. -/
theorem exists_name_of_checkValue {name problem : String} {kind : OptionKind} {value : Json}
    (h : checkValue name kind value = .error problem) :
    ∃ before after, problem = before ++ name ++ after := by
  have hmessage : problem = wrongType name kind ∨ problem = notTexts name ∨
      ∃ allowed, problem = notAllowed name allowed := by
    unfold checkValue checkTexts at h
    grind
  rcases hmessage with hproblem | hproblem | ⟨allowed, hproblem⟩
  · refine ⟨"Compiler option '", "' requires a value of type " ++ kind.typeName ++ ".", ?_⟩
    rw [hproblem, ← String.append_assoc, ← String.append_assoc]
    rfl
  · exact ⟨"Compiler option '", "' requires a list of strings.", hproblem⟩
  · refine ⟨"Argument for '--", "' option must be: " ++
      ", ".intercalate (allowed.map fun choice => s!"'{choice}'") ++ ".", ?_⟩
    rw [hproblem, ← String.append_assoc, ← String.append_assoc]
    rfl

/-! ## Options -/

/-- An option, in lower case where case does not count. -/
def folded (option : String × Json) : String × Json :=
  match kind? option.1 with
  | some kind => (option.1, foldValue kind option.2)
  | none => option

/-- An option has a value, and its name is not listed. -/
def IsUnknown (option : String × Json) : Prop :=
  option.2.isNull = false ∧ option.1 ∉ Keyed.keys table

/-- An option has a value that is not of the kind that is listed with its name. -/
def IsBad (option : String × Json) : Prop :=
  option.2.isNull = false ∧ ∃ entry ∈ table, entry.1 = option.1 ∧ ¬ HasKind entry.2 option.2

instance (option : String × Json) : Decidable (IsUnknown option) :=
  inferInstanceAs (Decidable (_ ∧ _))

instance (option : String × Json) : Decidable (IsBad option) :=
  inferInstanceAs (Decidable (_ ∧ _))

/-- The warning that an option is not listed. -/
def unknownWarning (option : String × Json) : Diagnostic :=
  ⟨.warn, "UNKNOWN_COMPILER_OPTION",
    s!"Unknown compiler option '{option.1}'; passing it through."⟩

/-- A message is what the check has to say against an option, and names it. -/
def Complains (option : String × Json) (problem : String) : Prop :=
  problem? option = some problem ∧ ∃ before after, problem = before ++ option.1 ++ after

/-- The check judges each option on its own. -/
structure JudgesEach (options : Members) (found : Noted (Except (List String) Members)) : Prop where
  /-- Each option that is not listed gives a warning, and nothing else does. -/
  warnings : found.diagnostics = (options.filter (IsUnknown ·)).map unknownWarning
  /-- If no option is bad, all those with a value are used, in their order. -/
  accepted : ∀ used, found.value = .ok used ↔
    (∀ option ∈ options, ¬ IsBad option) ∧ used = (options.filter (!·.2.isNull)).map folded
  /-- Otherwise there is a message for each bad option, in their order. -/
  refused : ∀ problems, found.value = .error problems ↔
    (∃ option ∈ options, IsBad option) ∧
      List.Forall₂ Complains (options.filter (IsBad ·)) problems

theorem isBad_iff {option : String × Json} :
    IsBad option ↔ ∃ problem, problem? option = some problem := by
  have hnormal : (∃ problem, normalize option.1 option.2 = .error problem) ↔
      ∃ entry ∈ table, entry.1 = option.1 ∧ ¬ HasKind entry.2 option.2 := by
    unfold normalize
    cases hkind : kind? option.1 with
    | none =>
      refine iff_of_false (by rintro ⟨_, ⟨⟩⟩) ?_
      rintro ⟨entry, hentry, hname, -⟩
      exact kind?_eq_none_iff.mp hkind (hname ▸ List.mem_map_of_mem hentry)
    | some kind =>
      have hlisted := kind?_eq_some_iff.mp hkind
      have hother : (∃ entry ∈ table, entry.1 = option.1 ∧ ¬ HasKind entry.2 option.2) ↔
          ¬ HasKind kind option.2 := by
        constructor
        · rintro ⟨⟨name, other⟩, hentry, rfl, hnot⟩
          rw [kind?_eq_some_iff.mpr hentry] at hkind
          exact Option.some.inj hkind ▸ hnot
        · exact fun hnot => ⟨_, hlisted, rfl, hnot⟩
      rw [hother]
      cases hcheck : checkValue option.1 kind option.2 with
      | ok checked =>
        refine iff_of_false (by simp [hcheck]) fun hnot => ?_
        exact hnot ((checkValue_eq_ok_iff hlisted).mp hcheck).1
      | error problem =>
        refine iff_of_true ⟨problem, hcheck⟩ fun hhas => ?_
        rw [(checkValue_eq_ok_iff hlisted).mpr ⟨hhas, rfl⟩] at hcheck
        cases hcheck
  simp only [problem?_eq_some_iff, exists_and_left, hnormal, IsBad]

theorem problem?_eq_none_iff {option : String × Json} :
    problem? option = none ↔ ¬ IsBad option := by
  rw [isBad_iff, ← Option.isSome_iff_exists, Option.not_isSome_iff_eq_none]

/-- The value of an option that is not bad is used in lower case where case does not count. -/
theorem normalize_eq_ok {option : String × Json} (hsome : option.2.isNull = false)
    (h : ¬ IsBad option) :
    normalize option.1 option.2 = .ok (folded option).2 := by
  obtain ⟨normal, hnormal⟩ := exists_normalize_of_problem? (problem?_eq_none_iff.mpr h) hsome
  rw [hnormal]
  unfold normalize at hnormal
  unfold folded
  cases hkind : kind? option.1 with
  | none =>
    rw [hkind] at hnormal
    exact hnormal.symm
  | some kind =>
    rw [hkind] at hnormal
    rw [((checkValue_eq_ok_iff (kind?_eq_some_iff.mp hkind)).mp hnormal).2]

theorem folded_fst (option : String × Json) : (folded option).1 = option.1 := by
  unfold folded
  split <;> rfl

theorem kept?_eq {option : String × Json} (h : ¬ IsBad option) :
    kept? option = if option.2.isNull then none else some (folded option) := by
  cases hnull : option.2.isNull with
  | true =>
    rw [if_pos rfl, kept?, judge, if_pos hnull]
  | false =>
    rw [if_neg Bool.false_ne_true]
    exact kept?_eq_some_iff.mpr ⟨hnull, (folded_fst option).symm, normalize_eq_ok hnull h⟩

theorem warning?_eq (option : String × Json) :
    warning? option = if IsUnknown option then some (unknownWarning option) else none := by
  have hunknown : IsUnknown option ↔ option.2.isNull = false ∧ kind? option.1 = none := by
    rw [IsUnknown, kind?_eq_none_iff]
  simp only [warning?, judge, hunknown]
  cases hnull : option.2.isNull with
  | true => simp
  | false =>
    cases hkind : kind? option.1 with
    | none => simp [unknownWarning]
    | some kind => cases hcheck : checkValue option.1 kind option.2 <;> simp [hcheck]

theorem isNull_foldValue (kind : OptionKind) (value : Json) :
    (foldValue kind value).isNull = value.isNull := by
  cases kind <;> cases value <;> rfl

theorem judge_folded (option : String × Json) :
    judge (folded option).1 (folded option).2 = judge option.1 option.2 := by
  obtain ⟨name, value⟩ := option
  unfold folded
  split
  next kind hkind =>
    show judge name (foldValue kind value) = judge name value
    rw [judge, judge, isNull_foldValue, show kind? name = some kind from hkind]
    simp only [checkValue_foldValue]
  next => rfl

/-! ## The check -/

theorem exists_isBad_iff {options : Members} :
    (∃ option ∈ options, IsBad option) ↔ (options.filterMap problem?).isEmpty = false := by
  rw [Bool.eq_false_iff, Ne, List.isEmpty_iff, List.filterMap_eq_nil_iff]
  simp only [problem?_eq_none_iff, not_forall, not_not, exists_prop]

/-- The messages are those against the bad options, one for each. -/
theorem forall₂_complains_iff {options : Members} {problems : List String} :
    List.Forall₂ Complains (options.filter (IsBad ·)) problems ↔
      options.filterMap problem? = problems := by
  induction options generalizing problems with
  | nil => rw [List.filter_nil, List.forall₂_nil_left_iff, List.filterMap_nil, eq_comm]
  | cons option rest ih =>
    by_cases hbad : IsBad option
    · obtain ⟨problem, hproblem⟩ := isBad_iff.mp hbad
      have hnames : ∃ before after, problem = before ++ option.1 ++ after := by
        have hnormal := (problem?_eq_some_iff.mp hproblem).2
        unfold normalize at hnormal
        split at hnormal
        next => cases hnormal
        next => exact exists_name_of_checkValue hnormal
      rw [List.filter_cons_of_pos (by simpa using hbad), List.filterMap_cons_some hproblem,
        List.forall₂_cons_left_iff]
      constructor
      · rintro ⟨other, others, ⟨hother, -⟩, hrest, rfl⟩
        rw [hproblem] at hother
        rw [Option.some.inj hother, ih.mp hrest]
      · rintro rfl
        exact ⟨problem, _, ⟨hproblem, hnames⟩, ih.mpr rfl, rfl⟩
    · rw [List.filter_cons_of_neg (by simpa using hbad),
        List.filterMap_cons_none (problem?_eq_none_iff.mpr hbad)]
      exact ih

theorem filterMap_kept? {options : Members} (h : ∀ option ∈ options, ¬ IsBad option) :
    options.filterMap kept? = (options.filter (!·.2.isNull)).map folded := by
  induction options with
  | nil => rfl
  | cons option rest ih =>
    obtain ⟨hoption, hrest⟩ := List.forall_mem_cons.mp h
    rw [List.filterMap_cons, kept?_eq hoption, List.filter_cons]
    cases option.2.isNull with
    | true => exact ih hrest
    | false => exact congrArg (folded option :: ·) (ih hrest)

theorem filterMap_warning? (options : Members) :
    options.filterMap warning? = (options.filter (IsUnknown ·)).map unknownWarning := by
  induction options with
  | nil => rfl
  | cons option rest ih =>
    rw [List.filterMap_cons, warning?_eq, List.filter_cons]
    by_cases h : IsUnknown option
    · simpa [h] using ih
    · simpa [h] using ih

theorem judgesEach_check (options : Members) : JudgesEach options (check options) where
  warnings := filterMap_warning? options
  accepted := by
    intro used
    simp only [check_value_eq_ok_iff, problem?_eq_none_iff]
    refine and_congr_right fun hnone => ?_
    rw [filterMap_kept? hnone, eq_comm]
  refused := by
    intro problems
    rw [exists_isBad_iff, forall₂_complains_iff, check_value]
    cases hempty : (options.filterMap problem?).isEmpty with
    | true => exact iff_of_false nofun nofun
    | false => rw [if_neg Bool.false_ne_true, Except.error.injEq, and_iff_right rfl]

/-- Options with one verdict each get one verdict together. -/
theorem check_congr {options others : Members}
    (h : others.map folded = options.map folded) : check others = check options := by
  have hpass : ∀ {α : Type} (pass : String × Json → Option α),
      (∀ option, pass (folded option) = pass option) →
        others.filterMap pass = options.filterMap pass := by
    intro α pass hpass
    have hfolded : pass ∘ folded = pass := funext hpass
    rw [← hfolded, ← List.filterMap_map, ← List.filterMap_map, h]
  have hwarning := hpass warning? fun option => by
    rw [warning?, warning?, judge_folded, folded_fst]
  have hkept := hpass kept? fun option => by rw [kept?, kept?, judge_folded, folded_fst]
  have hproblem := hpass problem? fun option => by rw [problem?, problem?, judge_folded]
  rw [check, check, hwarning, hkept, hproblem]

theorem foldText_foldText (value : Json) : foldText (foldText value) = foldText value := by
  cases value with
  | string text => exact congrArg Json.string (lowerAscii_lowerAscii text)
  | _ => rfl

theorem foldValue_foldValue (kind : OptionKind) (value : Json) :
    foldValue kind (foldValue kind value) = foldValue kind value := by
  cases kind with
  | choice => exact foldText_foldText value
  | lowercaseList =>
    cases value with
    | array items =>
      have htwice : foldText ∘ foldText = foldText := funext foldText_foldText
      show Json.array ((items.map foldText).map foldText) = _
      rw [List.map_map, htwice]
      rfl
    | _ => rfl
  | _ => rfl

theorem folded_folded (option : String × Json) : folded (folded option) = folded option := by
  obtain ⟨name, value⟩ := option
  cases hkind : kind? name with
  | none => simp only [folded, hkind]
  | some kind => simp only [folded, hkind, foldValue_foldValue]

/-- Options without a value have no part in the check. -/
theorem check_filter (options : Members) :
    check (options.filter (!·.2.isNull)) = check options := by
  have hpass : ∀ {α : Type} (pass : String × Json → Option α),
      (∀ option, option.2.isNull = true → pass option = none) →
        (options.filter (!·.2.isNull)).filterMap pass = options.filterMap pass := by
    intro α pass hpass
    rw [List.filterMap_filter]
    refine List.filterMap_congr fun option _ => ?_
    cases hnull : option.2.isNull with
    | true => exact (hpass option hnull).symm
    | false => rfl
  have hunset : ∀ option : String × Json, option.2.isNull = true →
      judge option.1 option.2 = .unset := fun _ hnull => if_pos hnull
  have hwarning := hpass warning? fun option hnull => by rw [warning?, hunset option hnull]
  have hkept := hpass kept? fun option hnull => by rw [kept?, hunset option hnull]
  have hproblem := hpass problem? fun option hnull => by rw [problem?, hunset option hnull]
  rw [check, check, hwarning, hkept, hproblem]

/-- The check judges each option on its own, keeps what it kept, and is blind to case where case
does not count. -/
theorem check_judges_each (options : Members) :
    JudgesEach options (check options) ∧
      (∀ used, (check options).value = .ok used → check used = check options) ∧
      ∀ others, others.map folded = options.map folded → check others = check options := by
  refine ⟨judgesEach_check options, ?_, fun _ => check_congr⟩
  intro used hused
  obtain ⟨-, rfl⟩ := ((judgesEach_check options).accepted used).mp hused
  have hfolded : ((options.filter (!·.2.isNull)).map folded).map folded =
      (options.filter (!·.2.isNull)).map folded := by
    have htwice : folded ∘ folded = folded := funext folded_folded
    rw [List.map_map, htwice]
  exact (check_congr hfolded).trans (check_filter options)

end DocPlan.CompilerOptions
