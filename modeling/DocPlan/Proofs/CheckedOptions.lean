import DocPlan.Config.Options
import DocPlan.Proofs.Orders
import DocPlan.Proofs.Overlay

/-!
# What the check of compiler options leaves

An option that the check keeps has a value that the check keeps as it is
(`CompilerOptions.kept?_of_kept?`), so checking twice is checking once. The options to
unset are sorted, and none of them is kept.

`Options.check_again` is about options that are put on the layers they came from. A part
of what was merged may come from files that are read again, so the result of a check,
with the unset options as null, is laid over a base that holds their old values. The
check of that gives the same options in the same order.
-/

namespace DocPlan

namespace CompilerOptions

/-! ## Values -/

private theorem toLower_toLower (c : Char) : c.toLower.toLower = c.toLower := by
  by_cases h : 'A'.val ≤ c.val ∧ c.val ≤ 'Z'.val
  · have hlower : c.toLower.val = c.val + ('a'.val - 'A'.val) := congrArg Char.val (dif_pos h)
    have hout : ¬ (c.toLower.val ≥ 'A'.val ∧ c.toLower.val ≤ 'Z'.val) := by
      rw [hlower]
      obtain ⟨hlow, hhigh⟩ := h
      rw [UInt32.le_iff_toNat_le] at hlow hhigh
      rintro ⟨-, hle⟩
      rw [UInt32.le_iff_toNat_le] at hle
      have hsum : (c.val + ('a'.val - 'A'.val)).toNat = c.val.toNat + 32 := by
        rw [UInt32.toNat_add]
        have hbound : c.val.toNat ≤ 90 := hhigh
        show (c.val.toNat + 32) % 4294967296 = c.val.toNat + 32
        omega
      have hlow' : 65 ≤ c.val.toNat := hlow
      have hle' : c.val.toNat + 32 ≤ 90 := hsum ▸ hle
      omega
    exact dif_neg hout
  · have hself : c.toLower = c := dif_neg h
    rw [hself, hself]

theorem lowerAscii_lowerAscii (text : String) : lowerAscii (lowerAscii text) = lowerAscii text := by
  have hchars : (text.toList.map Char.toLower).map Char.toLower = text.toList.map Char.toLower := by
    rw [List.map_map]
    exact List.map_congr_left fun c _ => toLower_toLower c
  rw [lowerAscii, lowerAscii, String.toList_ofList, hchars]

theorem texts?_strings (texts : List String) : texts? (texts.map .string) = some texts := by
  induction texts with
  | nil => rfl
  | cons text rest ih => rw [List.map_cons, texts?, ih, Option.map_some]

/-- Texts that are written in some way are written so again, if the way of writing is
done once. -/
theorem checkTexts_of_checkTexts {name : String} {write : String → String} {items : List Json}
    {value : Json} (hwrite : ∀ text, write (write text) = write text)
    (h : checkTexts name write items = .ok value) :
    ∃ again, value = .array again ∧ checkTexts name write again = .ok value := by
  unfold checkTexts at h
  split at h
  next texts _ =>
    obtain rfl := Except.ok.inj h
    refine ⟨_, rfl, ?_⟩
    have hagain : (texts.map write).map write = texts.map write := by simp [hwrite]
    rw [checkTexts, texts?_strings]
    exact congrArg (fun texts => Except.ok (Json.strings texts)) hagain
  next => cases h

/-- A value that was checked is not null, and it is as it is to be used. -/
theorem checkValue_of_checkValue {name : String} {kind : OptionKind} {value checked : Json}
    (h : checkValue name kind value = .ok checked) :
    checked.isNull = false ∧ checkValue name kind checked = .ok checked := by
  unfold checkValue at h
  split at h
  next => obtain rfl := Except.ok.inj h; exact ⟨rfl, rfl⟩
  next => obtain rfl := Except.ok.inj h; exact ⟨rfl, rfl⟩
  next => obtain rfl := Except.ok.inj h; exact ⟨rfl, rfl⟩
  next => obtain rfl := Except.ok.inj h; exact ⟨rfl, rfl⟩
  next items =>
    split at h
    next hobjects =>
      obtain rfl := Except.ok.inj h
      exact ⟨rfl, if_pos hobjects⟩
    next => cases h
  next =>
    obtain ⟨again, rfl, hagain⟩ := checkTexts_of_checkTexts (fun _ => rfl) h
    exact ⟨rfl, hagain⟩
  next =>
    obtain ⟨again, rfl, hagain⟩ := checkTexts_of_checkTexts lowerAscii_lowerAscii h
    exact ⟨rfl, hagain⟩
  next allowed text =>
    split at h
    next hallowed =>
      obtain rfl := Except.ok.inj h
      refine ⟨rfl, ?_⟩
      show (if lowerAscii (lowerAscii text) ∈ allowed then _ else _) = _
      rw [lowerAscii_lowerAscii, if_pos hallowed]
    next => cases h
  next => cases h

/-! ## Options -/

/-- The value of an option as it is to be used, or what is wrong with it. An option that is
not in the table is used as it is. -/
def normalize (name : String) (value : Json) : Except String Json :=
  match kind? name with
  | none => .ok value
  | some kind => checkValue name kind value

/-- A value as it is to be used is used as it is. -/
theorem normalize_of_normalize {name : String} {value normal : Json}
    (hsome : value.isNull = false) (h : normalize name value = .ok normal) :
    normal.isNull = false ∧ normalize name normal = .ok normal := by
  unfold normalize at h ⊢
  cases hkind : kind? name with
  | none =>
    rw [hkind] at h
    obtain rfl := Except.ok.inj h
    exact ⟨hsome, rfl⟩
  | some kind =>
    rw [hkind] at h
    exact checkValue_of_checkValue h

/-- An option that is not null is kept, with its value as it is to be used. -/
theorem kept?_eq_some_iff {option kept : String × Json} :
    kept? option = some kept ↔
      option.2.isNull = false ∧ option.1 = kept.1 ∧ normalize option.1 option.2 = .ok kept.2 := by
  obtain ⟨name, value⟩ := option
  obtain ⟨keptName, normal⟩ := kept
  unfold kept? judge normalize
  cases hnull : value.isNull with
  | true => simp
  | false =>
    cases kind? name with
    | none => simp
    | some kind => cases hcheck : checkValue name kind value <;> simp [hcheck]

/-- The problem with an option is that its value cannot be used. -/
theorem problem?_eq_some_iff {option : String × Json} {problem : String} :
    problem? option = some problem ↔
      option.2.isNull = false ∧ normalize option.1 option.2 = .error problem := by
  obtain ⟨name, value⟩ := option
  unfold problem? judge normalize
  cases hnull : value.isNull with
  | true => simp
  | false =>
    cases kind? name with
    | none => simp
    | some kind => cases hcheck : checkValue name kind value <;> simp [hcheck]

/-- The value of an option without a problem can be used. -/
theorem exists_normalize_of_problem? {option : String × Json} (h : problem? option = none)
    (hsome : option.2.isNull = false) : ∃ normal, normalize option.1 option.2 = .ok normal := by
  cases hnormal : normalize option.1 option.2 with
  | ok normal => exact ⟨normal, rfl⟩
  | error problem =>
    rw [problem?_eq_some_iff.mpr ⟨hsome, hnormal⟩] at h
    cases h

/-- An option that is kept keeps its name, has a value, and is kept as it is. -/
theorem kept?_of_kept? {option kept : String × Json} (h : kept? option = some kept) :
    kept.1 = option.1 ∧ kept.2.isNull = false ∧ kept? kept = some kept ∧
      problem? kept = none := by
  obtain ⟨hsome, hname, hnormal⟩ := kept?_eq_some_iff.mp h
  obtain ⟨hkept, hagain⟩ := normalize_of_normalize hsome hnormal
  rw [hname] at hagain
  refine ⟨hname.symm, hkept, kept?_eq_some_iff.mpr ⟨hkept, rfl, hagain⟩, ?_⟩
  cases hproblem : problem? kept with
  | none => rfl
  | some problem =>
    have herror := (problem?_eq_some_iff.mp hproblem).2
    rw [hagain] at herror
    cases herror

/-- An option without a problem is kept unless its value is null. -/
theorem exists_kept?_iff {option : String × Json} (h : problem? option = none) :
    (kept? option).isSome = !option.2.isNull := by
  cases hnull : option.2.isNull with
  | true =>
    cases hkept : kept? option with
    | none => rfl
    | some kept =>
      rw [(kept?_eq_some_iff.mp hkept).1] at hnull
      cases hnull
  | false =>
    obtain ⟨normal, hnormal⟩ := exists_normalize_of_problem? h hnull
    have hkept : kept? option = some (option.1, normal) :=
      kept?_eq_some_iff.mpr ⟨hnull, rfl, hnormal⟩
    rw [hkept]
    rfl

theorem check_value (options : Members) :
    (check options).value =
      if (options.filterMap problem?).isEmpty then .ok (options.filterMap kept?)
      else .error (options.filterMap problem?) := rfl

theorem check_value_eq_ok_iff {options used : Members} :
    (check options).value = .ok used ↔
      (∀ option ∈ options, problem? option = none) ∧ options.filterMap kept? = used := by
  rw [check_value]
  by_cases h : (options.filterMap problem?).isEmpty = true
  · have hnone := List.filterMap_eq_nil_iff.mp (List.isEmpty_iff.mp h)
    rw [if_pos h, Except.ok.injEq, and_iff_right hnone]
  · have hsome : ¬ ∀ option ∈ options, problem? option = none := fun hnone =>
      h (List.isEmpty_iff.mpr (List.filterMap_eq_nil_iff.mpr hnone))
    rw [if_neg h]
    constructor
    · intro herror
      cases herror
    · exact fun hboth => absurd hboth.1 hsome

/-- The check keeps what it kept. -/
theorem check_of_check {options used : Members} (h : (check options).value = .ok used) :
    (check used).value = .ok used := by
  obtain ⟨-, rfl⟩ := check_value_eq_ok_iff.mp h
  have hkept : ∀ entry ∈ options.filterMap kept?,
      kept? entry = some entry ∧ problem? entry = none := by
    intro entry hentry
    obtain ⟨option, -, hoption⟩ := List.mem_filterMap.mp hentry
    exact (kept?_of_kept? hoption).2.2
  refine check_value_eq_ok_iff.mpr ⟨fun entry hentry => (hkept entry hentry).2, ?_⟩
  have hsome := List.filterMap_congr fun entry hentry => (hkept entry hentry).1
  rw [hsome, List.filterMap_some]

end CompilerOptions

namespace Options

open CompilerOptions

/-! ## Merged options -/

theorem check_eq_ok_iff {merged : Members} {checked : Checked} :
    (check CompilerOptions.check merged).outcome = .ok checked ↔
      (∀ option ∈ merged, problem? option = none) ∧
        checked = ⟨merged.filterMap kept?, unsetNames merged⟩ := by
  unfold check
  rw [Report.outcome_bind, Error.bind_eq_ok_iff]
  constructor
  · rintro ⟨result, hresult, hchecked⟩
    cases result with
    | error problems => cases hchecked
    | ok used =>
      obtain ⟨hnone, rfl⟩ := check_value_eq_ok_iff.mp (Except.ok.inj hresult)
      exact ⟨hnone, (Except.ok.inj hchecked).symm⟩
  · rintro ⟨hnone, rfl⟩
    refine ⟨.ok (merged.filterMap kept?), ?_, rfl⟩
    exact congrArg Except.ok (check_value_eq_ok_iff.mpr ⟨hnone, rfl⟩)

/-- Whether an option has a value that is not null. -/
def isSet (options : Members) (name : String) : Bool :=
  match Keyed.get? name options with
  | some value => !value.isNull
  | none => false

theorem isSet_of_mem {options : Members} (hnodup : (Keyed.keys options).Nodup)
    {option : String × Json} (h : option ∈ options) :
    isSet options option.1 = !option.2.isNull := by
  rw [isSet, Keyed.get?_of_mem hnodup h]

/-- The names of the options that are kept are those of the options that are set, in
their order. -/
theorem keys_filterMap_kept? {options : Members} (hnodup : (Keyed.keys options).Nodup)
    (hnone : ∀ option ∈ options, problem? option = none) :
    Keyed.keys (options.filterMap kept?) = (Keyed.keys options).filter (isSet options) := by
  -- `isSet` asks the whole list, so the induction runs over parts of it.
  have hentries : ∀ entries : Members, entries ⊆ options →
      Keyed.keys (entries.filterMap kept?) = (Keyed.keys entries).filter (isSet options) := by
    intro entries hsubset
    induction entries with
    | nil => rfl
    | cons option rest ih =>
      obtain ⟨hmem, hrest⟩ := List.cons_subset.mp hsubset
      have hset := isSet_of_mem hnodup hmem
      rw [← exists_kept?_iff (hnone option hmem)] at hset
      show _ = (option.1 :: Keyed.keys rest).filter (isSet options)
      rw [List.filterMap_cons, List.filter_cons, hset, ← ih hrest]
      cases hkept : kept? option with
      | none => rfl
      | some kept =>
        show kept.1 :: _ = option.1 :: _
        rw [(kept?_of_kept? hkept).1]
        rfl
  exact hentries options (List.Subset.refl options)

theorem mem_unsetNames {options : Members} (hnodup : (Keyed.keys options).Nodup)
    {name : String} :
    name ∈ unsetNames options ↔ Keyed.get? name options = some .null := by
  rw [unsetNames, Text.mem_sorted, List.mem_map]
  constructor
  · rintro ⟨⟨key, value⟩, hmem, rfl⟩
    obtain ⟨hoption, hnull⟩ := List.mem_filter.mp hmem
    have hvalue : value = .null := Json.isNull_iff.mp hnull
    exact hvalue ▸ Keyed.get?_of_mem hnodup hoption
  · intro h
    exact ⟨(name, .null), List.mem_filter.mpr ⟨Keyed.mem_of_get?_eq_some h, rfl⟩, rfl⟩

theorem nodup_null_names {options : Members} (hnodup : (Keyed.keys options).Nodup) :
    ((options.filter (·.2.isNull)).map (·.1)).Nodup :=
  (List.filter_sublist.map _).nodup hnodup

/-- The options to unset depend only on which options are null. -/
theorem unsetNames_congr {options others : Members} (hnodup : (Keyed.keys options).Nodup)
    (hothers : (Keyed.keys others).Nodup)
    (h : ∀ name, Keyed.get? name options = some .null ↔ Keyed.get? name others = some .null) :
    unsetNames options = unsetNames others := by
  apply Text.sorted_eq_of_perm
  rw [List.perm_ext_iff_of_nodup (nodup_null_names hnodup) (nodup_null_names hothers)]
  intro name
  have hsame : name ∈ unsetNames options ↔ name ∈ unsetNames others := by
    rw [mem_unsetNames hnodup, mem_unsetNames hothers]
    exact h name
  rw [unsetNames, unsetNames, Text.mem_sorted, Text.mem_sorted] at hsame
  exact hsame

/-- What a check leaves: options that it keeps as they are, and sorted names of options
that it does not keep. -/
theorem checked_of_check {merged : Members} (hnodup : (Keyed.keys merged).Nodup)
    {checked : Checked} (h : (check CompilerOptions.check merged).outcome = .ok checked) :
    (Keyed.keys checked.used).Nodup ∧
      (CompilerOptions.check checked.used).value = .ok checked.used ∧
      checked.unset.Pairwise (· < ·) ∧
      ∀ name ∈ checked.unset, name ∉ Keyed.keys checked.used := by
  obtain ⟨hnone, rfl⟩ := check_eq_ok_iff.mp h
  have hkeys := keys_filterMap_kept? hnodup hnone
  refine ⟨hkeys ▸ hnodup.filter _, ?_, ?_, ?_⟩
  · exact check_of_check (check_value_eq_ok_iff.mpr ⟨hnone, rfl⟩)
  · exact Text.sorted_pairwise_lt (nodup_null_names hnodup)
  · intro name hname
    rw [hkeys, List.mem_filter, isSet, (mem_unsetNames hnodup).mp hname]
    simp [Json.isNull]

/-! ## Checking again -/

/-- Options to unset, as a layer that sets them to null. -/
def nulls (names : List String) : Members :=
  names.map fun name => (name, .null)

theorem keys_nulls (names : List String) : Keyed.keys (nulls names) = names := by
  rw [Keyed.keys, nulls, List.map_map]
  exact List.map_id names

theorem last?_nulls {names : List String} {name : String} (h : name ∈ names) :
    Keyed.last? name (nulls names) = some .null := by
  have hkey : name ∈ Keyed.keys (nulls names) := by rwa [keys_nulls]
  cases hlast : Keyed.last? name (nulls names) with
  | none => exact absurd hkey (Keyed.last?_eq_none_iff.mp hlast)
  | some value =>
    obtain ⟨before, after, hsplit, -⟩ := Keyed.last?_eq_some_iff.mp hlast
    have hmem : (name, value) ∈ nulls names := by simp [hsplit]
    obtain ⟨other, -, hother⟩ := List.mem_map.mp hmem
    rw [(Prod.mk.inj hother).2]

/-- The result of a check as a request asks for it again, on the base of what was
checked. -/
def again (base : Members) (checked : Checked) : Members :=
  Keyed.overlay base (Keyed.overlay checked.used (nulls checked.unset))

theorem nodup_keys_again {base : Members} (hbase : (Keyed.keys base).Nodup) (checked : Checked) :
    (Keyed.keys (again base checked)).Nodup := Keyed.nodup_keys_overlay hbase

section Again

variable {base top : Members} {checked : Checked}

/-- Of the options that are asked for again, the ones that were set are the ones that
were kept. -/
theorem filter_again (hbase : (Keyed.keys base).Nodup) (htop : (Keyed.keys top).Nodup)
    (h : (check CompilerOptions.check (Keyed.overlay base top)).outcome = .ok checked) :
    (again base checked).filter (fun option => isSet (Keyed.overlay base top) option.1) =
      checked.used := by
  have hnodup : (Keyed.keys (Keyed.overlay base top)).Nodup := Keyed.nodup_keys_overlay hbase
  obtain ⟨hnone, rfl⟩ := check_eq_ok_iff.mp h
  refine Keyed.filter_overlay_kept hbase htop ?_ (keys_filterMap_kept? hnodup hnone) ?_
  · rw [keys_nulls]
    exact (Text.sorted_perm _).nodup_iff.mpr (nodup_null_names hnodup)
  · intro name hname
    rw [keys_nulls] at hname
    rw [isSet, (mem_unsetNames hnodup).mp hname]
    rfl

/-- An option to unset is asked for as null. -/
theorem get?_again_of_mem_unset (hbase : (Keyed.keys base).Nodup)
    (h : (check CompilerOptions.check (Keyed.overlay base top)).outcome = .ok checked)
    {name : String} (hname : name ∈ checked.unset) :
    Keyed.get? name (again base checked) = some .null := by
  have hused := (checked_of_check (Keyed.nodup_keys_overlay hbase) h).1
  rw [again, Keyed.get?_overlay, Keyed.last?_eq_get? (Keyed.nodup_keys_overlay hused),
    Keyed.get?_overlay, last?_nulls hname, Option.some_or, Option.some_or]

/-- An option that was not set is one to unset. -/
theorem mem_unset_of_not_isSet (hbase : (Keyed.keys base).Nodup)
    (h : (check CompilerOptions.check (Keyed.overlay base top)).outcome = .ok checked)
    {name : String} (hmem : name ∈ Keyed.keys (again base checked))
    (hset : isSet (Keyed.overlay base top) name = false) : name ∈ checked.unset := by
  have hnodup : (Keyed.keys (Keyed.overlay base top)).Nodup := Keyed.nodup_keys_overlay hbase
  obtain ⟨hnone, rfl⟩ := check_eq_ok_iff.mp h
  rw [again, Keyed.mem_keys_overlay, Keyed.mem_keys_overlay, keys_nulls,
    keys_filterMap_kept? hnodup hnone, List.mem_filter] at hmem
  have hmerged : name ∈ unsetNames (Keyed.overlay base top) ∨
      name ∈ Keyed.keys (Keyed.overlay base top) := by
    rcases hmem with hold | ⟨hused, -⟩ | hnull
    · exact Or.inr (Keyed.mem_keys_overlay.mpr (Or.inl hold))
    · exact Or.inr hused
    · exact Or.inl hnull
  rcases hmerged with hnull | hkey
  · exact hnull
  · obtain ⟨value, hvalue⟩ := Keyed.exists_get?_iff.mpr hkey
    rw [isSet, hvalue] at hset
    have hnull : value = .null := Json.isNull_iff.mp (by simpa using hset)
    exact (mem_unsetNames hnodup).mpr (hnull ▸ hvalue)

/-- The options that are asked for again have no problem, and the ones that were set are
kept. -/
theorem kept?_again (hbase : (Keyed.keys base).Nodup) (htop : (Keyed.keys top).Nodup)
    (h : (check CompilerOptions.check (Keyed.overlay base top)).outcome = .ok checked)
    {option : String × Json} (hmem : option ∈ again base checked) :
    problem? option = none ∧
      kept? option = if isSet (Keyed.overlay base top) option.1 then some option else none := by
  cases hset : isSet (Keyed.overlay base top) option.1 with
  | true =>
    have hused : option ∈ checked.used := by
      rw [← filter_again hbase htop h]
      exact List.mem_filter.mpr ⟨hmem, hset⟩
    obtain ⟨-, rfl⟩ := check_eq_ok_iff.mp h
    obtain ⟨source, -, hsource⟩ := List.mem_filterMap.mp hused
    obtain ⟨-, -, hkept, hnone⟩ := kept?_of_kept? hsource
    exact ⟨hnone, hkept⟩
  | false =>
    have hkey : option.1 ∈ Keyed.keys (again base checked) := List.mem_map_of_mem hmem
    have hvalue := get?_again_of_mem_unset hbase h (mem_unset_of_not_isSet hbase h hkey hset)
    rw [Keyed.get?_of_mem (nodup_keys_again hbase checked) hmem] at hvalue
    have hjudge : judge option.1 option.2 = .unset := by
      rw [Option.some.inj hvalue]
      rfl
    rw [problem?, kept?, hjudge]
    exact ⟨rfl, rfl⟩

/-- The check of options that are put on a part of what they came from gives the same
options again. -/
theorem check_again (hbase : (Keyed.keys base).Nodup) (htop : (Keyed.keys top).Nodup)
    (h : (check CompilerOptions.check (Keyed.overlay base top)).outcome = .ok checked) :
    (check CompilerOptions.check (again base checked)).outcome = .ok checked := by
  have hnodup : (Keyed.keys (Keyed.overlay base top)).Nodup := Keyed.nodup_keys_overlay hbase
  have hagain := nodup_keys_again hbase checked
  have hkept : (again base checked).filterMap kept? = checked.used := by
    have hguard : (again base checked).filterMap kept? = (again base checked).filterMap
        (Option.guard fun option => isSet (Keyed.overlay base top) option.1) :=
      List.filterMap_congr fun option hmem => (kept?_again hbase htop h hmem).2
    rw [hguard, List.filterMap_eq_filter, filter_again hbase htop h]
  have hunset : unsetNames (again base checked) = checked.unset := by
    have hchecked := (check_eq_ok_iff.mp h).2
    have hnames : checked.unset = unsetNames (Keyed.overlay base top) := by rw [hchecked]
    rw [hnames]
    apply unsetNames_congr hagain hnodup
    intro name
    rw [← mem_unsetNames hnodup, ← hnames]
    constructor
    · intro hnull
      have hmem := Keyed.mem_of_get?_eq_some hnull
      apply mem_unset_of_not_isSet hbase h (List.mem_map_of_mem hmem)
      apply Bool.eq_false_iff.mpr
      intro hset
      have hkeep := (kept?_again hbase htop h hmem).2
      rw [if_pos hset] at hkeep
      cases hkeep
    · exact get?_again_of_mem_unset hbase h
  refine check_eq_ok_iff.mpr ⟨fun option hmem => (kept?_again hbase htop h hmem).1, ?_⟩
  rw [hkept, hunset]

end Again

end Options

end DocPlan
