import DocPlan.Proofs.ManifestReadings
import Mathlib.Logic.Relation

/-!
# Edits that no run can see

An object of conditions is asked for some names only, and of the entries of a name only the
last is looked at. So whatever an edit does to the other entries, or to the order of entries
with different names, the object resolves as before: to the same target, and with the same
reports on the way (`Exports.Edit.resolveTarget_eq`). The edit may be made at any depth.

The subpaths of a package keep their names and their order under such an edit, so the whole
package resolves as before (`Exports.Edit.resolve_eq`), also after many edits
(`Exports.resolve_eq_of_edits`).
-/

namespace DocPlan.Exports

/-! ## Edits -/

/-- One edit inside an object of conditions, at any depth of an export, that a run asking for
some names has no business seeing. -/
inductive Edit (names : List String) : Exports → Exports → Prop where
  /-- An entry is added for a condition that is not asked for. -/
  | add {before after : List (String × Exports)} {name : String} {item : Exports}
      (unasked : name ∉ names) :
      Edit names (.conditions (before ++ after)) (.conditions (before ++ (name, item) :: after))
  /-- An entry for a condition that is not asked for is removed. -/
  | remove {before after : List (String × Exports)} {name : String} {item : Exports}
      (unasked : name ∉ names) :
      Edit names (.conditions (before ++ (name, item) :: after)) (.conditions (before ++ after))
  /-- An entry for a condition that is not asked for is replaced by another such entry. -/
  | replace {before after : List (String × Exports)} {name other : String}
      {item instead : Exports} (unasked : name ∉ names) (unwanted : other ∉ names) :
      Edit names (.conditions (before ++ (name, item) :: after))
        (.conditions (before ++ (other, instead) :: after))
  /-- An entry is removed that a later one for the same condition shadows. -/
  | unshadow {before after : List (String × Exports)} {name : String} {item : Exports}
      (shadowed : name ∈ Keyed.keys after) :
      Edit names (.conditions (before ++ (name, item) :: after)) (.conditions (before ++ after))
  /-- Entries change places, but not those for the same condition among each other. -/
  | permute {entries others : List (String × Exports)} (perm : entries.Perm others)
      (stable : ∀ name, entries.filter (·.1 = name) = others.filter (·.1 = name)) :
      Edit names (.conditions entries) (.conditions others)
  | inFallbacks {before after : List Exports} {item edited : Exports}
      (below : Edit names item edited) :
      Edit names (.fallbacks (before ++ item :: after)) (.fallbacks (before ++ edited :: after))
  | inConditions {before after : List (String × Exports)} {name : String}
      {item edited : Exports} (below : Edit names item edited) :
      Edit names (.conditions (before ++ (name, item) :: after))
        (.conditions (before ++ (name, edited) :: after))
  | inSubpaths {before after : List (String × Exports)} {name : String}
      {item edited : Exports} (below : Edit names item edited) :
      Edit names (.subpaths (before ++ (name, item) :: after))
        (.subpaths (before ++ (name, edited) :: after))
  | inMixed {before after : List (String × Exports)} {name : String}
      {item edited : Exports} (below : Edit names item edited) :
      Edit names (.mixed (before ++ (name, item) :: after))
        (.mixed (before ++ (name, edited) :: after))

/-! ## Resolving one export -/

section

variable {names : List String}

/-- An object of conditions is told by the last entry of each name that is asked for. -/
theorem resolveTarget_conditions_congr (key : String) {entries others : List (String × Exports)}
    (h : ∀ name ∈ names, Keyed.last? name entries = Keyed.last? name others) :
    resolveTarget names key (.conditions entries) =
      resolveTarget names key (.conditions others) := by
  rw [resolveTarget_conditions_eq, resolveTarget_conditions_eq]
  refine congrArg firstResolved (List.filterMap_congr ?_)
  intro name hname
  rw [h name hname]

/-- An entry for another name is not the last of a name. -/
theorem last?_insert_of_ne {before after : List (String × Exports)} {name other : String}
    (hne : other ≠ name) (item : Exports) :
    Keyed.last? name (before ++ (other, item) :: after) = Keyed.last? name (before ++ after) := by
  rw [Keyed.last?_append, Keyed.last?_append, Keyed.last?, if_neg hne, Option.or_none]

/-- An edit leaves an export resolving as before, and reporting the same on the way. -/
theorem Edit.resolveTarget_eq {exports edited : Exports} (h : Edit names exports edited)
    (key : String) : resolveTarget names key exports = resolveTarget names key edited := by
  have hne : ∀ {name other : String}, other ∉ names → name ∈ names → other ≠ name :=
    fun hout hname heq => hout (heq ▸ hname)
  induction h with
  | add unasked =>
    apply resolveTarget_conditions_congr
    intro name hname
    exact (last?_insert_of_ne (hne unasked hname) _).symm
  | remove unasked =>
    apply resolveTarget_conditions_congr
    intro name hname
    exact last?_insert_of_ne (hne unasked hname) _
  | replace unasked unwanted =>
    apply resolveTarget_conditions_congr
    intro name hname
    rw [last?_insert_of_ne (hne unasked hname), last?_insert_of_ne (hne unwanted hname)]
  | @unshadow before after name item shadowed =>
    apply resolveTarget_conditions_congr
    intro other _
    by_cases heq : name = other
    · obtain ⟨found, hfound⟩ : ∃ found, Keyed.last? other after = some found := by
        rw [← Option.ne_none_iff_exists', ne_eq, Keyed.last?_eq_none_iff, ← heq]
        exact fun hout => hout shadowed
      rw [Keyed.last?_append, Keyed.last?_append, Keyed.last?, hfound, Option.some_or]
    · exact last?_insert_of_ne heq item
  | permute _ stable =>
    apply resolveTarget_conditions_congr
    intro name _
    rw [← Keyed.last?_filter_self, stable name, Keyed.last?_filter_self]
  | inFallbacks _ ih =>
    rw [resolveTarget, resolveTarget, resolveItems_eq_map, resolveItems_eq_map, List.map_append,
      List.map_append, List.map_cons, List.map_cons, ih]
  | inConditions _ ih =>
    rw [resolveTarget, resolveTarget, resolveEntries_eq_map, resolveEntries_eq_map,
      List.map_append, List.map_append, List.map_cons, List.map_cons, ih]
  | inSubpaths => rfl
  | inMixed => rfl

/-! ## Resolving a package -/

/-- What resolving makes of each subpath, the reports on the way included. -/
def outcomes (names : List String) (subpaths : List (String × Exports)) :
    List (String × Noted (Option String)) :=
  subpaths.map fun entry => (entry.1, resolveTarget names entry.1 entry.2)

theorem keys_eq_of_outcomes_eq {entries others : List (String × Exports)}
    (h : outcomes names entries = outcomes names others) :
    Keyed.keys entries = Keyed.keys others := by
  rw [← Keyed.keys_map fun key => resolveTarget names key,
    ← Keyed.keys_map (fun key => resolveTarget names key) others]
  exact congrArg Keyed.keys h

theorem outcomes_put (key : String) (item : Exports) (entries : List (String × Exports)) :
    outcomes names (Keyed.put key item entries) =
      Keyed.put key (resolveTarget names key item) (outcomes names entries) :=
  (Keyed.put_map (fun key item => resolveTarget names key item) key item entries).symm

/-- Subpaths that resolve alike are declared alike. -/
theorem declare_alike {declared others : List (String × Exports)} {entry other : String × Exports}
    (hdeclared : outcomes names declared = outcomes names others)
    (hentry : (entry.1, resolveTarget names entry.1 entry.2) =
      (other.1, resolveTarget names other.1 other.2)) :
    (declare declared entry).diagnostics = (declare others other).diagnostics ∧
      outcomes names (declare declared entry).value =
        outcomes names (declare others other).value := by
  obtain ⟨key, item⟩ := entry
  obtain ⟨key', item'⟩ := other
  obtain ⟨rfl, hitem⟩ := Prod.mk.inj hentry
  have hvalue : ∀ (declared : List (String × Exports)) (item : Exports),
      (declare declared (key, item)).value = Keyed.put key item declared := by
    intro declared item
    unfold declare
    split <;> rfl
  constructor
  · unfold declare
    rw [keys_eq_of_outcomes_eq hdeclared]
    split <;> rfl
  · rw [hvalue, hvalue, outcomes_put, outcomes_put, hdeclared, hitem]

/-- The subpaths of entries that resolve alike resolve alike, and repeated declarations are
reported alike. -/
theorem declaredSubpaths_alike {entries others : List (String × Exports)}
    (h : outcomes names entries = outcomes names others) :
    (declaredSubpaths entries).diagnostics = (declaredSubpaths others).diagnostics ∧
      outcomes names (declaredSubpaths entries).value =
        outcomes names (declaredSubpaths others).value := by
  have hfold : ∀ {entries others declared declared' : List (String × Exports)},
      outcomes names entries = outcomes names others →
      outcomes names declared = outcomes names declared' →
      (entries.foldlM declare declared).diagnostics = (others.foldlM declare declared').diagnostics ∧
        outcomes names (entries.foldlM declare declared).value =
          outcomes names (others.foldlM declare declared').value := by
    intro entries
    induction entries with
    | nil =>
      intro others declared declared' hentries hdeclared
      obtain rfl : others = [] := List.map_eq_nil_iff.mp hentries.symm
      exact ⟨rfl, hdeclared⟩
    | cons entry rest ih =>
      intro others declared declared' hentries hdeclared
      cases others with
      | nil => cases hentries
      | cons other more =>
        obtain ⟨hentry, hrest⟩ := List.cons.inj hentries
        obtain ⟨hdiagnostics, hvalue⟩ := declare_alike hdeclared hentry
        obtain ⟨hlater, hresult⟩ := ih hrest hvalue
        rw [List.foldlM_cons, List.foldlM_cons, Noted.diagnostics_bind, Noted.diagnostics_bind,
          Noted.value_bind, Noted.value_bind, hdiagnostics, hlater]
        exact ⟨rfl, hresult⟩
  have hfilter : ∀ entries : List (String × Exports),
      outcomes names (entries.filter fun entry => isSubpathKey entry.1) =
        (outcomes names entries).filter fun entry => isSubpathKey entry.1 := by
    intro entries
    rw [outcomes, outcomes, List.filter_map]
    rfl
  exact hfold (by rw [hfilter, hfilter, h]) rfl

/-- An edited package has the same subpaths, which resolve as before. -/
theorem Edit.subpathsOf_alike {exports edited : Exports} (h : Edit names exports edited) :
    (subpathsOf exports).diagnostics = (subpathsOf edited).diagnostics ∧
      outcomes names (subpathsOf exports).value = outcomes names (subpathsOf edited).value := by
  have hroot : outcomes names [(".", exports)] = outcomes names [(".", edited)] :=
    congrArg (fun result => [(".", result)]) (h.resolveTarget_eq ".")
  have hinside : ∀ {before after : List (String × Exports)} {name : String}
      {item edited : Exports}, Edit names item edited →
      outcomes names (before ++ (name, item) :: after) =
        outcomes names (before ++ (name, edited) :: after) := by
    intro before after name item edited hedit
    rw [outcomes, outcomes, List.map_append, List.map_append, List.map_cons, List.map_cons,
      hedit.resolveTarget_eq name]
  cases h with
  | inSubpaths below => exact declaredSubpaths_alike (hinside below)
  | @inMixed before after name item edited below =>
    have hentries : outcomes names (before ++ (name, item) :: after) =
        outcomes names (before ++ (name, edited) :: after) := hinside below
    obtain ⟨hdiagnostics, hvalue⟩ := declaredSubpaths_alike hentries
    refine ⟨?_, hvalue⟩
    unfold subpathsOf
    rw [Noted.diagnostics_bind, Noted.diagnostics_bind, keys_eq_of_outcomes_eq hentries,
      hdiagnostics]
  | _ => exact ⟨rfl, hroot⟩

end

/-- A table is made of what the subpaths resolve to, and so is what is reported on the way. -/
theorem foldlM_resolveSubpath_congr (directory : FilePath) (conditions : Conditions)
    {subpaths others : List (String × Exports)}
    (h : outcomes conditions.names subpaths = outcomes conditions.names others)
    (table : ExportTable) :
    subpaths.foldlM (resolveSubpath directory conditions) table =
      others.foldlM (resolveSubpath directory conditions) table := by
  induction subpaths generalizing others table with
  | nil =>
    obtain rfl : others = [] := List.map_eq_nil_iff.mp h.symm
    rfl
  | cons entry rest ih =>
    cases others with
    | nil => cases h
    | cons other more =>
      obtain ⟨hentry, hrest⟩ := List.cons.inj h
      obtain ⟨hkey, hresolved⟩ := Prod.mk.inj hentry
      have hstep : resolveSubpath directory conditions table entry =
          resolveSubpath directory conditions table other := by
        unfold resolveSubpath
        rw [hresolved, hkey]
      rw [List.foldlM_cons, List.foldlM_cons, hstep]
      exact congrArg _ (funext fun next => ih hrest next)

/-- A package resolves as before after an edit. -/
theorem Edit.resolve_eq {conditions : Conditions} {exports edited : Exports}
    (h : Edit conditions.names exports edited) (directory : FilePath) :
    resolve (some exports) directory conditions = resolve (some edited) directory conditions := by
  obtain ⟨hdiagnostics, houtcomes⟩ := h.subpathsOf_alike
  have htable := foldlM_resolveSubpath_congr directory conditions houtcomes .empty
  have hsteps : ∀ exports, resolve (some exports) directory conditions =
      let rest := (subpathsOf exports).value.foldlM (resolveSubpath directory conditions) .empty
      ⟨(subpathsOf exports).diagnostics ++ rest.diagnostics, rest.value⟩ := fun _ => rfl
  rw [hsteps, hsteps, hdiagnostics, htable]

/-- Edits that a run asking for some conditions has no business seeing change nothing for it:
the package resolves to the same table, and what is reported on the way is the same, message
for message. -/
theorem resolve_eq_of_edits (conditions : Conditions) (directory : FilePath)
    (exports edited : Exports)
    (h : Relation.ReflTransGen (Edit conditions.names) exports edited) :
    (resolve (some exports) directory conditions).value =
        (resolve (some edited) directory conditions).value ∧
      (resolve (some exports) directory conditions).diagnostics =
        (resolve (some edited) directory conditions).diagnostics := by
  have hall : resolve (some exports) directory conditions =
      resolve (some edited) directory conditions := by
    induction h with
    | refl => rfl
    | tail _ hedit ih => exact ih.trans (hedit.resolve_eq directory)
  exact ⟨congrArg Noted.value hall, congrArg Noted.diagnostics hall⟩

/-- A package with a condition that nobody asks for, and a target that is declared again. -/
def exampleOriginal : Exports :=
  .subpaths [("./a", .conditions [("import", .target "./../a.js"), ("types", .target "./old.d.ts"),
    ("default", .null), ("types", .target "./a.d.ts")])]

/-- The same package with what counts only, in another order. -/
def exampleEdited : Exports :=
  .subpaths [("./a", .conditions [("types", .target "./a.d.ts"), ("default", .null)])]

theorem resolve_eq_of_edits_of_example :
    Relation.ReflTransGen (Edit Conditions.standard.names) exampleOriginal exampleEdited ∧
      (resolve (some exampleOriginal) (FilePath.ofString "/p") Conditions.standard).value =
        (resolve (some exampleEdited) (FilePath.ofString "/p") Conditions.standard).value ∧
      (resolve (some exampleOriginal) (FilePath.ofString "/p") Conditions.standard).diagnostics =
        [⟨.info, "EXPORT_RESOLVED", "exports[\"./a\"] -> /p/a.d.ts"⟩] := by
  have hremoved : Edit Conditions.standard.names exampleOriginal
      (.subpaths [("./a", .conditions [("types", .target "./old.d.ts"), ("default", .null),
        ("types", .target "./a.d.ts")])]) :=
    @Edit.inSubpaths _ [] _ _ _ _ (@Edit.remove _ [] _ _ _ (by decide))
  have hunshadowed : Edit Conditions.standard.names
      (.subpaths [("./a", .conditions [("types", .target "./old.d.ts"), ("default", .null),
        ("types", .target "./a.d.ts")])])
      (.subpaths [("./a", .conditions [("default", .null), ("types", .target "./a.d.ts")])]) :=
    @Edit.inSubpaths _ [] _ _ _ _ (@Edit.unshadow _ [] _ _ _ (by decide))
  have hpermuted : Edit Conditions.standard.names
      (.subpaths [("./a", .conditions [("default", .null), ("types", .target "./a.d.ts")])])
      exampleEdited := by
    refine @Edit.inSubpaths _ [] _ _ _ _ (.permute (.swap _ _ _) ?_)
    intro name
    by_cases htypes : "types" = name
    · subst htypes
      rfl
    · simp [List.filter_cons, htypes]
  have hedits : Relation.ReflTransGen (Edit Conditions.standard.names) exampleOriginal
      exampleEdited := ((Relation.ReflTransGen.single hremoved).tail hunshadowed).tail hpermuted
  obtain ⟨hvalue, hdiagnostics⟩ := resolve_eq_of_edits Conditions.standard (FilePath.ofString "/p")
    exampleOriginal exampleEdited hedits
  exact ⟨hedits, hvalue, hdiagnostics.trans (by decide +kernel)⟩

end DocPlan.Exports
