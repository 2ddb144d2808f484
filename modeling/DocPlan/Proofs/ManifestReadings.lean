import DocPlan.Proofs.ExportRoutes
import DocPlan.Proofs.Subjects

/-!
# Two readings of a manifest

The fields of a manifest are read from their own members, and the whole text is read as a
value. The first reading sees a repeated key each time it is declared; in the value it has
one place, the first, and one value, the last. What a run makes of the two is the same.

* The fields may not be repeated themselves, so each of them is the member of the value
  (`Manifest.fieldValue?_eq`).
* An object of exports looks at the last entry of a condition, and whether its keys are
  conditions or subpaths does not depend on how often they are declared. So an export
  resolves alike in both readings, at every depth (`Exports.resolveTarget_ofDocument`).
* Subpaths that are declared again collapse when they are resolved, just as members do
  (`Exports.value_subpathsOf_ofEntries`).

Main result: `Manifest.parse_readings_agree`.
-/

namespace DocPlan

/-! ## Documents without repeated keys -/

namespace Json

/-- The members of an object by the texts of their keys, in the order of declaration. -/
def named (members : List (Key × Document)) : List (String × Document) :=
  members.map fun member => (member.1.text, member.2)

/-- No object in a document declares a key twice. -/
inductive Document.Distinct : Document → Prop where
  | null : Distinct .null
  | boolean (value : Bool) : Distinct (.boolean value)
  | number (value : Number) : Distinct (.number value)
  | string (text : String) : Distinct (.string text)
  | array {items : List Document} (each : ∀ item ∈ items, Distinct item) :
      Distinct (.array items)
  | object {members : List (Key × Document)} (once : (members.map (·.1.text)).Nodup)
      (each : ∀ member ∈ members, Distinct member.2) : Distinct (.object members)

theorem keys_named (members : List (Key × Document)) :
    Keyed.keys (named members) = members.map (·.1.text) := by
  rw [Keyed.keys, named, List.map_map]
  rfl

theorem membersToJson_eq_named (members : List (Key × Document)) :
    membersToJson members = (named members).map fun entry => (entry.1, entry.2.toJson) := by
  rw [membersToJson_eq_map, named, List.map_map]
  rfl

end Json

/-! ## Exports of both readings -/

namespace Exports

open Json (named)

theorem ofDocument_object (members : List (Json.Key × Json.Document)) :
    ofDocument (.object members) =
      ofEntries ((named members).map fun entry => (entry.1, ofDocument entry.2)) := by
  rw [ofDocument, ofDocumentMembers_eq_map, named, List.map_map]
  rfl

/-- The export of an object's value is that of its members, collapsed. -/
theorem ofJson_object (members : List (Json.Key × Json.Document)) :
    ofJson (Json.Document.toJson (.object members)) = ofEntries (Keyed.collapse
      ((named members).map fun entry => (entry.1, ofJson entry.2.toJson))) := by
  have hvalues : (named members).map (fun entry => (entry.1, ofJson entry.2.toJson)) =
      (Json.membersToJson members).map fun member => (member.1, ofJson member.2) := by
    rw [Json.membersToJson_eq_named, List.map_map]
    rfl
  rw [Json.Document.toJson, ofJson, ofJsonMembers_eq_map, hvalues,
    Keyed.collapse_map fun _ => ofJson]

/-- Without repeated keys both readings give the same export. -/
theorem ofDocument_eq_ofJson {document : Json.Document} (h : document.Distinct) :
    ofDocument document = ofJson document.toJson := by
  induction h with
  | null => rfl
  | boolean => rfl
  | number => rfl
  | string => rfl
  | @array items _ ih =>
    rw [ofDocument, Json.Document.toJson, ofJson, ofDocumentItems_eq_map, ofJsonItems_eq_map,
      Json.itemsToJson_eq_map, List.map_map]
    exact congrArg Exports.fallbacks (List.map_congr_left ih)
  | @object members once _ ih =>
    have hentries : (named members).map (fun entry => (entry.1, ofDocument entry.2)) =
        (named members).map fun entry => (entry.1, ofJson entry.2.toJson) := by
      apply List.map_congr_left
      intro entry hentry
      obtain ⟨member, hmember, rfl⟩ := List.mem_map.mp hentry
      rw [ih member hmember]
    have hnodup : (Keyed.keys ((named members).map fun entry =>
        (entry.1, ofJson entry.2.toJson))).Nodup := by
      rw [Keyed.keys_map fun _ (document : Json.Document) => ofJson document.toJson,
        Json.keys_named]
      exact once
    rw [ofDocument_object, ofJson_object, hentries, Keyed.collapse_of_nodup hnodup]

/-! ## Resolving -/

theorem all_keys_collapse (p : String → Bool) {α : Type} (entries : List (String × α)) :
    (Keyed.keys (Keyed.collapse entries)).all p = (Keyed.keys entries).all p := by
  rw [Bool.eq_iff_iff, List.all_eq_true, List.all_eq_true]
  simp only [Keyed.mem_keys_collapse]

/-- An object of conditions resolves by the last entry of each of them. -/
theorem resolveTarget_conditions_eq (names : List String) (key : String)
    (entries : List (String × Exports)) :
    resolveTarget names key (.conditions entries) =
      firstResolved (names.filterMap fun name =>
        (Keyed.last? name entries).map (resolveTarget names key)) := by
  rw [resolveTarget, resolveEntries_eq_map, chosen]
  simp only [Keyed.last?_map]

/-- An object resolves by the last entry of each condition, if all its keys are
conditions. -/
theorem resolveTarget_ofEntries (names : List String) (key : String)
    (entries : List (String × Exports)) :
    resolveTarget names key (ofEntries entries) =
      if (Keyed.keys entries).all (!isSubpathKey ·) then
        firstResolved (names.filterMap fun name =>
          (Keyed.last? name entries).map (resolveTarget names key))
      else rejected key "nests subpath keys inside a target" := by
  have hall : (Keyed.keys entries).all (!isSubpathKey ·) =
      entries.all fun entry => !isSubpathKey entry.1 := by
    rw [Keyed.keys, List.all_map]
    rfl
  rw [hall, ofEntries]
  split
  next => exact resolveTarget_conditions_eq names key entries
  next => split <;> rfl

/-- An export resolves alike in both readings. -/
theorem resolveTarget_ofDocument (names : List String) (key : String)
    (document : Json.Document) :
    resolveTarget names key (ofDocument document) =
      resolveTarget names key (ofJson document.toJson) := by
  induction document with
  | null => rfl
  | boolean => rfl
  | number => rfl
  | string => rfl
  | array items ih =>
    rw [ofDocument, Json.Document.toJson, ofJson, resolveTarget, resolveTarget,
      resolveItems_eq_map, resolveItems_eq_map, ofDocumentItems_eq_map, ofJsonItems_eq_map,
      Json.itemsToJson_eq_map, List.map_map, List.map_map, List.map_map]
    exact congrArg firstResolved (List.map_congr_left ih)
  | object members ih =>
    have hlast : ∀ name, (Keyed.last? name ((named members).map fun entry =>
          (entry.1, ofDocument entry.2))).map (resolveTarget names key) =
        (Keyed.last? name ((named members).map fun entry =>
          (entry.1, ofJson entry.2.toJson))).map (resolveTarget names key) := by
      intro name
      rw [Keyed.last?_map, Keyed.last?_map fun document : Json.Document => ofJson document.toJson]
      cases hfound : Keyed.last? name (named members) with
      | none => rfl
      | some document =>
        obtain ⟨before, after, hsplit, -⟩ := Keyed.last?_eq_some_iff.mp hfound
        have hentry : (name, document) ∈ named members := by simp [hsplit]
        obtain ⟨member, hmember, heq⟩ := List.mem_map.mp hentry
        obtain rfl : member.2 = document := congrArg Prod.snd heq
        exact congrArg some (ih member hmember)
    rw [ofDocument_object, ofJson_object, resolveTarget_ofEntries, resolveTarget_ofEntries,
      all_keys_collapse, Keyed.keys_map fun _ => ofDocument,
      Keyed.keys_map fun _ (document : Json.Document) => ofJson document.toJson]
    simp only [Keyed.last?_collapse, hlast]

/-! ## Subpaths -/

theorem value_declaredSubpaths (entries : List (String × Exports)) :
    (declaredSubpaths entries).value =
      Keyed.collapse (entries.filter fun entry => isSubpathKey entry.1) := by
  have hstep : (fun declared entry => (declare declared entry).value) =
      fun (declared : List (String × Exports)) entry => Keyed.put entry.1 entry.2 declared := by
    funext declared entry
    unfold declare
    split <;> rfl
  rw [declaredSubpaths, Noted.value_foldlM, hstep]
  rfl

/-- The subpaths of an object: the object itself under one name, if its keys are
conditions, and else its subpaths, each once. -/
theorem value_subpathsOf_ofEntries (entries : List (String × Exports)) :
    (subpathsOf (ofEntries entries)).value =
      if (Keyed.keys entries).all (!isSubpathKey ·) then [(".", ofEntries entries)]
      else Keyed.collapse (entries.filter fun entry => isSubpathKey entry.1) := by
  have hall : (Keyed.keys entries).all (!isSubpathKey ·) =
      entries.all fun entry => !isSubpathKey entry.1 := by
    rw [Keyed.keys, List.all_map]
    rfl
  rw [hall]
  unfold ofEntries
  split
  next => rfl
  next =>
    split
    next => exact value_declaredSubpaths entries
    next => exact value_declaredSubpaths entries

/-- What subpaths resolve to. -/
def resolvedBy (names : List String) (subpaths : List (String × Exports)) :
    List (String × Option String) :=
  subpaths.map fun entry => (entry.1, (resolveTarget names entry.1 entry.2).value)

/-- Both readings have the same subpaths, and these resolve alike. -/
theorem resolvedBy_subpathsOf_ofDocument (names : List String) (document : Json.Document) :
    resolvedBy names (subpathsOf (ofDocument document)).value =
      resolvedBy names (subpathsOf (ofJson document.toJson)).value := by
  have hroot : ∀ a b : Exports, resolveTarget names "." a = resolveTarget names "." b →
      resolvedBy names [(".", a)] = resolvedBy names [(".", b)] := by
    intro a b h
    simp [resolvedBy, h]
  cases document with
  | null => rfl
  | boolean => rfl
  | number => rfl
  | string => rfl
  | array items => exact hroot _ _ (resolveTarget_ofDocument names "." (.array items))
  | object members =>
    have hsame := resolveTarget_ofDocument names "." (.object members)
    rw [ofDocument_object, ofJson_object] at hsame ⊢
    rw [value_subpathsOf_ofEntries, value_subpathsOf_ofEntries, all_keys_collapse,
      Keyed.keys_map fun _ => ofDocument,
      Keyed.keys_map fun _ (document : Json.Document) => ofJson document.toJson]
    split
    next => exact hroot _ _ hsame
    next =>
      have hcollapse : ∀ entries : List (String × Exports),
          resolvedBy names (Keyed.collapse entries) =
            Keyed.collapse (resolvedBy names entries) := fun entries =>
        (Keyed.collapse_map (fun key item => (resolveTarget names key item).value) entries).symm
      rw [← Keyed.collapse_filter, Keyed.collapse_of_nodup (Keyed.nodup_keys_collapse _),
        hcollapse, hcollapse, List.filter_map, List.filter_map, resolvedBy, resolvedBy,
        List.map_map, List.map_map]
      refine congrArg Keyed.collapse (List.map_congr_left fun entry _ => ?_)
      exact congrArg (fun found => (entry.1, found.value))
        (resolveTarget_ofDocument names entry.1 entry.2)

/-- Adds what a subpath resolved to to a table. -/
def addResolved (directory : FilePath) (table : ExportTable) (found : String × Option String) :
    ExportTable :=
  match found.2 with
  | some text => table.insert found.1 (directory.absolutize (FilePath.ofString text))
  | none => table

/-- A table is made of what the subpaths resolve to. -/
theorem value_resolve (exports : Exports) (directory : FilePath) (conditions : Conditions) :
    (resolve (some exports) directory conditions).value =
      (resolvedBy conditions.names (subpathsOf exports).value).foldl
        (addResolved directory) .empty := by
  have hstep : (fun table entry => (resolveSubpath directory conditions table entry).value) =
      fun (table : ExportTable) (entry : String × Exports) => addResolved directory table
        (entry.1, (resolveTarget conditions.names entry.1 entry.2).value) := by
    funext table entry
    exact value_resolveSubpath directory conditions table entry
  rw [resolvedBy, List.foldl_map, ← hstep, ← Noted.value_foldlM]
  rfl

/-- Both readings of an export give the same table. -/
theorem resolve_ofDocument (document : Json.Document) (directory : FilePath)
    (conditions : Conditions) :
    (resolve (some (ofDocument document)) directory conditions).value =
      (resolve (some (ofJson document.toJson)) directory conditions).value := by
  rw [value_resolve, value_resolve, resolvedBy_subpathsOf_ofDocument]

end Exports

/-! ## Fields -/

namespace Manifest

/-- No field is repeated when each of them is declared once at most. -/
theorem repeatedField?_eq_none_iff {seen : List String} {keys : List Json.Key} :
    repeatedField? seen keys = none ↔ ∀ field ∈ fieldNames,
      (keys.map (·.text)).count field ≤ 1 ∧ (field ∈ seen → field ∉ keys.map (·.text)) := by
  induction keys generalizing seen with
  | nil => simp [repeatedField?]
  | cons key rest ih =>
    rw [repeatedField?]
    split
    next hrepeated =>
      constructor
      · intro hnone
        cases hnone
      · intro hall
        exact absurd (by simp) ((hall key.text hrepeated.1).2 hrepeated.2)
    next hfresh =>
      rw [ih]
      apply forall₂_congr
      intro field hfield
      rw [List.map_cons, List.count_cons]
      by_cases hkey : key.text = field
      · subst hkey
        have hseen : key.text ∉ seen := fun hmem => hfresh ⟨hfield, hmem⟩
        constructor
        · rintro ⟨-, hout⟩
          have hzero := List.count_eq_zero.mpr (hout List.mem_cons_self)
          exact ⟨by simp [hzero], fun hmem => absurd hmem hseen⟩
        · rintro ⟨honce, -⟩
          have hzero : (rest.map (·.text)).count key.text = 0 := by simpa using honce
          exact ⟨by omega, fun _ => List.count_eq_zero.mp hzero⟩
      · have hne : field ≠ key.text := fun heq => hkey heq.symm
        simp [hkey, hne]

/-- A field that is declared once at most is a member of the value. -/
theorem fieldValue?_eq {members : List (Json.Key × Json.Document)} {field : String}
    (h : (members.map (·.1.text)).count field ≤ 1) :
    fieldValue? members field =
      Keyed.get? field (Keyed.collapse (Json.membersToJson members)) := by
  have hfirst : fieldValue? members field = Keyed.get? field (Json.membersToJson members) := by
    rw [Json.membersToJson_eq_map, fieldValue?, fieldDocument?]
    clear h
    induction members with
    | nil => rfl
    | cons member rest ih =>
      by_cases hkey : member.1.text = field
      · simp [Keyed.get?, hkey]
      · simpa [Keyed.get?, hkey] using ih
  have honce : (Keyed.keys (Json.membersToJson members)).count field ≤ 1 := by
    rw [Json.membersToJson_eq_map, Keyed.keys, List.map_map]
    exact h
  rw [hfirst, ← Keyed.last?_eq_get? (Keyed.nodup_keys_collapse _), Keyed.last?_collapse,
    Keyed.last?_eq_get?_of_count honce]

/-- The exports of a manifest resolve like those of the value; without exports nothing is
resolved. -/
theorem resolve_exportsOf? (members : List (Json.Key × Json.Document)) (directory : FilePath)
    (conditions : Conditions) :
    (Exports.resolve (exportsOf? members) directory conditions).value =
      (Exports.resolve (some (Exports.ofJson ((fieldValue? members "exports").getD .null)))
        directory conditions).value := by
  unfold exportsOf? fieldValue?
  split
  next hnone => rw [hnone]; rfl
  next hnull => rw [hnull]; rfl
  next document _ hdocument =>
    rw [hdocument]
    exact Exports.resolve_ofDocument document directory conditions

/-- Exports in which no object repeats a key are read as the value is. -/
theorem exportsOf?_of_distinct {members : List (Json.Key × Json.Document)}
    {document : Json.Document} (hdocument : fieldDocument? members "exports" = some document)
    (hsome : document ≠ .null) (hdistinct : document.Distinct) :
    exportsOf? members = (fieldValue? members "exports").map Exports.ofJson := by
  unfold exportsOf? fieldValue?
  rw [hdocument]
  cases document with
  | null => exact absurd rfl hsome
  | _ => exact congrArg some (Exports.ofDocument_eq_ofJson hdistinct)

/-- The members of a manifest are read when each field is declared once at most. -/
theorem readMembers_eq_ok_iff_once {path : FilePath} {source : String}
    {members : List (Json.Key × Json.Document)} :
    readMembers path source = .ok members ↔
      Json.Document.read source = .ok (.object members) ∧
        ∀ field ∈ fieldNames, (members.map (·.1.text)).count field ≤ 1 := by
  rw [readMembers_eq_ok_iff, repeatedField?_eq_none_iff, List.map_map]
  simp only [List.not_mem_nil, false_implies, and_true]
  exact Iff.rfl

/-- Reading a manifest succeeds exactly when the text is an object in which no field that a
run reads is declared twice. What is read then agrees with the value of the text: the texts
of the fields, what the exports resolve to, and, if no object in the exports repeats a key,
the exports themselves. -/
theorem parse_readings_agree (path : FilePath) (source : String) :
    ((∃ manifest, (parse path source).outcome = .ok manifest) ↔
      ∃ members, Json.Document.read source = .ok (.object members) ∧
        ∀ field ∈ ["name", "exports", "types", "typings"],
          (members.map (·.1.text)).count field ≤ 1) ∧
    ∀ manifest, (parse path source).outcome = .ok manifest →
      Json.read source = .ok (.object manifest.raw) ∧
      manifest.name = (Keyed.get? "name" manifest.raw).bind Json.string? ∧
      manifest.types = (Keyed.get? "types" manifest.raw).bind Json.string? ∧
      manifest.typings = (Keyed.get? "typings" manifest.raw).bind Json.string? ∧
      (∀ directory conditions,
        (Exports.resolve manifest.exports directory conditions).value =
          (Exports.resolve
            (some (Exports.ofJson ((Keyed.get? "exports" manifest.raw).getD .null)))
            directory conditions).value) ∧
      ∀ members document, Json.Document.read source = .ok (.object members) →
        fieldDocument? members "exports" = some document → document ≠ .null →
        document.Distinct →
        manifest.exports = (Keyed.get? "exports" manifest.raw).map Exports.ofJson := by
  constructor
  · constructor
    · rintro ⟨manifest, hmanifest⟩
      obtain ⟨members, hmembers, -⟩ := parse_eq_ok_iff.mp hmanifest
      exact ⟨members, readMembers_eq_ok_iff_once.mp hmembers⟩
    · rintro ⟨members, hmembers⟩
      exact ⟨_, parse_eq_ok_iff.mpr ⟨members, readMembers_eq_ok_iff_once.mpr hmembers, rfl⟩⟩
  · intro manifest hmanifest
    obtain ⟨members, hmembers, rfl⟩ := parse_eq_ok_iff.mp hmanifest
    obtain ⟨hsource, honce⟩ := readMembers_eq_ok_iff_once.mp hmembers
    have hvalue : ∀ field ∈ fieldNames, Keyed.get? field (ofMembers path members).raw =
        fieldValue? members field := fun field hfield => (fieldValue?_eq (honce field hfield)).symm
    rw [hvalue "name" (by decide), hvalue "types" (by decide), hvalue "typings" (by decide),
      hvalue "exports" (by decide)]
    refine ⟨?_, rfl, rfl, rfl, resolve_exportsOf? members, ?_⟩
    · rw [Json.read, hsource]
      rfl
    · intro others document hothers hdocument hsome hdistinct
      obtain rfl : members = others :=
        Json.Document.object.inj (Except.ok.inj (hsource.symm.trans hothers))
      exact exportsOf?_of_distinct hdocument hsome hdistinct

/-- A manifest in which a key repeats that no run reads. -/
def exampleText : String :=
  "\x7b\"os\":\"x\",\"name\":\"a\",\"exports\":\x7b\"types\":\"./a.d.ts\"\x7d,\"os\":\"y\"\x7d"

theorem parse_readings_agree_of_example :
    ∃ manifest, (parse (FilePath.ofString "/a/package.json") exampleText).outcome = .ok manifest ∧
      manifest.name = some "a" ∧
      manifest.name = (Keyed.get? "name" manifest.raw).bind Json.string? ∧
      (Exports.resolve manifest.exports manifest.directory Conditions.standard).value =
        (Exports.resolve
          (some (Exports.ofJson ((Keyed.get? "exports" manifest.raw).getD .null)))
          manifest.directory Conditions.standard).value ∧
      manifest.exports = (Keyed.get? "exports" manifest.raw).map Exports.ofJson := by
  have hsource : Json.Document.read exampleText = .ok (.object
      [(⟨"os", 56⟩, .string "x"), (⟨"name", 45⟩, .string "a"),
       (⟨"exports", 31⟩, .object [(⟨"types", 22⟩, .string "./a.d.ts")]),
       (⟨"os", 5⟩, .string "y")]) := rfl
  obtain ⟨haccepts, hagrees⟩ :=
    parse_readings_agree (FilePath.ofString "/a/package.json") exampleText
  obtain ⟨manifest, hmanifest⟩ := haccepts.mpr ⟨_, hsource, by decide⟩
  obtain ⟨-, hname, -, -, hresolve, hexports⟩ := hagrees manifest hmanifest
  obtain ⟨members, hmembers, rfl⟩ := parse_eq_ok_iff.mp hmanifest
  obtain rfl := Json.Document.object.inj (Except.ok.inj
    (hsource.symm.trans (readMembers_eq_ok_iff.mp hmembers).1))
  have hdistinct : Json.Document.Distinct (.object [(⟨"types", 22⟩, .string "./a.d.ts")]) :=
    .object (by decide) (by
      intro member hmember
      obtain rfl := List.mem_singleton.mp hmember
      exact .string _)
  exact ⟨_, hmanifest, rfl, hname, hresolve _ _,
    hexports _ _ hsource rfl (by simp) hdistinct⟩

end Manifest

end DocPlan
