import DocPlan.LinkPlugin
import DocPlan.ModuleNames
import DocPlan.Proofs.Overlay

/-!
# Link plugins and display names

Both are lists that grow at the end and repeat nothing: a link plugin is added once, and
a module is named once. Adding what a list holds, in the order of the list, gives the
list again (`LinkPlugin.ofNames_names`, `ModuleNames.ofList_entries`).
-/

namespace DocPlan

/-! ## Link plugins -/

namespace LinkPlugin

theorem ofName?_name (plugin : LinkPlugin) : ofName? plugin.name = some plugin := by
  cases plugin <;> decide

theorem nodup_addTo {plugins : List LinkPlugin} (h : plugins.Nodup) (plugin : LinkPlugin) :
    (addTo plugins plugin).Nodup := by
  unfold addTo
  split
  next => exact h
  next hout =>
    refine List.nodup_append.mpr ⟨h, by simp, ?_⟩
    rintro known hknown other hother rfl
    exact hout (List.mem_singleton.mp hother ▸ hknown)

theorem nodup_foldl_addTo {plugins : List LinkPlugin} (h : plugins.Nodup)
    (others : List LinkPlugin) : (others.foldl addTo plugins).Nodup := by
  induction others generalizing plugins with
  | nil => exact h
  | cons plugin rest ih => exact ih (nodup_addTo h plugin)

/-- Plugins that follow each other without repetition are all added. -/
theorem foldl_addTo_of_nodup {plugins others : List LinkPlugin}
    (h : (plugins ++ others).Nodup) : others.foldl addTo plugins = plugins ++ others := by
  induction others generalizing plugins with
  | nil => rw [List.foldl_nil, List.append_nil]
  | cons plugin rest ih =>
    have hsplit : plugins ++ plugin :: rest = plugins ++ [plugin] ++ rest := by simp
    have hout : plugin ∉ plugins := fun hmem =>
      (List.nodup_append.mp h).2.2 plugin hmem plugin List.mem_cons_self rfl
    rw [List.foldl_cons, addTo, if_neg hout, ih (hsplit ▸ h), hsplit]

/-- The plugins of some names are found by adding those that are known. -/
theorem value_ofNames (names : List String) :
    (ofNames names).value = (names.filterMap ofName?).foldl addTo [] := by
  have hfrom : ∀ plugins, (names.foldlM addNamed plugins).value =
      (names.filterMap ofName?).foldl addTo plugins := by
    induction names with
    | nil => exact fun plugins => rfl
    | cons name rest ih =>
      intro plugins
      rw [List.foldlM_cons, Noted.value_bind, ih, List.filterMap_cons, addNamed]
      cases ofName? name <;> rfl
  exact hfrom []

theorem nodup_value_ofNames (names : List String) : (ofNames names).value.Nodup := by
  rw [value_ofNames]
  exact nodup_foldl_addTo List.nodup_nil _

/-- The names of plugins stand for these plugins. -/
theorem ofNames_names {plugins : List LinkPlugin} (h : plugins.Nodup) :
    (ofNames (plugins.map name)).value = plugins := by
  have hknown : (plugins.map name).filterMap ofName? = plugins := by
    have hcomp : ofName? ∘ name = some := funext ofName?_name
    rw [List.filterMap_map, hcomp, List.filterMap_some]
  have hall : plugins.foldl addTo [] = [] ++ plugins := foldl_addTo_of_nodup h
  rw [value_ofNames, hknown, hall, List.nil_append]

theorem resolve_eq_ok_iff {names : List String} {plugins : List LinkPlugin} :
    (resolve names).outcome = .ok plugins ↔
      (ofNames names).value = plugins ∧ checkExclusive plugins = .ok () := by
  unfold resolve
  simp only [Report.outcome_bind, Error.bind_eq_ok_iff, Report.outcome_noted,
    Report.outcome_except, Report.outcome_pure, Except.ok.injEq]
  constructor
  · rintro ⟨found, rfl, _, hexclusive, rfl⟩
    exact ⟨rfl, hexclusive⟩
  · rintro ⟨rfl, hexclusive⟩
    exact ⟨_, rfl, (), hexclusive, rfl⟩

/-- Of plugins that describe the same globals only one is used. -/
theorem checkExclusive_eq_ok_iff {plugins : List LinkPlugin} :
    checkExclusive plugins = .ok () ↔ ¬ (.dom ∈ plugins ∧ .worker ∈ plugins) := by
  have hgroup : checkExclusive plugins = checkGroup plugins [.dom, .worker] := by
    unfold checkExclusive exclusiveGroups
    rw [List.forM_eq_forM, List.forM_cons]
    cases checkGroup plugins [.dom, .worker] <;> rfl
  rw [hgroup]
  by_cases hdom : .dom ∈ plugins <;> by_cases hworker : .worker ∈ plugins <;>
    simp [checkGroup, hdom, hworker]

end LinkPlugin

/-! ## Display names -/

namespace ModuleNames

/-- No module is named twice. -/
def Distinct (names : ModuleNames) : Prop := (Keyed.keys names.entries).Nodup

theorem distinct_empty : Distinct empty := List.nodup_nil

/-- Naming a module gives it the name, once. -/
theorem insert_of_eq_ok {names result : ModuleNames} {module display : String}
    (hdistinct : names.Distinct) (h : names.insert module display = .ok result) :
    result.Distinct ∧ result.get? module = some display := by
  unfold insert at h
  split at h
  next existing hexisting =>
    split at h
    next heq =>
      obtain rfl := Except.ok.inj h
      exact ⟨hdistinct, heq ▸ hexisting⟩
    next => cases h
  next hnone =>
    obtain rfl := Except.ok.inj h
    have hout : module ∉ Keyed.keys names.entries := Keyed.get?_eq_none_iff.mp hnone
    rw [← Keyed.put_of_notMem hout]
    exact ⟨Keyed.nodup_keys_put hdistinct, by simp [get?, Keyed.get?_put]⟩

/-- A module may be given the name it has. -/
theorem insert_of_get? {names : ModuleNames} {module display : String}
    (h : names.get? module = some display) : names.insert module display = .ok names := by
  unfold insert
  rw [h]
  exact if_pos rfl

theorem distinct_insertAll {names result : ModuleNames} {entries : List (String × String)}
    {error : Option Error} (hdistinct : names.Distinct)
    (h : names.insertAll entries = (result, error)) : result.Distinct := by
  induction entries generalizing names with
  | nil => exact (Prod.mk.inj h).1 ▸ hdistinct
  | cons entry rest ih =>
    obtain ⟨module, display⟩ := entry
    unfold insertAll at h
    split at h
    next next hnext => exact ih (insert_of_eq_ok hdistinct hnext).1 h
    next => exact (Prod.mk.inj h).1 ▸ hdistinct

theorem distinct_ofList {entries : List (String × String)} {names : ModuleNames}
    (h : ofList entries = .ok names) : names.Distinct := by
  unfold ofList at h
  split at h
  next found hfound =>
    obtain rfl := Except.ok.inj h
    exact distinct_insertAll distinct_empty hfound
  next => cases h

/-- Modules that follow each other without repetition are all named. -/
theorem insertAll_of_nodup {names : ModuleNames} {entries : List (String × String)}
    (h : (Keyed.keys (names.entries ++ entries)).Nodup) :
    names.insertAll entries = (⟨names.entries ++ entries⟩, none) := by
  induction entries generalizing names with
  | nil => simp [insertAll]
  | cons entry rest ih =>
    obtain ⟨module, display⟩ := entry
    have hsplit : names.entries ++ (module, display) :: rest =
        names.entries ++ [(module, display)] ++ rest := by simp
    have hout : module ∉ Keyed.keys names.entries := by
      rw [Keyed.keys, List.map_append] at h
      intro hmem
      exact (List.nodup_append.mp h).2.2 module hmem module (by simp) rfl
    have hinsert : names.insert module display =
        .ok ⟨names.entries ++ [(module, display)]⟩ := by
      rw [insert, get?, Keyed.get?_eq_none_iff.mpr hout]
    rw [insertAll, hinsert]
    show insertAll ⟨names.entries ++ [(module, display)]⟩ rest = _
    rw [ih (hsplit ▸ h), hsplit]

/-- The entries of a table stand for this table. -/
theorem ofList_entries {names : ModuleNames} (h : names.Distinct) :
    ofList names.entries = .ok names := by
  have hall : empty.insertAll names.entries = (names, none) := insertAll_of_nodup h
  rw [ofList, hall]

end ModuleNames

end DocPlan
