import DocPlan.Keyed
import Mathlib.Data.List.Basic
import Mathlib.Data.List.Induction

/-!
# Laws of overlaying

A list of entries is laid over another by putting its entries there one by one.
When keys do not repeat, the result is told by two equations: one for the values
(`get?_overlay`) and one for the order of the keys (`keys_overlay`).

Main results:

* `ext` — entries with the same keys in the same order and the same values are
  the same.
* `overlay_assoc` — overlaying is associative, so that a pile of layers may be
  put down one by one or put together first.
* `overlay_absorb` — a layer that is put down again under what it has become
  part of changes nothing.

One layer laid over nothing collapses: a key keeps the place of its first entry
(`keys_collapse`) and the value of its last (`last?_collapse`). The keys of a list
without their repetitions stand in the order in which they first occur
(`pairwise_idxOf_eraseDups`).
-/

namespace DocPlan

/-- Adding items one after the other, each unless it is there, leaves out all but the first of
equal ones. -/
theorem foldl_eq_eraseDupsBy {α : Type} {same : α → α → Bool} {add : List α → α → List α}
    (hadd : ∀ found item,
      add found item = if found.any (same item) then found else found ++ [item])
    (items : List α) : items.foldl add [] = items.eraseDupsBy same := by
  have hloop : ∀ found : List α,
      items.foldl add found.reverse = List.eraseDupsBy.loop same items found := by
    induction items with
    | nil => exact fun found => rfl
    | cons item rest ih =>
      intro found
      rw [List.eraseDupsBy.loop, List.foldl_cons, hadd, List.any_reverse]
      cases found.any (same item) with
      | true => exact ih found
      | false =>
        rw [if_neg Bool.false_ne_true, ← List.reverse_cons]
        exact ih (item :: found)
  exact hloop []

section

variable {α : Type} [BEq α] [LawfulBEq α]

theorem eraseDups_concat (items : List α) (item : α) :
    (items ++ [item]).eraseDups =
      if item ∈ items then items.eraseDups else items.eraseDups ++ [item] := by
  rw [List.eraseDups_append]
  split
  next hin => simp [List.removeAll, hin]
  next hout => simp [List.removeAll, hout, List.eraseDups_cons]

/-- What is left of repeated items stands in the order of their first occurrences. -/
theorem pairwise_idxOf_eraseDups (items : List α) :
    items.eraseDups.Pairwise fun item later => items.idxOf item < items.idxOf later := by
  induction items using List.reverseRecOn with
  | nil => exact .nil
  | append_singleton items last ih =>
    have hinside : ∀ item ∈ items.eraseDups, (items ++ [last]).idxOf item = items.idxOf item :=
      fun item hitem => List.idxOf_append_of_mem (List.mem_eraseDups.mp hitem)
    have hkept : items.eraseDups.Pairwise fun item later =>
        (items ++ [last]).idxOf item < (items ++ [last]).idxOf later := by
      refine ih.imp_of_mem ?_
      intro item later hitem hlater h
      rwa [hinside item hitem, hinside later hlater]
    rw [eraseDups_concat]
    split
    next => exact hkept
    next hout =>
      refine List.pairwise_append.mpr ⟨hkept, List.pairwise_singleton _ _, ?_⟩
      intro item hitem later hlater
      obtain rfl := List.mem_singleton.mp hlater
      have hfirst := List.idxOf_lt_length_of_mem (List.mem_eraseDups.mp hitem)
      rw [hinside item hitem, List.idxOf_append_of_notMem hout]
      omega

/-- Some items may be kept before or after repeated ones are left out. -/
theorem eraseDups_filter (keep : α → Bool) (items : List α) :
    (items.filter keep).eraseDups = items.eraseDups.filter keep := by
  induction items using List.reverseRecOn with
  | nil => rfl
  | append_singleton items last ih =>
    rw [List.filter_append, eraseDups_concat]
    cases hkeep : keep last with
    | true =>
      have hmem : last ∈ items.filter keep ↔ last ∈ items := by simp [hkeep]
      rw [List.filter_cons_of_pos hkeep, List.filter_nil, eraseDups_concat, ih]
      simp only [hmem]
      split <;> simp [hkeep]
    | false =>
      rw [List.filter_cons_of_neg (by simp [hkeep]), List.filter_nil, List.append_nil, ih]
      split <;> simp [hkeep]

theorem eraseDups_of_nodup {items : List α} (h : items.Nodup) : items.eraseDups = items := by
  induction items with
  | nil => rfl
  | cons item rest ih =>
    obtain ⟨hout, hrest⟩ := List.nodup_cons.mp h
    have hothers : rest.filter (fun other => !other == item) = rest := by
      apply List.filter_eq_self.mpr
      intro other hother
      have hne : other ≠ item := fun heq => hout (heq ▸ hother)
      simp [hne]
    rw [List.eraseDups_cons, hothers, ih hrest]

end

namespace Keyed

variable {α : Type}

/-! ## Values and keys of a list -/

theorem get?_eq_none_iff {key : String} {entries : List (String × α)} :
    get? key entries = none ↔ key ∉ keys entries := by
  induction entries with
  | nil => simp [get?, keys]
  | cons entry rest ih =>
    obtain ⟨k, v⟩ := entry
    by_cases hk : k = key
    · simp [get?, keys, hk]
    · have hne : key ≠ k := fun h => hk h.symm
      simpa [get?, keys, hk, hne] using ih

theorem exists_get?_iff {key : String} {entries : List (String × α)} :
    (∃ value, get? key entries = some value) ↔ key ∈ keys entries := by
  rw [← Option.isSome_iff_exists, ← Option.ne_none_iff_isSome, ne_eq, get?_eq_none_iff,
    Classical.not_not]

theorem mem_of_get?_eq_some {key : String} {value : α} {entries : List (String × α)}
    (h : get? key entries = some value) : (key, value) ∈ entries := by
  induction entries with
  | nil => cases h
  | cons entry rest ih =>
    obtain ⟨k, v⟩ := entry
    by_cases hk : k = key
    · have hv : v = value := by simpa [get?, hk] using h
      simp [hk, hv]
    · exact List.mem_cons_of_mem _ (ih (by simpa [get?, hk] using h))

theorem get?_of_mem {key : String} {value : α} {entries : List (String × α)}
    (hnodup : (keys entries).Nodup) (h : (key, value) ∈ entries) :
    get? key entries = some value := by
  induction entries with
  | nil => cases h
  | cons entry rest ih =>
    obtain ⟨k, v⟩ := entry
    obtain ⟨hout, hrest⟩ : k ∉ keys rest ∧ (keys rest).Nodup := List.nodup_cons.mp hnodup
    rcases List.mem_cons.mp h with heq | hmem
    · obtain ⟨rfl, rfl⟩ := Prod.mk.inj heq
      simp [get?]
    · have hk : k ≠ key := fun hk => hout (hk ▸ List.mem_map_of_mem (f := (·.1)) hmem)
      simpa [get?, hk] using ih hrest hmem

/-- The last entry of a key is its first one when the key does not repeat. -/
theorem last?_eq_get?_of_count {key : String} {entries : List (String × α)}
    (h : (keys entries).count key ≤ 1) : last? key entries = get? key entries := by
  induction entries with
  | nil => rfl
  | cons entry rest ih =>
    obtain ⟨k, v⟩ := entry
    have hcount : (keys ((k, v) :: rest)).count key =
        (keys rest).count key + if k = key then 1 else 0 := by
      rw [keys, List.map_cons, List.count_cons]
      simp [keys]
    by_cases hk : k = key
    · have hout : key ∉ keys rest := by
        rw [hcount, if_pos hk] at h
        exact List.count_eq_zero.mp (by omega)
      simp [last?, get?, hk, last?_eq_none_iff.mpr hout]
    · have hrest : (keys rest).count key ≤ 1 := by omega
      simp [last?, get?, hk, ih hrest]

theorem last?_eq_get? {key : String} {entries : List (String × α)}
    (hnodup : (keys entries).Nodup) : last? key entries = get? key entries :=
  last?_eq_get?_of_count (List.nodup_iff_count.mp hnodup key)

/-- Entries with distinct keys are told by the order of their keys and by their
values. -/
theorem ext {a b : List (String × α)} (hnodup : (keys a).Nodup) (hkeys : keys a = keys b)
    (hget : ∀ key ∈ keys a, get? key a = get? key b) : a = b := by
  induction a generalizing b with
  | nil => exact (List.map_eq_nil_iff.mp hkeys.symm).symm
  | cons entry rest ih =>
    obtain ⟨k, v⟩ := entry
    cases b with
    | nil => cases hkeys
    | cons other others =>
      obtain ⟨k', v'⟩ := other
      obtain ⟨rfl, htail⟩ : k = k' ∧ keys rest = keys others := List.cons.inj hkeys
      obtain ⟨hout, hrest⟩ : k ∉ keys rest ∧ (keys rest).Nodup := List.nodup_cons.mp hnodup
      have hv : v = v' := by simpa [get?] using hget k List.mem_cons_self
      have hothers : rest = others := by
        apply ih hrest htail
        intro key hmem
        have hk : k ≠ key := fun hk => hout (hk ▸ hmem)
        simpa [get?, hk] using hget key (List.mem_cons_of_mem _ hmem)
      rw [hv, hothers]

/-- Entries with distinct keys are listed by their keys and values. -/
theorem eq_filterMap_keys {entries : List (String × α)} (hnodup : (keys entries).Nodup) :
    entries = (keys entries).filterMap fun key =>
      (get? key entries).map fun value => (key, value) := by
  have hself : ∀ entry ∈ entries,
      (get? entry.1 entries).map (fun value => (entry.1, value)) = some entry := by
    intro entry hentry
    rw [get?_of_mem hnodup hentry, Option.map_some]
  rw [keys, List.filterMap_map]
  exact (List.filterMap_some.symm.trans (List.filterMap_congr hself).symm)

/-- The value of a key does not depend on the order of entries with distinct keys. -/
theorem get?_of_perm {a b : List (String × α)} (hnodup : (keys a).Nodup) (h : b.Perm a)
    (key : String) : get? key b = get? key a := by
  have hkeys : (keys b).Perm (keys a) := h.map _
  cases hvalue : get? key a with
  | none =>
    have hout : key ∉ keys a := get?_eq_none_iff.mp hvalue
    exact get?_eq_none_iff.mpr fun hmem => hout (hkeys.mem_iff.mp hmem)
  | some value =>
    exact get?_of_mem (hkeys.nodup_iff.mpr hnodup)
      (h.mem_iff.mpr (mem_of_get?_eq_some hvalue))

/-- A key of distinct ones has no entry before its own, and none after. -/
theorem notMem_keys_of_nodup {before after : List (String × α)} {entry : String × α}
    (h : (keys (before ++ entry :: after)).Nodup) :
    entry.1 ∉ keys before ∧ entry.1 ∉ keys after := by
  have hkeys : (keys before ++ entry.1 :: keys after).Nodup := by simpa [keys] using h
  obtain ⟨-, hafter, hapart⟩ := List.nodup_append.mp hkeys
  exact ⟨fun hmem => hapart _ hmem _ List.mem_cons_self rfl, (List.nodup_cons.mp hafter).1⟩

theorem get?_append (key : String) (front back : List (String × α)) :
    get? key (front ++ back) = (get? key front).or (get? key back) := by
  induction front with
  | nil => rfl
  | cons entry rest ih =>
    obtain ⟨k, v⟩ := entry
    by_cases hk : k = key
    · simp [get?, hk]
    · simp [get?, hk, ih]

theorem last?_append (key : String) (front back : List (String × α)) :
    last? key (front ++ back) = (last? key back).or (last? key front) := by
  induction front with
  | nil => rw [List.nil_append, last?, Option.or_none]
  | cons entry rest ih =>
    obtain ⟨k, v⟩ := entry
    rw [List.cons_append, last?, last?, ih, Option.or_assoc]

/-- The last entry of a key is looked for among the entries of the key. -/
theorem last?_filter_self (key : String) (entries : List (String × α)) :
    last? key (entries.filter (·.1 = key)) = last? key entries := by
  induction entries with
  | nil => rfl
  | cons entry rest ih =>
    obtain ⟨k, v⟩ := entry
    by_cases hk : k = key
    · simp [last?, hk, ih]
    · simp [last?, hk, ih]

/-! ## Putting one entry -/

theorem mem_keys_put {key other : String} {value : α} {entries : List (String × α)} :
    other ∈ keys (put key value entries) ↔ other = key ∨ other ∈ keys entries := by
  rw [keys_put]
  split
  next hmem =>
    constructor
    · exact Or.inr
    · rintro (rfl | h)
      · exact hmem
      · exact h
  next => simp [or_comm]

theorem nodup_keys_put {key : String} {value : α} {entries : List (String × α)}
    (hnodup : (keys entries).Nodup) : (keys (put key value entries)).Nodup := by
  rw [keys_put]
  split
  next => exact hnodup
  next hout =>
    refine List.nodup_append.mpr ⟨hnodup, by simp, ?_⟩
    rintro k hk other hother rfl
    exact hout (List.mem_singleton.mp hother ▸ hk)

theorem length_put (key : String) (value : α) (entries : List (String × α)) :
    (put key value entries).length =
      if key ∈ keys entries then entries.length else entries.length + 1 := by
  have hlength : ∀ entries : List (String × α), (keys entries).length = entries.length :=
    fun entries => List.length_map _
  rw [← hlength, keys_put]
  split <;> simp [hlength]

/-- Putting an entry leaves the entries of other keys where they are. -/
theorem getElem?_put_of_ne {key other : String} (hne : other ≠ key) (value given : α)
    (entries : List (String × α)) (index : Nat) :
    (put key value entries)[index]? = some (other, given) ↔
      entries[index]? = some (other, given) := by
  induction entries generalizing index with
  | nil => cases index <;> simp [put, hne.symm]
  | cons entry rest ih =>
    obtain ⟨k, v⟩ := entry
    by_cases hk : k = key
    · subst hk
      cases index <;> simp [put, hne.symm]
    · cases index with
      | zero => simp [put, hk]
      | succ index => simpa [put, hk] using ih index

theorem put_of_notMem {key : String} {value : α} {entries : List (String × α)}
    (h : key ∉ keys entries) : put key value entries = entries ++ [(key, value)] := by
  induction entries with
  | nil => rfl
  | cons entry rest ih =>
    obtain ⟨k, v⟩ := entry
    obtain ⟨hne, hrest⟩ : key ≠ k ∧ key ∉ keys rest := by simpa [keys] using h
    rw [put, if_neg fun hk => hne hk.symm, ih hrest, List.cons_append]

theorem put_put (key : String) (value other : α) (entries : List (String × α)) :
    put key value (put key other entries) = put key value entries := by
  induction entries with
  | nil => simp [put]
  | cons entry rest ih =>
    obtain ⟨k, v⟩ := entry
    by_cases hk : k = key <;> simp [put, hk, ih]

theorem mem_put {key : String} {value : α} {entries : List (String × α)} {entry : String × α}
    (h : entry ∈ put key value entries) : entry.2 = value ∨ entry ∈ entries := by
  induction entries with
  | nil => exact Or.inl (List.mem_singleton.mp h ▸ rfl)
  | cons first rest ih =>
    obtain ⟨k, v⟩ := first
    by_cases hk : k = key
    · rw [put, if_pos hk] at h
      rcases List.mem_cons.mp h with rfl | hrest
      · exact Or.inl rfl
      · exact Or.inr (List.mem_cons_of_mem _ hrest)
    · rw [put, if_neg hk] at h
      rcases List.mem_cons.mp h with rfl | hrest
      · exact Or.inr List.mem_cons_self
      · exact (ih hrest).imp_right (List.mem_cons_of_mem _)

/-- Entries of different keys may be put in any order, if one of the keys has its
place already. -/
theorem put_comm {key key' : String} (value value' : α) {entries : List (String × α)}
    (hne : key ≠ key') (hmem : key ∈ keys entries) :
    put key value (put key' value' entries) = put key' value' (put key value entries) := by
  induction entries with
  | nil => simp [keys] at hmem
  | cons entry rest ih =>
    obtain ⟨k, v⟩ := entry
    by_cases hk : k = key
    · subst hk
      simp [put, hne]
    · by_cases hk' : k = key'
      · subst hk'
        simp [put, hk]
      · have hrest : key ∈ keys rest := by
          rcases List.mem_cons.mp hmem with heq | htail
          · exact absurd heq.symm hk
          · exact htail
        simp [put, hk, hk', ih hrest]

/-! ## Overlaying -/

@[simp] theorem overlay_nil (base : List (String × α)) : overlay base [] = base := rfl

@[simp] theorem overlay_cons (base : List (String × α)) (entry : String × α)
    (rest : List (String × α)) :
    overlay base (entry :: rest) = overlay (put entry.1 entry.2 base) rest := rfl

theorem overlay_append (base a b : List (String × α)) :
    overlay base (a ++ b) = overlay (overlay base a) b :=
  List.foldl_append

/-- The last value that is put down counts. -/
theorem get?_overlay (key : String) (base extra : List (String × α)) :
    get? key (overlay base extra) = (last? key extra).or (get? key base) := by
  induction extra generalizing base with
  | nil => rfl
  | cons entry rest ih =>
    rw [overlay_cons, ih, get?_put, last?]
    cases last? key rest with
    | some value => rfl
    | none => by_cases hk : entry.1 = key <;> simp [hk]

/-- What holds of the values of two lists holds of the values of the one laid over the
other. -/
theorem forall_mem_overlay {P : α → Prop} {base extra : List (String × α)}
    (hbase : ∀ entry ∈ base, P entry.2) (hextra : ∀ entry ∈ extra, P entry.2) :
    ∀ entry ∈ overlay base extra, P entry.2 := by
  induction extra generalizing base with
  | nil => exact hbase
  | cons first rest ih =>
    obtain ⟨hfirst, hrest⟩ := List.forall_mem_cons.mp hextra
    refine ih ?_ hrest
    intro entry hentry
    rcases mem_put hentry with hnew | hold
    · rw [hnew]
      exact hfirst
    · exact hbase entry hold

theorem mem_keys_overlay {key : String} {base extra : List (String × α)} :
    key ∈ keys (overlay base extra) ↔ key ∈ keys base ∨ key ∈ keys extra := by
  induction extra generalizing base with
  | nil => simp [keys]
  | cons entry rest ih =>
    rw [overlay_cons, ih, mem_keys_put]
    simp only [keys, List.map_cons, List.mem_cons]
    grind

theorem nodup_keys_overlay {base extra : List (String × α)} (hnodup : (keys base).Nodup) :
    (keys (overlay base extra)).Nodup := by
  induction extra generalizing base with
  | nil => exact hnodup
  | cons entry rest ih => exact ih (nodup_keys_put hnodup)

theorem nodup_keys_nil : (keys ([] : List (String × α))).Nodup := List.nodup_nil

theorem nodup_keys_collapse (entries : List (String × α)) : (keys (collapse entries)).Nodup :=
  nodup_keys_overlay nodup_keys_nil

/-- Keys keep their places, and new ones follow in their own order. -/
theorem keys_overlay {base extra : List (String × α)} (hnodup : (keys extra).Nodup) :
    keys (overlay base extra) = keys base ++ (keys extra).filter (· ∉ keys base) := by
  induction extra generalizing base with
  | nil => simp [keys]
  | cons entry rest ih =>
    obtain ⟨hout, hrest⟩ : entry.1 ∉ keys rest ∧ (keys rest).Nodup := List.nodup_cons.mp hnodup
    have hsame : (keys rest).filter (· ∉ keys (put entry.1 entry.2 base)) =
        (keys rest).filter (· ∉ keys base) := by
      apply List.filter_congr
      intro key hkey
      have hne : key ≠ entry.1 := fun h => hout (h ▸ hkey)
      simp [mem_keys_put, hne]
    rw [overlay_cons, ih hrest, hsame, keys_put, show keys (entry :: rest) = entry.1 :: keys rest
      from rfl, List.filter_cons]
    by_cases hmem : entry.1 ∈ keys base <;> simp [hmem]

/-- A key that has its place may be put before or after others are. -/
private theorem put_overlay {key : String} (value : α) {base extra : List (String × α)}
    (hmem : key ∈ keys base) (hout : key ∉ keys extra) :
    put key value (overlay base extra) = overlay (put key value base) extra := by
  induction extra generalizing base with
  | nil => rfl
  | cons entry rest ih =>
    obtain ⟨hne, hrest⟩ : key ≠ entry.1 ∧ key ∉ keys rest := by simpa [keys] using hout
    rw [overlay_cons, overlay_cons, ih (mem_keys_put.mpr (Or.inr hmem)) hrest,
      put_comm value entry.2 hne hmem]

/-- Putting an entry on a layer puts it on what the layer is laid over. -/
theorem overlay_put (base : List (String × α)) {extra : List (String × α)}
    (hnodup : (keys extra).Nodup) (key : String) (value : α) :
    overlay base (put key value extra) = put key value (overlay base extra) := by
  induction extra generalizing base with
  | nil => rfl
  | cons entry rest ih =>
    obtain ⟨k, v⟩ := entry
    obtain ⟨hout, hrest⟩ : k ∉ keys rest ∧ (keys rest).Nodup := List.nodup_cons.mp hnodup
    by_cases hk : k = key
    · subst hk
      have hplace : k ∈ keys (put k v base) := mem_keys_put.mpr (Or.inl rfl)
      rw [put, if_pos rfl, overlay_cons, overlay_cons, put_overlay value hplace hout, put_put]
    · rw [put, if_neg hk, overlay_cons, overlay_cons, ih _ hrest]

/-- Layers may be put together before they are laid over others. -/
theorem overlay_assoc (base : List (String × α)) {middle : List (String × α)}
    (hnodup : (keys middle).Nodup) (top : List (String × α)) :
    overlay base (overlay middle top) = overlay (overlay base middle) top := by
  induction top generalizing middle with
  | nil => rfl
  | cons entry rest ih =>
    rw [overlay_cons, ih (nodup_keys_put hnodup), overlay_put base hnodup, overlay_cons]

theorem overlay_collapse (base extra : List (String × α)) :
    overlay base (collapse extra) = overlay base extra :=
  overlay_assoc base nodup_keys_nil extra

/-- A pile of layers may be put together before it is laid over others. -/
theorem foldl_overlay (base : List (String × α)) (layers : List (List (String × α))) :
    layers.foldl overlay base = overlay base (layers.foldl overlay []) := by
  induction layers generalizing base with
  | nil => rfl
  | cons layer rest ih =>
    have hcollapse : overlay [] layer = collapse layer := rfl
    rw [List.foldl_cons, List.foldl_cons, ih (overlay base layer), ih (overlay [] layer),
      hcollapse, overlay_assoc base (nodup_keys_collapse layer), overlay_collapse]

theorem nodup_keys_foldl_overlay {base : List (String × α)} (hnodup : (keys base).Nodup)
    (layers : List (List (String × α))) : (keys (layers.foldl overlay base)).Nodup := by
  rw [foldl_overlay]
  exact nodup_keys_overlay hnodup

theorem overlay_self {entries : List (String × α)} (hnodup : (keys entries).Nodup) :
    overlay entries entries = entries := by
  apply ext (nodup_keys_overlay hnodup)
  · rw [keys_overlay hnodup]
    simp
  · intro key _
    rw [get?_overlay, last?_eq_get? hnodup, Option.or_self]

/-- What a layer has become part of may be laid over the layer again. -/
theorem overlay_absorb {base : List (String × α)} (hnodup : (keys base).Nodup)
    (top : List (String × α)) : overlay base (overlay base top) = overlay base top := by
  rw [overlay_assoc base hnodup, overlay_self hnodup]

/-! ## Collapsing -/

theorem mem_keys_collapse {key : String} {entries : List (String × α)} :
    key ∈ keys (collapse entries) ↔ key ∈ keys entries := by
  rw [collapse, mem_keys_overlay]
  simp [keys]

/-- Keys have their places by their first entries. -/
theorem keys_collapse (entries : List (String × α)) :
    keys (collapse entries) = (keys entries).eraseDups := by
  have hput : ∀ (base : List (String × α)) (entry : String × α),
      keys (put entry.1 entry.2 base) =
        if (keys base).any (entry.1 == ·) then keys base else keys base ++ [entry.1] := by
    intro base entry
    rw [keys_put]
    simp
  have hfold : ∀ base : List (String × α), keys (overlay base entries) = (keys entries).foldl
      (fun found key => if found.any (key == ·) then found else found ++ [key]) (keys base) := by
    induction entries with
    | nil => exact fun base => rfl
    | cons entry rest ih =>
      intro base
      rw [overlay_cons, ih, hput]
      rfl
  rw [collapse, hfold]
  exact foldl_eq_eraseDupsBy (fun _ _ => rfl) (keys entries)

theorem last?_collapse (key : String) (entries : List (String × α)) :
    last? key (collapse entries) = last? key entries := by
  rw [last?_eq_get? (nodup_keys_collapse entries), collapse, get?_overlay]
  exact Option.or_none

/-- The entry of a key that is left is the last one. -/
theorem last?_of_mem_collapse {entry : String × α} {entries : List (String × α)}
    (h : entry ∈ collapse entries) : last? entry.1 entries = some entry.2 := by
  have hnodup := nodup_keys_collapse entries
  rw [← last?_collapse, last?_eq_get? hnodup]
  exact get?_of_mem hnodup h

/-- Entries without a repeated key are as they are collapsed. -/
theorem collapse_of_nodup {entries : List (String × α)} (hnodup : (keys entries).Nodup) :
    collapse entries = entries := by
  apply ext (nodup_keys_collapse entries)
  · rw [collapse, keys_overlay hnodup]
    simp [keys]
  · intro key _
    rw [← last?_eq_get? (nodup_keys_collapse entries), last?_collapse, last?_eq_get? hnodup]

section

variable {β : Type} (f : String → α → β)

theorem keys_map (entries : List (String × α)) :
    keys (entries.map fun entry => (entry.1, f entry.1 entry.2)) = keys entries := by
  rw [keys, keys, List.map_map]
  rfl

theorem put_map (key : String) (value : α) (entries : List (String × α)) :
    put key (f key value) (entries.map fun entry => (entry.1, f entry.1 entry.2)) =
      (put key value entries).map fun entry => (entry.1, f entry.1 entry.2) := by
  induction entries with
  | nil => rfl
  | cons entry rest ih =>
    by_cases hk : entry.1 = key
    · simp [put, hk]
    · simp [put, hk, ih]

/-- What is made of the values may be made of them before or after repeated keys
collapse. -/
theorem collapse_map (entries : List (String × α)) :
    collapse (entries.map fun entry => (entry.1, f entry.1 entry.2)) =
      (collapse entries).map fun entry => (entry.1, f entry.1 entry.2) := by
  suffices hover : ∀ base : List (String × α),
      overlay (base.map fun entry => (entry.1, f entry.1 entry.2))
          (entries.map fun entry => (entry.1, f entry.1 entry.2)) =
        (overlay base entries).map fun entry => (entry.1, f entry.1 entry.2)
    from hover []
  induction entries with
  | nil => exact fun base => rfl
  | cons entry rest ih =>
    intro base
    rw [List.map_cons, overlay_cons, overlay_cons, put_map, ih]

end

/-! ## Keeping some keys -/

theorem keys_filter (keep : String → Bool) (entries : List (String × α)) :
    keys (entries.filter fun entry => keep entry.1) = (keys entries).filter keep := by
  rw [keys, keys, List.filter_map]
  rfl

theorem get?_filter {keep : String → Bool} {key : String} (h : keep key = true)
    (entries : List (String × α)) :
    get? key (entries.filter fun entry => keep entry.1) = get? key entries := by
  induction entries with
  | nil => rfl
  | cons entry rest ih =>
    obtain ⟨k, v⟩ := entry
    rw [List.filter_cons]
    by_cases hk : k = key
    · subst hk
      simp [h, get?]
    · split
      · rw [get?, get?, if_neg hk, if_neg hk, ih]
      · rw [get?, if_neg hk, ih]

theorem last?_filter (keep : String → Bool) (key : String) (entries : List (String × α)) :
    last? key (entries.filter fun entry => keep entry.1) =
      if keep key then last? key entries else none := by
  induction entries with
  | nil => exact (ite_self none).symm
  | cons entry rest ih =>
    obtain ⟨k, v⟩ := entry
    by_cases hk : k = key
    · subst hk
      cases hkeep : keep k <;> simp_all [last?]
    · rw [List.filter_cons]
      split
      · rw [last?, last?, if_neg hk, Option.or_none, Option.or_none, ih]
      · rw [last?, if_neg hk, Option.or_none, ih]

theorem put_filter (keep : String → Bool) (key : String) (value : α)
    (entries : List (String × α)) :
    (put key value entries).filter (fun entry => keep entry.1) =
      if keep key then put key value (entries.filter fun entry => keep entry.1)
      else entries.filter fun entry => keep entry.1 := by
  induction entries with
  | nil => cases hkeep : keep key <;> simp [put, hkeep]
  | cons entry rest ih =>
    obtain ⟨k, v⟩ := entry
    by_cases hk : k = key
    · subst hk
      cases hkeep : keep k <;> simp [put, hkeep]
    · cases hkeep : keep k <;> cases hkey : keep key <;> simp_all [put]

/-- Some keys may be kept before or after repeated keys collapse. -/
theorem collapse_filter (keep : String → Bool) (entries : List (String × α)) :
    collapse (entries.filter fun entry => keep entry.1) =
      (collapse entries).filter fun entry => keep entry.1 := by
  suffices hover : ∀ base : List (String × α),
      overlay (base.filter fun entry => keep entry.1) (entries.filter fun entry => keep entry.1) =
        (overlay base entries).filter fun entry => keep entry.1
    from hover []
  induction entries with
  | nil => exact fun base => rfl
  | cons entry rest ih =>
    intro base
    rw [overlay_cons, ← ih, put_filter, List.filter_cons]
    cases hkeep : keep entry.1 with
    | true => rw [if_pos rfl, if_pos rfl, overlay_cons]
    | false => simp

/-- Entries that were kept of a pile, with new ones for keys that were not, may be laid
over the base of the pile again: of the outcome the same entries are kept. -/
theorem filter_overlay_kept {base top used rest : List (String × α)} {keep : String → Bool}
    (hbase : (keys base).Nodup) (htop : (keys top).Nodup) (hrest : (keys rest).Nodup)
    (hused : keys used = (keys (overlay base top)).filter keep)
    (hout : ∀ key ∈ keys rest, keep key = false) :
    (overlay base (overlay used rest)).filter (fun entry => keep entry.1) = used := by
  have hkept : ∀ key ∈ keys used, keep key = true := by
    intro key hkey
    rw [hused] at hkey
    exact (List.mem_filter.mp hkey).2
  have hnodup : (keys used).Nodup := hused ▸ (nodup_keys_overlay hbase).filter _
  have hlayer : (keys (overlay used rest)).Nodup := nodup_keys_overlay hnodup
  have hmine : (keys used).filter (· ∉ keys base) =
      ((keys top).filter (· ∉ keys base)).filter keep := by
    have hold : ((keys base).filter keep).filter (· ∉ keys base) = [] := by
      apply List.filter_eq_nil_iff.mpr
      intro key hkey
      simp [(List.mem_filter.mp hkey).1]
    rw [hused, keys_overlay htop, List.filter_append, List.filter_append, hold, List.nil_append]
    apply List.filter_eq_self.mpr
    intro key hkey
    exact (List.mem_filter.mp (List.mem_filter.mp hkey).1).2
  have hlater : ((keys (overlay used rest)).filter (· ∉ keys base)).filter keep =
      (keys used).filter (· ∉ keys base) := by
    have hnone :
        (((keys rest).filter (· ∉ keys used)).filter (· ∉ keys base)).filter keep = [] := by
      apply List.filter_eq_nil_iff.mpr
      intro key hkey
      rw [hout key (List.mem_filter.mp (List.mem_filter.mp hkey).1).1]
      simp
    rw [keys_overlay hrest, List.filter_append, List.filter_append, hnone, List.append_nil]
    exact List.filter_eq_self.mpr fun key hkey => hkept key (List.mem_filter.mp hkey).1
  apply ext
  · rw [keys_filter]
    exact (nodup_keys_overlay hbase).filter _
  · rw [keys_filter, keys_overlay hlayer, List.filter_append, hlater, hmine, hused,
      keys_overlay htop, List.filter_append]
  · intro key hkey
    rw [keys_filter] at hkey
    have hkeep : keep key = true := (List.mem_filter.mp hkey).2
    have hnone : key ∉ keys rest := fun hmem => by simp [hout key hmem] at hkeep
    have hmem : key ∈ keys used := by
      rw [keys_overlay hlayer, List.filter_append, hlater, hmine, ← List.filter_append,
        ← keys_overlay htop, ← hused] at hkey
      exact hkey
    obtain ⟨value, hvalue⟩ := exists_get?_iff.mpr hmem
    rw [get?_filter hkeep, get?_overlay, last?_eq_get? hlayer, get?_overlay,
      last?_eq_none_iff.mpr hnone, Option.none_or, hvalue, Option.some_or]

end Keyed

end DocPlan
