/-!
# Lists of pairs read as maps

Several parts of a configuration are maps whose order shows: the members of a
JSON object, the resolved exports of a package, the display names of modules.
They are lists of pairs, and this module holds what they share.

`put` follows the rule of insertion order: a new key goes to the end, and a key
that is there keeps its place and takes the new value. `overlay` puts the
entries of one list on another, one after the other.

Main statements: `get?_put` (a map after one insertion) and `keys_put` (its
keys).
-/

namespace DocPlan.Keyed

variable {α : Type}

/-- The value of the first entry of a key. -/
def get? (key : String) : List (String × α) → Option α
  | [] => none
  | (k, v) :: rest => if k = key then some v else get? key rest

/-- The value of the last entry of a key. -/
def last? (key : String) : List (String × α) → Option α
  | [] => none
  | (k, v) :: rest => (last? key rest).or (if k = key then some v else none)

/-- Replaces the value of a key in its place, or adds the key at the end. -/
def put (key : String) (value : α) : List (String × α) → List (String × α)
  | [] => [(key, value)]
  | (k, v) :: rest => if k = key then (k, value) :: rest else (k, v) :: put key value rest

/-- Puts an entry as `put` does, and gives back the value that the key had. -/
def exchange (key : String) (value : α) : List (String × α) → Option α × List (String × α)
  | [] => (none, [(key, value)])
  | (k, v) :: rest =>
    if k = key then (some v, (k, value) :: rest)
    else
      let (old, changed) := exchange key value rest
      (old, (k, v) :: changed)

/-- Puts every entry of the second list on the first, in order. -/
def overlay (base extra : List (String × α)) : List (String × α) :=
  extra.foldl (fun entries entry => put entry.1 entry.2 entries) base

/-- One entry per key, at the place of the key's first entry and with the value
of its last. -/
def collapse (entries : List (String × α)) : List (String × α) :=
  overlay [] entries

/-- The keys of a list of entries, in order. -/
def keys (entries : List (String × α)) : List String :=
  entries.map (·.1)

/-- One walk both looks the key up and puts the entry. -/
theorem exchange_eq (key : String) (value : α) (entries : List (String × α)) :
    exchange key value entries = (get? key entries, put key value entries) := by
  induction entries with
  | nil => rfl
  | cons entry rest ih =>
    obtain ⟨k, v⟩ := entry
    by_cases hk : k = key <;> simp [exchange, get?, put, hk, ih]

theorem get?_put (key other : String) (value : α) (entries : List (String × α)) :
    get? other (put key value entries) =
      if key = other then some value else get? other entries := by
  induction entries with
  | nil => simp [put, get?]
  | cons entry rest ih =>
    obtain ⟨k, v⟩ := entry
    by_cases hk : k = key
    · subst hk
      by_cases ho : k = other <;> simp [put, get?, ho]
    · by_cases ho : key = other
      · subst ho
        simp [put, get?, hk, ih]
      · simp [put, get?, hk, ih, ho]

theorem keys_put (key : String) (value : α) (entries : List (String × α)) :
    keys (put key value entries) =
      if key ∈ keys entries then keys entries else keys entries ++ [key] := by
  induction entries with
  | nil => simp [put, keys]
  | cons entry rest ih =>
    obtain ⟨k, v⟩ := entry
    simp only [keys] at ih
    by_cases hk : k = key
    · subst hk
      simp [put, keys]
    · have hne : key ≠ k := fun h => hk h.symm
      by_cases hm : key ∈ rest.map (·.1)
      · simp [put, hk, keys, ih, hm]
      · simp [put, hk, keys, ih, hm, hne]

theorem last?_eq_none_iff {key : String} {entries : List (String × α)} :
    last? key entries = none ↔ key ∉ keys entries := by
  induction entries with
  | nil => simp [last?, keys]
  | cons entry rest ih =>
    obtain ⟨k, v⟩ := entry
    by_cases hk : k = key
    · simp [last?, keys, hk]
    · have hne : key ≠ k := fun h => hk h.symm
      simpa [last?, keys, hk, hne] using ih

/-- The last entry of a key is the one after which the key does not occur. -/
theorem last?_eq_some_iff {key : String} {value : α} {entries : List (String × α)} :
    last? key entries = some value ↔
      ∃ before after, entries = before ++ (key, value) :: after ∧ key ∉ keys after := by
  induction entries with
  | nil => simp [last?]
  | cons entry rest ih =>
    obtain ⟨k, v⟩ := entry
    constructor
    · intro h
      cases hrest : last? key rest with
      | some other =>
        have hother : other = value := by simpa [last?, hrest] using h
        obtain ⟨before, after, hsplit, hafter⟩ := ih.mp (hother ▸ hrest)
        exact ⟨(k, v) :: before, after, by rw [hsplit, List.cons_append], hafter⟩
      | none =>
        have hhere : k = key ∧ v = value := by
          simpa [last?, hrest] using h
        obtain ⟨rfl, rfl⟩ := hhere
        exact ⟨[], rest, rfl, last?_eq_none_iff.mp hrest⟩
    · rintro ⟨before, after, hsplit, hafter⟩
      cases before with
      | nil =>
        obtain ⟨⟨rfl, rfl⟩, rfl⟩ : (k = key ∧ v = value) ∧ rest = after := by
          simpa using hsplit
        simp [last?, last?_eq_none_iff.mpr hafter]
      | cons first others =>
        obtain ⟨-, hrest⟩ := List.cons.inj hsplit
        simp [last?, ih.mpr ⟨others, after, hrest, hafter⟩]

theorem last?_map {β : Type} (f : α → β) (key : String) (entries : List (String × α)) :
    last? key (entries.map fun entry => (entry.1, f entry.2)) = (last? key entries).map f := by
  induction entries with
  | nil => rfl
  | cons entry rest ih =>
    obtain ⟨k, v⟩ := entry
    by_cases hk : k = key <;> cases hrest : last? key rest <;> simp [last?, hk, ih, hrest]

end DocPlan.Keyed
