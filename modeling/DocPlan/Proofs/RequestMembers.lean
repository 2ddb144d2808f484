import DocPlan.Request
import DocPlan.Proofs.Overlay

/-!
# The members of a request

A request is read from an object with twelve keys, each with a shape for its value
(`Request.shapes`); null stands for a field that is not set. A member that fits sets one field, and
what it does depends neither on the members before it nor on those after it. A member that does not
fit ends the reading, and the error names its key (`Request.decides_of_shape`).

So the request that an object describes can be read off key by key (`Request.ofMembers`): the
members may stand in any order, and those that are null may be left out.

Main result: `Request.ofJson_reads_members`.
-/

namespace DocPlan

/-! ## Values by their shapes -/

namespace Json

def object? : Json → Option Members
  | .object members => some members
  | _ => none

/-- The texts of a list. -/
def texts? : Json → Option (List String)
  | .array items => some (items.filterMap string?)
  | _ => none

/-- The members of an object whose values are texts. -/
def named? : Json → Option (List (String × String))
  | .object members => some (members.filterMap fun member => member.2.string?.map (member.1, ·))
  | _ => none

end Json

namespace Request

inductive Shape where
  | text
  | object
  | texts
  | names
  | flag
  deriving DecidableEq, Repr

/-- Whether a value is null or has a shape. -/
def Shape.admits : Shape → Json → Bool
  | _, .null => true
  | .text, .string _ => true
  | .object, .object _ => true
  | .texts, .array items => items.all (·.string?.isSome)
  | .names, .object members => members.all (·.2.string?.isSome)
  | .flag, .boolean _ => true
  | _, _ => false

/-- The keys of a request and the shapes of their values. -/
def shapes : List (String × Shape) := [
  ("navigation", .text), ("condition", .text), ("output", .text), ("name", .text),
  ("path", .text), ("tsconfig", .text), ("typedocOptions", .object), ("typedocJson", .text),
  ("linkPlugins", .texts), ("compilerOptions", .object), ("moduleNames", .names),
  ("strictDeclarations", .flag)]

/-- Whether a member has one of the keys, and null or a value of the key's shape. -/
def fits (member : String × Json) : Bool :=
  match Keyed.get? member.1 shapes with
  | some shape => shape.admits member.2
  | none => false

/-- The value of a key; null if there is none. -/
def valueOf (key : String) (members : Members) : Json :=
  (Keyed.get? key members).getD .null

/-- The request that members with distinct keys describe, each field by the value of its key. -/
def ofMembers (members : Members) : Request where
  navigation := (valueOf "navigation" members).string?
  condition := (valueOf "condition" members).string?
  output := (valueOf "output" members).string?
  name := (valueOf "name" members).string?
  path := (valueOf "path" members).string?.map FilePath.ofString
  tsconfig := (valueOf "tsconfig" members).string?.map FilePath.ofString
  typedocOptions := (valueOf "typedocOptions" members).object?
  typedocJson := (valueOf "typedocJson" members).string?.map FilePath.ofString
  linkPlugins := (valueOf "linkPlugins" members).texts?
  compilerOptions := (valueOf "compilerOptions" members).object?
  moduleNames := (valueOf "moduleNames" members).named?
  policy :=
    match valueOf "strictDeclarations" members with
    | .boolean true => .exclude
    | _ => .warnAndInclude

/-! ## One value -/

/-- A value is read when its shape admits it, and is an error for the field when not. -/
def Reads {α : Type} (shape : Shape) (field : String) (value : Json) (result : Except Error α)
    (found : α) : Prop :=
  if shape.admits value then result = .ok found
  else ∃ reason, result = .error (.invalidField field reason)

theorem Reads.map {α β : Type} {shape : Shape} {field : String} {value : Json}
    {result : Except Error α} {found : α} (h : Reads shape field value result found) (f : α → β) :
    Reads shape field value (result.map f) (f found) := by
  unfold Reads at h ⊢
  split at h
  next hadmits => rw [if_pos hadmits, h]; rfl
  next hadmits =>
    obtain ⟨reason, hreason⟩ := h
    rw [if_neg hadmits, hreason]
    exact ⟨reason, rfl⟩

theorem reads_readString (field : String) (value : Json) :
    Reads .text field value (readString field value) value.string? := by
  cases value with
  | null => rfl
  | string text => rfl
  | _ => exact ⟨_, rfl⟩

theorem reads_readPath (field : String) (value : Json) :
    Reads .text field value (readPath field value) (value.string?.map FilePath.ofString) :=
  (reads_readString field value).map _

theorem reads_readObject (field : String) (value : Json) :
    Reads .object field value (readObject field value) value.object? := by
  cases value with
  | null => rfl
  | object members => rfl
  | _ => exact ⟨_, rfl⟩

theorem reads_readItems (field : String) (items : List Json) :
    Reads .texts field (.array items) (readItems field items) (items.filterMap Json.string?) := by
  induction items with
  | nil => rfl
  | cons item rest ih =>
    cases item with
    | string text => exact ih.map (text :: ·)
    | _ => exact ⟨_, rfl⟩

theorem reads_readStrings (field : String) (value : Json) :
    Reads .texts field value (readStrings field value) value.texts? := by
  cases value with
  | null => rfl
  | array items => exact (reads_readItems field items).map some
  | _ => exact ⟨_, rfl⟩

theorem reads_readNames (field : String) (members : Members) :
    Reads .names field (.object members) (readNames field members)
      (members.filterMap fun member => member.2.string?.map (member.1, ·)) := by
  induction members with
  | nil => rfl
  | cons member rest ih =>
    obtain ⟨id, display⟩ := member
    cases display with
    | string text => exact ih.map ((id, text) :: ·)
    | _ => exact ⟨_, rfl⟩

theorem reads_readNameTable (field : String) (value : Json) :
    Reads .names field value (readNameTable field value) value.named? := by
  cases value with
  | null => rfl
  | object members => exact (reads_readNames field members).map some
  | _ => exact ⟨_, rfl⟩

/-! ## One member -/

theorem valueOf_of_notMem {key : String} {members : Members} (h : key ∉ Keyed.keys members) :
    valueOf key members = .null := by
  rw [valueOf, Keyed.get?_eq_none_iff.mpr h]
  rfl

/-- A member with a new key gives this key its value, and leaves the others theirs. -/
theorem valueOf_concat {before : Members} {key : String} (hfresh : key ∉ Keyed.keys before)
    (value : Json) (other : String) :
    valueOf other (before ++ [(key, value)]) =
      if key = other then value else valueOf other before := by
  rw [valueOf, Keyed.get?_append]
  by_cases hkey : key = other
  · subst hkey
    rw [Keyed.get?_eq_none_iff.mpr hfresh]
    simp [Keyed.get?]
  · simp [Keyed.get?, hkey, valueOf]

/-- What a member does. If it fits, it changes the request in a way of its own, which adds the
value to what members with other keys describe; if not, it is an error for its key, whatever was
set before. -/
def Decides (shape : Shape) (key : String) (value : Json) : Prop :=
  if shape.admits value then
    ∃ change : Request → Request,
      (∀ request, set request (key, value) = .ok (change request)) ∧
      ∀ before, key ∉ Keyed.keys before →
        change (ofMembers before) = ofMembers (before ++ [(key, value)])
  else ∃ reason, ∀ request, set request (key, value) = .error (.invalidField key reason)

/-- A member whose value is read by itself and then assigned to a field. -/
theorem Reads.decides {α : Type} {shape : Shape} {key : String} {value : Json}
    {result : Except Error α} {found : α} (h : Reads shape key value result found)
    (assign : Request → α → Request)
    (hset : ∀ request, set request (key, value) = result.map (assign request))
    (hassign : ∀ before, key ∉ Keyed.keys before →
      assign (ofMembers before) found = ofMembers (before ++ [(key, value)])) :
    Decides shape key value := by
  unfold Reads at h
  unfold Decides
  split at h
  next hadmits =>
    rw [if_pos hadmits]
    refine ⟨fun request => assign request found, fun request => ?_, hassign⟩
    rw [hset, h]
    rfl
  next hadmits =>
    obtain ⟨reason, hreason⟩ := h
    rw [if_neg hadmits]
    refine ⟨reason, fun request => ?_⟩
    rw [hset, hreason]
    rfl

/-- The flag keeps the policy that there is, unless it is set. -/
theorem decides_policy (value : Json) : Decides .flag "strictDeclarations" value := by
  cases value with
  | null =>
    refine ⟨fun request => request, fun _ => rfl, fun before hfresh => ?_⟩
    simp [ofMembers, valueOf_concat hfresh, valueOf_of_notMem hfresh]
  | boolean strict =>
    cases strict with
    | true =>
      refine ⟨fun request => { request with policy := .exclude }, fun _ => rfl,
        fun before hfresh => ?_⟩
      simp [ofMembers, valueOf_concat hfresh]
    | false =>
      refine ⟨fun request => request, fun _ => rfl, fun before hfresh => ?_⟩
      simp [ofMembers, valueOf_concat hfresh, valueOf_of_notMem hfresh]
  | _ => exact ⟨_, fun _ => rfl⟩

theorem decides_of_shape {key : String} {shape : Shape} (h : Keyed.get? key shapes = some shape)
    (value : Json) : Decides shape key value := by
  have hmem := Keyed.mem_of_get?_eq_some h
  simp only [shapes, List.mem_cons, List.not_mem_nil, or_false, Prod.mk.injEq] at hmem
  rcases hmem with ⟨rfl, rfl⟩ | ⟨rfl, rfl⟩ | ⟨rfl, rfl⟩ | ⟨rfl, rfl⟩ | ⟨rfl, rfl⟩ | ⟨rfl, rfl⟩ |
    ⟨rfl, rfl⟩ | ⟨rfl, rfl⟩ | ⟨rfl, rfl⟩ | ⟨rfl, rfl⟩ | ⟨rfl, rfl⟩ | ⟨rfl, rfl⟩
  · refine (reads_readString _ value).decides
      (fun request found => { request with navigation := found }) (fun _ => rfl) ?_
    intro before hfresh
    simp [ofMembers, valueOf_concat hfresh]
  · refine (reads_readString _ value).decides
      (fun request found => { request with condition := found }) (fun _ => rfl) ?_
    intro before hfresh
    simp [ofMembers, valueOf_concat hfresh]
  · refine (reads_readString _ value).decides
      (fun request found => { request with output := found }) (fun _ => rfl) ?_
    intro before hfresh
    simp [ofMembers, valueOf_concat hfresh]
  · refine (reads_readString _ value).decides
      (fun request found => { request with name := found }) (fun _ => rfl) ?_
    intro before hfresh
    simp [ofMembers, valueOf_concat hfresh]
  · refine (reads_readPath _ value).decides
      (fun request found => { request with path := found }) (fun _ => rfl) ?_
    intro before hfresh
    simp [ofMembers, valueOf_concat hfresh]
  · refine (reads_readPath _ value).decides
      (fun request found => { request with tsconfig := found }) (fun _ => rfl) ?_
    intro before hfresh
    simp [ofMembers, valueOf_concat hfresh]
  · refine (reads_readObject _ value).decides
      (fun request found => { request with typedocOptions := found }) (fun _ => rfl) ?_
    intro before hfresh
    simp [ofMembers, valueOf_concat hfresh]
  · refine (reads_readPath _ value).decides
      (fun request found => { request with typedocJson := found }) (fun _ => rfl) ?_
    intro before hfresh
    simp [ofMembers, valueOf_concat hfresh]
  · refine (reads_readStrings _ value).decides
      (fun request found => { request with linkPlugins := found }) (fun _ => rfl) ?_
    intro before hfresh
    simp [ofMembers, valueOf_concat hfresh]
  · refine (reads_readObject _ value).decides
      (fun request found => { request with compilerOptions := found }) (fun _ => rfl) ?_
    intro before hfresh
    simp [ofMembers, valueOf_concat hfresh]
  · refine (reads_readNameTable _ value).decides
      (fun request found => { request with moduleNames := found }) (fun _ => rfl) ?_
    intro before hfresh
    simp [ofMembers, valueOf_concat hfresh]
  · exact decides_policy value

theorem decides_of_fits {key : String} {value : Json} (h : fits (key, value) = true) :
    ∃ change : Request → Request,
      (∀ request, set request (key, value) = .ok (change request)) ∧
      ∀ before, key ∉ Keyed.keys before →
        change (ofMembers before) = ofMembers (before ++ [(key, value)]) := by
  unfold fits at h
  split at h
  next shape hshape =>
    have hdecides := decides_of_shape hshape value
    rwa [Decides, if_pos h] at hdecides
  next => cases h

theorem set_of_unknown {key : String} (h : Keyed.get? key shapes = none) (value : Json)
    (request : Request) :
    set request (key, value) = .error (.invalidField key "unknown request field") := by
  unfold set
  simp only
  split
  case h_13 => rfl
  -- The other cases are those of the twelve keys.
  all_goals exact absurd h (by decide)

/-- A member that does not fit is an error for its key. -/
theorem exists_set_eq_error {member : String × Json} (h : fits member = false) :
    ∃ reason, ∀ request, set request member = .error (.invalidField member.1 reason) := by
  obtain ⟨key, value⟩ := member
  unfold fits at h
  split at h
  next shape hshape =>
    have hdecides := decides_of_shape hshape value
    rwa [Decides, if_neg (Bool.eq_false_iff.mp h)] at hdecides
  next hnone =>
    exact ⟨_, set_of_unknown hnone value⟩

/-! ## All members -/

/-- Members that fit are all read. -/
theorem exists_foldlM_set {members : Members} (h : ∀ member ∈ members, fits member = true)
    (request : Request) : ∃ result, members.foldlM set request = .ok result := by
  induction members generalizing request with
  | nil => exact ⟨request, rfl⟩
  | cons member rest ih =>
    obtain ⟨hmember, hrest⟩ := List.forall_mem_cons.mp h
    obtain ⟨change, hchange, -⟩ := decides_of_fits hmember
    rw [List.foldlM_cons, hchange]
    exact ih hrest (change request)

/-- The first member that does not fit ends the reading, whatever follows it. -/
theorem foldlM_set_of_misfit {before : Members} {member : String × Json} {reason : String}
    (hbefore : ∀ earlier ∈ before, fits earlier = true)
    (hmember : ∀ request, set request member = .error (.invalidField member.1 reason))
    (after : Members) (request : Request) :
    (before ++ member :: after).foldlM set request = .error (.invalidField member.1 reason) := by
  obtain ⟨result, hresult⟩ := exists_foldlM_set hbefore request
  rw [List.foldlM_append, hresult]
  show (member :: after).foldlM set result = _
  rw [List.foldlM_cons, hmember]
  rfl

/-- Members that fit and have distinct keys are read one by one. -/
theorem foldlM_set_ofMembers {before members : Members}
    (hfits : ∀ member ∈ members, fits member = true)
    (hnodup : (Keyed.keys (before ++ members)).Nodup) :
    members.foldlM set (ofMembers before) = .ok (ofMembers (before ++ members)) := by
  induction members generalizing before with
  | nil => rw [List.append_nil]; rfl
  | cons member rest ih =>
    obtain ⟨hmember, hrest⟩ := List.forall_mem_cons.mp hfits
    obtain ⟨change, hchange, hof⟩ := decides_of_fits hmember
    rw [List.foldlM_cons, hchange, hof before (Keyed.notMem_keys_of_nodup hnodup).1]
    show rest.foldlM set (ofMembers (before ++ [member])) = _
    rw [ih hrest (by rwa [List.append_assoc]), List.append_assoc]
    rfl

theorem ofJson_of_fits {members : Members} (hfits : ∀ member ∈ members, fits member = true)
    (hnodup : (Keyed.keys members).Nodup) : ofJson (.object members) = .ok (ofMembers members) := by
  have hread : members.foldlM set (ofMembers []) = .ok (ofMembers ([] ++ members)) :=
    foldlM_set_ofMembers hfits hnodup
  exact hread

/-- Members all fit, or there is a first one that does not. -/
theorem exists_misfit (members : Members) :
    (∀ member ∈ members, fits member = true) ∨
      ∃ before member after, members = before ++ member :: after ∧
        (∀ earlier ∈ before, fits earlier = true) ∧ fits member = false := by
  cases hfound : members.find? (!fits ·) with
  | none => exact Or.inl (by simpa using List.find?_eq_none.mp hfound)
  | some member =>
    obtain ⟨hmember, before, after, hsplit, hbefore⟩ := List.find?_eq_some_iff_append.mp hfound
    exact Or.inr ⟨before, member, after, hsplit, by simpa using hbefore, by simpa using hmember⟩

/-- A value is read as a request, or the error names what is wrong with it. -/
theorem ofJson_cases (value : Json) :
    (∃ members request, value = .object members ∧ (∀ member ∈ members, fits member = true) ∧
        ofJson value = .ok request) ∨
      ∃ field reason, ofJson value = .error (.invalidField field reason) ∧
        ((field = "request" ∧ ∀ members, value ≠ .object members) ∨
          ∃ before member after, value = .object (before ++ member :: after) ∧
            (∀ earlier ∈ before, fits earlier = true) ∧ fits member = false ∧
            field = member.1 ∧
            ∀ others, ofJson (.object (before ++ member :: others)) =
              .error (.invalidField field reason)) := by
  cases value with
  | object members =>
    rcases exists_misfit members with hfits | ⟨before, member, after, rfl, hbefore, hmember⟩
    · obtain ⟨request, hrequest⟩ := exists_foldlM_set hfits {}
      exact Or.inl ⟨members, request, rfl, hfits, hrequest⟩
    · obtain ⟨reason, hreason⟩ := exists_set_eq_error hmember
      have hread : ∀ others, ofJson (.object (before ++ member :: others)) =
          .error (.invalidField member.1 reason) :=
        fun others => foldlM_set_of_misfit hbefore hreason others {}
      exact Or.inr ⟨member.1, reason, hread after, Or.inr ⟨before, member, after, rfl, hbefore,
        hmember, rfl, hread⟩⟩
  | _ => exact Or.inr ⟨"request", _, rfl, Or.inl ⟨rfl, fun _ h => nomatch h⟩⟩

theorem exists_ofJson_iff {value : Json} :
    (∃ request, ofJson value = .ok request) ↔
      ∃ members, value = .object members ∧ ∀ member ∈ members, fits member = true := by
  constructor
  · rintro ⟨request, hrequest⟩
    rcases ofJson_cases value with ⟨members, -, hvalue, hfits, -⟩ | ⟨_, _, herror, -⟩
    · exact ⟨members, hvalue, hfits⟩
    · rw [herror] at hrequest
      cases hrequest
  · rintro ⟨members, rfl, hfits⟩
    exact exists_foldlM_set hfits {}

/-! ## The order of the members, and null -/

theorem ofMembers_congr {members others : Members}
    (h : ∀ key, valueOf key members = valueOf key others) :
    ofMembers members = ofMembers others := by
  unfold ofMembers
  simp only [h]

theorem ofJson_of_perm {members others : Members}
    (hnodup : (Keyed.keys members).Nodup) (hperm : others.Perm members)
    (hfits : ∀ member ∈ members, fits member = true) :
    ofJson (.object others) = .ok (ofMembers members) := by
  have hkeys : (Keyed.keys others).Perm (Keyed.keys members) := hperm.map _
  rw [ofJson_of_fits (fun member hmember => hfits member (hperm.mem_iff.mp hmember))
    (hkeys.nodup_iff.mpr hnodup)]
  refine congrArg Except.ok (ofMembers_congr fun key => ?_)
  rw [valueOf, valueOf, Keyed.get?_of_perm hnodup hperm]

/-- A member that is null says what no member says. -/
theorem valueOf_null {before after : Members} {key : String}
    (hnodup : (Keyed.keys (before ++ (key, .null) :: after)).Nodup) (other : String) :
    valueOf other (before ++ after) = valueOf other (before ++ (key, .null) :: after) := by
  by_cases hkey : key = other
  · subst hkey
    obtain ⟨hbefore, hafter⟩ := Keyed.notMem_keys_of_nodup hnodup
    simp [valueOf, Keyed.get?_append, Keyed.get?, Keyed.get?_eq_none_iff.mpr hbefore,
      Keyed.get?_eq_none_iff.mpr hafter]
  · simp [valueOf, Keyed.get?_append, Keyed.get?, hkey]

theorem ofJson_without_null {before after : Members} {key : String}
    (hnodup : (Keyed.keys (before ++ (key, .null) :: after)).Nodup)
    (hfits : ∀ member ∈ before ++ (key, .null) :: after, fits member = true) :
    ofJson (.object (before ++ after)) = .ok (ofMembers (before ++ (key, .null) :: after)) := by
  have hsublist : (before ++ after).Sublist (before ++ (key, .null) :: after) :=
    (List.Sublist.refl before).append (List.sublist_cons_self _ after)
  have hkeys : (Keyed.keys (before ++ after)).Sublist
      (Keyed.keys (before ++ (key, .null) :: after)) := hsublist.map _
  rw [ofJson_of_fits (fun member hmember => hfits member (hsublist.subset hmember))
    (hkeys.nodup hnodup)]
  exact congrArg Except.ok (ofMembers_congr (valueOf_null hnodup))

/-- A value is a request when it is an object whose members all fit. Each field is then that of the
value of its key, so members with distinct keys may change places, and those that are null may be
left out. Otherwise the error names the first member that does not fit, whatever follows it, or
says that the value is no object. -/
theorem ofJson_reads_members (value : Json) :
    ((∃ request, ofJson value = .ok request) ↔
      ∃ members, value = .object members ∧ ∀ member ∈ members, fits member = true) ∧
    (∀ members request, value = .object members → (Keyed.keys members).Nodup →
      ofJson value = .ok request →
        request = ofMembers members ∧
        (∀ others, others.Perm members → ofJson (.object others) = .ok request) ∧
        ∀ before key after, members = before ++ (key, .null) :: after →
          ofJson (.object (before ++ after)) = .ok request) ∧
    ∀ error, ofJson value = .error error →
      ∃ field reason, error = .invalidField field reason ∧
        ((field = "request" ∧ ∀ members, value ≠ .object members) ∨
          ∃ before member after, value = .object (before ++ member :: after) ∧
            (∀ earlier ∈ before, fits earlier = true) ∧ fits member = false ∧
            field = member.1 ∧
            ∀ others, ofJson (.object (before ++ member :: others)) = .error error) := by
  refine ⟨exists_ofJson_iff, ?_, ?_⟩
  · rintro members request rfl hnodup hrequest
    obtain ⟨_, hmembers, hfits⟩ := exists_ofJson_iff.mp ⟨request, hrequest⟩
    obtain rfl := Json.object.inj hmembers
    obtain rfl : ofMembers members = request :=
      Except.ok.inj ((ofJson_of_fits hfits hnodup).symm.trans hrequest)
    refine ⟨rfl, fun others hperm => ofJson_of_perm hnodup hperm hfits, ?_⟩
    rintro before key after rfl
    exact ofJson_without_null hnodup hfits
  · intro error herror
    rcases ofJson_cases value with ⟨_, _, -, -, hread⟩ | ⟨field, reason, hread, hcause⟩
    · rw [hread] at herror
      cases herror
    · obtain rfl : .invalidField field reason = error :=
        Except.error.inj (hread.symm.trans herror)
      exact ⟨field, reason, rfl, hcause⟩

theorem ofJson_reads_members_of_strict :
    ofJson (.object [("path", .null), ("strictDeclarations", .boolean true)]) =
        .ok { policy := .exclude } ∧
      ofJson (.object [("strictDeclarations", .boolean true), ("path", .null)]) =
        .ok { policy := .exclude } ∧
      ofJson (.object [("strictDeclarations", .boolean true)]) = .ok { policy := .exclude } := by
  have hread : ofJson (.object [("path", .null), ("strictDeclarations", .boolean true)]) =
      .ok { policy := .exclude } := rfl
  obtain ⟨-, hmembers, -⟩ := ofJson_reads_members
    (.object [("path", .null), ("strictDeclarations", .boolean true)])
  obtain ⟨-, hperm, hnull⟩ := hmembers _ _ rfl (by decide) hread
  exact ⟨hread, hperm _ (List.Perm.swap _ _ _), hnull [] "path" _ rfl⟩

end Request

end DocPlan
