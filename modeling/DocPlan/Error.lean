import DocPlan.FileSystem.Basic

/-!
# Errors

Why a run gives no configuration. Each cause has a stable code, a message, and,
when it is about one field of the request, the name of that field.
-/

namespace DocPlan

inductive Error where
  | manifestNotFound (start : FilePath)
  | manifestUnreadable (path : FilePath) (cause : FileError)
  | manifestInvalid (path : FilePath) (reason : String)
  | noEntryPoints (manifest : FilePath) (condition : String)
  | invalidCompilerOptions (problems : List String)
  | linkPluginConflict (first second : String)
  | moduleNameCollision (module existing incoming : String)
  | invalidField (field reason : String)
  | configUnreadable (path : FilePath) (cause : FileError)
  | configInvalid (path : FilePath) (reason : String)
  deriving DecidableEq, Repr

namespace Error

def code : Error → String
  | .manifestNotFound _ => "MANIFEST_NOT_FOUND"
  | .manifestUnreadable _ _ => "MANIFEST_READ_FAILED"
  | .manifestInvalid _ _ => "MANIFEST_INVALID"
  | .noEntryPoints _ _ => "NO_ENTRY_POINTS"
  | .invalidCompilerOptions _ => "INVALID_COMPILER_OPTIONS"
  | .linkPluginConflict _ _ => "INVALID_LINK_PLUGIN_COMBINATION"
  | .moduleNameCollision _ _ _ => "MODULE_NAME_COLLISION"
  | .invalidField _ _ => "INVALID_FIELD"
  | .configUnreadable _ _ => "CONFIG_READ_FAILED"
  | .configInvalid _ _ => "CONFIG_INVALID"

def message : Error → String
  | .manifestNotFound start => s!"No package.json found from {start}"
  | .manifestUnreadable path cause =>
    s!"Failed to read manifest at {path}: {cause.message}"
  | .manifestInvalid path reason => s!"Failed to parse manifest at {path}: {reason}"
  | .noEntryPoints manifest condition =>
    s!"No entry points found in {manifest} for condition '{condition}'"
  | .invalidCompilerOptions problems =>
    "Invalid compiler options:\n  " ++ "\n  ".intercalate problems
  | .linkPluginConflict first second =>
    s!"Link plugins '{first}' and '{second}' cannot be used together"
  | .moduleNameCollision module existing incoming =>
    s!"Module '{module}' is named both '{existing}' and '{incoming}'"
  | .invalidField field reason => s!"Invalid {field}: {reason}"
  | .configUnreadable path cause => s!"Failed to read config at {path}: {cause.message}"
  | .configInvalid path reason => s!"Failed to parse config at {path}: {reason}"

/-- The field of the request that an error is about. -/
def field? : Error → Option String
  | .invalidField field _ => some field
  | .invalidCompilerOptions _ => some "compilerOptions"
  | .linkPluginConflict _ _ => some "linkPlugins"
  | .moduleNameCollision _ _ _ => some "moduleNames"
  | _ => none

/-- Two steps succeed when the first gives something from which the second does. -/
theorem bind_eq_ok_iff {ε α β : Type} {first : Except ε α} {second : α → Except ε β}
    {result : β} :
    first >>= second = .ok result ↔ ∃ found, first = .ok found ∧ second found = .ok result := by
  cases first with
  | error error => simp [bind, Except.bind]
  | ok found => simp [bind, Except.bind]

/-- Two steps fail when the first does, or gives something from which the second does. -/
theorem bind_eq_error_iff {α β : Type} {first : Except Error α} {second : α → Except Error β}
    {error : Error} :
    first >>= second = .error error ↔
      first = .error error ∨ ∃ found, first = .ok found ∧ second found = .error error := by
  cases first with
  | error other => simp [bind, Except.bind]
  | ok found => simp [bind, Except.bind]

/-- What every step of a fold keeps holds at its end, if it comes to one. -/
theorem foldlM_induct {α β : Type} {P : β → Prop} {step : β → α → Except Error β}
    {start result : β} {items : List α} (hstart : P start)
    (hstep : ∀ item ∈ items, ∀ found next, P found → step found item = .ok next → P next)
    (h : items.foldlM step start = .ok result) : P result := by
  induction items generalizing start with
  | nil => exact Except.ok.inj h ▸ hstart
  | cons item rest ih =>
    obtain ⟨hitem, hrest⟩ := List.forall_mem_cons.mp hstep
    rw [List.foldlM_cons, bind_eq_ok_iff] at h
    obtain ⟨next, hnext, hresult⟩ := h
    exact ih (hitem start next hstart hnext) hrest hresult

theorem toOption_eq_some_iff {α : Type} {result : Except Error α} {value : α} :
    result.toOption = some value ↔ result = .ok value := by
  cases result with
  | error error => simp [Except.toOption]
  | ok found => simp [Except.toOption]

theorem map_eq_ok_iff {ε α β : Type} {first : Except ε α} {f : α → β} {result : β} :
    first.map f = .ok result ↔ ∃ found, first = .ok found ∧ f found = result := by
  cases first with
  | error error => simp [Except.map]
  | ok found => simp [Except.map]

theorem map_eq_error_iff {α β : Type} {first : Except Error α} {f : α → β} {error : Error} :
    first.map f = .error error ↔ first = .error error := by
  cases first with
  | error other => simp [Except.map]
  | ok found => simp [Except.map]

end Error

end DocPlan
