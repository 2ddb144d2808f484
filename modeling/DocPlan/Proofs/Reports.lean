import DocPlan.Report

/-!
# Steps that stay within lists

A diagnostic is of one kind, its severity and its code, and an error has a code. A step
stays within lists of both when it reports diagnostics of these kinds only and fails with
errors of these codes only. A computation stays within the lists that its steps do, so they
are found for a whole run without looking at its steps more than once.

The three predicates are about the three sorts of steps: `Error.Within` of those that may
only fail, `Noted.Within` of those that may only report, `Report.Within` of all others.
-/

namespace DocPlan

/-- The severity and the code of a diagnostic. -/
def Diagnostic.kind (diagnostic : Diagnostic) : Severity × String :=
  (diagnostic.severity, diagnostic.code)

variable {α β : Type} {kinds : List (Severity × String)} {codes : List String}

/-- No diagnostic has a code that none of its kinds has. -/
theorem Diagnostic.filter_code_eq_nil {diagnostics : List Diagnostic} {code : String}
    (h : ∀ diagnostic ∈ diagnostics, diagnostic.kind ∈ kinds)
    (hout : ∀ kind ∈ kinds, kind.2 ≠ code) : diagnostics.filter (·.code = code) = [] := by
  apply List.filter_eq_nil_iff.mpr
  intro diagnostic hmem
  have hcode : diagnostic.code ≠ code := hout diagnostic.kind (h diagnostic hmem)
  simp [hcode]

namespace Error

/-- A step fails with errors of some codes only. -/
def Within (codes : List String) (result : Except Error α) : Prop :=
  ∀ error, result = .error error → error.code ∈ codes

theorem within_ok (value : α) : Within codes (.ok value) := by
  intro error h
  cases h

theorem within_error {error : Error} (h : error.code ∈ codes) :
    Within codes (.error error : Except Error α) := by
  intro other heq
  obtain rfl := Except.error.inj heq
  exact h

theorem Within.mono {result : Except Error α} {others : List String} (h : Within codes result)
    (hsubset : codes ⊆ others) : Within others result :=
  fun error herror => hsubset (h error herror)

theorem Within.bind {first : Except Error α} {second : α → Except Error β}
    (hfirst : Within codes first) (hsecond : ∀ found, Within codes (second found)) :
    Within codes (first >>= second) := by
  intro error h
  rcases bind_eq_error_iff.mp h with hfailed | ⟨found, -, hfailed⟩
  · exact hfirst error hfailed
  · exact hsecond found error hfailed

theorem Within.map {result : Except Error α} (h : Within codes result) (f : α → β) :
    Within codes (result.map f) := by
  intro error herror
  cases result with
  | error other =>
    obtain rfl := Except.error.inj herror
    exact h other rfl
  | ok value => cases herror

theorem within_foldlM {step : β → α → Except Error β} (start : β) {items : List α}
    (hstep : ∀ found item, Within codes (step found item)) :
    Within codes (items.foldlM step start) := by
  induction items generalizing start with
  | nil => exact within_ok start
  | cons item rest ih =>
    rw [List.foldlM_cons]
    exact (hstep start item).bind ih

/-- An error of another code is not the first step's. -/
theorem Within.of_bind_eq_error {first : Except Error α} {second : α → Except Error β}
    {error : Error} (hfirst : Within codes first) (h : first >>= second = .error error)
    (hout : error.code ∉ codes) : ∃ found, first = .ok found ∧ second found = .error error := by
  rcases bind_eq_error_iff.mp h with hfailed | hfound
  · exact absurd (hfirst error hfailed) hout
  · exact hfound

end Error

/-- Only diagnostics of some kinds are reported. -/
def Noted.Within (kinds : List (Severity × String)) (noted : Noted α) : Prop :=
  ∀ diagnostic ∈ noted.diagnostics, diagnostic.kind ∈ kinds

namespace Noted

theorem within_pure (value : α) : Within kinds (pure value) := by
  intro diagnostic h
  cases h

theorem within_info {code : String} (message : String) (h : (.info, code) ∈ kinds) :
    Within kinds (info code message) := by
  intro diagnostic hmem
  obtain rfl := List.mem_singleton.mp hmem
  exact h

theorem within_warn {code : String} (message : String) (h : (.warn, code) ∈ kinds) :
    Within kinds (warn code message) := by
  intro diagnostic hmem
  obtain rfl := List.mem_singleton.mp hmem
  exact h

theorem Within.bind {first : Noted α} {second : α → Noted β} (hfirst : Within kinds first)
    (hsecond : ∀ found, Within kinds (second found)) : Within kinds (first >>= second) := by
  intro diagnostic h
  rw [diagnostics_bind] at h
  rcases List.mem_append.mp h with hmem | hmem
  · exact hfirst diagnostic hmem
  · exact hsecond _ diagnostic hmem

/-- Reporting something before a value is found reports only that. -/
theorem Within.returning {first : Noted Unit} (h : Within kinds first) (value : β) :
    Within kinds (first >>= fun _ => pure value) :=
  h.bind fun _ => within_pure value

theorem Within.mono {noted : Noted α} {more : List (Severity × String)} (h : Within kinds noted)
    (hsubset : kinds ⊆ more) : Within more noted :=
  fun diagnostic hmem => hsubset (h diagnostic hmem)

theorem within_foldlM {step : β → α → Noted β} (start : β) {items : List α}
    (hstep : ∀ found item, Within kinds (step found item)) :
    Within kinds (items.foldlM step start) := by
  induction items generalizing start with
  | nil => exact within_pure start
  | cons item rest ih =>
    rw [List.foldlM_cons]
    exact (hstep start item).bind ih

end Noted

/-- Only diagnostics of some kinds are reported, and only errors of some codes made. -/
structure Report.Within (kinds : List (Severity × String)) (codes : List String)
    (report : Report α) : Prop where
  diagnostics : ∀ diagnostic ∈ report.diagnostics, diagnostic.kind ∈ kinds
  outcome : Error.Within codes report.outcome

namespace Report

theorem within_pure (value : α) : Within kinds codes (pure value) :=
  ⟨fun _ hmem => (nomatch hmem), Error.within_ok value⟩

theorem within_fail {error : Error} (h : error.code ∈ codes) :
    Within kinds codes (fail error : Report α) :=
  ⟨fun _ hmem => (nomatch hmem), Error.within_error h⟩

theorem within_noted {noted : Noted α} (h : noted.Within kinds) :
    Within kinds codes (liftM noted) :=
  ⟨h, Error.within_ok noted.value⟩

theorem within_except {result : Except Error α} (h : Error.Within codes result) :
    Within kinds codes (liftM result) :=
  ⟨fun _ hmem => (nomatch hmem), h⟩

theorem Within.mono {report : Report α} {more : List (Severity × String)}
    {others : List String} (h : Within kinds codes report) (hkinds : kinds ⊆ more)
    (hcodes : codes ⊆ others) : Within more others report :=
  ⟨fun diagnostic hmem => hkinds (h.diagnostics diagnostic hmem), h.outcome.mono hcodes⟩

theorem Within.bind {first : Report α} {second : α → Report β}
    (hfirst : Within kinds codes first) (hsecond : ∀ found, Within kinds codes (second found)) :
    Within kinds codes (first >>= second) := by
  constructor
  · intro diagnostic h
    rw [diagnostics_bind] at h
    rcases List.mem_append.mp h with hmem | hmem
    · exact hfirst.diagnostics diagnostic hmem
    · split at hmem
      next found _ => exact (hsecond found).diagnostics diagnostic hmem
      next => cases hmem
  · rw [outcome_bind]
    exact hfirst.outcome.bind fun found => (hsecond found).outcome

theorem within_foldlM {step : β → α → Report β} (start : β) {items : List α}
    (hstep : ∀ found item, Within kinds codes (step found item)) :
    Within kinds codes (items.foldlM step start) := by
  induction items generalizing start with
  | nil => exact within_pure start
  | cons item rest ih =>
    rw [List.foldlM_cons]
    exact (hstep start item).bind ih

end Report

end DocPlan
