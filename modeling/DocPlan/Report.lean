import DocPlan.Diagnostic
import DocPlan.Error

/-!
# Results with diagnostics

`Noted α` is a value and what was reported while it was found. `Report α` may
fail instead; what was reported before the failure is kept. Both are sequenced
by appending, so the diagnostics of a computation are those of its steps, one
after the other.
-/

namespace DocPlan

/-- A value and the diagnostics reported on the way to it. -/
structure Noted (α : Type) where
  diagnostics : List Diagnostic
  value : α

/-- A value or an error, and the diagnostics reported on the way to it. -/
structure Report (α : Type) where
  diagnostics : List Diagnostic
  outcome : Except Error α

namespace Noted

variable {α β : Type}

protected def pure (value : α) : Noted α := ⟨[], value⟩

protected def bind (x : Noted α) (f : α → Noted β) : Noted β :=
  let next := f x.value
  ⟨x.diagnostics ++ next.diagnostics, next.value⟩

instance : Monad Noted where
  pure := Noted.pure
  bind := Noted.bind

@[simp] theorem diagnostics_pure (value : α) : (pure value : Noted α).diagnostics = [] := rfl

@[simp] theorem value_pure (value : α) : (pure value : Noted α).value = value := rfl

@[simp] theorem diagnostics_bind (x : Noted α) (f : α → Noted β) :
    (x >>= f).diagnostics = x.diagnostics ++ (f x.value).diagnostics := rfl

@[simp] theorem value_bind (x : Noted α) (f : α → Noted β) :
    (x >>= f).value = (f x.value).value := rfl

/-- Reports something that went as it should. -/
def info (code message : String) : Noted Unit := ⟨[⟨.info, code, message⟩], ()⟩

/-- Reports something the caller may want to mend. -/
def warn (code message : String) : Noted Unit := ⟨[⟨.warn, code, message⟩], ()⟩

/-- A fold that reports something finds what the fold of the values finds. -/
theorem value_foldlM (step : β → α → Noted β) (start : β) (items : List α) :
    (items.foldlM step start).value =
      items.foldl (fun found item => (step found item).value) start := by
  induction items generalizing start with
  | nil => rfl
  | cons item rest ih => rw [List.foldlM_cons, value_bind, ih, List.foldl_cons]

/-- What every step of a fold keeps holds at its end. -/
theorem foldlM_induct {P : β → Prop} {step : β → α → Noted β} {start : β} {items : List α}
    (hstart : P start) (hstep : ∀ item ∈ items, ∀ found, P found → P (step found item).value) :
    P (items.foldlM step start).value := by
  induction items generalizing start with
  | nil => exact hstart
  | cons item rest ih =>
    obtain ⟨hitem, hrest⟩ := List.forall_mem_cons.mp hstep
    rw [List.foldlM_cons, value_bind]
    exact ih (hitem start hstart) hrest

end Noted

namespace Report

variable {α β : Type}

protected def pure (value : α) : Report α := ⟨[], .ok value⟩

protected def bind (x : Report α) (f : α → Report β) : Report β :=
  match x.outcome with
  | .ok value =>
    let next := f value
    ⟨x.diagnostics ++ next.diagnostics, next.outcome⟩
  | .error error => ⟨x.diagnostics, .error error⟩

instance : Monad Report where
  pure := Report.pure
  bind := Report.bind

/-- A value that was found without failure. -/
def ofNoted (x : Noted α) : Report α := ⟨x.diagnostics, .ok x.value⟩

/-- A result that reports nothing. -/
def ofExcept (x : Except Error α) : Report α := ⟨[], x⟩

instance : MonadLift Noted Report := ⟨ofNoted⟩

instance : MonadLift (Except Error) Report := ⟨ofExcept⟩

def fail (error : Error) : Report α := ⟨[], .error error⟩

/-! What a report comes to is found by the outcomes of its steps, whatever they
report. -/

@[simp] theorem outcome_pure (value : α) : (pure value : Report α).outcome = .ok value := rfl

@[simp] theorem outcome_fail (error : Error) : (fail error : Report α).outcome = .error error :=
  rfl

@[simp] theorem outcome_noted (x : Noted α) : (liftM x : Report α).outcome = .ok x.value := rfl

@[simp] theorem outcome_except (x : Except Error α) : (liftM x : Report α).outcome = x := rfl

@[simp] theorem outcome_ofExcept (x : Except Error α) : (ofExcept x).outcome = x := rfl

@[simp] theorem outcome_bind (x : Report α) (f : α → Report β) :
    (x >>= f).outcome = x.outcome >>= fun value => (f value).outcome := by
  show (Report.bind x f).outcome = _
  unfold Report.bind
  cases x.outcome with
  | ok value => rfl
  | error error => rfl

@[simp] theorem diagnostics_noted (x : Noted α) :
    (liftM x : Report α).diagnostics = x.diagnostics := rfl

/-- A step is followed by what it leads to, if it leads to something. -/
theorem diagnostics_bind (x : Report α) (f : α → Report β) :
    (x >>= f).diagnostics = x.diagnostics ++
      (match x.outcome with
        | .ok value => (f value).diagnostics
        | .error _ => []) := by
  show (Report.bind x f).diagnostics = _
  unfold Report.bind
  cases x.outcome with
  | ok value => rfl
  | error error => exact (List.append_nil _).symm

theorem ext {x y : Report α} (hdiagnostics : x.diagnostics = y.diagnostics)
    (houtcome : x.outcome = y.outcome) : x = y := by
  cases x
  cases y
  simp_all

protected theorem bind_pure (x : Report α) : x >>= pure = x := by
  refine ext ?_ ?_
  · rw [diagnostics_bind]
    cases x.outcome with
    | ok value => exact List.append_nil _
    | error error => exact List.append_nil _
  · rw [outcome_bind]
    cases x.outcome with
    | ok value => rfl
    | error error => rfl

/-- It does not matter which steps are put together first. -/
protected theorem bind_assoc {γ : Type} (x : Report α) (f : α → Report β) (g : β → Report γ) :
    x >>= f >>= g = x >>= fun value => f value >>= g := by
  refine ext ?_ ?_
  · simp only [diagnostics_bind, outcome_bind]
    cases x.outcome with
    | ok value => exact List.append_assoc _ _ _
    | error error => exact List.append_nil _
  · simp only [outcome_bind]
    cases x.outcome with
    | ok value => rfl
    | error error => rfl

instance : LawfulMonad Report :=
  LawfulMonad.mk' Report Report.bind_pure (fun _ _ => rfl) Report.bind_assoc

theorem outcome_foldlM (step : β → α → Report β) (start : β) (items : List α) :
    (items.foldlM step start).outcome =
      items.foldlM (fun found item => (step found item).outcome) start := by
  induction items generalizing start with
  | nil => rfl
  | cons item rest ih =>
    rw [List.foldlM_cons, outcome_bind, List.foldlM_cons]
    simp only [ih]

/-- What every step of a fold keeps holds at its end, if it comes to one. -/
theorem foldlM_induct {P : β → Prop} {step : β → α → Report β} {start result : β}
    {items : List α} (hstart : P start)
    (hstep : ∀ item ∈ items, ∀ found next, P found → (step found item).outcome = .ok next → P next)
    (h : (items.foldlM step start).outcome = .ok result) : P result :=
  Error.foldlM_induct hstart hstep ((outcome_foldlM step start items).symm.trans h)

end Report

end DocPlan
