import DocPlan.Manifest.Workspaces
import DocPlan.Proofs.ShownPaths

/-!
# Patterns seen from a root

A pattern of a workspace is written after the escaped name of its root, and both are read as one
text. Each character of the root gives one token that stands for this character alone
(`Glob.compileFrom_escape_append`), and the pattern begins a component, as it does when it
stands for itself. So a rooted pattern matches the root's name followed by what the pattern
matches (`Workspaces.matches_rooted_iff`), and the name of the root never acts as a pattern.
-/

namespace DocPlan

namespace Glob

/-- A pattern matches a whole text. -/
def Matches (pattern text : List Char) : Prop :=
  ∃ tokens, compile pattern = .ok tokens ∧ accepts tokens text = true

theorem matches_iff_of_compile {pattern text : List Char} {tokens : List Token}
    (h : compile pattern = .ok tokens) : Matches pattern text ↔ accepts tokens text = true := by
  rw [Matches, h]
  simp

instance (pattern text : List Char) : Decidable (Matches pattern text) :=
  match h : compile pattern with
  | .ok _ => decidable_of_iff _ (matches_iff_of_compile h).symm
  | .error _ => isFalse fun ⟨_, htokens, _⟩ => nomatch h.symm.trans htokens

/-! ## Reading tokens -/

/-- Which token is read does not depend on its position, only where a fault is. -/
theorem readToken_eq_ok_iff (position other : Nat) {start : Bool} {c : Char} {rest : List Char}
    {found : Token × Nat} :
    readToken position start c rest = .ok found ↔ readToken other start c rest = .ok found := by
  have hstar : readStar position start rest = .ok found ↔
      readStar other start rest = .ok found := by
    unfold readStar
    split
    next => simp
    next =>
      split
      next => split <;> simp
      next => simp
    next => rfl
  unfold readToken
  split
  next => rfl
  next =>
    split
    next => exact hstar
    next =>
      split
      next =>
        split
        next => rfl
        next => simp
      next => rfl

/-- Reading goes on after the first token with all that does not belong to it. -/
theorem compileFrom_cons_eq_ok_iff {position : Nat} {start : Bool} {c : Char} {rest : List Char}
    {tokens : List Token} :
    compileFrom position start 0 (c :: rest) = .ok tokens ↔ ∃ token width after,
      readToken position start c rest = .ok (token, width) ∧
        compileFrom (position + 1) (c = '/') width rest = .ok after ∧ tokens = token :: after := by
  simp only [compileFrom, Error.bind_eq_ok_iff, pure, Except.pure, Except.ok.injEq]
  constructor
  · rintro ⟨⟨token, width⟩, htoken, after, hafter, hresult⟩
    exact ⟨token, width, after, htoken, hafter, hresult.symm⟩
  · rintro ⟨token, width, after, htoken, hafter, hresult⟩
    exact ⟨(token, width), htoken, after, hafter, hresult.symm⟩

/-- Which tokens are read does not depend on the position. -/
theorem compileFrom_eq_ok_iff (position other : Nat) {start : Bool} {skip : Nat}
    {chars : List Char} {tokens : List Token} :
    compileFrom position start skip chars = .ok tokens ↔
      compileFrom other start skip chars = .ok tokens := by
  induction chars generalizing position other start skip tokens with
  | nil => rfl
  | cons c rest ih =>
    cases skip with
    | succ skip => exact ih (position + 1) (other + 1)
    | zero =>
      simp only [compileFrom_cons_eq_ok_iff, readToken_eq_ok_iff position other,
        ih (position + 1) (other + 1)]

/-! ## Escaped texts -/

/-- The token that an escaped character gives. -/
def escapedToken (c : Char) : Token := if isMeta c then .oneOf [.single c] else .char c

/-- Whether a component begins after a text. -/
def startsAfter (start : Bool) (text : List Char) : Bool := text.foldl (fun _ c => c = '/') start

theorem escape_append (front back : List Char) :
    escape (front ++ back) = escape front ++ escape back := List.flatMap_append

theorem escape_cons (c : Char) (rest : List Char) :
    escape (c :: rest) = escape [c] ++ escape rest := escape_append [c] rest

theorem escape_singleton (c : Char) : escape [c] = if isMeta c then ['[', c, ']'] else [c] :=
  List.flatMap_singleton _ c

/-- A class with one member stands for that member. -/
theorem readClass?_single {c : Char} (hc : c ≠ '!') (rest : List Char) :
    readClass? (c :: ']' :: rest) = some (.oneOf [.single c], 2) := by
  unfold readClass?
  split
  next heq => exact absurd (List.cons.inj heq).1 hc
  next heq => cases (List.cons.inj heq).2
  next first others _ _ heq =>
    obtain ⟨rfl, rfl⟩ := List.cons.inj heq
    simp [specifiers]
  next heq => cases heq

/-- Escaping keeps separators, and adds none. -/
theorem keepsSeparators_escape : Text.KeepsSeparators escape '/' '/' where
  nil := rfl
  ne_nil := by
    intro text hne hnil
    cases text with
    | nil => exact hne rfl
    | cons c rest =>
      rw [escape_cons, escape_singleton] at hnil
      split at hnil <;> simp at hnil
  cut := by
    intro front back
    rw [escape_append, escape_cons, escape_singleton, if_neg (by decide), List.singleton_append]
  mem := by
    intro text hmem
    obtain ⟨c, hc, hseparator⟩ := List.mem_flatMap.mp hmem
    split at hseparator
    next =>
      have hself : '/' = c := by simpa using hseparator
      exact hself ▸ hc
    next => exact List.mem_singleton.mp hseparator ▸ hc

/-- An escaped character is read as its token, whatever follows. -/
theorem compileFrom_escape_char (position : Nat) (start : Bool) (c : Char) (rest : List Char) :
    ∃ next, compileFrom position start 0 (escape [c] ++ rest) =
      (do return escapedToken c :: (← compileFrom next (c = '/') 0 rest)) := by
  unfold escapedToken
  by_cases hmeta : isMeta c = true
  · have hplain : c ≠ '!' := by
      rintro rfl
      cases hmeta
    have hcontinues : decide (c = '/') = false := by
      apply decide_eq_false
      rintro rfl
      cases hmeta
    have htoken : readToken position start '[' (c :: ']' :: rest) =
        .ok (.oneOf [.single c], 2) := by
      rw [readToken, if_neg (by decide), if_neg (by decide), if_pos rfl,
        readClass?_single hplain]
    refine ⟨position + 3, ?_⟩
    rw [escape_singleton, if_pos hmeta, if_pos hmeta, hcontinues]
    show compileFrom position start 0 ('[' :: c :: ']' :: rest) = _
    rw [compileFrom, htoken]
    rfl
  · obtain ⟨⟨⟨hquestion, hstar⟩, hopen⟩, -⟩ : ((c ≠ '?' ∧ c ≠ '*') ∧ c ≠ '[') ∧ c ≠ ']' := by
      simpa [isMeta] using hmeta
    have htoken : readToken position start c rest = .ok (.char c, 0) := by
      rw [readToken, if_neg hquestion, if_neg hstar, if_neg hopen]
    refine ⟨position + 1, ?_⟩
    rw [escape_singleton, if_neg hmeta, if_neg hmeta]
    show compileFrom position start 0 (c :: rest) = _
    rw [compileFrom, htoken]
    rfl

/-- An escaped text is read as one token for each of its characters. -/
theorem compileFrom_escape_append (text rest : List Char) (position : Nat) (start : Bool)
    (tokens : List Token) :
    compileFrom position start 0 (escape text ++ rest) = .ok tokens ↔
      ∃ after, compileFrom 0 (startsAfter start text) 0 rest = .ok after ∧
        tokens = text.map escapedToken ++ after := by
  induction text generalizing position start tokens with
  | nil =>
    rw [compileFrom_eq_ok_iff position 0]
    simp [escape, startsAfter]
  | cons c text ih =>
    obtain ⟨next, hfirst⟩ := compileFrom_escape_char position start c (escape text ++ rest)
    rw [escape_cons, List.append_assoc, hfirst, Error.bind_eq_ok_iff]
    simp only [ih, pure, Except.pure, Except.ok.injEq]
    constructor
    · rintro ⟨_, ⟨after, hafter, rfl⟩, rfl⟩
      exact ⟨after, hafter, rfl⟩
    · rintro ⟨after, hafter, rfl⟩
      exact ⟨_, ⟨after, hafter, rfl⟩, rfl⟩

theorem accepts_escaped_append (text : List Char) (own : List Token) (whole : List Char) :
    accepts (text.map escapedToken ++ own) whole = true ↔
      ∃ rest, whole = text ++ rest ∧ accepts own rest = true := by
  induction text generalizing whole with
  | nil => simp
  | cons c text ih =>
    have hstep : ∀ {d : Char} {others : List Char},
        accepts (escapedToken c :: (text.map escapedToken ++ own)) (d :: others) = true ↔
          d = c ∧ accepts (text.map escapedToken ++ own) others = true := by
      intro d others
      unfold escapedToken
      split <;> simp [accepts, Token.acceptsChar, Specifier.accepts]
    cases whole with
    | nil =>
      have hnone : accepts (escapedToken c :: (text.map escapedToken ++ own)) [] = false := by
        unfold escapedToken
        split <;> rfl
      simp [hnone]
    | cons d others =>
      rw [List.map_cons, List.cons_append, hstep, ih]
      constructor
      · rintro ⟨rfl, rest, rfl, hrest⟩
        exact ⟨rest, rfl, hrest⟩
      · rintro ⟨rest, hwhole, hrest⟩
        obtain ⟨rfl, rfl⟩ := List.cons.inj hwhole
        exact ⟨rfl, rest, rfl, hrest⟩

end Glob

namespace Workspaces

open FilePath Glob Text Utf8

/-- After a root that ends with a separator, a component begins. -/
theorem startsAfter_withSeparator (chars : List Char) :
    startsAfter true (withSeparator '/' chars) = true := by
  have hlast : ∀ front : List Char, startsAfter true (front ++ ['/']) = true := by
    intro front
    rw [startsAfter, List.foldl_append]
    rfl
  rcases List.eq_nil_or_concat chars with rfl | ⟨front, last, rfl⟩
  · rfl
  · rw [List.concat_eq_append, withSeparator_concat]
    split
    next hseparator =>
      subst hseparator
      exact hlast front
    next => exact hlast _

theorem rooted_of_isAbsolute (root : FilePath) {pattern : String}
    (h : (ofString pattern).isAbsolute = true) : rooted root pattern = pattern.toList := by
  rw [rooted, join, if_pos h, chars_ofString]

theorem rooted_of_relative (root : FilePath) {pattern : String}
    (h : (ofString pattern).isAbsolute = false) :
    rooted root pattern = escape (withSeparator '/' root.chars) ++ pattern.toList := by
  rw [rooted, join, if_neg (by simp [h]), bytes_ofString,
    FilePath.keepsSeparators_encode.withSeparator_map, ← encode_append, chars, decodeLossy_encode,
    keepsSeparators_escape.withSeparator_map]

/-- A rooted pattern is read as the name of its root and then the pattern. -/
theorem compile_rooted_eq_ok_iff (root : FilePath) {pattern : String}
    (h : (ofString pattern).isAbsolute = false) {tokens : List Token} :
    compile (rooted root pattern) = .ok tokens ↔ ∃ own, compile pattern.toList = .ok own ∧
      tokens = (withSeparator '/' root.chars).map escapedToken ++ own := by
  rw [rooted_of_relative root h, compile, compileFrom_escape_append, startsAfter_withSeparator]
  rfl

/-- A rooted pattern matches the name of its root followed by what the pattern matches. -/
theorem matches_rooted_iff (root : FilePath) {pattern : String}
    (h : (ofString pattern).isAbsolute = false) {text : List Char} :
    Glob.Matches (rooted root pattern) text ↔
      ∃ rest, text = withSeparator '/' root.chars ++ rest ∧ Glob.Matches pattern.toList rest := by
  unfold Glob.Matches
  simp only [compile_rooted_eq_ok_iff root h]
  constructor
  · rintro ⟨_, ⟨own, hown, rfl⟩, haccepts⟩
    obtain ⟨rest, hwhole, hrest⟩ := (accepts_escaped_append _ own text).mp haccepts
    exact ⟨rest, hwhole, own, hown, hrest⟩
  · rintro ⟨rest, hwhole, own, hown, hrest⟩
    exact ⟨_, ⟨own, hown, rfl⟩, (accepts_escaped_append _ own text).mpr ⟨rest, hwhole, hrest⟩⟩

end Workspaces

end DocPlan
