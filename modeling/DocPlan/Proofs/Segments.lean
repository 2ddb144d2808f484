import DocPlan.Text.Segments

/-!
# Cutting and joining

A list is the segments that it is cut into, joined again (`Text.joinSegments_segments`), and
segments without a separator in them are found again in what they are joined to
(`Text.segments_joinSegments`). All of this holds of texts and of the bytes of paths alike, whatever
separates the segments.

A map of texts may take a separator to a separator and make none of anything else
(`Text.KeepsSeparators`), as writing a text in bytes does. Then a text may be cut, joined and ended
with a separator before the map or after it.
-/

namespace DocPlan.Text

variable {α : Type} {separator : α}

/-! ## Joined segments -/

theorem joinSegments_cons (first : List α) {rest : List (List α)} (hne : rest ≠ []) :
    joinSegments separator (first :: rest) = first ++ separator :: joinSegments separator rest := by
  cases rest with
  | nil => exact absurd rfl hne
  | cons second others => rfl

theorem joinSegments_append {front back : List (List α)} (hfront : front ≠ []) (hback : back ≠ []) :
    joinSegments separator (front ++ back) =
      joinSegments separator front ++ separator :: joinSegments separator back := by
  induction front with
  | nil => exact absurd rfl hfront
  | cons text rest ih =>
    cases rest with
    | nil => exact joinSegments_cons text hback
    | cons second others =>
      rw [List.cons_append, joinSegments_cons text (by simp), ih (by simp),
        joinSegments_cons text (by simp), List.append_assoc, List.cons_append]

/-- Whatever separates nothing is in one of the segments. -/
theorem mem_joinSegments_iff {c : α} (hc : c ≠ separator) {texts : List (List α)} :
    c ∈ joinSegments separator texts ↔ ∃ text ∈ texts, c ∈ text := by
  induction texts with
  | nil => simp [joinSegments]
  | cons first rest ih =>
    cases rest with
    | nil => simp [joinSegments]
    | cons second others =>
      rw [joinSegments_cons first (List.cons_ne_nil second others), List.mem_append, List.mem_cons,
        ih]
      simp [hc]

/-- Leaving out segments leaves out a part of what they are joined to. -/
theorem joinSegments_filter_sublist (separator : α) (p : List α → Bool) (texts : List (List α)) :
    (joinSegments separator (texts.filter p)).Sublist (joinSegments separator texts) := by
  induction texts with
  | nil => exact List.Sublist.refl _
  | cons text rest ih =>
    cases rest with
    | nil =>
      rw [List.filter_cons]
      split
      · exact List.Sublist.refl _
      · exact List.nil_sublist _
    | cons second others =>
      rw [joinSegments_cons text (List.cons_ne_nil _ _), List.filter_cons]
      have hafter : (joinSegments separator ((second :: others).filter p)).Sublist
          (separator :: joinSegments separator (second :: others)) := ih.cons _
      split
      next =>
        by_cases hempty : (second :: others).filter p = []
        · rw [hempty]
          exact List.sublist_append_left _ _
        · rw [joinSegments_cons text hempty]
          exact (List.Sublist.refl text).append (ih.cons_cons separator)
      next => exact hafter.trans (List.sublist_append_right _ _)

/-- A map of texts that takes a separator to a separator, and makes none of anything else. -/
structure KeepsSeparators {α β : Type} (f : List α → List β) (c : α) (d : β) : Prop where
  nil : f [] = []
  ne_nil : ∀ text, text ≠ [] → f text ≠ []
  cut : ∀ front back, f (front ++ c :: back) = f front ++ d :: f back
  mem : ∀ text, d ∈ f text → c ∈ text

theorem KeepsSeparators.map_joinSegments {β : Type} {f : List α → List β} {c : α} {d : β}
    (h : KeepsSeparators f c d) (texts : List (List α)) :
    f (joinSegments c texts) = joinSegments d (texts.map f) := by
  induction texts with
  | nil => exact h.nil
  | cons first rest ih =>
    cases rest with
    | nil => rfl
    | cons second others =>
      rw [joinSegments_cons first (List.cons_ne_nil _ _), h.cut, ih, List.map_cons, List.map_cons,
        List.map_cons, joinSegments_cons (f first) (List.cons_ne_nil _ _)]

/-! ## Segments -/

variable [DecidableEq α]

theorem segments_ne_nil (text : List α) : segments separator text ≠ [] := by
  cases text with
  | nil => simp [segments]
  | cons c rest =>
    unfold segments
    split
    · simp
    · cases segments separator rest <;> simp [extendFirst]

theorem segments_separator (rest : List α) :
    segments separator (separator :: rest) = [] :: segments separator rest := by
  rw [segments, if_pos rfl]

theorem segments_append_separator (front back : List α) :
    segments separator (front ++ separator :: back) =
      segments separator front ++ segments separator back := by
  induction front with
  | nil => exact segments_separator back
  | cons c rest ih =>
    by_cases hc : c = separator
    · subst hc
      rw [List.cons_append, segments_separator, ih, segments_separator, List.cons_append]
    · rw [List.cons_append, segments, if_neg hc, ih, segments, if_neg hc]
      cases h : segments separator rest with
      | nil => exact absurd h (segments_ne_nil rest)
      | cons first others => simp [extendFirst]

theorem segments_of_notMem {text : List α} (h : separator ∉ text) :
    segments separator text = [text] := by
  induction text with
  | nil => rfl
  | cons c rest ih =>
    obtain ⟨hc, hrest⟩ : separator ≠ c ∧ separator ∉ rest := by simpa using h
    rw [segments, if_neg fun h => hc h.symm, ih hrest, extendFirst]

theorem notMem_of_mem_segments {text segment : List α} (h : segment ∈ segments separator text) :
    separator ∉ segment := by
  induction text generalizing segment with
  | nil => simp_all [segments]
  | cons c rest ih =>
    by_cases hc : c = separator
    · subst hc
      rw [segments_separator] at h
      rcases List.mem_cons.mp h with rfl | hrest
      · simp
      · exact ih hrest
    · rw [segments, if_neg hc] at h
      cases hs : segments separator rest with
      | nil => exact absurd hs (segments_ne_nil rest)
      | cons first others =>
        rw [hs, extendFirst] at h
        rw [hs] at ih
        rcases List.mem_cons.mp h with rfl | hothers
        · have hfirst : separator ∉ first := ih List.mem_cons_self
          simp [hfirst, Ne.symm hc]
        · exact ih (List.mem_cons_of_mem _ hothers)

theorem joinSegments_segments (text : List α) :
    joinSegments separator (segments separator text) = text := by
  induction text with
  | nil => rfl
  | cons c rest ih =>
    by_cases hc : c = separator
    · subst hc
      rw [segments_separator, joinSegments_cons [] (segments_ne_nil rest), ih, List.nil_append]
    · rw [segments, if_neg hc]
      cases hs : segments separator rest with
      | nil => exact absurd hs (segments_ne_nil rest)
      | cons first others =>
        rw [hs] at ih
        rw [extendFirst]
        cases others with
        | nil => rw [← ih]; rfl
        | cons second more => rw [← ih]; rfl

theorem segments_joinSegments {texts : List (List α)} (hne : texts ≠ [])
    (h : ∀ text ∈ texts, separator ∉ text) :
    segments separator (joinSegments separator texts) = texts := by
  induction texts with
  | nil => exact absurd rfl hne
  | cons first rest ih =>
    obtain ⟨hfirst, hrest⟩ := List.forall_mem_cons.mp h
    cases rest with
    | nil => exact segments_of_notMem hfirst
    | cons second others =>
      rw [joinSegments_cons first (by simp), segments_append_separator,
        segments_of_notMem hfirst, ih (by simp) hrest, List.singleton_append]

/-! ## Separators at the ends -/

theorem isRooted_iff {text : List α} :
    isRooted separator text = true ↔ ∃ rest, text = separator :: rest := by
  cases text with
  | nil => simp [isRooted]
  | cons c rest => simp [isRooted]

theorem isRooted_append {front : List α} (hne : front ≠ []) (back : List α) :
    isRooted separator (front ++ back) = isRooted separator front := by
  cases front with
  | nil => exact absurd rfl hne
  | cons c rest => rfl

theorem withSeparator_concat (front : List α) (last : α) :
    withSeparator separator (front ++ [last]) =
      if last = separator then front ++ [last] else front ++ [last] ++ [separator] := by
  rw [withSeparator, List.getLast?_concat]

/-- A text with a separator after it ends with one, whether it did before or not. -/
theorem withSeparator_cons (separator c : α) (text : List α) :
    ∃ front, withSeparator separator (c :: text) = front ++ [separator] ∧
      (front = c :: text ∨ front ++ [separator] = c :: text) := by
  obtain hnil | ⟨front, last, hlast⟩ := List.eq_nil_or_concat (c :: text)
  · cases hnil
  · rw [List.concat_eq_append] at hlast
    rw [hlast, withSeparator_concat]
    split
    next hseparator => exact ⟨front, hseparator ▸ rfl, Or.inr (hseparator ▸ rfl)⟩
    next => exact ⟨front ++ [last], rfl, Or.inl rfl⟩

theorem isRooted_withSeparator (text : List α) :
    isRooted separator (withSeparator separator text) = isRooted separator text := by
  obtain rfl | ⟨front, last, rfl⟩ := List.eq_nil_or_concat text
  · rfl
  · rw [List.concat_eq_append, withSeparator_concat]
    split
    next => rfl
    next => exact isRooted_append (by simp) [separator]

theorem isRooted_of_notMem {text : List α} (h : separator ∉ text) :
    isRooted separator text = false := by
  cases text with
  | nil => rfl
  | cons c rest => exact decide_eq_false fun heq => h (heq ▸ List.mem_cons_self)

theorem withSeparator_of_notMem {text : List α} (hne : text ≠ []) (h : separator ∉ text) :
    withSeparator separator text = text ++ [separator] := by
  obtain rfl | ⟨front, last, rfl⟩ := List.eq_nil_or_concat text
  · exact absurd rfl hne
  · rw [List.concat_eq_append] at h ⊢
    have hlast : last ≠ separator := fun heq => h (by simp [heq])
    rw [withSeparator_concat, if_neg hlast]

/-- A separator is put after the last part of a text. -/
theorem withSeparator_append (front : List α) {back : List α} (hne : back ≠ []) :
    withSeparator separator (front ++ back) = front ++ withSeparator separator back := by
  obtain rfl | ⟨init, last, rfl⟩ := List.eq_nil_or_concat back
  · exact absurd rfl hne
  · rw [List.concat_eq_append, ← List.append_assoc, withSeparator_concat, withSeparator_concat]
    split <;> simp only [List.append_assoc]

/-! ## Cutting before and after a map -/

namespace KeepsSeparators

variable {β : Type} {f : List α → List β} {c : α} {d : β} (h : KeepsSeparators f c d)

include h

variable [DecidableEq β]

theorem segments_map (text : List α) : segments d (f text) = (segments c text).map f := by
  have hwhole : ∀ segment ∈ (segments c text).map f, d ∉ segment := by
    intro segment hsegment hmem
    obtain ⟨own, hown, rfl⟩ := List.mem_map.mp hsegment
    exact notMem_of_mem_segments hown (h.mem own hmem)
  have hne : (segments c text).map f ≠ [] := by simpa using segments_ne_nil text
  calc segments d (f text)
      = segments d (f (joinSegments c (segments c text))) := by rw [joinSegments_segments]
    _ = segments d (joinSegments d ((segments c text).map f)) := by rw [h.map_joinSegments]
    _ = (segments c text).map f := segments_joinSegments hne hwhole

theorem isRooted_map (text : List α) : isRooted d (f text) = isRooted c text := by
  by_cases hmem : c ∈ text
  · obtain ⟨front, back, rfl⟩ := List.append_of_mem hmem
    rw [h.cut]
    by_cases hfront : front = []
    · rw [hfront, h.nil, List.nil_append, List.nil_append, isRooted_iff.mpr ⟨_, rfl⟩,
        isRooted_iff.mpr ⟨_, rfl⟩]
    · rw [isRooted_append hfront, isRooted_append (h.ne_nil front hfront), isRooted_map front]
  · rw [isRooted_of_notMem hmem, isRooted_of_notMem fun hmapped => hmem (h.mem text hmapped)]
termination_by text.length

theorem withSeparator_map (text : List α) :
    withSeparator d (f text) = f (withSeparator c text) := by
  have hend : ∀ front, f (front ++ [c]) = f front ++ [d] := fun front => by rw [h.cut, h.nil]
  by_cases hmem : c ∈ text
  · obtain ⟨front, back, rfl⟩ := List.append_of_mem hmem
    by_cases hback : back = []
    · rw [hback, hend, withSeparator_concat, if_pos rfl, withSeparator_concat, if_pos rfl, hend]
    · calc withSeparator d (f (front ++ c :: back))
          = withSeparator d (f front ++ [d] ++ f back) := by rw [h.cut, List.append_cons]
        _ = f front ++ [d] ++ f (withSeparator c back) := by
          rw [withSeparator_append _ (h.ne_nil back hback), withSeparator_map back]
        _ = f (front ++ [c] ++ withSeparator c back) := by
          rw [← List.append_cons, ← h.cut, List.append_cons]
        _ = f (withSeparator c (front ++ c :: back)) := by
          rw [List.append_cons front c back, withSeparator_append _ hback]
  · by_cases htext : text = []
    · subst htext
      rw [h.nil]
      exact h.nil.symm
    · rw [withSeparator_of_notMem htext hmem, hend,
        withSeparator_of_notMem (h.ne_nil text htext) fun hmapped => hmem (h.mem text hmapped)]
termination_by text.length

end KeepsSeparators

end DocPlan.Text
