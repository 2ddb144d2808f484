import DocPlan.FilePath.Order
import Mathlib.Data.String.Basic

/-!
# The orders of texts and paths

Texts and bytes are compared element by element (`Text.compareBy_eq_compareLex`). For texts this
is the order of lists of characters (`Text.compareChars_eq_gt_iff`), so a list of names that is put
in order is sorted, and strictly when no name is repeated (`Text.sorted_pairwise_lt`). The result
depends only on which names there are (`Text.sorted_eq_of_perm`).

Two paths compare as equal when they have the same components (`FilePath.compare_eq_iff`),
and paths that come one after the other are in order (`FilePath.compare_lt_trans`).
-/

namespace DocPlan

namespace Text

/-! ## Texts -/

/-- The order of lists goes by the numbers of their elements. -/
theorem compareBy_eq_compareLex {α : Type} (number : α → Nat) :
    compareBy number = List.compareLex (compareOn number) := by
  funext a b
  induction a generalizing b with
  | nil => cases b <;> rfl
  | cons x xs ih =>
    cases b with
    | nil => rfl
    | cons y ys =>
      rw [compareBy, List.compareLex_cons_cons, ih]
      unfold compareOn
      by_cases hlt : number x < number y
      · rw [if_pos hlt, Nat.compare_eq_lt.mpr hlt]
        rfl
      · by_cases hgt : number y < number x
        · rw [if_neg hlt, if_pos hgt, Nat.compare_eq_gt.mpr hgt]
          rfl
        · rw [if_neg hlt, if_neg hgt, Nat.compare_eq_eq.mpr (by omega)]
          rfl

instance {α : Type} (number : α → Nat) : Std.TransCmp (compareBy number) :=
  compareBy_eq_compareLex number ▸ inferInstance

/-- Lists whose elements have numbers of their own are alike in the order only when they are
equal. -/
theorem compareBy_eq_eq_iff {α : Type} {number : α → Nat} (hnumber : Function.Injective number)
    {a b : List α} : compareBy number a b = .eq ↔ a = b := by
  induction a generalizing b with
  | nil => cases b <;> simp [compareBy]
  | cons x xs ih =>
    cases b with
    | nil => simp [compareBy]
    | cons y ys =>
      rw [compareBy, List.cons.injEq, ← hnumber.eq_iff, ← ih]
      split
      next hlt => simp [hlt.ne]
      next hlt =>
        split
        next hgt => simp [hgt.ne']
        next hgt => simp [Nat.le_antisymm (Nat.not_lt.mp hgt) (Nat.not_lt.mp hlt)]

/-- Comparing character by character is the order of lists of characters. -/
theorem compareChars_eq_gt_iff {a b : List Char} : compareChars a b = .gt ↔ b < a := by
  unfold compareChars
  induction a generalizing b with
  | nil => cases b <;> simp [compareBy]
  | cons x xs ih =>
    cases b with
    | nil => simp [compareBy]
    | cons y ys =>
      have hchar : y < x ↔ y.toNat < x.toNat := by
        rw [Char.lt_def, UInt32.lt_iff_toNat_lt]
        rfl
      rw [compareBy, List.cons_lt_cons_iff, hchar, ← Char.toNat_inj, ← ih]
      split
      next hlt => simp [Nat.lt_asymm hlt, hlt.ne']
      next hlt =>
        split
        next hgt => simp [hgt]
        next hgt => simp [Nat.le_antisymm (Nat.not_lt.mp hlt) (Nat.not_lt.mp hgt)]

theorem compareBytes_eq_eq_iff {a b : List UInt8} : compareBytes a b = .eq ↔ a = b :=
  compareBy_eq_eq_iff fun _ _ => UInt8.toNat_inj.mp

instance : Std.TransCmp compareBytes := inferInstanceAs (Std.TransCmp (compareBy UInt8.toNat))

theorem charsLe_iff {a b : String} : charsLe a.toList b.toList = true ↔ a ≤ b := by
  rw [charsLe, bne_iff_ne, ne_eq, compareChars_eq_gt_iff, ← String.lt_iff_toList_lt, not_lt]

theorem sorted_perm (texts : List String) : (sorted texts).Perm texts :=
  List.mergeSort_perm _ _

theorem mem_sorted {text : String} {texts : List String} :
    text ∈ sorted texts ↔ text ∈ texts := (sorted_perm texts).mem_iff

theorem sorted_pairwise_le (texts : List String) : (sorted texts).Pairwise (· ≤ ·) := by
  have htrans : ∀ a b c : String, charsLe a.toList b.toList = true →
      charsLe b.toList c.toList = true → charsLe a.toList c.toList = true := by
    intro a b c hab hbc
    exact charsLe_iff.mpr (le_trans (charsLe_iff.mp hab) (charsLe_iff.mp hbc))
  have htotal : ∀ a b : String,
      (charsLe a.toList b.toList || charsLe b.toList a.toList) = true := by
    intro a b
    rw [Bool.or_eq_true, charsLe_iff, charsLe_iff]
    exact le_total a b
  exact (List.pairwise_mergeSort htrans htotal texts).imp charsLe_iff.mp

/-- Names that are not repeated are put in strict order. -/
theorem sorted_pairwise_lt {texts : List String} (h : texts.Nodup) :
    (sorted texts).Pairwise (· < ·) := by
  have hnodup : (sorted texts).Pairwise (· ≠ ·) := (sorted_perm texts).nodup_iff.mpr h
  exact ((sorted_pairwise_le texts).and hnodup).imp fun hboth => lt_of_le_of_ne hboth.1 hboth.2

/-- The order of a list of names does not tell in what order they came. -/
theorem sorted_eq_of_perm {texts others : List String} (h : texts.Perm others) :
    sorted texts = sorted others := by
  have hperm : (sorted texts).Perm (sorted others) :=
    (sorted_perm texts).trans (h.trans (sorted_perm others).symm)
  exact hperm.eq_of_pairwise (fun _ _ _ _ hab hba => le_antisymm hab hba)
    (sorted_pairwise_le texts) (sorted_pairwise_le others)

end Text

namespace FilePath

/-! ## Paths -/

/-- The bytes of a component with a name. -/
def Component.bytes : Component → FileName
  | .name bytes => bytes
  | _ => []

/-- The order of components goes by their kinds first. -/
theorem Component.compare_eq_compareLex :
    Component.compare = compareLex (compareOn Component.rank) fun a b =>
      Text.compareBytes a.bytes b.bytes := by
  funext a b
  cases a <;> cases b <;> rfl

instance : Std.TransCmp fun a b : Component => Text.compareBytes a.bytes b.bytes where
  eq_swap := fun {a b} => @Std.OrientedCmp.eq_swap _ Text.compareBytes _ a.bytes b.bytes
  isLE_trans := fun {a b c} =>
    @Std.TransCmp.isLE_trans _ Text.compareBytes _ a.bytes b.bytes c.bytes

instance : Std.TransCmp Component.compare := Component.compare_eq_compareLex ▸ inferInstance

theorem compareComponents_eq_compareLex :
    compareComponents = List.compareLex Component.compare := by
  funext a b
  induction a generalizing b with
  | nil => cases b <;> rfl
  | cons x xs ih =>
    cases b with
    | nil => rfl
    | cons y ys =>
      rw [compareComponents, List.compareLex_cons_cons, ih]
      cases x.compare y <;> rfl

instance : Std.TransCmp compareComponents := compareComponents_eq_compareLex ▸ inferInstance

theorem Component.compare_eq_iff {a b : Component} : a.compare b = .eq ↔ a = b := by
  cases a <;> cases b <;>
    simp [Component.compare, Component.rank, Text.compareBytes_eq_eq_iff]

theorem compareComponents_eq_iff {a b : List Component} :
    compareComponents a b = .eq ↔ a = b := by
  induction a generalizing b with
  | nil => cases b <;> simp [compareComponents]
  | cons x xs ih =>
    cases b with
    | nil => simp [compareComponents]
    | cons y ys =>
      rw [compareComponents, List.cons.injEq, ← Component.compare_eq_iff]
      cases h : x.compare y with
      | eq => simp [ih]
      | lt => simp
      | gt => simp

theorem compare_eq_iff {p q : FilePath} : p.compare q = .eq ↔ p.same q = true := by
  rw [compare, compareComponents_eq_iff, same_iff]

/-- The place of a path in the order does not depend on its spelling. -/
theorem compare_congr {p q : FilePath} (h : p.same q = true) (r : FilePath) :
    p.compare r = q.compare r := by
  rw [compare, compare, same_iff.mp h]

theorem compare_gt_iff {p q : FilePath} : p.compare q = .gt ↔ q.compare p = .lt :=
  @Std.OrientedCmp.gt_iff_lt _ compareComponents _ _ _

/-- Paths that come one after the other are in order. -/
theorem compare_lt_trans {p q r : FilePath} (hpq : p.compare q = .lt) (hqr : q.compare r = .lt) :
    p.compare r = .lt :=
  @Std.TransCmp.lt_trans _ compareComponents _ _ _ _ hpq hqr

theorem le_iff {p q : FilePath} : p.le q = true ↔ (p.compare q).isLE = true := by
  cases h : p.compare q <;> simp [le, h]

/-- Paths are put in order by their components. -/
theorem pairwise_mergeSort_le (paths : List FilePath) :
    (paths.mergeSort le).Pairwise fun p q => (p.compare q).isLE = true := by
  have htrans : ∀ p q r : FilePath, p.le q = true → q.le r = true → p.le r = true := by
    intro p q r hpq hqr
    exact le_iff.mpr
      (@Std.TransCmp.isLE_trans _ compareComponents _ _ _ _ (le_iff.mp hpq) (le_iff.mp hqr))
  have htotal : ∀ p q : FilePath, (p.le q || q.le p) = true := by
    intro p q
    rw [Bool.or_eq_true, le_iff, le_iff]
    cases h : p.compare q with
    | lt => exact Or.inl rfl
    | eq => exact Or.inl rfl
    | gt => exact Or.inr (by rw [compare_gt_iff.mp h]; rfl)
  exact (List.pairwise_mergeSort htrans htotal paths).imp le_iff.mp

end FilePath

end DocPlan
