/-!
# The order of texts

Texts are ordered character by character, by code points; a text comes before those that continue
it. Names of files are ordered byte by byte in the same way. For names that are texts the two
orders are one, since UTF-8 keeps the order of code points.
-/

namespace DocPlan.Text

/-- The order of lists by the numbers of their elements. -/
def compareBy {α : Type} (number : α → Nat) : List α → List α → Ordering
  | [], [] => .eq
  | [], _ :: _ => .lt
  | _ :: _, [] => .gt
  | a :: as, b :: bs =>
    if number a < number b then .lt
    else if number b < number a then .gt
    else compareBy number as bs

/-- The order of texts by code points. -/
def compareChars : List Char → List Char → Ordering := compareBy Char.toNat

/-- The order of bytes. -/
def compareBytes : List UInt8 → List UInt8 → Ordering := compareBy UInt8.toNat

/-- Whether a text does not come after another. -/
def charsLe (a b : List Char) : Bool := compareChars a b != .gt

/-- Whether bytes do not come after others. -/
def bytesLe (a b : List UInt8) : Bool := compareBytes a b != .gt

/-- Texts in order. -/
def sorted (texts : List String) : List String :=
  texts.mergeSort fun a b => charsLe a.toList b.toList

end DocPlan.Text
