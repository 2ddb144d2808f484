import DocPlan.Proofs.Encodings
import DocPlan.Proofs.ManifestPaths

/-!
# Paths and what they are shown as

Messages and patterns show a path as a text. The path that this text spells (`FilePath.shown`) is
the path itself exactly when it is a text (`FilePath.shown_eq_iff`). It is always the same
kind of path: separators and dots are shown as they are and stand for nothing else, so a normal
path is shown as a normal path, name by name (`FilePath.shown_ofNames`).
-/

namespace DocPlan

namespace FilePath

open Utf8

/-! ## Texts and paths -/

theorem keepsSeparators_encode : Text.KeepsSeparators encode '/' separator :=
  Utf8.keepsSeparators_encode (by decide)

theorem keepsSeparators_decodeLossy : Text.KeepsSeparators decodeLossy separator '/' :=
  Utf8.keepsSeparators_decodeLossy (by decide)

@[simp] theorem bytes_ofString (text : String) : (ofString text).bytes = encode text.toList := rfl

@[simp] theorem chars_ofString (text : String) : (ofString text).chars = text.toList :=
  decodeLossy_encode text.toList

theorem isAbsolute_ofString (text : String) :
    (ofString text).isAbsolute = Text.isRooted '/' text.toList :=
  keepsSeparators_encode.isRooted_map text.toList

theorem text?_eq_some_iff {path : FilePath} {text : List Char} :
    path.text? = some text ↔ path = ⟨encode text⟩ := by
  rw [text?, decode?_eq_some_iff]
  exact ⟨congrArg FilePath.mk, congrArg FilePath.bytes⟩

/-- A character of one byte is shown where its byte is, and nowhere else. -/
theorem mem_chars_iff {path : FilePath} {c : Char} (hc : c.toNat < 0x80) :
    c ∈ path.chars ↔ c.toUInt8 ∈ path.bytes := mem_decodeLossy_iff hc

/-- The path that a path is shown as. -/
def shown (path : FilePath) : FilePath := ofString path.toString

theorem bytes_shown (path : FilePath) : path.shown.bytes = encode path.chars := by
  rw [shown, bytes_ofString, toString, String.toList_ofList]

@[simp] theorem isText_ofString (text : String) : (ofString text).isText = true := by
  rw [isText, text?, bytes_ofString, decode?_encode]
  rfl

/-- A path is what it is shown as when it is a text. -/
theorem shown_eq_iff {path : FilePath} : path.shown = path ↔ path.isText = true := by
  constructor
  · intro h
    rw [← h]
    exact isText_ofString _
  · intro h
    obtain ⟨text, htext⟩ := Option.isSome_iff_exists.mp h
    obtain rfl := text?_eq_some_iff.mp htext
    rw [shown, toString, chars, decodeLossy_encode, ofString, String.toList_ofList]

/-! ## Names -/

/-- The name that a name is shown as. -/
def shownName (name : FileName) : FileName := encode (decodeLossy name)

/-- A name is shown as characters of one byte only if it consists of them. -/
theorem shownName_eq_iff {name : FileName} {text : List Char} (htext : ∀ c ∈ text, c.toNat < 0x80) :
    shownName name = encode text ↔ name = encode text := by
  constructor
  · intro h
    have hread : decodeLossy name = text := encode_injective h
    have hname : name = encode (decodeLossy name) :=
      eq_encode_of_forall_lt (by rw [hread]; exact htext)
    rw [hname, hread]
  · rintro rfl
    rw [shownName, decodeLossy_encode]

/-- A text is a proper name as it is by its characters. -/
theorem proper_encode_iff {text : List Char} :
    Proper (encode text) ↔ text ≠ [] ∧ text ≠ ['.'] ∧ text ≠ ['.', '.'] ∧ '/' ∉ text := by
  have hdot : encode text = [dot] ↔ text = ['.'] := encode_injective.eq_iff' rfl
  have hdots : encode text = [dot, dot] ↔ text = ['.', '.'] := encode_injective.eq_iff' rfl
  have hwhole : separator ∈ encode text ↔ '/' ∈ text := mem_encode_iff (by decide)
  constructor
  · intro h
    have hcounts : text ≠ [] ∧ text ≠ ['.'] := by
      simpa [isNoise, encode_eq_nil_iff, hdot] using h.counts
    exact ⟨hcounts.1, hcounts.2, hdots.not.mp h.stays, hwhole.not.mp h.whole⟩
  · rintro ⟨hne, hcurrent, hparent, hslash⟩
    exact ⟨by simp [isNoise, encode_eq_nil_iff, hdot, hne, hcurrent], hdots.not.mpr hparent,
      hwhole.not.mpr hslash⟩

theorem isNoise_shownName (name : FileName) : isNoise (shownName name) = isNoise name := by
  have hnil : shownName name = [] ↔ name = [] := @shownName_eq_iff name [] (List.forall_mem_nil _)
  have hdot : shownName name = [dot] ↔ name = [dot] :=
    @shownName_eq_iff name ['.'] (List.forall_mem_singleton.mpr (by decide))
  simp only [isNoise, hnil, hdot]

theorem Proper.shownName {name : FileName} (h : Proper name) : Proper (shownName name) where
  counts := (isNoise_shownName name).trans h.counts
  stays := (@shownName_eq_iff name ['.', '.'] (by simp)).not.mpr h.stays
  whole := by
    intro hmem
    have hread : '/' ∈ decodeLossy name := (mem_encode_iff (by decide)).mp hmem
    exact h.whole ((mem_decodeLossy_iff (by decide)).mp hread)

theorem proper_map_shownName {names : List FileName} (h : ∀ name ∈ names, Proper name) :
    ∀ name ∈ names.map shownName, Proper name := by
  intro name hname
  obtain ⟨own, hown, rfl⟩ := List.mem_map.mp hname
  exact (h own hown).shownName

theorem chars_ofNames (absolute : Bool) (names : List FileName) :
    (ofNames absolute names).chars =
      (if absolute then ['/'] else []) ++ Text.joinSegments '/' (names.map decodeLossy) := by
  rw [← keepsSeparators_decodeLossy.map_joinSegments]
  cases absolute with
  | false => rfl
  | true => exact keepsSeparators_decodeLossy.cut [] (Text.joinSegments separator names)

/-- A path by names is shown name by name. -/
theorem shown_ofNames (absolute : Bool) (names : List FileName) :
    (ofNames absolute names).shown = ofNames absolute (names.map shownName) := by
  have hbytes : (ofNames absolute names).shown.bytes =
      (ofNames absolute (names.map shownName)).bytes := by
    rw [bytes_shown, chars_ofNames, encode_append, keepsSeparators_encode.map_joinSegments,
      List.map_map]
    cases absolute <;> rfl
  exact congrArg FilePath.mk hbytes

theorem Normal.shown {path : FilePath} (h : Normal path) : Normal path.shown := by
  obtain ⟨names, hproper, rfl⟩ := h
  exact ⟨_, proper_map_shownName hproper, shown_ofNames true names⟩

/-- A path that names lead to is shown without a separator at its end. -/
theorem withSeparator_chars_ofNames {absolute : Bool} {names : List FileName} (hne : names ≠ [])
    (h : ∀ name ∈ names, Proper name) :
    Text.withSeparator '/' (ofNames absolute names).chars =
      (ofNames absolute names).chars ++ ['/'] := by
  rw [chars, keepsSeparators_decodeLossy.withSeparator_map, withSeparator_ofNames hne h]
  exact keepsSeparators_decodeLossy.cut _ []

end FilePath

end DocPlan
