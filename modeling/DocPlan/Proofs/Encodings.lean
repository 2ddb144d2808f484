import DocPlan.Proofs.Segments
import DocPlan.Text.Utf8
import Mathlib.Data.List.Basic
import Mathlib.Tactic.IntervalCases

/-!
# Texts and their bytes

A text is read from its bytes (`Utf8.decodeLossy_encode`), and only the bytes of a text are found
to be one (`Utf8.decode?_eq_some_iff`). So two texts with the same bytes are the same.

A character below 0x80 is one byte, and no other character has a byte below 0x80. Bytes may
therefore be searched and cut for such characters before they are read or after: in the bytes of
a text (`Utf8.mem_encode_iff`, `Utf8.keepsSeparators_encode`), and also in bytes that are no text,
where the reader goes on anew after each of them (`Utf8.mem_decodeLossy_iff`,
`Utf8.keepsSeparators_decodeLossy`). The reader gives no such character for other bytes: what it has
begun to read always ends as a character of several bytes or as a replacement character. The
invariant behind this is `Utf8.Pending.Sound`.
-/

namespace DocPlan.Utf8

/-! ## Reading what was written -/

@[simp] theorem encode_nil : encode [] = [] := rfl

theorem encode_cons (c : Char) (rest : List Char) :
    encode (c :: rest) = String.utf8EncodeChar c ++ encode rest := List.flatMap_cons

theorem encode_append (front back : List Char) :
    encode (front ++ back) = encode front ++ encode back := List.flatMap_append

theorem decodeFrom_cons (state : Option Pending) (b : UInt8) (rest : List UInt8) :
    decodeFrom state (b :: rest) =
      (step state b.toNat).1 ++ decodeFrom (step state b.toNat).2 rest := by
  cases state <;> rfl

/-- The byte of a small number, between characters. -/
theorem decodeFrom_whole {n : Nat} (h : n < 0x80) (rest : List UInt8) :
    decodeFrom none (.ofNat n :: rest) = Char.ofNat n :: decodeFrom none rest := by
  have hbyte : (UInt8.ofNat n).toNat = n := UInt8.toNat_ofNat_of_lt' (show _ < 256 by omega)
  have hlead : lead n = .whole (Char.ofNat n) := if_pos h
  rw [decodeFrom_cons, hbyte, step, stepStart, hlead]
  rfl

/-- The first byte of a character of several bytes. -/
theorem decodeFrom_begins {n : Nat} (hbyte : n < 0x100) {pending : Pending}
    (h : lead n = .begins pending) (rest : List UInt8) :
    decodeFrom none (.ofNat n :: rest) = decodeFrom (some pending) rest := by
  have hbyte : (UInt8.ofNat n).toNat = n := UInt8.toNat_ofNat_of_lt' (show _ < 256 by omega)
  rw [decodeFrom_cons, hbyte, step, stepStart, h]
  rfl

section Continuing

variable {bits owed low high n : Nat}

/-- A byte that continues a character, with more bytes owed after it. -/
theorem decodeFrom_tail (hbits : n < 0x40) (hlow : low ≤ n + 0x80) (hhigh : n + 0x80 ≤ high)
    (rest : List UInt8) :
    decodeFrom (some ⟨bits, owed + 2, low, high⟩) (.ofNat (n + 0x80) :: rest) =
      decodeFrom (some ⟨bits * 0x40 + n, owed + 1, 0x80, 0xBF⟩) rest := by
  have hbyte : (UInt8.ofNat (n + 0x80)).toNat = n + 0x80 :=
    UInt8.toNat_ofNat_of_lt' (show _ < 256 by omega)
  rw [decodeFrom_cons, hbyte, step, if_pos ⟨hlow, hhigh⟩, Nat.add_sub_cancel]
  simp only [if_neg (show owed + 2 ≠ 1 by omega)]
  rfl

/-- The last byte of a character. -/
theorem decodeFrom_last (hbits : n < 0x40) (hlow : low ≤ n + 0x80) (hhigh : n + 0x80 ≤ high)
    (rest : List UInt8) :
    decodeFrom (some ⟨bits, 1, low, high⟩) (.ofNat (n + 0x80) :: rest) =
      Char.ofNat (bits * 0x40 + n) :: decodeFrom none rest := by
  have hbyte : (UInt8.ofNat (n + 0x80)).toNat = n + 0x80 :=
    UInt8.toNat_ofNat_of_lt' (show _ < 256 by omega)
  rw [decodeFrom_cons, hbyte, step, if_pos ⟨hlow, hhigh⟩, Nat.add_sub_cancel]
  rfl

end Continuing

/-- The first bytes of characters of several bytes, by the bits that they carry. -/
theorem lead_two {n : Nat} (hlow : 0x02 ≤ n) (hhigh : n < 0x20) :
    lead (n + 0xC0) = .begins ⟨n, 1, 0x80, 0xBF⟩ := by
  unfold lead
  rw [if_neg (by omega), if_neg (by omega), if_pos (by omega), Nat.add_sub_cancel]

theorem lead_three {n : Nat} (h : n < 0x10) :
    lead (n + 0xE0) =
      .begins ⟨n, 2, if n = 0 then 0xA0 else 0x80, if n = 0x0D then 0x9F else 0xBF⟩ := by
  interval_cases n <;> rfl

theorem lead_four {n : Nat} (h : n < 0x05) :
    lead (n + 0xF0) =
      .begins ⟨n, 3, if n = 0 then 0x90 else 0x80, if n = 0x04 then 0x8F else 0xBF⟩ := by
  interval_cases n <;> rfl

/-- A character is read from its bytes, whatever follows. -/
theorem decodeFrom_encodeChar (c : Char) (rest : List UInt8) :
    decodeFrom none (String.utf8EncodeChar c ++ rest) = c :: decodeFrom none rest := by
  have hvalid : c.toNat < 0xD800 ∨ 0xDFFF < c.toNat ∧ c.toNat < 0x110000 := c.valid
  have hchar : Char.ofNat c.toNat = c := Char.ofNat_toNat c
  unfold String.utf8EncodeChar
  rw [show c.val.toNat = c.toNat from rfl]
  generalize c.toNat = v at hvalid hchar
  simp only
  by_cases hone : v ≤ 127
  · rw [if_pos hone, List.singleton_append, decodeFrom_whole (by omega), hchar]
  rw [if_neg hone]
  by_cases htwo : v ≤ 2047
  · have hbits : v / 64 % 32 * 64 + v % 64 = v := by omega
    rw [if_pos htwo, List.cons_append, List.singleton_append,
      decodeFrom_begins (by omega) (lead_two (by omega) (by omega)),
      decodeFrom_last (by omega) (by omega) (by omega), hbits, hchar]
  rw [if_neg htwo]
  by_cases hthree : v ≤ 65535
  · have hbits : (v / 4096 % 16 * 64 + v / 64 % 64) * 64 + v % 64 = v := by omega
    have hlow : (if v / 4096 % 16 = 0 then 0xA0 else 0x80) ≤ v / 64 % 64 + 0x80 := by
      split <;> omega
    have hhigh : v / 64 % 64 + 0x80 ≤ (if v / 4096 % 16 = 0x0D then 0x9F else 0xBF) := by
      split <;> omega
    rw [if_pos hthree, List.cons_append, List.cons_append, List.singleton_append,
      decodeFrom_begins (by omega) (lead_three (by omega)),
      decodeFrom_tail (by omega) hlow hhigh,
      decodeFrom_last (by omega) (by omega) (by omega), hbits, hchar]
  rw [if_neg hthree]
  have hbits : ((v / 262144 % 8 * 64 + v / 4096 % 64) * 64 + v / 64 % 64) * 64 + v % 64 = v := by
    omega
  have hlow : (if v / 262144 % 8 = 0 then 0x90 else 0x80) ≤ v / 4096 % 64 + 0x80 := by
    split <;> omega
  have hhigh : v / 4096 % 64 + 0x80 ≤ (if v / 262144 % 8 = 0x04 then 0x8F else 0xBF) := by
    split <;> omega
  rw [List.cons_append, List.cons_append, List.cons_append, List.singleton_append,
    decodeFrom_begins (by omega) (lead_four (by omega)),
    decodeFrom_tail (by omega) hlow hhigh,
    decodeFrom_tail (by omega) (by omega) (by omega),
    decodeFrom_last (by omega) (by omega) (by omega), hbits, hchar]

theorem decodeLossy_encode_append (text : List Char) (rest : List UInt8) :
    decodeLossy (encode text ++ rest) = text ++ decodeLossy rest := by
  induction text with
  | nil => rfl
  | cons c others ih =>
    rw [encode_cons, List.append_assoc, decodeLossy, decodeFrom_encodeChar, ← decodeLossy, ih,
      List.cons_append]

/-- A text is read from its bytes. -/
@[simp] theorem decodeLossy_encode (text : List Char) : decodeLossy (encode text) = text := by
  have h := decodeLossy_encode_append text []
  rwa [List.append_nil, decodeLossy, decodeLossy, decodeFrom, List.append_nil] at h

theorem encode_injective : Function.Injective encode :=
  Function.LeftInverse.injective decodeLossy_encode

theorem encode_eq_nil_iff {text : List Char} : encode text = [] ↔ text = [] :=
  encode_injective.eq_iff' encode_nil

theorem decode?_eq_some_iff {bytes : List UInt8} {text : List Char} :
    decode? bytes = some text ↔ bytes = encode text := by
  unfold decode?
  constructor
  · intro h
    split at h
    next hbytes => rw [← Option.some.inj h, hbytes]
    next => cases h
  · rintro rfl
    rw [decodeLossy_encode, if_pos rfl]

@[simp] theorem decode?_encode (text : List Char) : decode? (encode text) = some text :=
  decode?_eq_some_iff.mpr rfl

/-! ## Characters of one byte -/

section Ascii

variable {c : Char}

/-- A character below 0x80 is one byte. -/
theorem encodeChar_of_lt (hc : c.toNat < 0x80) : String.utf8EncodeChar c = [c.toUInt8] := by
  unfold String.utf8EncodeChar
  exact if_pos (show c.toNat ≤ 127 by omega)

theorem toNat_toUInt8 (hc : c.toNat < 0x80) : c.toUInt8.toNat = c.toNat := by
  show c.val.toUInt8.toNat = c.val.toNat
  rw [UInt32.toNat_toUInt8]
  exact Nat.mod_eq_of_lt (show c.toNat < 2 ^ 8 by omega)

theorem ofNat_toNat_toUInt8 (hc : c.toNat < 0x80) : Char.ofNat c.toUInt8.toNat = c := by
  rw [toNat_toUInt8 hc, Char.ofNat_toNat]

/-- A byte below 0x80 is a character. -/
theorem exists_toUInt8_eq {b : UInt8} (hb : b.toNat < 0x80) :
    ∃ c : Char, c.toNat < 0x80 ∧ c.toUInt8 = b := by
  have hvalid : Nat.isValidChar b.toNat := Or.inl (by omega)
  have hnumber : (Char.ofNat b.toNat).toNat = b.toNat := by
    rw [Char.ofNat, dif_pos hvalid]
    rfl
  have hc : (Char.ofNat b.toNat).toNat < 0x80 := hnumber.trans_lt hb
  exact ⟨_, hc, UInt8.toNat_inj.mp ((toNat_toUInt8 hc).trans hnumber)⟩

/-- All bytes of any other character are at least 0x80. -/
theorem le_of_mem_encodeChar (hc : 0x80 ≤ c.toNat) {b : UInt8}
    (h : b ∈ String.utf8EncodeChar c) : 0x80 ≤ b.toNat := by
  have hvalid : c.toNat < 0xD800 ∨ 0xDFFF < c.toNat ∧ c.toNat < 0x110000 := c.valid
  have hbyte : ∀ {n : Nat}, 0x80 ≤ n → n < 0x100 → b = .ofNat n → 0x80 ≤ b.toNat := by
    rintro n hlow hhigh rfl
    rwa [UInt8.toNat_ofNat_of_lt' (show n < 256 by omega)]
  unfold String.utf8EncodeChar at h
  rw [show c.val.toNat = c.toNat from rfl] at h
  simp only at h
  rw [if_neg (by omega)] at h
  split at h
  · simp only [List.mem_cons, List.not_mem_nil, or_false] at h
    rcases h with h | h <;> exact hbyte (by omega) (by omega) h
  split at h
  · simp only [List.mem_cons, List.not_mem_nil, or_false] at h
    rcases h with h | h | h <;> exact hbyte (by omega) (by omega) h
  · simp only [List.mem_cons, List.not_mem_nil, or_false] at h
    rcases h with h | h | h | h <;> exact hbyte (by omega) (by omega) h

theorem mem_encode_iff (hc : c.toNat < 0x80) {text : List Char} :
    c.toUInt8 ∈ encode text ↔ c ∈ text := by
  have hother : ∀ d : Char, c.toUInt8 ∈ String.utf8EncodeChar d ↔ c = d := by
    intro d
    constructor
    · intro hmem
      have hd : d.toNat < 0x80 := by
        by_contra hd
        have hle := le_of_mem_encodeChar (Nat.not_lt.mp hd) hmem
        rw [toNat_toUInt8 hc] at hle
        omega
      rw [encodeChar_of_lt hd, List.mem_singleton, ← UInt8.toNat_inj, toNat_toUInt8 hc,
        toNat_toUInt8 hd] at hmem
      exact Char.toNat_inj.mp hmem
    · rintro rfl
      rw [encodeChar_of_lt hc]
      exact List.mem_singleton_self _
  simp [encode, List.mem_flatMap, hother]

theorem keepsSeparators_encode (hc : c.toNat < 0x80) :
    Text.KeepsSeparators encode c c.toUInt8 where
  nil := encode_nil
  ne_nil := fun _ hne hnil => hne (encode_eq_nil_iff.mp hnil)
  cut := by
    intro front back
    rw [encode_append, encode_cons, encodeChar_of_lt hc, List.singleton_append]
  mem := fun _ => (mem_encode_iff hc).mp

end Ascii

/-! ## Bytes that are no text -/

namespace Pending

/-- The least code point that a character which has begun may turn out to have. -/
def least (pending : Pending) : Nat :=
  (pending.bits * 0x40 + (pending.low - 0x80)) * 0x40 ^ (pending.owed - 1)

/-- The first code point that is too great for it. -/
def limit (pending : Pending) : Nat :=
  (pending.bits * 0x40 + (pending.high - 0x80) + 1) * 0x40 ^ (pending.owed - 1)

/-- A character that has begun will be a character of several bytes. -/
structure Sound (pending : Pending) : Prop where
  owed : pending.owed ≠ 0
  low : 0x80 ≤ pending.low
  least : 0x80 ≤ pending.least
  valid : pending.limit ≤ 0xD800 ∨ 0xE000 ≤ pending.least ∧ pending.limit ≤ 0x110000

end Pending

/-- Only a byte below 0x80 is a character of its own. -/
theorem lt_of_lead {b : Nat} {c : Char} (h : lead b = .whole c) : b < 0x80 := by
  unfold lead at h
  split_ifs at h with hlow
  exact hlow

theorem sound_of_lead {b : Nat} {pending : Pending} (h : lead b = .begins pending) :
    pending.Sound := by
  unfold lead at h
  -- one case for each range of first bytes that begin a character
  split_ifs at h
  all_goals injection h with hpending
  all_goals subst hpending
  all_goals constructor
  all_goals simp only [Pending.least, Pending.limit, Nat.reduceSub, Nat.reducePow, Nat.mul_one]
  all_goals omega

namespace Pending.Sound

variable {bits owed low high b : Nat}

/-- A byte that continues a character leaves fewer code points for it. -/
theorem next (h : Sound ⟨bits, owed + 2, low, high⟩) (hlow : low ≤ b) (hhigh : b ≤ high) :
    Sound ⟨bits * 0x40 + (b - 0x80), owed + 1, 0x80, 0xBF⟩ := by
  have howed : owed + 2 - 1 = owed + 1 := rfl
  have hleast : Pending.least ⟨bits, owed + 2, low, high⟩ ≤
      Pending.least ⟨bits * 0x40 + (b - 0x80), owed + 1, 0x80, 0xBF⟩ := by
    simp only [Pending.least, howed, Nat.add_sub_cancel, Nat.pow_succ', ← Nat.mul_assoc]
    exact Nat.mul_le_mul_right _ (by omega)
  have hlimit : Pending.limit ⟨bits * 0x40 + (b - 0x80), owed + 1, 0x80, 0xBF⟩ ≤
      Pending.limit ⟨bits, owed + 2, low, high⟩ := by
    simp only [Pending.limit, howed, Nat.add_sub_cancel, Nat.pow_succ', ← Nat.mul_assoc]
    exact Nat.mul_le_mul_right _ (by omega)
  exact ⟨Nat.succ_ne_zero owed, Nat.le_refl _, h.least.trans hleast,
    h.valid.imp (hlimit.trans ·) fun hvalid => ⟨hvalid.1.trans hleast, hlimit.trans hvalid.2⟩⟩

/-- The last byte completes a character of several bytes. -/
theorem toNat_last (h : Sound ⟨bits, 1, low, high⟩) (hlow : low ≤ b) (hhigh : b ≤ high) :
    0x80 ≤ (Char.ofNat (bits * 0x40 + (b - 0x80))).toNat := by
  have hleast := h.least
  have hvalid := h.valid
  simp only [Pending.least, Pending.limit, Nat.sub_self, Nat.pow_zero, Nat.mul_one] at hleast hvalid
  have hchar : Nat.isValidChar (bits * 0x40 + (b - 0x80)) := by
    unfold Nat.isValidChar
    omega
  have hnumber : (Char.ofNat (bits * 0x40 + (b - 0x80))).toNat = bits * 0x40 + (b - 0x80) := by
    rw [Char.ofNat, dif_pos hchar]
    rfl
  omega

end Pending.Sound

theorem le_toNat_replacement : 0x80 ≤ replacement.toNat := by decide

/-- A byte that is a character ends what has begun before it. -/
theorem step_of_lt {state : Option Pending} (hstate : ∀ pending ∈ state, pending.Sound)
    {c : Char} (hc : c.toNat < 0x80) :
    step state c.toUInt8.toNat = (decodeFrom state [] ++ [c], none) := by
  have hb : c.toUInt8.toNat < 0x80 := (toNat_toUInt8 hc).trans_lt hc
  have hstart : stepStart c.toUInt8.toNat = ([c], none) := by
    rw [stepStart, lead, if_pos hb, ofNat_toNat_toUInt8 hc]
  cases state with
  | none => exact hstart
  | some pending =>
    have hlow := (hstate pending rfl).low
    rw [step, if_neg (by omega), hstart]
    rfl

/-- Any other byte gives no character of one byte, and what it begins or continues is sound. -/
theorem step_of_le {state : Option Pending} (hstate : ∀ pending ∈ state, pending.Sound)
    {b : Nat} (hb : 0x80 ≤ b) :
    (∀ c ∈ (step state b).1, 0x80 ≤ c.toNat) ∧ ∀ pending ∈ (step state b).2, pending.Sound := by
  have hstart : (∀ c ∈ (stepStart b).1, 0x80 ≤ c.toNat) ∧
      ∀ pending ∈ (stepStart b).2, pending.Sound := by
    unfold stepStart
    cases hlead : lead b with
    | whole c => exact absurd (lt_of_lead hlead) (Nat.not_lt.mpr hb)
    | begins pending =>
      exact ⟨List.forall_mem_nil _, fun _ hsome => Option.some.inj hsome ▸ sound_of_lead hlead⟩
    | invalid => exact ⟨List.forall_mem_singleton.mpr le_toNat_replacement, fun _ h => nomatch h⟩
  cases state with
  | none => exact hstart
  | some pending =>
    have hsound := hstate pending rfl
    obtain ⟨bits, owed, low, high⟩ := pending
    rw [step]
    split
    next hrange =>
      obtain ⟨hlow, hhigh⟩ := hrange
      rcases owed with _ | _ | owed
      · exact absurd rfl hsound.owed
      · exact ⟨List.forall_mem_singleton.mpr (hsound.toNat_last hlow hhigh), fun _ h => nomatch h⟩
      · exact ⟨List.forall_mem_nil _, fun _ hsome =>
          Option.some.inj hsome ▸ hsound.next hlow hhigh⟩
    next => exact ⟨List.forall_mem_cons.mpr ⟨le_toNat_replacement, hstart.1⟩, hstart.2⟩

/-- Bytes are read apart at a byte that is a character. -/
theorem decodeFrom_append_cons {state : Option Pending} (hstate : ∀ pending ∈ state, pending.Sound)
    (front : List UInt8) {c : Char} (hc : c.toNat < 0x80) (back : List UInt8) :
    decodeFrom state (front ++ c.toUInt8 :: back) =
      decodeFrom state front ++ c :: decodeLossy back := by
  induction front generalizing state with
  | nil =>
    rw [List.nil_append, decodeFrom_cons, step_of_lt hstate hc, List.append_assoc]
    rfl
  | cons d rest ih =>
    rw [List.cons_append, decodeFrom_cons, decodeFrom_cons, List.append_assoc, ih]
    by_cases hd : d.toNat < 0x80
    · obtain ⟨own, hown, rfl⟩ := exists_toUInt8_eq hd
      rw [step_of_lt hstate hown]
      exact fun _ h => nomatch h
    · exact (step_of_le hstate (Nat.not_lt.mp hd)).2

/-- A character that has begun never becomes characters of one byte only. -/
theorem exists_mem_decodeFrom {pending : Pending} (h : pending.Sound) (bytes : List UInt8) :
    ∃ c ∈ decodeFrom (some pending) bytes, 0x80 ≤ c.toNat := by
  induction bytes generalizing pending with
  | nil => exact ⟨replacement, List.mem_singleton_self _, le_toNat_replacement⟩
  | cons b rest ih =>
    obtain ⟨bits, owed, low, high⟩ := pending
    rw [decodeFrom_cons, step]
    split
    next hrange =>
      obtain ⟨hlow, hhigh⟩ := hrange
      rcases owed with _ | _ | owed
      · exact absurd rfl h.owed
      · exact ⟨_, List.mem_append_left _ (List.mem_singleton_self _), h.toNat_last hlow hhigh⟩
      · exact ih (h.next hlow hhigh)
    next =>
      exact ⟨replacement, List.mem_append_left _ List.mem_cons_self, le_toNat_replacement⟩

private theorem forall_mem_none : ∀ pending ∈ (none : Option Pending), pending.Sound :=
  fun _ h => nomatch h

theorem decodeLossy_append_cons (front : List UInt8) {c : Char} (hc : c.toNat < 0x80)
    (back : List UInt8) :
    decodeLossy (front ++ c.toUInt8 :: back) = decodeLossy front ++ c :: decodeLossy back :=
  decodeFrom_append_cons forall_mem_none front hc back

/-- Bytes that are read as characters of one byte are those characters. -/
theorem eq_encode_of_forall_lt {bytes : List UInt8}
    (h : ∀ c ∈ decodeLossy bytes, c.toNat < 0x80) : bytes = encode (decodeLossy bytes) := by
  induction bytes with
  | nil => rfl
  | cons b rest ih =>
    by_cases hb : b.toNat < 0x80
    · obtain ⟨c, hc, rfl⟩ := exists_toUInt8_eq hb
      have hread : decodeLossy (c.toUInt8 :: rest) = c :: decodeLossy rest :=
        decodeLossy_append_cons [] hc rest
      rw [hread] at h ⊢
      rw [encode_cons, encodeChar_of_lt hc, List.singleton_append,
        ← ih fun d hd => h d (List.mem_cons_of_mem c hd)]
    · -- Any other byte begins a character of several bytes, or is replaced.
      rw [decodeLossy, decodeFrom_cons, step, stepStart] at h
      cases hlead : lead b.toNat with
      | whole c => exact absurd (lt_of_lead hlead) hb
      | begins pending =>
        rw [hlead] at h
        obtain ⟨c, hmem, hc⟩ := exists_mem_decodeFrom (sound_of_lead hlead) rest
        exact absurd (h c hmem) (Nat.not_lt.mpr hc)
      | invalid =>
        rw [hlead] at h
        exact absurd (h replacement List.mem_cons_self) (Nat.not_lt.mpr le_toNat_replacement)

/-- A character of one byte is read where its byte is, and nowhere else. -/
theorem mem_decodeLossy_iff {c : Char} (hc : c.toNat < 0x80) {bytes : List UInt8} :
    c ∈ decodeLossy bytes ↔ c.toUInt8 ∈ bytes := by
  constructor
  · suffices hfrom : ∀ state : Option Pending, (∀ pending ∈ state, pending.Sound) →
        c ∈ decodeFrom state bytes → c.toUInt8 ∈ bytes from hfrom none forall_mem_none
    have hend : ∀ state, c ∉ decodeFrom state [] := by
      rintro (_ | pending) hmem
      · cases hmem
      · obtain rfl := List.mem_singleton.mp hmem
        exact absurd hc (Nat.not_lt.mpr le_toNat_replacement)
    intro state hstate hmem
    induction bytes generalizing state with
    | nil => exact absurd hmem (hend state)
    | cons b rest ih =>
      by_cases hb : b.toNat < 0x80
      · obtain ⟨d, hd, rfl⟩ := exists_toUInt8_eq hb
        have hread := decodeFrom_append_cons hstate [] hd rest
        rw [List.nil_append] at hread
        rw [hread] at hmem
        rcases List.mem_append.mp hmem with hbefore | hafter
        · exact absurd hbefore (hend state)
        · rcases List.mem_cons.mp hafter with rfl | hrest
          · exact List.mem_cons_self
          · exact List.mem_cons_of_mem _ (ih none forall_mem_none hrest)
      · obtain ⟨hout, hnext⟩ := step_of_le hstate (Nat.not_lt.mp hb)
        rw [decodeFrom_cons] at hmem
        rcases List.mem_append.mp hmem with hnow | hlater
        · exact absurd hc (Nat.not_lt.mpr (hout c hnow))
        · exact List.mem_cons_of_mem b (ih _ hnext hlater)
  · intro hmem
    obtain ⟨front, back, rfl⟩ := List.append_of_mem hmem
    rw [decodeLossy_append_cons front hc]
    exact List.mem_append_right _ List.mem_cons_self

theorem keepsSeparators_decodeLossy {c : Char} (hc : c.toNat < 0x80) :
    Text.KeepsSeparators decodeLossy c.toUInt8 c where
  nil := rfl
  ne_nil := by
    intro bytes hne hnil
    have hbytes : bytes = encode (decodeLossy bytes) := eq_encode_of_forall_lt (by simp [hnil])
    rw [hnil] at hbytes
    exact hne hbytes
  cut := fun front back => decodeLossy_append_cons front hc back
  mem := fun _ => (mem_decodeLossy_iff hc).mp

end DocPlan.Utf8
