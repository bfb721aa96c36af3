import AtomicCommit.Proofs.Json.Grammar
import AtomicCommit.Proofs.Utf8

/-! A string reads back as itself, however it is spelled and whatever follows it. -/

namespace AtomicCommit.Json

open Utf8 (byte encodeChar encodeChars encodeChars_nil encodeChars_cons encodeChars_append)

def isPlainByte (b : UInt8) : Bool := b != quoteMark && b != escapeMark && !decide (b < 0x20)

theorem stringBytes_plain {bytes : Bytes} (plain : ∀ b ∈ bytes, isPlainByte b) (rest : Bytes) :
    stringBytes 0 (bytes ++ rest) =
      (stringBytes 0 rest).map fun (text, rest) => (bytes ++ text, rest) := by
  induction bytes with
  | nil =>
    rw [List.nil_append]
    cases stringBytes 0 rest <;> rfl
  | cons b bytes ih =>
    obtain ⟨plainByte, plainRest⟩ := List.forall_mem_cons.mp plain
    simp only [isPlainByte, Bool.and_eq_true, bne_iff_ne, Bool.not_eq_true', decide_eq_false_iff_not,
      and_assoc] at plainByte
    obtain ⟨noQuote, noEscape, noControl⟩ := plainByte
    simp only [List.cons_append, stringBytes, noQuote, noEscape, noControl, if_false, ih plainRest]
    cases stringBytes 0 rest <;> rfl

theorem stringBytes_owed (passed rest : Bytes) :
    stringBytes passed.length (passed ++ rest) = stringBytes 0 rest := by
  induction passed with
  | nil => rfl
  | cons b passed ih => simpa [stringBytes] using ih

theorem stringBytes_escape (passed meant rest : Bytes)
    (read : escape (passed ++ rest) = .ok (meant, passed.length)) :
    stringBytes 0 (escapeMark :: (passed ++ rest)) =
      (stringBytes 0 rest).map fun (text, rest) => (meant ++ text, rest) := by
  simp only [stringBytes, show escapeMark ≠ quoteMark by decide, if_false, if_true, read,
    stringBytes_owed]

theorem plain_encodeChar {c : Char} (noQuote : c ≠ '"') (noEscape : c ≠ '\\')
    (noControl : ¬ c.toNat < 0x20) : ∀ b ∈ encodeChar c, isPlainByte b := by
  have quote : c.toNat ≠ 0x22 := fun same => noQuote (by rw [← Char.ofNat_toNat c, same])
  have mark : c.toNat ≠ 0x5C := fun same => noEscape (by rw [← Char.ofNat_toNat c, same])
  have plain : ∀ n, 0x20 ≤ n → n ≠ 0x22 → n ≠ 0x5C → n < 0x100 → isPlainByte (byte n) := by
    intro n low quote mark high
    have value := Utf8.toNat_byte high
    simp only [isPlainByte, quoteMark, escapeMark, Bool.and_eq_true, bne_iff_ne, ne_eq,
      Bool.not_eq_true', decide_eq_false_iff_not, ← UInt8.toNat_inj, UInt8.lt_iff_toNat_lt, value]
    exact ⟨⟨quote, mark⟩, Nat.not_lt.mpr low⟩
  have range := Utf8.toNat_char c
  intro b member
  simp only [encodeChar] at member
  split at member
  · obtain rfl := List.mem_singleton.mp member
    exact plain _ (by omega) quote mark (by omega)
  split at member
  · simp only [List.mem_cons, List.not_mem_nil, or_false] at member
    rcases member with rfl | rfl <;>
      exact plain _ (by omega) (by omega) (by omega) (by omega)
  split at member
  · simp only [List.mem_cons, List.not_mem_nil, or_false] at member
    rcases member with rfl | rfl | rfl <;>
      exact plain _ (by omega) (by omega) (by omega) (by omega)
  · simp only [List.mem_cons, List.not_mem_nil, or_false] at member
    rcases member with rfl | rfl | rfl | rfl <;>
      exact plain _ (by omega) (by omega) (by omega) (by omega)

theorem hexDigit_digitChar : ∀ d < 16, hexDigit (byte (Nat.digitChar d).toNat) = some d := by
  decide

theorem encodeChar_digitChar : ∀ d < 16,
    encodeChar (Nat.digitChar d) = [byte (Nat.digitChar d).toNat] := by
  decide

theorem escape_unicode {a b c d : UInt8} {unit : Nat} (read : hexUnit a b c d = some unit)
    (noLow : isLowSurrogate unit = false) (noHigh : isHighSurrogate unit = false) (rest : Bytes) :
    escape (unicodeMark :: a :: b :: c :: d :: rest) = .ok (encodeChar (Char.ofNat unit), 5) := by
  simp [escape, read, noLow, noHigh]

theorem shortEscape_known {letter c : Char} (known : (letter, c) ∈ shortEscapes) :
    ∃ mark meant, encodeChar letter = [mark] ∧ encodeChar c = [meant] ∧ mark ≠ unicodeMark ∧
      shortEscape mark = some meant := by
  have all : ∀ pair ∈ shortEscapes, encodeChar pair.1 = [byte pair.1.toNat] ∧
      encodeChar pair.2 = [byte pair.2.toNat] ∧ byte pair.1.toNat ≠ unicodeMark ∧
        shortEscape (byte pair.1.toNat) = some (byte pair.2.toNat) := by
    decide
  exact ⟨_, _, all _ known⟩

theorem encodeChar_hex {c : Char} {value : Nat} (hex : IsHex c value) (small : value < 16) :
    ∃ b, encodeChar c = [b] ∧ hexDigit b = some value := by
  have upper : ∀ d < 16, encodeChar d.digitChar.toUpper = [byte d.digitChar.toUpper.toNat] ∧
      hexDigit (byte d.digitChar.toUpper.toNat) = some d := by
    decide
  rcases hex with rfl | rfl
  · exact ⟨_, encodeChar_digitChar value small, hexDigit_digitChar value small⟩
  · exact ⟨_, (upper value small).1, (upper value small).2⟩

theorem hexUnit_digits {digits : List Char} {unit : Nat} (isUnit : IsCodeUnit digits unit) :
    ∃ a b c d, encodeChars digits = [a, b, c, d] ∧ hexUnit a b c d = some unit := by
  obtain ⟨small, hexes⟩ := isUnit
  obtain _ | ⟨first, _ | ⟨second, _ | ⟨third, _ | ⟨fourth, _ | _⟩⟩⟩⟩ := hexes
  obtain ⟨a, writtenA, readA⟩ := encodeChar_hex first (by omega)
  obtain ⟨b, writtenB, readB⟩ := encodeChar_hex second (by omega)
  obtain ⟨c, writtenC, readC⟩ := encodeChar_hex third (by omega)
  obtain ⟨d, writtenD, readD⟩ := encodeChar_hex fourth (by omega)
  refine ⟨a, b, c, d, by simp [writtenA, writtenB, writtenC, writtenD], ?_⟩
  simp only [hexUnit, readA, readB, readC, readD, bind, Option.bind, pure, Option.some.injEq]
  omega

theorem escape_pair {a b c d a' b' c' d' : UInt8} {high low : Nat}
    (readHigh : hexUnit a b c d = some high) (readLow : hexUnit a' b' c' d' = some low)
    (isHigh : isHighSurrogate high) (isLow : isLowSurrogate low) (rest : Bytes) :
    escape (unicodeMark :: a :: b :: c :: d :: escapeMark :: unicodeMark :: a' :: b' :: c' :: d' ::
      rest) = .ok (encodeChar (paired high low), 11) := by
  have noLow : isLowSurrogate high = false := by
    simp only [isHighSurrogate, isLowSurrogate, decide_eq_true_eq, decide_eq_false_iff_not] at isHigh ⊢
    omega
  simp [escape, readHigh, readLow, isHigh, isLow, noLow]

theorem paired_units {c : Char} (wide : 0x10000 ≤ c.toNat) :
    paired (0xD800 + (c.toNat - 0x10000) / 0x400) (0xDC00 + (c.toNat - 0x10000) % 0x400) = c := by
  have value : 0x10000 + (0xD800 + (c.toNat - 0x10000) / 0x400 - 0xD800) * 0x400 +
      (0xDC00 + (c.toNat - 0x10000) % 0x400 - 0xDC00) = c.toNat := by
    omega
  rw [paired, value, Char.ofNat_toNat]

theorem stringBytes_spells {c : Char} {text : List Char} (spelled : Spells c text) (rest : Bytes) :
    stringBytes 0 (encodeChars text ++ rest) =
      (stringBytes 0 rest).map fun (bytes, rest) => (encodeChar c ++ bytes, rest) := by
  have range := Utf8.toNat_char c
  cases spelled with
  | plain plain =>
    obtain ⟨noQuote, noEscape, noControl⟩ := plain
    simpa using stringBytes_plain (plain_encodeChar noQuote noEscape (by omega)) rest
  | short known =>
    obtain ⟨mark, meant, written, means, noUnicode, read⟩ := shortEscape_known known
    simp only [encodeChars_cons, encodeChars_nil, written, means]
    exact stringBytes_escape [mark] [meant] rest (by simp [escape, noUnicode, read])
  | unit isUnit =>
    obtain ⟨p, q, r, s, written, read⟩ := hexUnit_digits isUnit
    have escaped := escape_unicode read (by simp [isLowSurrogate]; omega)
      (by simp [isHighSurrogate]; omega) rest
    rw [Char.ofNat_toNat] at escaped
    simp only [encodeChars_cons, written]
    exact stringBytes_escape [unicodeMark, p, q, r, s] _ rest escaped
  | pair wide isHigh isLow =>
    obtain ⟨p, q, r, s, written, read⟩ := hexUnit_digits isHigh
    obtain ⟨p', q', r', s', writtenLow, readLow⟩ := hexUnit_digits isLow
    have escaped := escape_pair read readLow (by simp [isHighSurrogate]; omega)
      (by simp [isLowSurrogate]; omega) rest
    rw [paired_units wide] at escaped
    simp only [encodeChars_cons, encodeChars_append, written, writtenLow]
    exact stringBytes_escape
      [unicodeMark, p, q, r, s, escapeMark, unicodeMark, p', q', r', s'] _ rest escaped

theorem stringBytes_spelled {chars : List Char} {letters : List (List Char)}
    (spelled : List.Forall₂ Spells chars letters) (rest : Bytes) :
    stringBytes 0 (encodeChars letters.flatten ++ rest) =
      (stringBytes 0 rest).map fun (bytes, rest) => (encodeChars chars ++ bytes, rest) := by
  induction spelled with
  | nil =>
    rw [List.flatten_nil, encodeChars_nil, List.nil_append]
    cases stringBytes 0 rest <;> rfl
  | cons first _ ih =>
    rw [List.flatten_cons, encodeChars_append, List.append_assoc, stringBytes_spells first, ih]
    cases stringBytes 0 rest <;> simp [Except.map]

theorem readString_spelled {value : String} {text : List Char} (isString : IsStringOf value text)
    (rest : Bytes) :
    ∃ opened, encodeChars text ++ rest = quoteMark :: opened ∧ readString opened = .ok (value, rest) := by
  cases isString with
  | @quoted letters spelled =>
    have closed : stringBytes 0 (quoteMark :: rest) = .ok ([], rest) := by simp [stringBytes]
    have quote : encodeChar '"' = [quoteMark] := rfl
    refine ⟨encodeChars letters.flatten ++ quoteMark :: rest, by simp [quote], ?_⟩
    simp [readString, stringBytes_spelled spelled, closed, Except.map, Utf8.decode?_encodeChars]

theorem spells_escapedChar (c : Char) : Spells c (escapedChar c) := by
  fun_cases escapedChar c with
  | case1 special => exact .short (by rcases special with rfl | rfl <;> simp [shortEscapes])
  | case2 _ same => exact .short (by simp [same, shortEscapes])
  | case3 _ _ same => exact .short (by simp [same, shortEscapes])
  | case4 _ _ _ same => exact .short (by simp [same, shortEscapes])
  | case5 _ _ _ _ same => exact .short (by simp [same, shortEscapes])
  | case6 _ _ _ _ _ same => exact .short (by simp [same, shortEscapes])
  | case7 _ _ _ _ _ _ control =>
    refine .unit ⟨by omega, ?_⟩
    rw [show c.toNat / 0x1000 = 0 by omega, show c.toNat / 0x100 % 0x10 = 0 by omega,
      show c.toNat / 0x10 % 0x10 = c.toNat / 16 by omega]
    exact .cons (.inl rfl) (.cons (.inl rfl) (.cons (.inl rfl) (.cons (.inl rfl) .nil)))
  | case8 special _ _ _ _ _ noControl =>
    exact .plain ⟨fun same => special (.inl same), fun same => special (.inr same), by omega⟩

theorem isStringOf_written (value : String) : IsStringOf value (writeString value) := by
  have spelled : List.Forall₂ Spells value.toList (value.toList.map escapedChar) := by
    rw [List.forall₂_map_right_iff, List.forall₂_same]
    exact fun c _ => spells_escapedChar c
  simpa [writeString, List.flatMap_def] using IsStringOf.quoted spelled

theorem readString_written (text : String) (rest : Bytes) :
    readString (encodeChars (text.toList.flatMap escapedChar) ++ quoteMark :: rest) =
      .ok (text, rest) := by
  obtain ⟨opened, written, read⟩ := readString_spelled (isStringOf_written text) rest
  have quote : encodeChar '"' = [quoteMark] := rfl
  simp only [writeString, List.cons_append, List.nil_append, encodeChars_append, encodeChars_cons,
    encodeChars_nil, quote, List.append_assoc, List.cons.injEq, true_and] at written
  rw [written, read]

end AtomicCommit.Json
