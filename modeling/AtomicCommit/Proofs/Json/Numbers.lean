import AtomicCommit.Proofs.Json.Blanks

/-! Numbers are read or passed by up to a byte that cannot belong to them. -/

namespace AtomicCommit.Json

open Utf8 (byte encodeChar encodeChars encodeChars_nil encodeChars_cons encodeChars_append)

section Digits

theorem spanDigits_append {digits : Bytes} {values : List Nat}
    (all : spanDigits digits = (values, [])) {mark : UInt8} (noDigit : isDigit mark = false)
    (rest : Bytes) : spanDigits (digits ++ mark :: rest) = (values, mark :: rest) := by
  induction digits generalizing values with
  | nil =>
    cases all
    simp [spanDigits, noDigit]
  | cons b digits ih =>
    by_cases digit : isDigit b
    · simp only [spanDigits, digit, if_true, Prod.mk.injEq] at all
      obtain ⟨rfl, none⟩ := all
      simp [spanDigits, digit, ih (Prod.ext rfl none)]
    · simp [spanDigits, digit] at all

def isWhole : List Nat → Bool
  | [] => false
  | 0 :: _ :: _ => false
  | _ => true

theorem starts_with_digit {digits : Bytes} {values : List Nat}
    (all : spanDigits digits = (values, [])) (whole : isWhole values) :
    ∃ b more, digits = b :: more ∧ isDigit b := by
  cases digits with
  | nil => cases all; cases whole
  | cons b more =>
    by_cases digit : isDigit b
    · exact ⟨b, more, rfl, digit⟩
    · simp only [spanDigits, digit] at all
      cases all

theorem noSpace_of_digit {b : UInt8} (digit : isDigit b) : isSpace b = false := by
  simp only [isDigit, isSpace, decide_eq_true_eq] at digit ⊢
  grind

theorem readWholePart_append {digits : Bytes} {values : List Nat}
    (all : spanDigits digits = (values, [])) (whole : isWhole values) {mark : UInt8}
    (noDigit : isDigit mark = false) (rest : Bytes) :
    readWholePart (digits ++ mark :: rest) = .ok (values, mark :: rest) := by
  simp only [readWholePart, spanDigits_append all noDigit]
  split
  next none => simp_all [isWhole]
  next zero => simp_all [isWhole]
  next found => simp_all

theorem readNumber_append {digits : Bytes} {values : List Nat}
    (all : spanDigits digits = (values, [])) (whole : isWhole values)
    (small : natural values < wordLimit) {mark : UInt8} (may : mayFollow mark) (rest : Bytes) :
    readNumber (digits ++ mark :: rest) = .ok (.integer (natural values), mark :: rest) := by
  obtain ⟨noDigit, noPoint, noExponent⟩ := mayFollow_cases may
  have plain : readFraction (mark :: rest) = .ok (none, mark :: rest) :=
    readFraction_ok.mpr (.inr ⟨rfl, rfl, by simp [noPoint]⟩)
  have plainToo : readExponent (mark :: rest) = .ok (none, mark :: rest) :=
    readExponent_ok.mpr (.inr ⟨rfl, rfl, by rintro _ _ ⟨⟩; exact noExponent⟩)
  have positive : ((digits ++ mark :: rest).head? == some minusSign) = false := by
    obtain ⟨b, more, rfl, digit⟩ := starts_with_digit all whole
    have other : b ≠ minusSign := by
      rintro rfl
      cases digit
    simpa using other
  simp only [readNumber, positive, readNumeral, readWholePart_append all whole noDigit, plain,
    plainToo, bind, Except.bind, pure, Except.pure, Numeral.value, Option.isNone_none,
    Bool.and_self, small, decide_true, if_true, if_false, Bool.false_eq_true]

end Digits

section Skipped

variable {text : List Char} {mark : UInt8} {rest : Bytes}

theorem digit_range {c : Char} (digit : c.isDigit) : 0x30 ≤ c.toNat ∧ c.toNat ≤ 0x39 := by
  simpa [Char.isDigit, UInt32.le_iff_toNat_le] using digit

theorem encodeChar_digit {c : Char} (digit : c.isDigit) :
    encodeChar c = [byte c.toNat] ∧ isDigit (byte c.toNat) ∧ (byte c.toNat).toNat = c.toNat := by
  have range := digit_range digit
  have value : (byte c.toNat).toNat = c.toNat := Utf8.toNat_byte (by omega)
  refine ⟨by simp [encodeChar, show c.toNat < 0x80 by omega], ?_, value⟩
  simp only [isDigit, UInt8.le_iff_toNat_le, value, decide_eq_true_eq]
  exact range

theorem spanDigits_chars (digits : ∀ c ∈ text, c.isDigit) :
    spanDigits (encodeChars text) = (text.map fun c => c.toNat - 0x30, []) := by
  induction text with
  | nil => rfl
  | cons c text ih =>
    obtain ⟨digit, others⟩ := List.forall_mem_cons.mp digits
    obtain ⟨written, isDigit, value⟩ := encodeChar_digit digit
    simp [written, spanDigits, isDigit, ih others, value]

theorem spanDigits_text (isDigits : IsDigits text) (noDigit : isDigit mark = false) (rest : Bytes) :
    ∃ digits, spanDigits (encodeChars text ++ mark :: rest) = (digits, mark :: rest) ∧ digits ≠ [] :=
  ⟨_, spanDigits_append (spanDigits_chars isDigits.2) noDigit rest, by simpa using isDigits.1⟩

theorem readWholePart_text (isWhole : IsWholePart text) (noDigit : isDigit mark = false)
    (rest : Bytes) :
    ∃ digits, readWholePart (encodeChars text ++ mark :: rest) = .ok (digits, mark :: rest) := by
  obtain ⟨isDigits, noZero⟩ := isWhole
  have span := spanDigits_append (spanDigits_chars isDigits.2) noDigit rest
  refine ⟨_, readWholePart_ok.mpr ⟨span, by simpa using isDigits.1, fun d others same => ?_⟩⟩
  obtain ⟨c, text, rfl, zero, more⟩ := List.map_eq_cons_iff.mp same
  have range := digit_range (isDigits.2 c (by simp))
  obtain rfl : c = '0' := Char.toNat_inj.mp (show c.toNat = 0x30 by omega)
  cases noZero rfl
  cases more

theorem readFraction_text (isFraction : IsFraction text) (noDigit : isDigit mark = false)
    (noPoint : mark ≠ 0x2E) (rest : Bytes) :
    ∃ fraction, readFraction (encodeChars text ++ mark :: rest) = .ok (fraction, mark :: rest) := by
  cases isFraction with
  | none => exact ⟨none, readFraction_ok.mpr (.inr ⟨rfl, rfl, by simp [noPoint]⟩)⟩
  | some isDigits =>
    obtain ⟨digits, span, some⟩ := spanDigits_text isDigits noDigit rest
    exact ⟨_, readFraction_ok.mpr (.inl ⟨_, digits, rfl, span, some, rfl⟩)⟩

theorem fraction_start (isFraction : IsFraction text) (noDigit : isDigit mark = false)
    (rest : Bytes) : ∃ b more, encodeChars text ++ mark :: rest = b :: more ∧ isDigit b = false := by
  cases isFraction with
  | none => exact ⟨mark, rest, rfl, noDigit⟩
  | some isDigits => exact ⟨0x2E, _, rfl, rfl⟩

theorem unsigned_text {sign digits : List Char} (isSign : sign ∈ [[], ['+'], ['-']])
    (isDigits : IsDigits digits) (rest : Bytes) :
    (unsigned (encodeChars (sign ++ digits) ++ rest)).2 = encodeChars digits ++ rest := by
  simp only [List.mem_cons, List.not_mem_nil, or_false] at isSign
  rcases isSign with rfl | rfl | rfl
  · obtain ⟨some, all⟩ := isDigits
    obtain ⟨c, digits, rfl⟩ := List.exists_cons_of_ne_nil some
    obtain ⟨written, digit, -⟩ := encodeChar_digit (all c (by simp))
    have noSign : byte c.toNat ≠ 0x2D ∧ byte c.toNat ≠ 0x2B := by
      constructor <;> intro same <;> rw [same] at digit <;> cases digit
    simp [written, unsigned_cons, noSign]
  · rfl
  · rfl

theorem readExponent_text (isExponent : IsExponent text) (may : mayFollow mark) (rest : Bytes) :
    ∃ exponent, readExponent (encodeChars text ++ mark :: rest) = .ok (exponent, mark :: rest) := by
  obtain ⟨noDigit, -, noExponent⟩ := mayFollow_cases may
  cases isExponent with
  | none =>
    exact ⟨none, readExponent_ok.mpr (.inr ⟨rfl, rfl, by rintro _ _ ⟨⟩; exact noExponent⟩)⟩
  | @some letter sign digits isMark isSign isDigits =>
    obtain ⟨values, span, some⟩ := spanDigits_text isDigits noDigit rest
    have marked : ∃ b, encodeChar letter = [b] ∧ (b = 0x65 ∨ b = 0x45) := by
      simp only [List.mem_cons, List.not_mem_nil, or_false] at isMark
      rcases isMark with rfl | rfl
      · exact ⟨0x65, rfl, .inl rfl⟩
      · exact ⟨0x45, rfl, .inr rfl⟩
    obtain ⟨b, written, isMark⟩ := marked
    rw [← unsigned_text isSign isDigits] at span
    refine ⟨_, readExponent_ok.mpr (.inl ⟨b, _, values, ?_, isMark, span, some, rfl⟩)⟩
    simp [written]

theorem exponent_start (isExponent : IsExponent text) (may : mayFollow mark) (rest : Bytes) :
    ∃ b more, encodeChars text ++ mark :: rest = b :: more ∧ isDigit b = false ∧ b ≠ 0x2E := by
  obtain ⟨noDigit, noPoint, -⟩ := mayFollow_cases may
  cases isExponent with
  | none => exact ⟨mark, rest, rfl, noDigit, noPoint⟩
  | some isMark isSign isDigits =>
    simp only [List.mem_cons, List.not_mem_nil, or_false] at isMark
    rcases isMark with rfl | rfl
    · exact ⟨0x65, _, rfl, rfl, by decide⟩
    · exact ⟨0x45, _, rfl, rfl, by decide⟩

theorem readNumeral_text {whole fraction exponent : List Char} (isWhole : IsWholePart whole)
    (isFraction : IsFraction fraction) (isExponent : IsExponent exponent) (may : mayFollow mark)
    (rest : Bytes) :
    ∃ numeral, readNumeral (encodeChars (whole ++ fraction ++ exponent) ++ mark :: rest) =
      .ok (numeral, mark :: rest) := by
  obtain ⟨e, afterE, startE, noDigit, noPoint⟩ := exponent_start isExponent may rest
  obtain ⟨f, afterF, startF, noDigitToo⟩ := fraction_start isFraction noDigit afterE
  obtain ⟨digits, readWhole⟩ := readWholePart_text isWhole noDigitToo afterF
  obtain ⟨decimals, readFraction⟩ := readFraction_text isFraction noDigit noPoint afterE
  obtain ⟨power, readExponent⟩ := readExponent_text isExponent may rest
  rw [← startF, ← startE] at readWhole
  rw [← startE] at readFraction
  refine ⟨⟨digits, decimals, power⟩, ?_⟩
  simp only [encodeChars_append, List.append_assoc, readNumeral, readWhole, readFraction,
    readExponent, bind, Except.bind]
  rfl

theorem starts_with_char (isDigits : IsDigits text) :
    ∃ b more, encodeChars text = b :: more ∧ isDigit b := by
  obtain ⟨some, all⟩ := isDigits
  obtain ⟨c, text, rfl⟩ := List.exists_cons_of_ne_nil some
  obtain ⟨written, digit, -⟩ := encodeChar_digit (all c (by simp))
  exact ⟨_, _, by rw [encodeChars_cons, written]; rfl, digit⟩

theorem skipNumber_text (isNumber : IsNumber text) (follows : Follows rest) :
    skipNumber (encodeChars text ++ rest) = .ok rest := by
  obtain ⟨mark, rest, rfl, may⟩ := follows
  cases isNumber with
  | @parts sign whole fraction exponent isSign isWhole isFraction isExponent =>
    obtain ⟨numeral, read⟩ := readNumeral_text isWhole isFraction isExponent may rest
    simp only [List.mem_cons, List.not_mem_nil, or_false] at isSign
    rcases isSign with rfl | rfl
    · obtain ⟨b, more, start, digit⟩ := starts_with_char isWhole.1
      have positive : b ≠ minusSign := by
        rintro rfl
        cases digit
      simp only [encodeChars_append, List.append_assoc, List.nil_append, start,
        List.cons_append] at read ⊢
      simp [skipNumber, positive, read]
    · have minus : encodeChars ['-'] = [minusSign] := rfl
      simp only [List.append_assoc, encodeChars_append] at read ⊢
      simp [skipNumber, minus, read]

theorem number_start (isNumber : IsNumber text) :
    ∃ b more, encodeChars text = b :: more ∧ (b = minusSign ∨ isDigit b) := by
  cases isNumber with
  | @parts sign whole fraction exponent isSign isWhole isFraction isExponent =>
    simp only [List.mem_cons, List.not_mem_nil, or_false] at isSign
    rcases isSign with rfl | rfl
    · obtain ⟨b, more, start, digit⟩ := starts_with_char isWhole.1
      refine ⟨b, more ++ encodeChars (fraction ++ exponent), ?_, .inr digit⟩
      simp [start]
    · exact ⟨minusSign, _, rfl, .inl rfl⟩

end Skipped

end AtomicCommit.Json
