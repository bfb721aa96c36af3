import AtomicCommit.Text.Utf8
import Mathlib.Data.Nat.Basic

/-! Encoded text reads back as itself, and bytes that read as text are just what that text is encoded
as. -/

namespace AtomicCommit.Utf8

@[simp] theorem encodeChars_nil : encodeChars [] = [] := rfl

@[simp] theorem encodeChars_cons (c : Char) (chars : List Char) :
    encodeChars (c :: chars) = encodeChar c ++ encodeChars chars :=
  List.flatMap_cons ..

@[simp] theorem encodeChars_append (chars others : List Char) :
    encodeChars (chars ++ others) = encodeChars chars ++ encodeChars others :=
  List.flatMap_append ..

theorem encodeChars_flatMap {α : Type} (write : α → List Char) (items : List α) :
    encodeChars (items.flatMap write) = items.flatMap fun a => encodeChars (write a) :=
  List.flatMap_assoc ..

theorem toNat_byte {n : Nat} (small : n < 256) : (byte n).toNat = n := by
  simp [byte, Nat.mod_eq_of_lt small]

theorem toNat_char (c : Char) : c.toNat < 0xD800 ∨ 0xDFFF < c.toNat ∧ c.toNat < 0x110000 := by
  have valid := c.valid
  simpa [UInt32.isValidChar, Nat.isValidChar] using valid

section Widths

variable {n : Nat} (rest : Bytes)

theorem first_one (high : n < 0x80) : first (byte n) rest = (some (Char.ofNat n), 0) := by
  have a := toNat_byte (n := n) (by omega)
  simp [first, tailLength, between, a, show n ≤ 0x7F by omega]

theorem first_two (low : 0x80 ≤ n) (high : n < 0x800) :
    first (byte (0xC0 + n / 0x40)) (byte (0x80 + n % 0x40) :: rest) =
      (some (Char.ofNat n), 1) := by
  have a := toNat_byte (n := 0xC0 + n / 0x40) (by omega)
  have b := toNat_byte (n := 0x80 + n % 0x40) (by omega)
  have width : tailLength (byte (0xC0 + n / 0x40)) = some 1 := by
    grind [tailLength, between]
  have fits : secondFits (byte (0xC0 + n / 0x40)) (byte (0x80 + n % 0x40)) = true := by
    simp only [secondFits, isTail, between, ← UInt8.toNat_inj, a, b]
    grind
  have value : pair (byte (0xC0 + n / 0x40)) (byte (0x80 + n % 0x40)) = n := by
    simp only [pair, tail, a, b]
    omega
  simp [first, width, fits, value]

theorem first_three (low : 0x800 ≤ n) (high : n < 0x10000) (scalar : n < 0xD800 ∨ 0xDFFF < n) :
    first (byte (0xE0 + n / 0x1000))
        (byte (0x80 + n / 0x40 % 0x40) :: byte (0x80 + n % 0x40) :: rest) =
      (some (Char.ofNat n), 2) := by
  have a := toNat_byte (n := 0xE0 + n / 0x1000) (by omega)
  have b := toNat_byte (n := 0x80 + n / 0x40 % 0x40) (by omega)
  have c := toNat_byte (n := 0x80 + n % 0x40) (by omega)
  have width : tailLength (byte (0xE0 + n / 0x1000)) = some 2 := by
    grind [tailLength, between]
  have fits : secondFits (byte (0xE0 + n / 0x1000)) (byte (0x80 + n / 0x40 % 0x40)) = true := by
    simp only [secondFits, isTail, between, ← UInt8.toNat_inj, a, b]
    grind
  have last : isTail (byte (0x80 + n % 0x40)) = true := by
    simp only [isTail, between, c]
    grind
  have value : triple (byte (0xE0 + n / 0x1000)) (byte (0x80 + n / 0x40 % 0x40))
      (byte (0x80 + n % 0x40)) = n := by
    simp only [triple, tail, a, b, c]
    omega
  simp [first, width, fits, last, value]

theorem first_four (low : 0x10000 ≤ n) (high : n < 0x110000) :
    first (byte (0xF0 + n / 0x40000)) (byte (0x80 + n / 0x1000 % 0x40) ::
        byte (0x80 + n / 0x40 % 0x40) :: byte (0x80 + n % 0x40) :: rest) =
      (some (Char.ofNat n), 3) := by
  have a := toNat_byte (n := 0xF0 + n / 0x40000) (by omega)
  have b := toNat_byte (n := 0x80 + n / 0x1000 % 0x40) (by omega)
  have c := toNat_byte (n := 0x80 + n / 0x40 % 0x40) (by omega)
  have d := toNat_byte (n := 0x80 + n % 0x40) (by omega)
  have width : tailLength (byte (0xF0 + n / 0x40000)) = some 3 := by
    grind [tailLength, between]
  have fits : secondFits (byte (0xF0 + n / 0x40000)) (byte (0x80 + n / 0x1000 % 0x40)) = true := by
    simp only [secondFits, isTail, between, ← UInt8.toNat_inj, a, b]
    grind
  have third : isTail (byte (0x80 + n / 0x40 % 0x40)) = true := by
    simp only [isTail, between, c]
    grind
  have last : isTail (byte (0x80 + n % 0x40)) = true := by
    simp only [isTail, between, d]
    grind
  have value : quadruple (byte (0xF0 + n / 0x40000)) (byte (0x80 + n / 0x1000 % 0x40))
      (byte (0x80 + n / 0x40 % 0x40)) (byte (0x80 + n % 0x40)) = n := by
    simp only [quadruple, tail, a, b, c, d]
    omega
  simp [first, width, fits, third, last, value]

end Widths

theorem first_encodeChar (c : Char) : ∃ a more, encodeChar c = a :: more ∧
    ∀ rest, first a (more ++ rest) = (some c, more.length) := by
  have range := toNat_char c
  by_cases one : c.toNat < 0x80
  · have encoded : encodeChar c = [byte c.toNat] := by simp only [encodeChar, one, if_true]
    exact ⟨_, _, encoded, fun rest => by simpa using first_one rest one⟩
  by_cases two : c.toNat < 0x800
  · have encoded : encodeChar c = [byte (0xC0 + c.toNat / 0x40), byte (0x80 + c.toNat % 0x40)] := by
      simp only [encodeChar, one, two, if_false, if_true]
    exact ⟨_, _, encoded, fun rest => by simpa using first_two rest (by omega) two⟩
  by_cases three : c.toNat < 0x10000
  · have encoded : encodeChar c = [byte (0xE0 + c.toNat / 0x1000),
        byte (0x80 + c.toNat / 0x40 % 0x40), byte (0x80 + c.toNat % 0x40)] := by
      simp only [encodeChar, one, two, three, if_false, if_true]
    exact ⟨_, _, encoded,
      fun rest => by simpa using first_three rest (by omega) three (by omega)⟩
  · have encoded : encodeChar c = [byte (0xF0 + c.toNat / 0x40000),
        byte (0x80 + c.toNat / 0x1000 % 0x40), byte (0x80 + c.toNat / 0x40 % 0x40),
        byte (0x80 + c.toNat % 0x40)] := by
      simp only [encodeChar, one, two, three, if_false]
    exact ⟨_, _, encoded,
      fun rest => by simpa using first_four (n := c.toNat) rest (by omega) (by omega)⟩

theorem scalarsAfter_append (passed rest : Bytes) :
    scalarsAfter passed.length (passed ++ rest) = scalarsAfter 0 rest := by
  induction passed with
  | nil => rfl
  | cons b passed ih => simpa [scalarsAfter] using ih

theorem scalars_encodeChars (chars : List Char) :
    scalars (encodeChars chars) = chars.map some := by
  induction chars with
  | nil => rfl
  | cons c chars ih =>
    obtain ⟨a, more, encoded, read⟩ := first_encodeChar c
    have rest : encodeChars (c :: chars) = a :: (more ++ encodeChars chars) := by
      simp [encodeChars, encoded]
    rw [rest, scalars, scalarsAfter, read, scalarsAfter_append, List.map_cons]
    exact congrArg _ ih

theorem collect_some (chars : List Char) : collect (chars.map some) = some chars := by
  induction chars with
  | nil => rfl
  | cons c chars ih => simp [collect, ih]

theorem decode?_encodeChars (chars : List Char) :
    decode? (encodeChars chars) = some (String.ofList chars) := by
  simp [decode?, scalars_encodeChars, collect_some]

theorem decode?_encode (text : String) : decode? (encode text) = some text := by
  simp [encode, decode?_encodeChars]

section Ascii

variable {b : UInt8}

theorem not_tail_of_ascii (ascii : b < 0x80) : isTail b = false := by
  simp only [UInt8.lt_iff_toNat_lt] at ascii
  simp only [isTail, between]
  grind

theorem not_second_of_ascii (ascii : b < 0x80) (a : UInt8) : secondFits a b = false := by
  have tail := not_tail_of_ascii ascii
  rw [UInt8.lt_iff_toNat_lt] at ascii
  simp only [secondFits, isTail, between] at tail ⊢
  grind

theorem first_before_ascii (ascii : b < 0x80) (a : UInt8) (rest more : Bytes) :
    first a (rest ++ b :: more) = first a rest := by
  have noTail := not_tail_of_ascii ascii
  have noSecond := not_second_of_ascii ascii a
  rcases rest with _ | ⟨x, _ | ⟨y, _ | ⟨z, rest⟩⟩⟩
  · rcases more with _ | ⟨c, _ | ⟨d, more⟩⟩ <;> simp [first, noSecond]
  · rcases more with _ | ⟨c, more⟩ <;> simp [first, noTail] <;> grind
  · simp [first, noTail]; grind
  · simp [first]

theorem first_taken (a : UInt8) (rest : Bytes) : (first a rest).2 ≤ rest.length := by
  rcases rest with _ | ⟨x, _ | ⟨y, _ | ⟨z, rest⟩⟩⟩ <;> simp [first] <;> grind

theorem scalarsAfter_before_ascii (ascii : b < 0x80) {owed : Nat} {bytes : Bytes}
    (enough : owed ≤ bytes.length) (more : Bytes) :
    scalarsAfter owed (bytes ++ b :: more) = scalarsAfter owed bytes ++ scalarsAfter 0 (b :: more) := by
  induction bytes generalizing owed with
  | nil =>
    obtain rfl : owed = 0 := by simpa using enough
    rfl
  | cons a bytes ih =>
    cases owed with
    | succ owed => simpa [scalarsAfter] using ih (Nat.le_of_succ_le_succ enough)
    | zero =>
      rw [List.cons_append, scalarsAfter, scalarsAfter, first_before_ascii ascii,
        ih (first_taken a bytes), List.cons_append]

end Ascii

theorem scalars_ascii {b : UInt8} (ascii : b < 0x80) (more : Bytes) :
    scalars (b :: more) = some (Char.ofNat b.toNat) :: scalars more := by
  rw [UInt8.lt_iff_toNat_lt] at ascii
  have alone : tailLength b = some 0 := by
    simp only [tailLength, between]
    grind
  simp only [scalars, scalarsAfter, first, alone]

theorem scalars_split {b : UInt8} (ascii : b < 0x80) (bytes more : Bytes) :
    scalars (bytes ++ b :: more) = scalars bytes ++ some (Char.ofNat b.toNat) :: scalars more := by
  rw [scalars, scalarsAfter_before_ascii ascii (Nat.zero_le _), ← scalars_ascii ascii]
  rfl

theorem collect_eq_some {found : List (Option Char)} {chars : List Char} :
    collect found = some chars ↔ found = chars.map some := by
  constructor
  · intro collected
    induction found generalizing chars with
    | nil =>
      cases collected
      rfl
    | cons c found ih =>
      cases c with
      | none => cases collected
      | some c =>
        rw [collect, Option.map_eq_some_iff] at collected
        obtain ⟨others, collected, rfl⟩ := collected
        rw [ih collected]
        rfl
  · rintro rfl
    exact collect_some chars

theorem decode?_eq_some {bytes : Bytes} {text : String} :
    decode? bytes = some text ↔ scalars bytes = text.toList.map some := by
  rw [decode?, Option.map_eq_some_iff]
  constructor
  · rintro ⟨chars, collected, rfl⟩
    rw [String.toList_ofList]
    exact collect_eq_some.mp collected
  · intro same
    exact ⟨text.toList, collect_eq_some.mpr same, String.ofList_toList⟩

theorem decodeLossy_of_decode? {bytes : Bytes} {text : String} (decoded : decode? bytes = some text) :
    decodeLossy bytes = text := by
  rw [decodeLossy, decode?_eq_some.mp decoded, List.map_map]
  simp [Function.comp_def]

section Exact

variable {a b c d : UInt8}

theorem toNat_ofNat {n : Nat} (scalar : n < 0xD800 ∨ 0xDFFF < n ∧ n < 0x110000) :
    (Char.ofNat n).toNat = n := by
  have valid : n.isValidChar := scalar
  rw [Char.ofNat, dif_pos valid]
  rfl

theorem byte_eq {n : Nat} (same : n = a.toNat) : byte n = a := by simp [byte, same]

theorem tail_range (isTail : isTail b) : 0x80 ≤ b.toNat ∧ b.toNat ≤ 0xBF := by
  simpa [Utf8.isTail, between] using isTail

theorem second_range (fits : secondFits a b) : 0x80 ≤ b.toNat ∧ b.toNat ≤ 0xBF ∧
    (a.toNat = 0xE0 → 0xA0 ≤ b.toNat) ∧ (a.toNat = 0xED → b.toNat ≤ 0x9F) ∧
    (a.toNat = 0xF0 → 0x90 ≤ b.toNat) ∧ (a.toNat = 0xF4 → b.toNat ≤ 0x8F) := by
  simp only [secondFits, isTail, between, ← UInt8.toNat_inj] at fits
  grind

theorem encodeChar_one (width : tailLength a = some 0) : encodeChar (Char.ofNat a.toNat) = [a] := by
  have small : a.toNat < 0x80 := by
    simp only [tailLength, between] at width
    grind
  simp only [encodeChar, toNat_ofNat (.inl (Nat.lt_trans small (by decide))), small, if_true,
    byte_eq rfl]

theorem encodeChar_two (width : tailLength a = some 1) (fits : secondFits a b) :
    encodeChar (Char.ofNat (pair a b)) = [a, b] := by
  have range : 0xC2 ≤ a.toNat ∧ a.toNat ≤ 0xDF := by
    simp only [tailLength, between] at width
    grind
  have second := second_range fits
  have size : ¬pair a b < 0x80 ∧ pair a b < 0x800 := by
    simp only [pair, tail]
    omega
  simp only [encodeChar, toNat_ofNat (n := pair a b) (by omega), size, if_true, if_false,
    List.cons.injEq, and_true]
  simp only [pair, tail]
  exact ⟨byte_eq (by omega), byte_eq (by omega)⟩

theorem encodeChar_three (width : tailLength a = some 2) (fits : secondFits a b) (last : isTail c) :
    encodeChar (Char.ofNat (triple a b c)) = [a, b, c] := by
  have range : 0xE0 ≤ a.toNat ∧ a.toNat ≤ 0xEF := by
    simp only [tailLength, between] at width
    grind
  obtain ⟨low, high, afterE0, afterED, -⟩ := second_range fits
  have third := tail_range last
  have size : ¬triple a b c < 0x800 ∧ triple a b c < 0x10000 ∧
      (triple a b c < 0xD800 ∨ 0xDFFF < triple a b c) := by
    simp only [triple, tail]
    omega
  simp only [encodeChar, toNat_ofNat (n := triple a b c) (by omega), size, if_true, if_false,
    show ¬triple a b c < 0x80 by omega, List.cons.injEq, and_true]
  simp only [triple, tail]
  exact ⟨byte_eq (by omega), byte_eq (by omega), byte_eq (by omega)⟩

theorem encodeChar_four (width : tailLength a = some 3) (fits : secondFits a b) (third : isTail c)
    (last : isTail d) : encodeChar (Char.ofNat (quadruple a b c d)) = [a, b, c, d] := by
  have range : 0xF0 ≤ a.toNat ∧ a.toNat ≤ 0xF4 := by
    simp only [tailLength, between] at width
    grind
  obtain ⟨low, high, -, -, afterF0, afterF4⟩ := second_range fits
  have third := tail_range third
  have fourth := tail_range last
  have size : ¬quadruple a b c d < 0x10000 ∧ quadruple a b c d < 0x110000 := by
    simp only [quadruple, tail]
    omega
  simp only [encodeChar, toNat_ofNat (n := quadruple a b c d) (by omega), size, if_false,
    show ¬quadruple a b c d < 0x80 by omega, show ¬quadruple a b c d < 0x800 by omega,
    List.cons.injEq, and_true]
  simp only [quadruple, tail]
  exact ⟨byte_eq (by omega), byte_eq (by omega), byte_eq (by omega), byte_eq (by omega)⟩

theorem tailLength_le (a : UInt8) {width : Nat} (starts : tailLength a = some width) : width ≤ 3 := by
  simp only [tailLength] at starts
  grind

theorem encodeChar_of_first {rest : Bytes} {found : Char} {taken : Nat}
    (read : first a rest = (some found, taken)) : encodeChar found = a :: rest.take taken := by
  unfold first at read
  split at read
  · cases read
  next width =>
    cases read
    exact encodeChar_one width
  next width =>
    split at read
    next b more =>
      split at read
      next fits =>
        cases read
        exact encodeChar_two width fits
      next => cases read
    next => cases read
  next width =>
    split at read
    next b c more =>
      split at read
      · cases read
      split at read
      · cases read
      next fits last =>
        cases read
        exact encodeChar_three width (by simpa using fits) (by simpa using last)
    next => cases read
    next => cases read
  next width noOne noTwo noThree starts =>
    obtain rfl : width = 3 := by
      have bound := tailLength_le a starts
      grind
    split at read
    next b c d more =>
      split at read
      · cases read
      split at read
      · cases read
      split at read
      · cases read
      next fits third last =>
        cases read
        exact encodeChar_four starts (by simpa using fits) (by simpa using third) (by simpa using last)
    all_goals cases read

end Exact

theorem scalarsAfter_drop {owed : Nat} {bytes : Bytes} (enough : owed ≤ bytes.length) :
    scalarsAfter owed bytes = scalars (bytes.drop owed) := by
  have split := scalarsAfter_append (bytes.take owed) (bytes.drop owed)
  rwa [List.take_append_drop, List.length_take_of_le enough] at split

theorem encodeChars_of_scalars {bytes : Bytes} {chars : List Char}
    (found : scalars bytes = chars.map some) : encodeChars chars = bytes := by
  induction chars generalizing bytes with
  | nil =>
    cases bytes with
    | nil => rfl
    | cons a rest => cases found
  | cons c chars ih =>
    cases bytes with
    | nil => cases found
    | cons a rest =>
      rw [scalars, scalarsAfter, scalarsAfter_drop (first_taken a rest), List.map_cons,
        List.cons.injEq] at found
      obtain ⟨here, further⟩ := found
      rw [encodeChars_cons, ih further, encodeChar_of_first (Prod.ext here rfl), List.cons_append,
        List.take_append_drop]

theorem encode_of_decode? {bytes : Bytes} {text : String} (decoded : decode? bytes = some text) :
    encode text = bytes :=
  encodeChars_of_scalars (decode?_eq_some.mp decoded)

end AtomicCommit.Utf8
