import AtomicCommit.Proofs.Json.Numbers

/-! Values that nobody reads are passed by, whatever they are and however deep they go. -/

namespace AtomicCommit.Json

open Utf8 (encodeChar encodeChars encodeChars_nil encodeChars_cons encodeChars_append)

section Strings

theorem skipStringAfter_plain {bytes : Bytes} (plain : ∀ b ∈ bytes, isPlainByte b) (rest : Bytes) :
    skipStringAfter 0 (bytes ++ rest) = skipStringAfter 0 rest := by
  induction bytes with
  | nil => rfl
  | cons b bytes ih =>
    obtain ⟨plainByte, plainRest⟩ := List.forall_mem_cons.mp plain
    simp only [isPlainByte, Bool.and_eq_true, bne_iff_ne, Bool.not_eq_true', decide_eq_false_iff_not,
      and_assoc] at plainByte
    obtain ⟨noQuote, noEscape, noControl⟩ := plainByte
    simp only [List.cons_append, skipStringAfter, noQuote, noEscape, noControl, if_false, ih plainRest]

theorem skipStringAfter_owed (passed rest : Bytes) :
    skipStringAfter passed.length (passed ++ rest) = skipStringAfter 0 rest := by
  induction passed with
  | nil => rfl
  | cons b passed ih => simpa [skipStringAfter] using ih

theorem skipStringAfter_escape (passed rest : Bytes)
    (read : skippedEscape (passed ++ rest) = .ok passed.length) :
    skipStringAfter 0 (escapeMark :: (passed ++ rest)) = skipStringAfter 0 rest := by
  simp only [skipStringAfter, show escapeMark ≠ quoteMark by decide, if_false, if_true, read,
    skipStringAfter_owed]

theorem skipStringAfter_letter {letter : List Char} (isLetter : IsLetter letter) (rest : Bytes) :
    skipStringAfter 0 (encodeChars letter ++ rest) = skipStringAfter 0 rest := by
  cases isLetter with
  | plain plain =>
    obtain ⟨noQuote, noEscape, noControl⟩ := plain
    simpa using skipStringAfter_plain (plain_encodeChar noQuote noEscape (by omega)) rest
  | short known =>
    obtain ⟨mark, meant, written, -, noUnicode, read⟩ := shortEscape_known known
    simp only [encodeChars_cons, encodeChars_nil, written]
    exact skipStringAfter_escape [mark] rest (by simp [skippedEscape, noUnicode, read])
  | unit isUnit =>
    obtain ⟨a, b, c, d, written, read⟩ := hexUnit_digits isUnit
    simp only [encodeChars_cons, written]
    exact skipStringAfter_escape [unicodeMark, a, b, c, d] rest (by simp [skippedEscape, read])

theorem skipString_text {text : List Char} (isString : IsString text) :
    ∃ opened, encodeChars text = quoteMark :: opened ∧
      ∀ rest, skipString (opened ++ rest) = .ok rest := by
  have quote : encodeChar '"' = [quoteMark] := rfl
  cases isString with
  | @quoted letters each =>
    refine ⟨encodeChars letters.flatten ++ [quoteMark], by simp [quote], fun rest => ?_⟩
    rw [skipString, List.append_assoc]
    clear quote
    induction letters with
    | nil => simp [skipStringAfter]
    | cons letter letters ih =>
      obtain ⟨first, others⟩ := List.forall_mem_cons.mp each
      rw [List.flatten_cons, encodeChars_append, List.append_assoc, skipStringAfter_letter first,
        ih others]

end Strings

def skipEntry (container : Container) (bound : Nat) (enclosing : List Container) (input : Bytes) :
    Except Fault Bytes := do
  skipFrom bound .value enclosing (← skipKey container input)

def Container.first : Container → UInt8
  | .list => listOpen
  | .object => objectOpen

def Container.around : Container → List Char → List Char
  | .list, inside => '[' :: (inside ++ [']'])
  | .object, inside => '\x7b' :: (inside ++ ['\x7d'])

/-- The loop passes by this entry of a container, up to white space, and takes at most two turns for
each byte. -/
structure Skipped (container : Container) (text : List Char) : Prop where
  start : ∀ rest, ∃ b more, skipSpace (encodeChars text ++ rest) = b :: more ∧ b ≠ container.close
  passed : ∀ enclosing input rest, Follows rest → Alike input (encodeChars text ++ rest) →
    ∃ turns left, turns + 2 * left.length ≤ 2 * input.length ∧ Alike left rest ∧
      ∀ bound, skipEntry container (bound + turns) enclosing input =
        skipFrom bound (.mark true) enclosing left

section Turns

variable {container : Container} {enclosing : List Container} {input rest : Bytes} (bound : Nat)

theorem encodeChars_around (inside : List Char) : encodeChars (container.around inside) =
    container.first :: (encodeChars inside ++ [container.close]) := by
  cases container <;> simp [Container.around, Container.first, Container.close] <;> rfl

theorem skipFrom_open (start : valueStart input = .ok (container.first, rest)) :
    skipFrom (bound + 1) .value enclosing input =
      skipFrom bound (.mark false) (container :: enclosing) rest := by
  cases container <;> simp only [skipFrom, start, bind, Except.bind, Container.first] <;> rfl

theorem skipFrom_close (afterValue : Bool) (closed : skipSpace input = container.close :: rest) :
    skipFrom (bound + 1) (.mark afterValue) (container :: enclosing) input =
      skipFrom bound (.mark true) enclosing rest := by
  have noComma : container.close ≠ comma := by cases container <;> decide
  simp [skipFrom, closed, noComma]

theorem skipFrom_first {b : UInt8} (start : skipSpace input = b :: rest)
    (noClose : b ≠ container.close) :
    skipFrom (bound + 1) (.mark false) (container :: enclosing) input =
      skipEntry container bound (container :: enclosing) (b :: rest) := by
  simp [skipFrom, start, noClose, skipEntry]

theorem skipFrom_comma (next : skipSpace input = comma :: rest) :
    skipFrom (bound + 1) (.mark true) (container :: enclosing) input =
      skipEntry container bound (container :: enclosing) rest := by
  simp [skipFrom, next, skipEntry]

end Turns

namespace Skipped

variable {container : Container} {text : List Char}

theorem spaced {before after : List Char} (skipped : Skipped container text) (blank : IsBlank before)
    (blankToo : IsBlank after) : Skipped container (before ++ text ++ after) := by
  constructor
  · intro rest
    simp only [encodeChars_append, List.append_assoc, skipSpace_blank blank]
    exact skipped.start _
  · intro enclosing input rest follows alike
    simp only [Alike, encodeChars_append, List.append_assoc, skipSpace_blank blank] at alike
    obtain ⟨turns, left, short, alikeLeft, passed⟩ :=
      skipped.passed enclosing input _ (follows.blank blankToo) alike
    exact ⟨turns, left, short, alikeLeft.trans (blank_alike blankToo rest), passed⟩

theorem scalar {b : UInt8} {more : Bytes} (written : encodeChars text = b :: more)
    (noSpace : isSpace b = false) (noClose : b ≠ listClose) (noList : b ≠ listOpen)
    (noObject : b ≠ objectOpen)
    (passes : ∀ rest, Follows rest → skipScalar b (more ++ rest) = .ok rest) :
    Skipped .list text := by
  constructor
  · intro rest
    rw [written, List.cons_append, skipSpace_cons noSpace]
    exact ⟨b, _, rfl, noClose⟩
  · intro enclosing input rest follows alike
    rw [written, List.cons_append, Alike, skipSpace_cons noSpace] at alike
    refine ⟨1, rest, ?_, rfl, fun bound => ?_⟩
    · have short := length_skipSpace input
      rw [alike, List.length_cons, List.length_append] at short
      omega
    · have start : valueStart input = .ok (b, more ++ rest) := by rw [valueStart, alike]
      change skipFrom (bound + 1) .value enclosing input = _
      simp only [skipFrom, start, noList, noObject, passes rest follows, bind, Except.bind, if_false]

theorem entries {entries : List (List Char)} (each : ∀ entry ∈ entries, Skipped container entry)
    (enclosing : List Container) {input rest : Bytes}
    (alike : Alike input (commaed entries ++ container.close :: rest)) :
    ∃ turns, turns + 2 * rest.length ≤ 2 * input.length ∧
      ∀ bound, skipFrom (bound + turns) (.mark true) (container :: enclosing) input =
        skipFrom bound (.mark true) enclosing rest := by
  have dark : isSpace container.close = false := by cases container <;> rfl
  have may : mayFollow container.close := by cases container <;> rfl
  have short := length_skipSpace input
  induction entries generalizing input with
  | nil =>
    rw [commaed_nil, List.nil_append, Alike, skipSpace_cons dark] at alike
    rw [alike, List.length_cons] at short
    exact ⟨1, by omega, fun bound => skipFrom_close bound true alike⟩
  | cons entry entries ih =>
    obtain ⟨first, others⟩ := List.forall_mem_cons.mp each
    have noSpace : isSpace comma = false := rfl
    rw [commaed_cons, List.cons_append, Alike, skipSpace_cons noSpace, List.append_assoc] at alike
    rw [alike, List.length_cons] at short
    obtain ⟨turns, left, fewer, alikeLeft, passed⟩ := first.passed (container :: enclosing) _ _
      (follows_commaed entries may rest) rfl
    obtain ⟨more, fewerToo, passedOn⟩ := ih others alikeLeft (length_skipSpace left)
    refine ⟨more + turns + 1, by omega, fun bound => ?_⟩
    rw [← Nat.add_assoc, ← Nat.add_assoc, skipFrom_comma _ alike, passed, passedOn]

theorem around {inside : List Char} (passes : ∀ enclosing rest, ∃ turns,
    turns + 2 * rest.length ≤ 2 * (encodeChars inside ++ container.close :: rest).length + 1 ∧
      ∀ bound, skipFrom (bound + turns) (.mark false) (container :: enclosing)
        (encodeChars inside ++ container.close :: rest) = skipFrom bound (.mark true) enclosing rest) :
    Skipped .list (container.around inside) := by
  have dark : isSpace container.first = false := by cases container <;> rfl
  have written : ∀ rest, encodeChars (container.around inside) ++ rest =
      container.first :: (encodeChars inside ++ container.close :: rest) := by
    simp [encodeChars_around]
  constructor
  · intro rest
    rw [written, skipSpace_cons dark]
    exact ⟨_, _, rfl, by cases container <;> decide⟩
  · intro enclosing input rest _ alike
    rw [written, Alike, skipSpace_cons dark] at alike
    obtain ⟨turns, fewer, passed⟩ := passes enclosing rest
    have start : valueStart input =
        .ok (container.first, encodeChars inside ++ container.close :: rest) := by
      rw [valueStart, alike]
    have short := length_skipSpace input
    rw [alike, List.length_cons] at short
    refine ⟨turns + 1, rest, by omega, rfl, fun bound => ?_⟩
    change skipFrom (bound + turns + 1) .value enclosing input = _
    rw [skipFrom_open _ start, passed]

theorem empty (container : Container) {inside : List Char} (blank : IsBlank inside) :
    Skipped .list (container.around inside) := by
  have dark : isSpace container.close = false := by cases container <;> rfl
  refine around fun enclosing rest => ⟨1, ?_, fun bound => skipFrom_close bound false ?_⟩
  · simp only [List.length_append, List.length_cons]
    omega
  · rw [skipSpace_blank blank, skipSpace_cons dark]

theorem within (container : Container) {parts : List (List Char)}
    (each : ∀ entry ∈ parts, Skipped container entry) :
    Skipped .list (container.around ([','].intercalate parts)) := by
  cases parts with
  | nil => exact empty container (by simp [IsBlank, List.intercalate])
  | cons entry parts =>
    obtain ⟨first, others⟩ := List.forall_mem_cons.mp each
    have may : mayFollow container.close := by cases container <;> rfl
    refine around fun enclosing rest => ?_
    rw [encodeChars_intercalate, List.append_assoc]
    obtain ⟨b, more, start, noClose⟩ := first.start (commaed parts ++ container.close :: rest)
    obtain ⟨turns, left, fewer, alike, passed⟩ := first.passed (container :: enclosing) _ _
      (follows_commaed parts may rest) (skipSpace_alike _)
    obtain ⟨more, fewerToo, passedOn⟩ := entries others enclosing alike
    have short := length_skipSpace (encodeChars entry ++ (commaed parts ++ container.close :: rest))
    refine ⟨more + turns + 1, by omega, fun bound => ?_⟩
    rw [start] at passed
    rw [← Nat.add_assoc, ← Nat.add_assoc, skipFrom_first _ start noClose, passed, passedOn]

theorem member {key value : List Char} (isKey : Spaced IsString key) (skipped : Skipped .list value) :
    Skipped .object (key ++ ':' :: value) := by
  cases isKey with
  | @around before inside after blank isString blankToo =>
    obtain ⟨opened, written, read⟩ := skipString_text isString
    have noSpace : isSpace quoteMark = false := by decide
    have starts : ∀ rest, skipSpace (encodeChars (before ++ inside ++ after ++ ':' :: value) ++ rest) =
        quoteMark :: (opened ++ (encodeChars after ++ colon :: (encodeChars value ++ rest))) := by
      have mark : encodeChar ':' = [colon] := rfl
      intro rest
      simp only [encodeChars_append, encodeChars_cons, List.append_assoc, skipSpace_blank blank,
        written, mark, List.cons_append, List.nil_append, skipSpace_cons noSpace]
    constructor
    · intro rest
      rw [starts]
      exact ⟨_, _, rfl, by decide⟩
    · intro enclosing input rest follows alike
      rw [Alike, starts] at alike
      have passesKey : skipKey .object input = .ok (encodeChars value ++ rest) := by
        simp only [skipKey, alike, read, afterColon_blank blankToo, if_true, bind, Except.bind]
      obtain ⟨turns, left, fewer, alikeLeft, passed⟩ :=
        skipped.passed enclosing (encodeChars value ++ rest) rest follows rfl
      have short := length_skipSpace input
      simp only [alike, List.length_cons, List.length_append] at short fewer
      refine ⟨turns, left, by omega, alikeLeft, fun bound => ?_⟩
      rw [← passed]
      simp only [skipEntry, passesKey]
      rfl

end Skipped

theorem number_marks {b : UInt8} (starts : b = minusSign ∨ isDigit b) :
    isSpace b = false ∧ b ≠ listClose ∧ b ≠ listOpen ∧ b ≠ objectOpen ∧ b ≠ 0x6E ∧ b ≠ 0x74 ∧
      b ≠ 0x66 := by
  rcases starts with rfl | digit
  · decide
  · refine ⟨noSpace_of_digit digit, ?_, ?_, ?_, ?_, ?_, ?_⟩ <;> rintro rfl <;> cases digit

theorem skipped_value {text : List Char} (isValue : IsValue text) : Skipped .list text := by
  induction isValue with
  | null =>
    exact .scalar (b := 0x6E) rfl rfl (by decide) (by decide) (by decide) fun rest _ => rfl
  | true =>
    exact .scalar (b := 0x74) rfl rfl (by decide) (by decide) (by decide) fun rest _ => rfl
  | false =>
    exact .scalar (b := 0x66) rfl rfl (by decide) (by decide) (by decide) fun rest _ => rfl
  | number isNumber =>
    obtain ⟨b, more, written, starts⟩ := number_start isNumber
    obtain ⟨noSpace, noClose, noList, noObject, noNull, noTrue, noFalse⟩ := number_marks starts
    refine .scalar written noSpace noClose noList noObject fun rest follows => ?_
    have skipped := skipNumber_text isNumber follows
    rw [written, List.cons_append] at skipped
    simpa only [skipScalar, noNull, noTrue, noFalse, starts, if_false, if_true] using skipped
  | string isString =>
    obtain ⟨opened, written, read⟩ := skipString_text isString
    exact .scalar written rfl (by decide) (by decide) (by decide) fun rest _ => read rest
  | emptyList blank => exact .empty .list blank
  | list _ skipped => exact .within .list skipped
  | emptyObject blank => exact .empty .object blank
  | object keys _ skipped =>
    refine .within .object fun part among => ?_
    obtain ⟨m, member, rfl⟩ := List.mem_map.mp among
    exact .member (keys m member) (skipped m member)
  | spaced blank _ blankToo skipped => exact skipped.spaced blank blankToo

theorem skipValue_text {text : List Char} {input rest : Bytes} (isValue : IsValue text)
    (follows : Follows rest) (alike : Alike input (encodeChars text ++ rest)) :
    ∃ left, skipValue input = .ok left ∧ Alike left rest := by
  obtain ⟨turns, left, fewer, alikeLeft, passed⟩ :=
    (skipped_value isValue).passed [] input rest follows alike
  obtain ⟨bound, enough⟩ : ∃ bound, 2 * input.length + 2 = bound + 1 + turns :=
    ⟨2 * input.length + 1 - turns, by omega⟩
  refine ⟨left, ?_, alikeLeft⟩
  rw [skipValue, enough]
  exact passed (bound + 1)

end AtomicCommit.Json
