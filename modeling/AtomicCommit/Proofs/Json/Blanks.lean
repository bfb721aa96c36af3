import AtomicCommit.Proofs.Json.Trailing
import Mathlib.Data.List.DropRight

/-! White space around the tokens of a text, and the commas between its parts. -/

namespace AtomicCommit.Json

open Utf8 (encodeChar encodeChars encodeChars_nil encodeChars_cons encodeChars_append)

variable {input other rest : Bytes} {text : List Char}

theorem isSpace_of_blank (blank : IsBlank text) : ∀ b ∈ encodeChars text, isSpace b := by
  intro b member
  obtain ⟨c, inText, inChar⟩ := List.mem_flatMap.mp member
  have known := blank c inText
  simp only [List.mem_cons, List.not_mem_nil, or_false] at known
  rcases known with rfl | rfl | rfl | rfl <;> exact List.mem_singleton.mp inChar ▸ rfl

theorem skipSpace_blank (blank : IsBlank text) (rest : Bytes) :
    skipSpace (encodeChars text ++ rest) = skipSpace rest :=
  List.dropWhile_append_of_pos (isSpace_of_blank blank)

def Alike (input other : Bytes) : Prop := skipSpace input = skipSpace other

theorem skipSpace_alike (input : Bytes) : Alike (skipSpace input) input :=
  List.dropWhile_idempotent _ _

theorem blank_alike (blank : IsBlank text) (rest : Bytes) : Alike (encodeChars text ++ rest) rest :=
  skipSpace_blank blank rest

theorem Alike.valueStart (alike : Alike input other) : valueStart input = valueStart other := by
  rw [Json.valueStart, alike, ← Json.valueStart]

theorem afterColon_blank (blank : IsBlank text) (rest : Bytes) :
    afterColon (encodeChars text ++ colon :: rest) = .ok rest := by
  rw [afterColon_ok, skipSpace_blank blank, skipSpace_cons rfl]

theorem length_skipSpace (input : Bytes) : (skipSpace input).length ≤ input.length :=
  (List.dropWhile_suffix isSpace).length_le

def mayFollow (b : UInt8) : Bool := isSpace b || b == comma || b == listClose || b == objectClose

theorem listClose_follows : mayFollow listClose := rfl

theorem objectClose_follows : mayFollow objectClose := rfl

theorem mayFollow_cases {b : UInt8} (mark : mayFollow b) :
    isDigit b = false ∧ b ≠ 0x2E ∧ b ≠ 0x65 ∧ b ≠ 0x45 := by
  simp only [mayFollow, Bool.or_eq_true, beq_iff_eq] at mark
  rcases mark with ((white | rfl) | rfl) | rfl
  · rcases white_cases white with rfl | rfl | rfl | rfl <;> decide
  all_goals decide

def Follows (rest : Bytes) : Prop := ∃ mark more, rest = mark :: more ∧ mayFollow mark

theorem Follows.mark {mark : UInt8} (may : mayFollow mark) (more : Bytes) : Follows (mark :: more) :=
  ⟨mark, more, rfl, may⟩

theorem Follows.blank (follows : Follows rest) (blank : IsBlank text) :
    Follows (encodeChars text ++ rest) := by
  cases bytes : encodeChars text with
  | nil => exact follows
  | cons b others =>
    have white : isSpace b := isSpace_of_blank blank b (by simp [bytes])
    exact .mark (by simp [mayFollow, white]) _

theorem intercalate_cons (first : List Char) (texts : List (List Char)) :
    [','].intercalate (first :: texts) = first ++ texts.flatMap fun text => ',' :: text := by
  induction texts generalizing first with
  | nil => simp [List.intercalate]
  | cons next texts ih =>
    have more := ih next
    simp only [List.intercalate, List.intersperse_cons_cons, List.flatten_cons] at more ⊢
    simp [more]

def commaed (texts : List (List Char)) : Bytes := encodeChars (texts.flatMap fun text => ',' :: text)

theorem commaed_nil : commaed [] = [] := rfl

theorem commaed_cons (first : List Char) (texts : List (List Char)) :
    commaed (first :: texts) = comma :: (encodeChars first ++ commaed texts) := by
  have mark : encodeChar ',' = [comma] := rfl
  simp [commaed, mark]

theorem encodeChars_intercalate (first : List Char) (texts : List (List Char)) :
    encodeChars ([','].intercalate (first :: texts)) = encodeChars first ++ commaed texts := by
  rw [intercalate_cons, encodeChars_append, commaed]

theorem follows_commaed (texts : List (List Char)) {mark : UInt8} (may : mayFollow mark)
    (rest : Bytes) : Follows (commaed texts ++ mark :: rest) := by
  cases texts with
  | nil => exact .mark may rest
  | cons first texts =>
    rw [commaed_cons]
    exact .mark rfl _

end AtomicCommit.Json
