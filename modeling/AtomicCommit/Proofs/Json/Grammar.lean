import AtomicCommit.Message
import Mathlib.Data.List.Forall2

/-! The grammar of JSON texts, as characters, and apart from any reader: white space, strings with
all their escapes, numbers, and values within each other. -/

namespace AtomicCommit.Json

def IsBlank (text : List Char) : Prop := ∀ c ∈ text, c ∈ [' ', '\t', '\n', '\r']

instance (text : List Char) : Decidable (IsBlank text) := List.decidableBAll _ text

inductive Spaced (inner : List Char → Prop) : List Char → Prop
  | around {before inside after : List Char} (blank : IsBlank before) (holds : inner inside)
      (blankToo : IsBlank after) : Spaced inner (before ++ inside ++ after)

theorem Spaced.bare {inner : List Char → Prop} {text : List Char} (holds : inner text) :
    Spaced inner text := by
  have blank : IsBlank [] := by decide
  simpa using Spaced.around blank holds blank

section Strings

def IsPlain (c : Char) : Prop := c ≠ '"' ∧ c ≠ '\\' ∧ 0x20 ≤ c.toNat

instance (c : Char) : Decidable (IsPlain c) := inferInstanceAs (Decidable (_ ∧ _))

def shortEscapes : List (Char × Char) :=
  [('"', '"'), ('\\', '\\'), ('/', '/'), ('b', '\x08'), ('f', '\x0c'), ('n', '\n'), ('r', '\r'),
    ('t', '\t')]

def IsHex (c : Char) (value : Nat) : Prop := c = value.digitChar ∨ c = value.digitChar.toUpper

instance (c : Char) (value : Nat) : Decidable (IsHex c value) := inferInstanceAs (Decidable (_ ∨ _))

def IsCodeUnit (digits : List Char) (unit : Nat) : Prop :=
  unit < 0x10000 ∧
    List.Forall₂ IsHex digits [unit / 0x1000, unit / 0x100 % 0x10, unit / 0x10 % 0x10, unit % 0x10]

instance (digits : List Char) (unit : Nat) : Decidable (IsCodeUnit digits unit) :=
  inferInstanceAs (Decidable (_ ∧ _))

/-- What may stand for a character in a string: itself, an escape of one letter, or its one or two
code units. -/
inductive Spells : Char → List Char → Prop
  | plain {c : Char} (plain : IsPlain c) : Spells c [c]
  | short {letter c : Char} (known : (letter, c) ∈ shortEscapes) : Spells c ['\\', letter]
  | unit {c : Char} {digits : List Char} (isUnit : IsCodeUnit digits c.toNat) :
      Spells c ('\\' :: 'u' :: digits)
  | pair {c : Char} {high low : List Char} (wide : 0x10000 ≤ c.toNat)
      (isHigh : IsCodeUnit high (0xD800 + (c.toNat - 0x10000) / 0x400))
      (isLow : IsCodeUnit low (0xDC00 + (c.toNat - 0x10000) % 0x400)) :
      Spells c ('\\' :: 'u' :: high ++ '\\' :: 'u' :: low)

inductive IsStringOf (value : String) : List Char → Prop
  | quoted {letters : List (List Char)} (spelled : List.Forall₂ Spells value.toList letters) :
      IsStringOf value ('"' :: (letters.flatten ++ ['"']))

/-- One letter of a string, whether or not it makes sense where it stands: a surrogate may be alone. -/
inductive IsLetter : List Char → Prop
  | plain {c : Char} (plain : IsPlain c) : IsLetter [c]
  | short {letter c : Char} (known : (letter, c) ∈ shortEscapes) : IsLetter ['\\', letter]
  | unit {unit : Nat} {digits : List Char} (isUnit : IsCodeUnit digits unit) :
      IsLetter ('\\' :: 'u' :: digits)

inductive IsString : List Char → Prop
  | quoted {letters : List (List Char)} (each : ∀ letter ∈ letters, IsLetter letter) :
      IsString ('"' :: (letters.flatten ++ ['"']))

end Strings

section Numbers

def IsDigits (text : List Char) : Prop := text ≠ [] ∧ ∀ c ∈ text, c.isDigit

instance (text : List Char) : Decidable (IsDigits text) :=
  @instDecidableAnd _ _ inferInstance (List.decidableBAll _ text)

def IsWholePart (text : List Char) : Prop := IsDigits text ∧ (text.head? = some '0' → text = ['0'])

instance (text : List Char) : Decidable (IsWholePart text) := inferInstanceAs (Decidable (_ ∧ _))

inductive IsFraction : List Char → Prop
  | none : IsFraction []
  | some {digits : List Char} (isDigits : IsDigits digits) : IsFraction ('.' :: digits)

inductive IsExponent : List Char → Prop
  | none : IsExponent []
  | some {mark : Char} {sign digits : List Char} (isMark : mark ∈ ['e', 'E'])
      (isSign : sign ∈ [[], ['+'], ['-']]) (isDigits : IsDigits digits) :
      IsExponent (mark :: (sign ++ digits))

inductive IsNumber : List Char → Prop
  | parts {sign whole fraction exponent : List Char} (isSign : sign ∈ [[], ['-']])
      (isWhole : IsWholePart whole) (isFraction : IsFraction fraction)
      (isExponent : IsExponent exponent) : IsNumber (sign ++ whole ++ fraction ++ exponent)

end Numbers

inductive IsValue : List Char → Prop
  | null : IsValue ['n', 'u', 'l', 'l']
  | true : IsValue ['t', 'r', 'u', 'e']
  | false : IsValue ['f', 'a', 'l', 's', 'e']
  | number {text : List Char} (isNumber : IsNumber text) : IsValue text
  | string {text : List Char} (isString : IsString text) : IsValue text
  | emptyList {inside : List Char} (blank : IsBlank inside) : IsValue ('[' :: (inside ++ [']']))
  | list {items : List (List Char)} (each : ∀ item ∈ items, IsValue item) :
      IsValue ('[' :: ([','].intercalate items ++ [']']))
  | emptyObject {inside : List Char} (blank : IsBlank inside) :
      IsValue ('\x7b' :: (inside ++ ['\x7d']))
  | object {members : List (List Char × List Char)} (keys : ∀ m ∈ members, Spaced IsString m.1)
      (each : ∀ m ∈ members, IsValue m.2) :
      IsValue ('\x7b' :: ([','].intercalate (members.map fun m => m.1 ++ ':' :: m.2) ++ ['\x7d']))
  | spaced {before text after : List Char} (blank : IsBlank before) (isValue : IsValue text)
      (blankToo : IsBlank after) : IsValue (before ++ text ++ after)

/-- A text of the list with these elements, each of which has texts of its own. -/
inductive IsListOf {α : Type} (element : α → List Char → Prop) : List α → List Char → Prop
  | none {inside : List Char} (blank : IsBlank inside) :
      IsListOf element [] ('[' :: (inside ++ [']']))
  | some {items : List α} {texts : List (List Char)}
      (each : List.Forall₂ (fun a text => Spaced (element a) text) items texts) :
      IsListOf element items ('[' :: ([','].intercalate texts ++ [']']))

end AtomicCommit.Json
