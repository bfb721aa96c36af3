/-! UTF-8: text as bytes, and bytes read back as text, strictly or with replacement characters. -/

namespace AtomicCommit

abbrev Bytes := List UInt8

namespace Utf8

def byte (n : Nat) : UInt8 := UInt8.ofNat n

def encodeChar (c : Char) : Bytes :=
  let n := c.toNat
  if n < 0x80 then [byte n]
  else if n < 0x800 then [byte (0xC0 + n / 0x40), byte (0x80 + n % 0x40)]
  else if n < 0x10000 then
    [byte (0xE0 + n / 0x1000), byte (0x80 + n / 0x40 % 0x40), byte (0x80 + n % 0x40)]
  else
    [byte (0xF0 + n / 0x40000), byte (0x80 + n / 0x1000 % 0x40), byte (0x80 + n / 0x40 % 0x40),
      byte (0x80 + n % 0x40)]

def encodeChars (chars : List Char) : Bytes := chars.flatMap encodeChar

def encode (text : String) : Bytes := encodeChars text.toList

def between (low high : Nat) (b : UInt8) : Bool := decide (low ≤ b.toNat ∧ b.toNat ≤ high)

def isTail (b : UInt8) : Bool := between 0x80 0xBF b

def tailLength (b : UInt8) : Option Nat :=
  if between 0 0x7F b then some 0
  else if between 0xC2 0xDF b then some 1
  else if between 0xE0 0xEF b then some 2
  else if between 0xF0 0xF4 b then some 3
  else none

/-- The second byte has less room after the first bytes at the ends of the ranges: no overlong
forms, no surrogates, nothing above U+10FFFF. -/
def secondFits (first second : UInt8) : Bool :=
  if first = 0xE0 then between 0xA0 0xBF second
  else if first = 0xED then between 0x80 0x9F second
  else if first = 0xF0 then between 0x90 0xBF second
  else if first = 0xF4 then between 0x80 0x8F second
  else isTail second

def tail (b : UInt8) : Nat := b.toNat % 0x40

def pair (a b : UInt8) : Nat := a.toNat % 0x20 * 0x40 + tail b

def triple (a b c : UInt8) : Nat := a.toNat % 0x10 * 0x1000 + tail b * 0x40 + tail c

def quadruple (a b c d : UInt8) : Nat :=
  a.toNat % 8 * 0x40000 + tail b * 0x1000 + tail c * 0x40 + tail d

/-- The character that starts with `a`, and how many of the bytes after `a` belong to it. Where no
character starts, what belongs together is as much as could still have been the start of one. -/
def first (a : UInt8) (rest : Bytes) : Option Char × Nat :=
  match tailLength a with
  | none => (none, 0)
  | some 0 => (some (Char.ofNat a.toNat), 0)
  | some 1 =>
    match rest with
    | b :: _ => if secondFits a b then (some (Char.ofNat (pair a b)), 1) else (none, 0)
    | [] => (none, 0)
  | some 2 =>
    match rest with
    | b :: c :: _ =>
      if !secondFits a b then (none, 0)
      else if !isTail c then (none, 1)
      else (some (Char.ofNat (triple a b c)), 2)
    | [b] => (none, if secondFits a b then 1 else 0)
    | [] => (none, 0)
  | some _ =>
    match rest with
    | b :: c :: d :: _ =>
      if !secondFits a b then (none, 0)
      else if !isTail c then (none, 1)
      else if !isTail d then (none, 2)
      else (some (Char.ofNat (quadruple a b c d)), 3)
    | [b, c] => (none, if !secondFits a b then 0 else if isTail c then 2 else 1)
    | [b] => (none, if secondFits a b then 1 else 0)
    | [] => (none, 0)

/-- The characters of a byte sequence after `owed` bytes are passed by, with `none` for each
ill-formed stretch. -/
def scalarsAfter : Nat → Bytes → List (Option Char)
  | _, [] => []
  | owed + 1, _ :: rest => scalarsAfter owed rest
  | 0, a :: rest => (first a rest).1 :: scalarsAfter (first a rest).2 rest

def scalars (bytes : Bytes) : List (Option Char) := scalarsAfter 0 bytes

def collect : List (Option Char) → Option (List Char)
  | [] => some []
  | none :: _ => none
  | some c :: rest => (collect rest).map (c :: ·)

def decode? (bytes : Bytes) : Option String := (collect (scalars bytes)).map String.ofList

def decodeLossy (bytes : Bytes) : String :=
  String.ofList ((scalars bytes).map fun c => c.getD '\uFFFD')

end Utf8

end AtomicCommit
