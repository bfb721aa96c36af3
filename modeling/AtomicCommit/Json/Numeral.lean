import AtomicCommit.Json.Fault
import AtomicCommit.Text.Utf8

/-! Numbers of JSON texts. A whole number within 64 bits is kept as it is. Any other becomes a double:
the leading digits that fit into 64 bits, times or divided by a power of ten. -/

namespace AtomicCommit.Json

def minusSign : UInt8 := 0x2D

def isDigit (b : UInt8) : Bool := decide (0x30 ≤ b ∧ b ≤ 0x39)

def spanDigits : Bytes → List Nat × Bytes
  | [] => ([], [])
  | b :: rest =>
    if isDigit b then
      let (digits, rest) := spanDigits rest
      ((b.toNat - 0x30) :: digits, rest)
    else ([], b :: rest)

structure Numeral where
  whole : List Nat
  fraction : Option (List Nat)
  exponent : Option Int
  deriving DecidableEq, Repr

def missingDigit : Bytes → Fault
  | [] => .endInValue
  | _ :: _ => .badNumber

def readWholePart (input : Bytes) : Except Fault (List Nat × Bytes) :=
  match spanDigits input with
  | ([], rest) => .error (missingDigit rest)
  | (0 :: _ :: _, _) => .error .badNumber
  | (digits, rest) => .ok (digits, rest)

def readFraction : Bytes → Except Fault (Option (List Nat) × Bytes)
  | 0x2E :: rest =>
    match spanDigits rest with
    | ([], rest) => .error (missingDigit rest)
    | (digits, rest) => .ok (some digits, rest)
  | rest => .ok (none, rest)

def natural (digits : List Nat) : Nat := digits.foldl (fun n d => n * 10 + d) 0

def readExponent : Bytes → Except Fault (Option Int × Bytes)
  | mark :: rest =>
    if mark = 0x65 ∨ mark = 0x45 then
      let (down, rest) := match rest with
        | 0x2D :: rest => (true, rest)
        | 0x2B :: rest => (false, rest)
        | rest => (false, rest)
      match spanDigits rest with
      | ([], rest) => .error (missingDigit rest)
      | (digits, rest) =>
        .ok (some (if down then -(natural digits : Int) else natural digits), rest)
    else .ok (none, mark :: rest)
  | [] => .ok (none, [])

/-- An unsigned number: no leading zero, and a digit after a point or an exponent mark. -/
def readNumeral (input : Bytes) : Except Fault (Numeral × Bytes) := do
  let (whole, rest) ← readWholePart input
  let (fraction, rest) ← readFraction rest
  let (exponent, rest) ← readExponent rest
  return (⟨whole, fraction, exponent⟩, rest)

def wordLimit : Nat := Nat.pow 2 64

/-- Appends digits to a number for as long as it stays below `2 ^ 64`; the count is that of the
digits taken. -/
def absorb (n : Nat) : List Nat → Nat × Nat
  | [] => (n, 0)
  | d :: rest =>
    if n * 10 + d < wordLimit then
      let (m, count) := absorb (n * 10 + d) rest
      (m, count + 1)
    else (n, 0)

def powerOfTen (exponent : Nat) : Binary64 := (Binary64.ofNat (Nat.pow 10 exponent)).getD .zero

/-- Scales by a power of ten, with one rounding for each step of at most `10 ^ 308`. -/
def scaleByTen : Nat → Binary64 → Int → Except Fault Binary64
  | 0, x, _ => .ok x
  | steps + 1, x, exponent =>
    if exponent.natAbs ≤ 308 then
      let power := powerOfTen exponent.natAbs
      if 0 ≤ exponent then
        match x.mul power with
        | some y => .ok y
        | none => .error .numberTooLarge
      else .ok ((x.div power).getD .zero)
    else if x.isZero then .ok x
    else if 0 ≤ exponent then .error .numberTooLarge
    else scaleByTen steps ((x.div (powerOfTen 308)).getD .zero) (exponent + 308)

def Numeral.real (n : Numeral) : Except Fault Binary64 :=
  let (significand, taken) := absorb 0 n.whole
  let (significand, decimals) := absorb significand (n.fraction.getD [])
  let exponent := (n.whole.length - taken : Nat) - (decimals : Int) + n.exponent.getD 0
  scaleByTen 4 ((Binary64.ofNat significand).getD .zero) exponent

def Numeral.value (negative : Bool) (n : Numeral) : Except Fault Number :=
  let whole := natural n.whole
  let fits := if negative then decide (whole ≠ 0 ∧ whole ≤ Nat.pow 2 63) else decide (whole < wordLimit)
  if n.fraction.isNone && n.exponent.isNone && fits then
    .ok (.integer (if negative then -(whole : Int) else whole))
  else n.real.map (.real negative)

def readNumber (input : Bytes) : Except Fault (Number × Bytes) := do
  let negative := input.head? == some minusSign
  let (numeral, rest) ← readNumeral (if negative then input.drop 1 else input)
  return (← numeral.value negative, rest)

/-- What follows a number that nobody reads; its range is not checked. -/
def skipNumber (input : Bytes) : Except Fault Bytes :=
  match readNumeral (if input.head? == some minusSign then input.drop 1 else input) with
  | .ok (_, rest) => .ok rest
  | .error _ => .error .badNumber

end AtomicCommit.Json
