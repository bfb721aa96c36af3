import AtomicCommit.Number.Binary64

/-! The decimal text of a double: the fewest digits that read back to it, and of those the nearest. -/

namespace AtomicCommit.Binary64

structure Decimal where
  digits : Nat
  exponent : Int
  deriving DecidableEq, Repr

/-- Twice-doubled ends of the interval of numbers that round to this one, over `2 ^ (exponent - 2)`.
Below a power of two the neighbour is half as far away. -/
def lowEnd (x : Binary64) : Nat :=
  if x.mantissa = Nat.pow 2 52 ∧ -1074 < x.exponent then 4 * x.mantissa - 1 else 4 * x.mantissa - 2

def highEnd (x : Binary64) : Nat := 4 * x.mantissa + 2

/-- Whether a decimal rounds to `x`; the ends of the interval do when the mantissa is even. -/
def readsBack (x : Binary64) (d : Decimal) : Bool :=
  let (num, den) := if 0 ≤ d.exponent then (d.digits * Nat.pow 10 d.exponent.toNat, 1)
    else (d.digits, Nat.pow 10 (-d.exponent).toNat)
  let (factor, divisor) := scaled 1 (x.exponent - 2)
  let value := num * divisor
  let unit := den * factor
  if x.mantissa % 2 = 0 then decide (x.lowEnd * unit ≤ value ∧ value ≤ x.highEnd * unit)
  else decide (x.lowEnd * unit < value ∧ value < x.highEnd * unit)

/-- The least exponent `p` with `num / den < 10 ^ (p + 1)`, searched upwards from `-324`. -/
def orderFrom (num den : Nat) : Nat → Nat → Nat
  | 0, shift => shift
  | more + 1, shift =>
    if num * Nat.pow 10 324 < den * Nat.pow 10 (shift + 1) then shift
    else orderFrom num den more (shift + 1)

def order (x : Binary64) : Int :=
  (orderFrom x.ratio.1 x.ratio.2 640 0 : Int) - 324

def onGrid (x : Binary64) (count : Nat) : Option Decimal :=
  let exponent := x.order - count + 1
  let (num, den) := x.ratio
  let (n, d) := if 0 ≤ exponent then (num, den * Nat.pow 10 exponent.toNat)
    else (num * Nat.pow 10 (-exponent).toNat, den)
  let below : Decimal := ⟨n / d, exponent⟩
  let above : Decimal := ⟨n / d + 1, exponent⟩
  let nearer := if roundDiv n d = n / d then below else above
  if x.readsBack nearer then some nearer
  else if x.readsBack below then some below
  else if x.readsBack above then some above
  else none

def trimZeros : Nat → Decimal → Decimal
  | 0, d => d
  | more + 1, d =>
    if d.digits % 10 = 0 ∧ d.digits ≠ 0 then trimZeros more ⟨d.digits / 10, d.exponent + 1⟩ else d

def shortest (x : Binary64) : Decimal :=
  if x.isZero then ⟨0, 0⟩
  else match (List.range 17).findSome? fun count => x.onGrid (count + 1) with
    | some d => trimZeros 20 d
    | none => ⟨0, 0⟩

def zeros (count : Int) : List Char := List.replicate count.toNat '0'

/-- Positional between `10 ^ -5` and `10 ^ 16`, with an exponent elsewhere; a whole number keeps
one zero after the point. -/
def Decimal.text (d : Decimal) : List Char :=
  let digits := Nat.toDigits 10 d.digits
  let point : Int := digits.length + d.exponent
  if 0 ≤ d.exponent ∧ point ≤ 16 then digits ++ zeros d.exponent ++ ['.', '0']
  else if 0 < point ∧ point ≤ 16 then
    digits.take point.toNat ++ ['.'] ++ digits.drop point.toNat
  else if -5 < point ∧ point ≤ 0 then ['0', '.'] ++ zeros (-point) ++ digits
  else
    let lead := digits.take 1 ++ (if digits.length = 1 then [] else '.' :: digits.drop 1)
    let sign := if point - 1 < 0 then '-' else '+'
    lead ++ ['e', sign] ++ Nat.toDigits 10 (point - 1).natAbs

def text (negative : Bool) (x : Binary64) : List Char :=
  (if negative then ['-'] else []) ++ x.shortest.text

end AtomicCommit.Binary64
