import AtomicCommit.Json.Numeral
import AtomicCommit.Json.Text

/-! The frame of JSON texts: white space, words, and the marks of lists and objects. A reader takes
the input and gives a result with what is left of it. -/

namespace AtomicCommit.Json

abbrev Reader (α : Type) := Bytes → Except Fault (α × Bytes)

variable {α β : Type}

def isSpace (b : UInt8) : Bool := b == 0x20 || b == 0x09 || b == 0x0A || b == 0x0D

def skipSpace (input : Bytes) : Bytes := input.dropWhile isSpace

def listOpen : UInt8 := 0x5B
def listClose : UInt8 := 0x5D
def objectOpen : UInt8 := 0x7B
def objectClose : UInt8 := 0x7D
def comma : UInt8 := 0x2C
def colon : UInt8 := 0x3A

def word : List Char → Bytes → Except Fault Bytes
  | [], rest => .ok rest
  | _ :: _, [] => .error .endInValue
  | c :: letters, b :: rest =>
    if b.toNat = c.toNat then word letters rest else .error .expectedWord

/-- The fault of finding this value where something else was expected. A value without parts is
read first, so its own faults come before. -/
def mismatch (expected : String) : Bytes → Fault
  | [] => .expectedValue
  | b :: rest =>
    let wrong (found : Found) : Fault := .wrongType found expected
    let afterWord (letters : List Char) (found : Found) : Fault :=
      match word letters rest with
      | .ok _ => wrong found
      | .error fault => fault
    if b = 0x6E then afterWord ['u', 'l', 'l'] .null
    else if b = 0x74 then afterWord ['r', 'u', 'e'] (.bool true)
    else if b = 0x66 then afterWord ['a', 'l', 's', 'e'] (.bool false)
    else if b = minusSign ∨ isDigit b then
      match readNumber (b :: rest) with
      | .ok (n, _) => wrong (.number n)
      | .error fault => fault
    else if b = quoteMark then
      match readString rest with
      | .ok (text, _) => wrong (.string text)
      | .error fault => fault
    else if b = listOpen then wrong .array
    else if b = objectOpen then wrong .object
    else .expectedValue

def valueStart (input : Bytes) : Except Fault (UInt8 × Bytes) :=
  match skipSpace input with
  | [] => .error .endInValue
  | b :: rest => .ok (b, rest)

def expectString (expected : String) : Reader String := fun input => do
  let (b, rest) ← valueStart input
  if b = quoteMark then readString rest else .error (mismatch expected (b :: rest))

def nextElement (isFirst : Bool) (input : Bytes) : Except Fault (Bool × Bytes) :=
  match skipSpace input with
  | [] => .error .endInList
  | b :: rest =>
    if b = listClose then .ok (false, b :: rest)
    else if isFirst then .ok (true, b :: rest)
    else if b = comma then
      match skipSpace rest with
      | [] => .error .endInValue
      | b :: rest => if b = listClose then .error .trailingComma else .ok (true, b :: rest)
    else .error .expectedListSeparator

def endList (input : Bytes) : Except Fault Bytes :=
  match skipSpace input with
  | [] => .error .endInList
  | b :: rest =>
    if b = listClose then .ok rest
    else if b = comma ∧ (skipSpace rest).head? = some listClose then .error .trailingComma
    else .error .trailingText

def nextMember (isFirst : Bool) (input : Bytes) : Except Fault (Bool × Bytes) :=
  match skipSpace input with
  | [] => .error .endInObject
  | b :: rest =>
    if b = objectClose then .ok (false, rest)
    else if isFirst then
      if b = quoteMark then .ok (true, rest) else .error .keyNotString
    else if b = comma then
      match skipSpace rest with
      | [] => .error .endInValue
      | b :: rest =>
        if b = quoteMark then .ok (true, rest)
        else .error (if b = objectClose then .trailingComma else .keyNotString)
    else .error .expectedObjectSeparator

def afterColon (input : Bytes) : Except Fault Bytes :=
  match skipSpace input with
  | [] => .error .endInObject
  | b :: rest => if b = colon then .ok rest else .error .expectedColon

/-- The elements up to the closing mark, which stays. Each takes a byte at least, so the length of
the input bounds their number. -/
def readElementsFrom (element : Reader α) : Nat → Bool → Reader (List α)
  | 0, _, _ => .error .endInList
  | bound + 1, isFirst, input => do
    let (more, rest) ← nextElement isFirst input
    if more then
      let (a, rest) ← element rest
      let (others, rest) ← readElementsFrom element bound false rest
      return (a :: others, rest)
    else return ([], rest)

def readElements (element : Reader α) (isFirst : Bool) : Reader (List α) := fun input =>
  readElementsFrom element (input.length + 1) isFirst input

def readList (element : Reader α) : Reader (List α) := fun input => do
  let (items, rest) ← readElements element true input
  return (items, ← endList rest)

/-- Folds over the members up to and past the closing mark. A member is read from after its key. -/
def readMembersFrom (member : String → β → Reader β) : Nat → Bool → β → Reader β
  | 0, _, _, _ => .error .endInObject
  | bound + 1, isFirst, acc, input => do
    let (more, rest) ← nextMember isFirst input
    if more then
      let (key, rest) ← readString rest
      let (acc, rest) ← member key acc rest
      readMembersFrom member bound false acc rest
    else return (acc, rest)

def readMembers (member : String → β → Reader β) (start : β) : Reader β := fun input =>
  readMembersFrom member (input.length + 1) true start input

def expectList (element : Reader α) : Reader (List α) := fun input => do
  let (b, rest) ← valueStart input
  if b = listOpen then readList element rest else .error (mismatch "a sequence" (b :: rest))

def readAll (value : Reader α) (input : Bytes) : Except Fault α := do
  let (a, rest) ← value input
  if (skipSpace rest).isEmpty then return a else .error .trailingText

end AtomicCommit.Json
