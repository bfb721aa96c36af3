import AtomicCommit.Json.Scan

/-! JSON values: reading them with a limit on nesting, and writing them. -/

namespace AtomicCommit

open Json (Number Found Fault)

inductive Json where
  | null
  | bool (value : Bool)
  | number (value : Number)
  | string (value : String)
  | array (items : List Json)
  | object (members : List (String × Json))

namespace Json

def found : Json → Found
  | .null => .null
  | .bool value => .bool value
  | .number value => .number value
  | .string value => .string value
  | .array _ => .array
  | .object _ => .object

def readScalar (b : UInt8) (rest : Bytes) : Except Fault (Json × Bytes) :=
  let named (letters : List Char) (value : Json) : Except Fault (Json × Bytes) :=
    (word letters rest).map fun rest => (value, rest)
  if b = 0x6E then named ['u', 'l', 'l'] .null
  else if b = 0x74 then named ['r', 'u', 'e'] (.bool true)
  else if b = 0x66 then named ['a', 'l', 's', 'e'] (.bool false)
  else if b = minusSign ∨ isDigit b then
    (readNumber (b :: rest)).map fun (n, rest) => (.number n, rest)
  else if b = quoteMark then (readString rest).map fun (text, rest) => (.string text, rest)
  else .error .expectedValue

/-- Reads a value in which at most `depth` containers stand within each other. -/
def readValue : Nat → Reader Json
  | 0 => fun input => do
    let (b, rest) ← valueStart input
    if b = listOpen ∨ b = objectOpen then .error .tooDeep else readScalar b rest
  | depth + 1 => fun input => do
    let (b, rest) ← valueStart input
    if b = listOpen then
      let (items, rest) ← readList (readValue depth) rest
      return (.array items, rest)
    else if b = objectOpen then
      let member (key : String) (before : List (String × Json)) : Reader (List (String × Json)) :=
        fun input => do
          let (v, rest) ← readValue depth (← afterColon input)
          return (before ++ [(key, v)], rest)
      let (pairs, rest) ← readMembers member [] rest
      return (.object pairs, rest)
    else readScalar b rest

def depthLimit : Nat := 127

mutual

def write : Json → List Char
  | .null => ['n', 'u', 'l', 'l']
  | .bool true => ['t', 'r', 'u', 'e']
  | .bool false => ['f', 'a', 'l', 's', 'e']
  | .number value => value.text.toList
  | .string value => writeString value
  | .array [] => ['[', ']']
  | .array (item :: items) => ['['] ++ write item ++ writeItems items ++ [']']
  | .object [] => ['\x7b', '\x7d']
  | .object ((key, value) :: members) =>
    ['\x7b'] ++ writeString key ++ [':'] ++ write value ++ writeMembers members ++ ['\x7d']

def writeItems : List Json → List Char
  | [] => []
  | item :: items => [','] ++ write item ++ writeItems items

def writeMembers : List (String × Json) → List Char
  | [] => []
  | (key, value) :: members =>
    [','] ++ writeString key ++ [':'] ++ write value ++ writeMembers members

end

def text (json : Json) : String := String.ofList json.write

def bytes (json : Json) : Bytes := Utf8.encodeChars json.write

end Json

end AtomicCommit
