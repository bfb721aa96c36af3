import AtomicCommit.Json.Scan

/-! Values that nobody reads: their syntax is checked, with an explicit stack of open containers and
therefore at any depth. -/

namespace AtomicCommit.Json

inductive Container where
  | list
  | object
  deriving DecidableEq, Repr

/-- What comes next while values are passed by: a value, or a separator or closing mark of the
innermost container, in which a comma may stand only after a value. -/
inductive Awaited where
  | value
  | mark (afterValue : Bool)
  deriving DecidableEq, Repr

def skipKey (container : Container) (input : Bytes) : Except Fault Bytes :=
  match container with
  | .list => .ok input
  | .object =>
    match skipSpace input with
    | [] => .error .endInObject
    | b :: rest =>
      if b = quoteMark then do afterColon (← skipString rest) else .error .keyNotString

def skipScalar (b : UInt8) (rest : Bytes) : Except Fault Bytes :=
  if b = 0x6E then word ['u', 'l', 'l'] rest
  else if b = 0x74 then word ['r', 'u', 'e'] rest
  else if b = 0x66 then word ['a', 'l', 's', 'e'] rest
  else if b = minusSign ∨ isDigit b then skipNumber (b :: rest)
  else if b = quoteMark then skipString rest
  else .error .expectedValue

def Container.close : Container → UInt8
  | .list => listClose
  | .object => objectClose

def skipFrom : Nat → Awaited → List Container → Bytes → Except Fault Bytes
  | 0, _, _, _ => .error .endInValue
  | bound + 1, .value, enclosing, input => do
    let (b, rest) ← valueStart input
    if b = listOpen then skipFrom bound (.mark false) (.list :: enclosing) rest
    else if b = objectOpen then skipFrom bound (.mark false) (.object :: enclosing) rest
    else skipFrom bound (.mark true) enclosing (← skipScalar b rest)
  | _ + 1, .mark _, [], input => .ok input
  | bound + 1, .mark afterValue, container :: enclosing, input =>
    match skipSpace input with
    | [] => .error (match container with
      | .list => .endInList
      | .object => .endInObject)
    | b :: rest =>
      if b = comma ∧ afterValue then do
        skipFrom bound .value (container :: enclosing) (← skipKey container rest)
      else if b = container.close then skipFrom bound (.mark true) enclosing rest
      else if afterValue then .error (match container with
        | .list => .expectedListSeparator
        | .object => .expectedObjectSeparator)
      else do
        skipFrom bound .value (container :: enclosing) (← skipKey container (b :: rest))

/-- What follows the next value. Two turns of the loop pass by one byte at least. -/
def skipValue (input : Bytes) : Except Fault Bytes :=
  skipFrom (2 * input.length + 2) .value [] input

end AtomicCommit.Json
