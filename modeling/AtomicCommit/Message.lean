import AtomicCommit.Json.Skip
import AtomicCommit.Vote

/-! Protocol messages and their form on the wire. -/

namespace AtomicCommit

inductive Phase where
  | prepare
  | accept
  | refuse
  | commit
  | abort
  | ack
  deriving DecidableEq, Repr

namespace Phase

def tag : Phase → String
  | .prepare => "PREPARE"
  | .accept => "ACCEPT"
  | .refuse => "REFUSE"
  | .commit => "COMMIT"
  | .abort => "ABORT"
  | .ack => "ACK"

def all : List Phase := [.prepare, .accept, .refuse, .commit, .abort, .ack]

def parse (text : String) : Except Json.Fault Phase :=
  match all.find? fun phase => phase.tag = text with
  | some phase => .ok phase
  | none => .error (.unknownPhase text)

def vote? : Phase → Option Vote
  | .accept => some .accept
  | .refuse => some .refuse
  | _ => none

def outcome? : Phase → Option Outcome
  | .commit => some .commit
  | .abort => some .abort
  | _ => none

end Phase

def Vote.phase : Vote → Phase
  | .accept => .accept
  | .refuse => .refuse

def Outcome.phase : Outcome → Phase
  | .commit => .commit
  | .abort => .abort

/-- Resources and payload mean something on vote requests only. -/
structure Message where
  txn : String
  resources : List String
  payload : Option Bytes
  phase : Phase
  deriving DecidableEq, Repr

structure Envelope where
  sender : String
  message : Message
  deriving DecidableEq, Repr

namespace Message

def bare (txn : String) (phase : Phase) : Message := ⟨txn, [], none, phase⟩

def prepare (txn : String) (resources : List String) (payload : Bytes) : Message :=
  ⟨txn, resources, some payload, .prepare⟩

def vote (txn : String) (vote : Vote) : Message := bare txn vote.phase

def decision (txn : String) (outcome : Outcome) : Message := bare txn outcome.phase

def ack (txn : String) : Message := bare txn .ack

def byteJson (b : UInt8) : Json := .number (.integer b.toNat)

/-- An absent payload has no member; an empty one is an empty list. -/
def json (m : Message) : Json :=
  let payload := match m.payload with
    | some bytes => [("payload", Json.array (bytes.map byteJson))]
    | none => []
  .object ([("txn", .string m.txn), ("resources", .array (m.resources.map .string))] ++ payload ++
    [("phase", .string m.phase.tag)])

def encode (m : Message) : Bytes := m.json.bytes

open Json

def readByte : Reader UInt8 := fun input => do
  let (b, rest) ← valueStart input
  if b = minusSign ∨ isDigit b then
    let (n, rest) ← readNumber (b :: rest)
    match n with
    | .integer value =>
      if 0 ≤ value ∧ value ≤ 255 then return (UInt8.ofNat value.toNat, rest)
      else .error (.wrongValue (.number n) "u8")
    | .real _ _ => .error (.wrongType (.number n) "u8")
  else .error (mismatch "u8" (b :: rest))

def readPayload : Reader (Option Bytes) := fun input => do
  let (b, rest) ← valueStart input
  if b = 0x6E then return (none, ← word ['u', 'l', 'l'] rest)
  else
    let (bytes, rest) ← expectList readByte (b :: rest)
    return (some bytes, rest)

def readText : Reader String := expectString "a string"

def readResources : Reader (List String) := expectList readText

def readPhase : Reader Phase := fun input => do
  let (tag, rest) ← readText input
  return (← Phase.parse tag, rest)

structure Draft where
  txn : Option String := none
  resources : Option (List String) := none
  payload : Option (Option Bytes) := none
  phase : Option Phase := none

def readNew {α : Type} (name : String) (held : Option α) (value : Reader α) : Reader α :=
  fun input => do
    if held.isSome then .error (.duplicateField name)
    else value (← afterColon input)

def readMember (key : String) (draft : Draft) : Reader Draft := fun input => do
  if key = "txn" then
    let (txn, rest) ← readNew key draft.txn readText input
    return ({ draft with txn := some txn }, rest)
  else if key = "resources" then
    let (resources, rest) ← readNew key draft.resources readResources input
    return ({ draft with resources := some resources }, rest)
  else if key = "payload" then
    let (payload, rest) ← readNew key draft.payload readPayload input
    return ({ draft with payload := some payload }, rest)
  else if key = "phase" then
    let (phase, rest) ← readNew key draft.phase readPhase input
    return ({ draft with phase := some phase }, rest)
  else return (draft, ← skipValue (← afterColon input))

def Draft.finish (draft : Draft) : Except Fault Message :=
  match draft.txn, draft.phase with
  | none, _ => .error (.missingField "txn")
  | some _, none => .error (.missingField "phase")
  | some txn, some phase =>
    .ok ⟨txn, draft.resources.getD [], draft.payload.getD none, phase⟩

def readItem {α : Type} (isFirst : Bool) (element : Reader α) : Reader (Option α) := fun input => do
  let (more, rest) ← nextElement isFirst input
  if more then
    let (a, rest) ← element rest
    return (some a, rest)
  else return (none, rest)

def shape : String := "struct ProtocolMessage"

def readItems : Reader Message := fun input => do
  let tooShort (length : Nat) : Fault := .wrongLength length (shape ++ " with 4 elements")
  let (txn, rest) ← readItem true readText input
  let some txn := txn | .error (tooShort 0)
  let (resources, rest) ← readItem false readResources rest
  let (payload, rest) ← readItem false readPayload rest
  let (phase, rest) ← readItem false readPhase rest
  let some phase := phase | .error (tooShort 3)
  return (⟨txn, resources.getD [], payload.getD none, phase⟩, ← endList rest)

def read : Reader Message := fun input => do
  let (b, rest) ← valueStart input
  if b = listOpen then readItems rest
  else if b = objectOpen then
    let (draft, rest) ← readMembers readMember {} rest
    return (← draft.finish, rest)
  else .error (mismatch shape (b :: rest))

def decode (body : Bytes) : Except Fault Message := readAll read body

def refusal (fault : Fault) : String := "Malformed protocol message: " ++ fault.message

end Message

end AtomicCommit
