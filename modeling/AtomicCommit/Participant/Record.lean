import AtomicCommit.Log.Record
import AtomicCommit.Vote

/-! What a participant writes into its log. -/

namespace AtomicCommit.Participant

inductive Entry where
  | prepare (txn : String) (resources : List String) (vote : Vote)
  | decision (txn : String) (outcome : Outcome)
  | done (txn : String)
  deriving DecidableEq, Repr

namespace Entry

def txn : Entry → String
  | .prepare txn _ _ => txn
  | .decision txn _ => txn
  | .done txn => txn

def isDone : Entry → Bool
  | .done _ => true
  | _ => false

def isDecision : Entry → Bool
  | .decision _ _ => true
  | _ => false

def json : Entry → Json
  | .prepare txn resources vote =>
    .object [("kind", .string "PREPARE"), ("txn", .string txn),
      ("resources", .array (resources.map .string)), ("vote", vote.json)]
  | .decision txn outcome =>
    .object [("kind", .string "DECISION"), ("txn", .string txn), ("outcome", outcome.json)]
  | .done txn => .object [("kind", .string "DONE"), ("txn", .string txn)]

inductive Kind where
  | prepare
  | decision
  | done
  deriving DecidableEq, Repr

def kinds : List (String × Kind) :=
  [("PREPARE", .prepare), ("DECISION", .decision), ("DONE", .done)]

open Json

def txnField : Json.Field String := ⟨"txn", asString⟩

def ofJson : Kind → Json → Except Fault Entry
  | .prepare, value => do
    let (txn, resources, vote) ← structure3 "struct variant ParticipantRecord::Prepare"
      txnField ⟨"resources", asList asString⟩ ⟨"vote", asVariant Vote.names⟩ value
    return .prepare txn resources vote
  | .decision, value => do
    let (txn, outcome) ← structure2 "struct variant ParticipantRecord::Decision"
      txnField ⟨"outcome", asVariant Outcome.names⟩ value
    return .decision txn outcome
  | .done, value => do
    return .done (← structure1 "struct variant ParticipantRecord::Done" txnField value)

def read : Reader Entry := fun input => do
  let ((kind, value), rest) ←
    readTagged "internally tagged enum ParticipantRecord" "kind" kinds input
  return (← ofJson kind value, rest)

instance : Record Entry := ⟨txn, isDone, json, read⟩

end Entry

end AtomicCommit.Participant
