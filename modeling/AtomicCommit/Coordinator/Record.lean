import AtomicCommit.Log.Record
import AtomicCommit.Source
import AtomicCommit.Vote

/-! What the coordinator writes into its log. -/

namespace AtomicCommit.Coordinator

inductive Entry where
  | prepare (txn : String) (sources : List Source)
  | decision (txn : String) (outcome : Outcome)
  | done (txn : String)
  deriving DecidableEq, Repr

namespace Entry

def txn : Entry → String
  | .prepare txn _ => txn
  | .decision txn _ => txn
  | .done txn => txn

def isDone : Entry → Bool
  | .done _ => true
  | _ => false

def json : Entry → Json
  | .prepare txn sources =>
    .object [("kind", .string "PREPARE"), ("txn", .string txn),
      ("sources", .array (sources.map Source.json))]
  | .decision txn outcome =>
    .object [("kind", .string "DECISION"), ("txn", .string txn), ("outcome", outcome.json)]
  | .done txn => .object [("kind", .string "DONE"), ("txn", .string txn)]

inductive Kind where
  | prepare
  | decision
  | done
  deriving DecidableEq, Repr

def kinds : List (String × Kind) :=
  [("PREPARE", .prepare), ("DECISION", .decision), ("DONE", .done)]

open Json

def txnField : Json.Field String := ⟨"txn", asString⟩

def ofJson : Kind → Json → Except Fault Entry
  | .prepare, value => do
    let (txn, sources) ← structure2 "struct variant CoordinatorRecord::Prepare"
      txnField ⟨"sources", asList Source.ofJson⟩ value
    return .prepare txn sources
  | .decision, value => do
    let (txn, outcome) ← structure2 "struct variant CoordinatorRecord::Decision"
      txnField ⟨"outcome", asVariant Outcome.names⟩ value
    return .decision txn outcome
  | .done, value => do
    return .done (← structure1 "struct variant CoordinatorRecord::Done" txnField value)

def read : Reader Entry := fun input => do
  let ((kind, value), rest) ←
    readTagged "internally tagged enum CoordinatorRecord" "kind" kinds input
  return (← ofJson kind value, rest)

instance : Record Entry := ⟨txn, isDone, json, read⟩

end Entry

end AtomicCommit.Coordinator
