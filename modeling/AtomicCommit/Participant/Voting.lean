import AtomicCommit.Log.Journal
import AtomicCommit.Message
import AtomicCommit.Participant.Locks
import AtomicCommit.Participant.Record
import AtomicCommit.Participant.Store
import AtomicCommit.Transport

/-! A participant votes on transactions and applies their outcomes. Each function here runs without
interruption; a vote has two parts, because the oracle is asked in between. -/

namespace AtomicCommit

inductive ParticipantError where
  | log (cause : LogError)
  | store (cause : FileError)
  | transport (cause : TransportError)
  deriving DecidableEq, Repr

def ParticipantError.message : ParticipantError → String
  | .log cause => "Write-ahead log error: " ++ cause.message
  | .store cause => "Resource store error: " ++ cause.message
  | .transport cause => "Engine error: " ++ cause.message

namespace Participant

/-- A vote that waits for its outcome, or for the outcome to take effect. -/
structure Pending where
  resources : List String
  vote : Vote
  decision : Option Outcome
  deriving DecidableEq, Repr

/-- What an outcome takes away: resources go only on a commit that the participant accepted. -/
def Pending.doomed (pending : Pending) (outcome : Outcome) : List String :=
  if outcome.isCommit && pending.vote.isAccept then pending.resources else []

/-- What is known in memory. A transaction stays resolved for ever, with the vote it got, so that a
late request cannot draw a second vote. -/
structure Memory where
  locks : LockTable := {}
  pending : Table String Pending := ∅
  resolved : Table String (Option Vote) := ∅
  deriving DecidableEq, Repr

/-- The vote already cast on a transaction; one resolved without a vote counts as refused. -/
def Memory.recordedVote (memory : Memory) (txn : String) : Option Vote :=
  match memory.pending.get? txn with
  | some pending => some pending.vote
  | none => (memory.resolved.get? txn).map fun vote => vote.getD .refuse

namespace Memory

def release (memory : Memory) (txn : String) (resources : List String) : Memory :=
  { memory with locks := memory.locks.release txn resources }

def await (memory : Memory) (txn : String) (pending : Pending) : Memory :=
  { memory with pending := memory.pending.insert txn pending }

def resolve (memory : Memory) (txn : String) (vote : Option Vote) : Memory :=
  { memory with resolved := memory.resolved.insert txn vote }

def retire (memory : Memory) (txn : String) (pending : Pending) : Memory :=
  let memory := memory.release txn pending.resources
  { memory with pending := memory.pending.erase txn }.resolve txn (some pending.vote)

end Memory

structure VoteRequest where
  txn : String
  resources : List String
  payload : Bytes
  deriving DecidableEq, Repr

end Participant

open Participant

structure Participant (σ : Type) where
  memory : Memory := {}
  storage : σ

namespace Participant

variable {σ : Type}

def setLocks (p : Participant σ) (locks : LockTable) : Participant σ :=
  { p with memory := { p.memory with locks := locks } }

def releaseLocks (p : Participant σ) (txn : String) (resources : List String) : Participant σ :=
  { p with memory := p.memory.release txn resources }

def setPending (p : Participant σ) (txn : String) (pending : Pending) : Participant σ :=
  { p with memory := p.memory.await txn pending }

def setResolved (p : Participant σ) (txn : String) (vote : Option Vote) : Participant σ :=
  { p with memory := p.memory.resolve txn vote }

inductive Opening where
  | recorded (vote : Vote)
  | refused
  | granted
  deriving DecidableEq, Repr

def openVote [ResourceStore σ] (request : VoteRequest) (p : Participant σ) :
    Opening × Participant σ :=
  match p.memory.recordedVote request.txn with
  | some vote => (.recorded vote, p)
  | none =>
    if request.resources.all fun resource => ResourceStore.holds resource p.storage then
      match p.memory.locks.lockAll request.txn request.resources with
      | (.granted, locks) => (.granted, p.setLocks locks)
      | (.conflict _ _, _) => (.refused, p)
    else (.refused, p)

variable [Journal σ Entry]

def append (entry : Entry) (p : Participant σ) : Except ParticipantError Unit × Participant σ :=
  match Journal.append entry p.storage with
  | (.ok (), storage) => (.ok (), { p with storage := storage })
  | (.error e, storage) => (.error (.log e), { p with storage := storage })

/-- Logs a vote and remembers it. Only a logged acceptance keeps the locks that were granted. -/
def castVote (request : VoteRequest) (wasGranted : Bool) (vote : Vote) (p : Participant σ) :
    Except ParticipantError Vote × Participant σ :=
  let p := if wasGranted && !vote.isAccept then p.releaseLocks request.txn request.resources else p
  match p.append (.prepare request.txn request.resources vote) with
  | (.error e, p) =>
    (.error e, if vote.isAccept then p.releaseLocks request.txn request.resources else p)
  | (.ok (), p) => (.ok vote, p.setPending request.txn ⟨request.resources, vote, none⟩)

def answerVote (request : VoteRequest) (approved : Bool) (p : Participant σ) :
    Except ParticipantError Vote × Participant σ :=
  p.castVote request true (if approved then .accept else .refuse)

/-- A decision on a transaction that was never voted on: there is nothing to undo, but a request
that comes late must not lock anything. -/
def resolveUnknown (txn : String) (outcome : Outcome) (p : Participant σ) :
    Except ParticipantError Unit × Participant σ :=
  match p.append (.decision txn outcome) with
  | (.error e, p) => (.error e, p)
  | (.ok (), p) =>
    match p.append (.done txn) with
    | (.error e, p) => (.error e, p)
    | (.ok (), p) => (.ok (), p.setResolved txn none)

variable [ResourceStore σ]

def deleteAll : List String → Participant σ → Except ParticipantError Unit × Participant σ
  | [], p => (.ok (), p)
  | resource :: rest, p =>
    match ResourceStore.delete resource p.storage with
    | (.ok (), storage) => deleteAll rest { p with storage := storage }
    | (.error e, storage) => (.error (.store e), { p with storage := storage })

def retire (txn : String) (pending : Pending) (p : Participant σ) : Participant σ :=
  { p with memory := p.memory.retire txn pending }

def finish (txn : String) (pending : Pending) (p : Participant σ) :
    Except ParticipantError Unit × Participant σ :=
  match pending.decision with
  | none => (.ok (), p)
  | some outcome =>
    match p.deleteAll (pending.doomed outcome) with
    | (.error e, p) => (.error e, p)
    | (.ok (), p) =>
      match p.append (.done txn) with
      | (.error e, p) => (.error e, p)
      | (.ok (), p) => (.ok (), p.retire txn pending)

/-- Applies a decision. The one that is logged first counts, whatever comes later. Success means
that the effects are there, and that the decision can be acknowledged. -/
def handleDecision (txn : String) (outcome : Outcome) (p : Participant σ) :
    Except ParticipantError Unit × Participant σ :=
  if p.memory.resolved.contains txn then (.ok (), p)
  else match p.memory.pending.get? txn with
    | none => p.resolveUnknown txn outcome
    | some pending =>
      match pending.decision with
      | some _ => p.finish txn pending
      | none =>
        match p.append (.decision txn outcome) with
        | (.error e, p) => (.error e, p)
        | (.ok (), p) =>
          let decided := { pending with decision := some outcome }
          (p.setPending txn decided).finish txn decided

inductive Reaction where
  | silent
  | reply (message : Message)
  | ask (request : VoteRequest)
  deriving DecidableEq, Repr

def voteReply (txn : String) : Except ParticipantError Vote → Reaction
  | .ok vote => .reply (.vote txn vote)
  | .error _ => .silent

def requestOf (message : Message) : VoteRequest :=
  ⟨message.txn, message.resources, message.payload.getD []⟩

def react (message : Message) (p : Participant σ) : Reaction × Participant σ :=
  match message.phase with
  | .prepare =>
    let request := requestOf message
    match p.openVote request with
    | (.recorded vote, p) => (.reply (.vote message.txn vote), p)
    | (.refused, p) =>
      let (result, p) := p.castVote request false .refuse
      (voteReply message.txn result, p)
    | (.granted, p) => (.ask request, p)
  | .commit => decide .commit
  | .abort => decide .abort
  | _ => (.silent, p)
where
  decide (outcome : Outcome) : Reaction × Participant σ :=
    match p.handleDecision message.txn outcome with
    | (.ok (), p) => (.reply (.ack message.txn), p)
    | (.error _, p) => (.silent, p)

end Participant

end AtomicCommit
