import AtomicCommit.Coordinator.Publisher
import AtomicCommit.Coordinator.Record
import AtomicCommit.Log.Journal
import AtomicCommit.Message
import AtomicCommit.Transport

/-! The engine of one transaction: it logs the request, collects votes, publishes, logs the
decision, spreads it until everyone has acknowledged it, and logs the end. It never gives up once
requests are out: an append that fails is tried again after the retry interval. -/

namespace AtomicCommit

inductive CoordinatorError where
  | log (cause : LogError)
  | publish (name : String) (cause : FileError)
  | duplicate (name : String)
  | source (cause : SourceError)
  | transport (cause : TransportError)
  deriving DecidableEq, Repr

def CoordinatorError.message : CoordinatorError → String
  | .log cause => "Write-ahead log error: " ++ cause.message
  | .publish name cause => "Failed to publish or retract " ++ name ++ ": " ++ cause.message
  | .duplicate name => "Transaction already in flight: " ++ name
  | .source cause => "Invalid source: " ++ cause.message
  | .transport cause => "Engine error: " ++ cause.message

namespace Coordinator

/-- Times are in milliseconds. -/
structure Config where
  voteTimeout : Nat := 6000
  retryInterval : Nat := 6000
  publishDirectory : String := "."
  compactOnRecovery : Bool := true
  deriving DecidableEq, Repr

structure Transaction where
  name : String
  payload : Bytes
  sources : List Source
  deriving DecidableEq, Repr

namespace Transaction

def shares (t : Transaction) : List (String × List String) := Source.shares t.sources

def participants (t : Transaction) : List String := t.shares.map (·.1)

def requests (t : Transaction) : List (String × Message) :=
  t.shares.map fun (participant, resources) =>
    (participant, .prepare t.name resources t.payload)

end Transaction

abbrev Ballot := List (String × Vote)

namespace Ballot

def hasVoted (ballot : Ballot) (participant : String) : Bool :=
  ballot.any fun (voter, _) => voter == participant

def receive (participants : List String) (ballot : Ballot) (envelope : Envelope) : Ballot :=
  match envelope.message.phase.vote? with
  | some vote =>
    if participants.contains envelope.sender && !ballot.hasVoted envelope.sender then
      ballot ++ [(envelope.sender, vote)]
    else ballot
  | none => ballot

/-- One refusal decides; else all votes have to be in. -/
def outcome? (participants : List String) (ballot : Ballot) : Option Outcome :=
  if ballot.any fun (_, vote) => !vote.isAccept then some .abort
  else if participants.length ≤ ballot.length then some (.ofVotes (ballot.map (·.2)))
  else none

end Ballot

def stillWaiting (waiting : List String) (envelope : Envelope) : List String :=
  if envelope.message.phase = .ack then waiting.erase envelope.sender else waiting

inductive Stage where
  | starting
  | voting (deadline : Nat) (ballot : Ballot)
  | publishing
  | deciding (outcome : Outcome) (due : Nat)
  | announcing (outcome : Outcome) (waiting : List String)
  | awaiting (outcome : Outcome) (waiting : List String) (deadline : Nat)
  | closing (outcome : Outcome) (due : Nat)
  deriving DecidableEq, Repr

namespace Stage

def deadline? : Stage → Option Nat
  | .voting deadline _ => some deadline
  | .deciding _ due => some due
  | .awaiting _ _ deadline => some deadline
  | .closing _ due => some due
  | _ => none

def isListening : Stage → Bool
  | .voting _ _ => true
  | .awaiting _ _ _ => true
  | _ => false

end Stage

inductive Next where
  | stage (stage : Stage)
  | finished (result : Except CoordinatorError Outcome)

structure Progress (σ : Type) where
  next : Next
  sent : List (String × Message) := []
  queue : List Envelope
  storage : σ

variable {σ : Type} [Journal σ Entry] [Publishing σ]

def decided (now : Nat) : Outcome → Stage
  | .commit => .publishing
  | .abort => .deciding .abort now

/-- One step of an engine, or none while it can only wait. A message that is there comes before a
deadline that has passed. -/
def step (config : Config) (now : Nat) (t : Transaction) (stage : Stage) (queue : List Envelope)
    (storage : σ) : Option (Progress σ) :=
  match stage with
  | .starting =>
    match Journal.append (.prepare t.name t.sources) storage with
    | (.error e, storage) => some ⟨.finished (.error (.log e)), [], queue, storage⟩
    | (.ok (), storage) =>
      some ⟨.stage (.voting (now + config.voteTimeout) []), t.requests, queue, storage⟩
  | .voting deadline ballot =>
    match ballot.outcome? t.participants, queue with
    | some outcome, _ => some ⟨.stage (decided now outcome), [], queue, storage⟩
    | none, envelope :: rest =>
      some ⟨.stage (.voting deadline (ballot.receive t.participants envelope)), [], rest, storage⟩
    | none, [] =>
      if deadline ≤ now then some ⟨.stage (decided now .abort), [], queue, storage⟩ else none
  | .publishing =>
    match Publishing.publish t.name t.payload storage with
    | (.ok (), storage) => some ⟨.stage (.deciding .commit now), [], queue, storage⟩
    | (.error _, storage) => some ⟨.stage (.deciding .abort now), [], queue, storage⟩
  | .deciding outcome due =>
    if now < due then none
    else match Journal.append (.decision t.name outcome) storage with
      | (.ok (), storage) => some ⟨.stage (.announcing outcome t.participants), [], queue, storage⟩
      | (.error _, storage) =>
        some ⟨.stage (.deciding outcome (now + config.retryInterval)), [], queue, storage⟩
  | .announcing outcome waiting =>
    if waiting.isEmpty then some ⟨.stage (.closing outcome now), [], queue, storage⟩
    else
      let decisions := waiting.map fun participant => (participant, Message.decision t.name outcome)
      some ⟨.stage (.awaiting outcome waiting (now + config.retryInterval)), decisions, queue,
        storage⟩
  | .awaiting outcome waiting deadline =>
    if waiting.isEmpty then some ⟨.stage (.closing outcome now), [], queue, storage⟩
    else match queue with
      | envelope :: rest =>
        some ⟨.stage (.awaiting outcome (stillWaiting waiting envelope) deadline), [], rest,
          storage⟩
      | [] =>
        if deadline ≤ now then some ⟨.stage (.announcing outcome waiting), [], queue, storage⟩
        else none
  | .closing outcome due =>
    if now < due then none
    else match Journal.append (.done t.name) storage with
      | (.ok (), storage) => some ⟨.finished (.ok outcome), [], queue, storage⟩
      | (.error _, storage) =>
        some ⟨.stage (.closing outcome (now + config.retryInterval)), [], queue, storage⟩

end Coordinator

end AtomicCommit
