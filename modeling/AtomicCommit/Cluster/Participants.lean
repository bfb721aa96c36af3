import AtomicCommit.Cluster.Basic

/-! Participants in a cluster: their messages, their workers, and how they start and stop. -/

namespace AtomicCommit

open Participant (VoteRequest Storage)

inductive StartError where
  | log (cause : LogError)
  | participant (cause : ParticipantError)
  deriving DecidableEq, Repr

namespace Cluster

def atParticipant {α : Type} (c : Cluster) (incarnation : Nat)
    (action : Participant Storage → α × Participant Storage) : Option (α × Cluster) := do
  let running ← c.participants.get? incarnation
  let node ← c.nodes.get? running.address
  let storage : Storage := ⟨⟨node.log, running.log⟩, ⟨[], node.store⟩⟩
  let (result, p) := action ⟨running.memory, storage⟩
  let running := { running with memory := p.memory, log := p.storage.log.handle }
  let node := { node with store := p.storage.store.disk, log := p.storage.log.medium }
  return (result, { c with
    participants := c.participants.insert incarnation running
    nodes := c.nodes.insert running.address node })

def idleTimeout (c : Cluster) (address : String) : Nat :=
  match c.nodes.get? address with
  | some node => node.config.idleTimeout
  | none => 0

def setInboxes (c : Cluster) (incarnation : Nat) (inboxes : Inboxes Envelope) : Cluster :=
  { c with participants := c.participants.adjust ({ · with inboxes := inboxes }) incarnation }

def routeToWorker (c : Cluster) (incarnation : Nat) (envelope : Envelope) : Cluster :=
  match c.participants.get? incarnation with
  | none => c
  | some running =>
    let txn := envelope.message.txn
    let c := match running.inboxes.create txn with
      | none => c
      | some (inbox, inboxes) =>
        let retireAt := c.clock + c.idleTimeout running.address
        ((c.setInboxes incarnation inboxes).spawn
          (.worker incarnation inbox (.receiving retireAt))).2
    match c.participants.get? incarnation with
    | none => c
    | some running =>
      match running.inboxes.deliver txn envelope with
      | (.error _, _) => c
      | (.ok inbox, inboxes) =>
        (c.setInboxes incarnation inboxes).wakeListeners (.participant incarnation) inbox

def receiveAtParticipant (c : Cluster) (incarnation : Nat) (packet : Packet) : Cluster :=
  match Message.decode packet.body with
  | .error _ => c
  | .ok message => c.routeToWorker incarnation ⟨packet.sender, message⟩

def ask (c : Cluster) (address : String) (request : VoteRequest) : (Nat × Answer) × Cluster :=
  let (question, c) := c.fresh
  let answer := match c.nodes.get? address with
    | some node => node.oracle.ask request.payload
    | none => .ready false
  ((question, answer), c.updateNode address fun node =>
    { node with asked := node.asked ++ [(request.payload, request.resources)] })

/-- A worker retires when it has been idle for long enough; what was still in its inbox goes to the
next worker. -/
def retireWorker (c : Cluster) (task incarnation inbox : Nat) : Option Cluster := do
  let running ← c.participants.get? incarnation
  let (leftovers, inboxes) := running.inboxes.close inbox
  let c := (c.setInboxes incarnation inboxes).removeJob task
  return leftovers.foldl (fun c envelope => c.routeToWorker incarnation envelope) c

def stepWorker (c : Cluster) (task incarnation inbox : Nat) (stage : WorkerStage) :
    Option Cluster := do
  let running ← c.participants.get? incarnation
  let address := running.address
  let receiving (c : Cluster) : Cluster :=
    c.setJob task (.worker incarnation inbox (.receiving (c.clock + c.idleTimeout address)))
  let conclude (recipient : String) (reaction : Participant.Reaction) (c : Cluster) : Cluster :=
    match reaction with
    | .silent => receiving c
    | .reply message => receiving (c.send address recipient message)
    | .ask request =>
      let ((question, answer), c) := c.ask address request
      c.setJob task (.worker incarnation inbox (.asking recipient request question answer))
  match stage with
  | .receiving retireAt =>
    match running.inboxes.receive inbox with
    | (some envelope, inboxes) =>
      let (reaction, c) ← (c.setInboxes incarnation inboxes).atParticipant incarnation
        (Participant.react envelope.message)
      return conclude envelope.sender reaction c
    | (none, _) => if retireAt ≤ c.clock then c.retireWorker task incarnation inbox else none
  | .asking sender request _ (.ready approved) =>
    let (result, c) ← c.atParticipant incarnation (Participant.answerVote request approved)
    return conclude sender (Participant.voteReply request.txn result) c
  | .asking _ _ _ (.held _) => none

def stepVoteCall (c : Cluster) (task call incarnation : Nat) (request : VoteRequest)
    (asked : Option (Nat × Answer)) : Option Cluster := do
  let running ← c.participants.get? incarnation
  let finish (result : Except ParticipantError Vote) (c : Cluster) : Cluster :=
    (c.removeJob task).finishCall call (.vote result)
  match asked with
  | some (_, .held _) => none
  | some (_, .ready approved) =>
    let (result, c) ← c.atParticipant incarnation (Participant.answerVote request approved)
    return finish result c
  | none =>
    match ← c.atParticipant incarnation (Participant.openVote request) with
    | (.recorded vote, c) => return finish (.ok vote) c
    | (.refused, c) =>
      let (result, c) ← c.atParticipant incarnation (Participant.castVote request false .refuse)
      return finish result c
    | (.granted, c) =>
      let (asked, c) := c.ask running.address request
      return c.setJob task (.voteCall call incarnation request (some asked))

def Job.ofParticipant (incarnation : Nat) : Job → Bool
  | .worker participant _ _ => participant == incarnation
  | .voteCall _ participant _ _ => participant == incarnation
  | _ => false

def participantLives (c : Cluster) (incarnation : Nat) : Bool :=
  match c.participants.get? incarnation with
  | none => false
  | some running =>
    (c.nodes.get? running.address).any (·.current == some incarnation) ||
      !(c.tasksWith (Job.ofParticipant incarnation)).isEmpty

def current? (c : Cluster) (address : String) : Option Nat := do (← c.nodes.get? address).current

/-- Starts a participant over what its node keeps: recovery first, then messages. A failure leaves
whatever ran before in place. -/
def startParticipant (c : Cluster) (address : String) : Except StartError Unit × Cluster :=
  match c.nodes.get? address with
  | none => (.ok (), c)
  | some node =>
    let (opened, medium) := node.log.openLog Participant.Entry
    let c := c.updateNode address ({ · with log := medium })
    match opened with
    | .error e => (.error (.log e), c)
    | .ok handle =>
      let (incarnation, c) := c.fresh
      let c := { c with participants := c.participants.insert incarnation ⟨address, {}, handle, {}⟩ }
      match c.atParticipant incarnation (Participant.recover node.config) with
      | none => (.ok (), c)
      | some (.error e, c) => (.error (.participant e), c)
      | some (.ok _, c) =>
        match c.transport.register address (.participant incarnation) with
        | .error e => (.error (.participant (.transport e)), c)
        | .ok transport =>
          (.ok (), { c with transport := transport }.updateNode address
            ({ · with current := some incarnation }))

def takeOffTransport (c : Cluster) (address : String) : Bool × Cluster :=
  match c.transport.unregister address with
  | .ok transport => (true, { c with transport := transport })
  | .error _ => (false, c)

def abortWorker (c : Cluster) (task : Nat) : Cluster :=
  match c.job? task with
  | some (.worker incarnation inbox _) =>
    match c.participants.get? incarnation with
    | some running =>
      (c.setInboxes incarnation (running.inboxes.drop inbox)).removeJob task
    | none => c.removeJob task
  | _ => c

def Job.isWorkerOf (incarnation : Nat) : Job → Bool
  | .worker participant _ _ => participant == incarnation
  | _ => false

def isVoteCallAt (c : Cluster) (address : String) : Job → Bool
  | .voteCall _ participant _ _ =>
    (c.participants.get? participant).any (·.address == address)
  | _ => false

def cancelCall (c : Cluster) (task : Nat) : Cluster :=
  match c.job? task with
  | some (.voteCall call _ _ _) => (c.removeJob task).finishCall call .voteCancelled
  | _ => c

/-- Stops a participant as a crash would: what is not logged is lost. -/
def stopParticipant (c : Cluster) (address : String) : Option Cluster := do
  let incarnation ← c.current? address
  let c := (c.takeOffTransport address).2
  let c := (c.tasksWith (Job.isWorkerOf incarnation)).foldl abortWorker c
  let c := (c.tasksWith (c.isVoteCallAt address)).foldl cancelCall c
  return c.updateNode address ({ · with current := none })

/-- Forgets a participant without taking it off the transport. -/
def forgetParticipant (c : Cluster) (address : String) : Bool × Cluster :=
  ((c.current? address).isSome, c.updateNode address ({ · with current := none }))

def heldQuestion? (c : Cluster) (address : String) (job : Job) : Option Nat :=
  let isHere (incarnation : Nat) : Bool :=
    (c.participants.get? incarnation).any (·.address == address)
  match job with
  | .worker incarnation _ (.asking _ _ question (.held _)) =>
    if isHere incarnation then some question else none
  | .voteCall _ incarnation _ (some (question, .held _)) =>
    if isHere incarnation then some question else none
  | _ => none

def Job.releaseAnswer : Job → Job
  | .worker incarnation inbox (.asking sender request question answer) =>
    .worker incarnation inbox (.asking sender request question answer.release)
  | .voteCall call incarnation request (some (question, answer)) =>
    .voteCall call incarnation request (some (question, answer.release))
  | job => job

def earlier (a b : Nat × Nat) : Nat × Nat := if b.1 < a.1 then b else a

def release (c : Cluster) (address : String) : Bool × Cluster :=
  let waiting := c.tasks.entries.filterMap fun (number, task) =>
    (c.heldQuestion? address task.job).map fun question => (question, number)
  match waiting with
  | [] => (false, c)
  | first :: rest =>
    let task := (rest.foldl earlier first).2
    match c.job? task with
    | some job => (true, (c.setJob task job.releaseAnswer).wake task)
    | none => (false, c)

def requestVote (c : Cluster) (address : String) (call : Nat) (request : VoteRequest) :
    Option Cluster := do
  let incarnation ← c.current? address
  return (c.spawn (.voteCall call incarnation request none)).2

def decide (c : Cluster) (address txn : String) (outcome : Outcome) :
    Option (Except ParticipantError Unit × Cluster) := do
  c.atParticipant (← c.current? address) (Participant.handleDecision txn outcome)

def memory? (c : Cluster) (address : String) : Option Participant.Memory := do
  return (← c.participants.get? (← c.current? address)).memory

end Cluster

end AtomicCommit
