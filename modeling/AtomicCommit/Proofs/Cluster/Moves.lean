import AtomicCommit.Cluster.Run

/-! The moves of a worker: everything that one step of it can be. -/

namespace AtomicCommit.Cluster

open Participant (Reaction Storage)

variable {c c' : Cluster} {p task inbox : Nat}

def withWorker (c : Cluster) (p : Nat) (running : RunningParticipant) (txn : String) : Cluster :=
  match running.inboxes.create txn with
  | none => c
  | some (inbox, inboxes) => ((c.setInboxes p inboxes).spawn
      (.worker p inbox (.receiving (c.clock + c.idleTimeout running.address)))).2

def putIntoInbox (c : Cluster) (p : Nat) (envelope : Envelope) : Cluster :=
  match c.participants.get? p with
  | none => c
  | some running =>
    match running.inboxes.deliver envelope.message.txn envelope with
    | (.error _, _) => c
    | (.ok inbox, inboxes) => (c.setInboxes p inboxes).wakeListeners (.participant p) inbox

theorem routeToWorker_eq {running : RunningParticipant}
    (there : c.participants.get? p = some running) (envelope : Envelope) :
    c.routeToWorker p envelope =
      (c.withWorker p running envelope.message.txn).putIntoInbox p envelope := by
  rw [routeToWorker, there]
  rfl

theorem routeToWorker_absent (absent : c.participants.get? p = none) (envelope : Envelope) :
    c.routeToWorker p envelope = c := by
  rw [routeToWorker, absent]

def goOn (c : Cluster) (task p inbox : Nat) (address : String) : Cluster :=
  c.setJob task (.worker p inbox (.receiving (c.clock + c.idleTimeout address)))

/-- What a worker does about a reaction to a message. -/
def concluded (c : Cluster) (task p inbox : Nat) (address recipient : String) : Reaction → Cluster
  | .silent => c.goOn task p inbox address
  | .reply message => (c.send address recipient message).goOn task p inbox address
  | .ask request =>
    let ((question, answer), c) := c.ask address request
    c.setJob task (.worker p inbox (.asking recipient request question answer))

inductive WorkerMove (c : Cluster) (task p inbox : Nat) : WorkerStage → Cluster → Prop where
  | handle (running : RunningParticipant) (retireAt : Nat) (envelope : Envelope)
      (inboxes : Inboxes Envelope) (reaction : Reaction) (reacted : Cluster) :
      c.participants.get? p = some running →
      running.inboxes.receive inbox = (some envelope, inboxes) →
      (c.setInboxes p inboxes).atParticipant p (Participant.react envelope.message) =
        some (reaction, reacted) →
      WorkerMove c task p inbox (.receiving retireAt)
        (reacted.concluded task p inbox running.address envelope.sender reaction)
  | retire (running : RunningParticipant) (retireAt : Nat) (inboxes : Inboxes Envelope)
      (c' : Cluster) : c.participants.get? p = some running →
      running.inboxes.receive inbox = (none, inboxes) → retireAt ≤ c.clock →
      c.retireWorker task p inbox = some c' →
      WorkerMove c task p inbox (.receiving retireAt) c'
  | answer (running : RunningParticipant) (sender : String) (request : Participant.VoteRequest)
      (question : Nat) (approved : Bool) (result : Except ParticipantError Vote)
      (answered : Cluster) : c.participants.get? p = some running →
      c.atParticipant p (Participant.answerVote request approved) = some (result, answered) →
      WorkerMove c task p inbox (.asking sender request question (.ready approved))
        (answered.concluded task p inbox running.address sender
          (Participant.voteReply request.txn result))

theorem workerMove_of_step {stage : WorkerStage}
    (stepped : c.stepWorker task p inbox stage = some c') : WorkerMove c task p inbox stage c' := by
  simp only [stepWorker, Option.bind_eq_bind, Option.bind_eq_some_iff] at stepped
  obtain ⟨running, there, stepped⟩ := stepped
  split at stepped
  next retireAt =>
    split at stepped
    next envelope inboxes received =>
      obtain ⟨⟨reaction, reacted⟩, done, concluded⟩ := Option.bind_eq_some_iff.mp stepped
      rw [← Option.some.inj concluded]
      exact .handle running retireAt envelope inboxes reaction reacted there received done
    next inboxes received =>
      split at stepped
      next due => exact .retire running retireAt inboxes c' there received due stepped
      next => cases stepped
  next sender request question approved =>
    obtain ⟨⟨result, answered⟩, done, concluded⟩ := Option.bind_eq_some_iff.mp stepped
    rw [← Option.some.inj concluded]
    exact .answer running sender request question approved result answered there done
  next => cases stepped

theorem stepJob_of_worker {stage : WorkerStage}
    (job : c.job? task = some (.worker p inbox stage)) :
    c.stepJob task = c.stepWorker task p inbox stage := by
  simp [stepJob, job]

theorem react_asks {message : Message} {before : Participant Storage}
    {request : Participant.VoteRequest}
    (asks : (Participant.react message before).1 = .ask request) :
    message.phase = .prepare ∧ request = Participant.requestOf message := by
  cases phase : message.phase with
  | prepare =>
    simp only [Participant.react, phase] at asks
    split at asks
    · cases asks
    next =>
      simp only [Participant.voteReply] at asks
      split at asks <;> cases asks
    next =>
      cases asks
      exact ⟨rfl, rfl⟩
  | commit | abort =>
    simp only [Participant.react, phase, Participant.react.decide] at asks
    split at asks <;> cases asks
  | accept | refuse | ack =>
    simp only [Participant.react, phase] at asks
    cases asks

end AtomicCommit.Cluster
