import AtomicCommit.Cluster.Basic
import AtomicCommit.Coordinator.Admission

/-! The coordinator in a cluster: its engines, the commits that wait for them, and how it starts and
stops. -/

namespace AtomicCommit

open Coordinator (Storage Transaction Stage)

namespace Cluster

def coordinatorStorage (c : Cluster) (running : RunningCoordinator) : Storage :=
  ⟨⟨c.office.log, running.log⟩, { directory := publishDirectory, disk := c.office.disk }⟩

def keepStorage (c : Cluster) (incarnation : Nat) (storage : Storage) : Cluster :=
  { c with
    office := { c.office with log := storage.log.medium, disk := storage.publisher.disk }
    coordinators := c.coordinators.adjust ({ · with log := storage.log.handle }) incarnation }

def setCoordinatorInboxes (c : Cluster) (incarnation : Nat) (inboxes : Inboxes Envelope) :
    Cluster :=
  { c with coordinators := c.coordinators.adjust ({ · with inboxes := inboxes }) incarnation }

def Job.isCallOn (engine : Nat) : Job → Bool
  | .commitCall _ _ _ _ _ (some own) => own == engine
  | _ => false

def finishCommits (c : Cluster) (engine : Nat) (result : CallResult) : Cluster :=
  (c.tasksWith (Job.isCallOn engine)).foldl (fun c task =>
    match c.job? task with
    | some (.commitCall call _ _ _ _ _) => (c.removeJob task).finishCall call result
    | _ => c) c

def removeEngine (c : Cluster) (task incarnation inbox : Nat) : Cluster :=
  match c.coordinators.get? incarnation with
  | some running =>
    (c.setCoordinatorInboxes incarnation (running.inboxes.drop inbox)).removeJob task
  | none => c.removeJob task

def stepEngine (c : Cluster) (task incarnation inbox : Nat) (t : Transaction) (stage : Stage) :
    Option Cluster := do
  let running ← c.coordinators.get? incarnation
  let progress ← Coordinator.step c.office.config c.clock t stage (running.inboxes.queue inbox)
    (c.coordinatorStorage running)
  let c := c.keepStorage incarnation progress.storage
  let c := c.setCoordinatorInboxes incarnation (running.inboxes.setQueue inbox progress.queue)
  let c := progress.sent.foldl (fun c (recipient, message) =>
    c.send coordinatorAddress recipient message) c
  match progress.next with
  | .stage stage => return c.setJob task (.engine incarnation inbox t stage)
  | .finished result =>
    return (c.removeEngine task incarnation inbox).finishCommits task (.outcome result)

def stepCommitCall (c : Cluster) (task call incarnation : Nat) (name : String) (payload : Bytes)
    (sources : List String) (engine : Option Nat) : Option Cluster := do
  if engine.isSome then none
  let running ← c.coordinators.get? incarnation
  match Coordinator.admission name sources running.gateOpen running.inboxes with
  | .refused e => return (c.removeJob task).finishCall call (.outcome (.error e))
  | .stalled => none
  | .admitted inbox inboxes parsed =>
    let (engine, c) := (c.setCoordinatorInboxes incarnation inboxes).spawn
      (.engine incarnation inbox ⟨name, payload, parsed⟩ .starting)
    return c.setJob task (.commitCall call incarnation name payload sources (some engine))

def Job.isCommitAt (incarnation : Nat) : Job → Bool
  | .commitCall _ coordinator _ _ _ _ => coordinator == incarnation
  | _ => false

def Job.isEngineOf (incarnation : Nat) : Job → Bool
  | .engine coordinator _ _ _ => coordinator == incarnation
  | _ => false

/-- A coordinator that nobody can reach any more takes no messages. -/
def coordinatorLives (c : Cluster) (incarnation : Nat) : Bool :=
  c.office.current == some incarnation || !(c.tasksWith (Job.isCommitAt incarnation)).isEmpty

/-- A message is taken when it does not decode, and so is dropped, or when its transaction has an
engine. -/
def coordinatorAccepts (c : Cluster) (incarnation : Nat) (packet : Packet) : Bool :=
  c.coordinatorLives incarnation &&
    match Message.decode packet.body, c.coordinators.get? incarnation with
    | .error _, _ => true
    | .ok message, some running => running.inboxes.has message.txn
    | .ok _, none => false

def receiveAtCoordinator (c : Cluster) (incarnation : Nat) (packet : Packet) : Cluster :=
  match Message.decode packet.body, c.coordinators.get? incarnation with
  | .ok message, some running =>
    match running.inboxes.deliver message.txn ⟨packet.sender, message⟩ with
    | (.ok inbox, inboxes) =>
      (c.setCoordinatorInboxes incarnation inboxes).wakeListeners (.coordinator incarnation) inbox
    | (.error _, _) => c
  | _, _ => c

def newCoordinator (c : Cluster) : Except LogError Unit × Cluster :=
  let (opened, medium) := c.office.log.openLog Coordinator.Entry
  let c := { c with office := { c.office with log := medium, current := none } }
  match opened with
  | .error e => (.error e, c)
  | .ok handle =>
    let (incarnation, c) := c.fresh
    (.ok (), { c with
      office := { c.office with current := some incarnation }
      coordinators := c.coordinators.insert incarnation ⟨handle, {}, false⟩ })

def launch (c : Cluster) (incarnation : Nat) (resumed : Coordinator.Resumed) : Cluster :=
  (c.spawn (.engine incarnation resumed.inbox resumed.transaction
    (.announcing resumed.outcome resumed.transaction.participants))).2

/-- Registers the coordinator, recovers, and opens the gate. A recovery that fails leaves the
address taken and the engines that it has launched. -/
def startCoordinator (c : Cluster) :
    Option (Except CoordinatorError Coordinator.RecoveryReport × Cluster) := do
  let incarnation ← c.office.current
  let running ← c.coordinators.get? incarnation
  match c.transport.register coordinatorAddress (.coordinator incarnation) with
  | .error e => return (.error (.transport e), c)
  | .ok transport =>
    let c := { c with transport := transport }
    let (result, recovering) := Coordinator.recover c.office.config running.inboxes
      (c.coordinatorStorage running)
    let c := c.keepStorage incarnation recovering.storage
    let c := c.setCoordinatorInboxes incarnation recovering.inboxes
    let c := recovering.engines.foldl (fun c resumed => c.launch incarnation resumed) c
    match result with
    | .error e => return (.error e, c)
    | .ok () =>
      let c := { c with
        coordinators := c.coordinators.adjust ({ · with gateOpen := true }) incarnation }
      let c := (c.tasksWith (Job.isCommitAt incarnation)).foldl wake c
      return (.ok recovering.report, c)

/-- Stops the coordinator as a crash would: every engine ends where it stands, at once. That is more than
a shutdown does, which only asks for it: an engine may go on to where it next waits, and its name is
taken until it has gone. -/
def stopCoordinator (c : Cluster) : Option Cluster := do
  let incarnation ← c.office.current
  let c := { c with
    coordinators := c.coordinators.adjust ({ · with gateOpen := false }) incarnation }
  let c := match c.transport.unregister coordinatorAddress with
    | .ok transport => { c with transport := transport }
    | .error _ => c
  return (c.tasksWith (Job.isEngineOf incarnation)).foldl (fun c task =>
    match c.job? task with
    | some (.engine _ inbox _ _) =>
      (c.removeEngine task incarnation inbox).finishCommits task .engineCancelled
    | _ => c) c

def requestCommit (c : Cluster) (call : Nat) (name : String) (payload : Bytes)
    (sources : List String) : Option Cluster := do
  let incarnation ← c.office.current
  return (c.spawn (.commitCall call incarnation name payload sources none)).2

def inFlight? (c : Cluster) : Option (List String) := do
  return (← c.coordinators.get? (← c.office.current)).inboxes.transactions

def publisher (c : Cluster) : Publisher := { directory := publishDirectory, disk := c.office.disk }

end Cluster

end AtomicCommit
