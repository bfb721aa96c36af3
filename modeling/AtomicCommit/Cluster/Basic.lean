import AtomicCommit.Coordinator.Site
import AtomicCommit.Participant.Site

/-! Participants and a coordinator on one transport, with a clock. What goes on is cut into jobs; a
job runs in steps and waits in between. Actors that are started again are new incarnations over the
same storage. -/

namespace AtomicCommit

namespace Cluster

inductive Hook where
  | participant (incarnation : Nat)
  | coordinator (incarnation : Nat)
  deriving DecidableEq, Repr

/-- What stays of a participant when it goes down. -/
structure Node where
  oracle : Oracle := .approve
  config : Participant.Config := {}
  store : Disk := {}
  log : LogMedium := {}
  current : Option Nat := none
  asked : List (Bytes × List String) := []
  deriving Repr

structure RunningParticipant where
  address : String
  memory : Participant.Memory
  log : LogHandle
  inboxes : Inboxes Envelope := {}
  deriving Repr

structure Office where
  config : Coordinator.Config := {}
  disk : Disk := {}
  log : LogMedium := {}
  current : Option Nat := none
  deriving Repr

/-- Transactions are admitted while the gate is open. -/
structure RunningCoordinator where
  log : LogHandle
  inboxes : Inboxes Envelope := {}
  gateOpen : Bool := false
  deriving Repr

inductive WorkerStage where
  | receiving (retireAt : Nat)
  | asking (sender : String) (request : Participant.VoteRequest) (question : Nat) (answer : Answer)
  deriving DecidableEq, Repr

inductive Job where
  | worker (participant inbox : Nat) (stage : WorkerStage)
  | voteCall (call participant : Nat) (request : Participant.VoteRequest)
      (asked : Option (Nat × Answer))
  | engine (coordinator inbox : Nat) (transaction : Coordinator.Transaction)
      (stage : Coordinator.Stage)
  | commitCall (call coordinator : Nat) (name : String) (payload : Bytes) (sources : List String)
      (engine : Option Nat)
  deriving Repr

/-- `waitingSince` is the place in the order in which waits began. -/
structure Task where
  job : Job
  waitingSince : Option Nat := none
  deriving Repr

inductive Turn where
  | arrival (packet : Packet)
  | job (task : Nat)
  deriving DecidableEq, Repr

/-- How a call ends: with a result, or because what would have given it was stopped. -/
inductive CallResult where
  | vote (result : Except ParticipantError Vote)
  | voteCancelled
  | outcome (result : Except CoordinatorError Outcome)
  | engineCancelled
  deriving Repr

end Cluster

open Cluster

structure Cluster where
  clock : Nat := 0
  transport : Transport Hook := {}
  nodes : Table String Node := ∅
  participants : Table Nat RunningParticipant := ∅
  office : Office := {}
  coordinators : Table Nat RunningCoordinator := ∅
  tasks : Table Nat Task := ∅
  ready : List Turn := []
  finished : List (Nat × CallResult) := []
  next : Nat := 0
  deriving Repr

namespace Cluster

def coordinatorAddress : String := "coordinator"

def publishDirectory : Path := ["out"]

def fresh (c : Cluster) : Nat × Cluster := (c.next, { c with next := c.next + 1 })

def Job.deadline? : Job → Option Nat
  | .worker _ _ (.receiving retireAt) => some retireAt
  | .engine _ _ _ stage => stage.deadline?
  | _ => none

def Job.listensTo (owner : Hook) (inbox : Nat) : Job → Bool
  | .worker participant own (.receiving _) => owner == .participant participant && own == inbox
  | .engine coordinator own _ stage =>
    owner == .coordinator coordinator && own == inbox && stage.isListening
  | _ => false

def job? (c : Cluster) (task : Nat) : Option Job := (c.tasks.get? task).map (·.job)

/-- A job goes on with another stage; its next wait is a new one. -/
def setJob (c : Cluster) (task : Nat) (job : Job) : Cluster :=
  { c with tasks := c.tasks.insert task ⟨job, none⟩ }

def removeJob (c : Cluster) (task : Nat) : Cluster :=
  { c with
    tasks := c.tasks.erase task
    ready := c.ready.filter (· ≠ .job task) }

def spawn (c : Cluster) (job : Job) : Nat × Cluster :=
  let (task, c) := c.fresh
  (task, { c.setJob task job with ready := c.ready ++ [.job task] })

def wake (c : Cluster) (task : Nat) : Cluster :=
  if c.ready.contains (.job task) then c else { c with ready := c.ready ++ [.job task] }

def tasksWith (c : Cluster) (test : Job → Bool) : List Nat :=
  (c.tasks.entries.filter fun (_, task) => test task.job).map (·.1)

def wakeListeners (c : Cluster) (owner : Hook) (inbox : Nat) : Cluster :=
  (c.tasksWith (Job.listensTo owner inbox)).foldl wake c

def finishCall (c : Cluster) (call : Nat) (result : CallResult) : Cluster :=
  { c with finished := c.finished ++ [(call, result)] }

def sendPacket (c : Cluster) (packet : Packet) : Cluster :=
  let (copies, transport) := c.transport.send packet
  { c with transport := transport, ready := c.ready ++ copies.map .arrival }

def send (c : Cluster) (sender recipient : String) (message : Message) : Cluster :=
  c.sendPacket ⟨sender, recipient, message.encode⟩

def updateNode (c : Cluster) (address : String) (change : Node → Node) : Cluster :=
  { c with nodes := c.nodes.adjust change address }

end Cluster

end AtomicCommit
