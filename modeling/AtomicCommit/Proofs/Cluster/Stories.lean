import AtomicCommit.Proofs.Cluster.Frame
import Mathlib.Data.List.Induction

/-! What happens at a participant, told as a story for each transaction. -/

namespace AtomicCommit.Cluster

/-- What happens at the ends of the inboxes of a participant. -/
inductive Event where
  | arrived (envelope : Envelope)
  | began (envelope : Envelope)
  | ended (txn : String)
  deriving DecidableEq, Repr

/-- The messages of one transaction, in order. -/
structure Story where
  arrived : List Envelope := []
  handled : List Envelope := []
  handling : List Envelope := []
  deriving DecidableEq, Repr

def Story.note (txn : String) (story : Story) : Event → Story
  | .arrived envelope =>
    if envelope.message.txn = txn then { story with arrived := story.arrived ++ [envelope] } else story
  | .began envelope =>
    if envelope.message.txn = txn then { story with handling := story.handling ++ [envelope] }
    else story
  | .ended name =>
    if name = txn then { story with handled := story.handled ++ story.handling, handling := [] }
    else story

def storyOf (txn : String) (history : List Event) : Story := history.foldl (Story.note txn) {}

def arrivals (packet : Packet) : List Event :=
  match Message.decode packet.body with
  | .error _ => []
  | .ok message => [.arrived ⟨packet.sender, message⟩]

def WorkerStage.isAsking : WorkerStage → Bool
  | .receiving _ => false
  | .asking _ _ _ _ => true

def Job.isAsking : Job → Bool
  | .worker _ _ stage => stage.isAsking
  | _ => false

/-- What a worker's step tells: it takes the first message, and its handler ends with the step unless
the oracle has to be asked; or the handler ends with the answer of the oracle. -/
def workerEvents (queue : List Envelope) (stage : WorkerStage) (later : Option Job) : List Event :=
  match stage, queue with
  | .receiving _, [] => []
  | .receiving _, envelope :: _ =>
    .began envelope :: if later.any Job.isAsking then [] else [.ended envelope.message.txn]
  | .asking _ request _ _, _ => [.ended request.txn]

def queueAt (c : Cluster) (p inbox : Nat) : List Envelope :=
  ((c.service p).map (·.2.queue inbox)).getD []

/-- One step of anything: a packet arrives; a worker makes a step, retires at some time or other, or gets
the answer of the oracle; a job begins to wait because it cannot step; or something else goes on that
leaves the workers alone, such as the clock. -/
inductive Step (p : Nat) : Cluster → List Event → Cluster → Prop where
  | arrive {c : Cluster} (packet : Packet) :
      Step p c (arrivals packet) (c.receiveAtParticipant p packet)
  | work {c c' : Cluster} (task inbox : Nat) (stage : WorkerStage) :
      c.job? task = some (.worker p inbox stage) → .job task ∈ c.ready → c.stepJob task = some c' →
      Step p c (workerEvents (c.queueAt p inbox) stage (c'.job? task)) c'
  | retire {c c' : Cluster} (task inbox retireAt : Nat) :
      c.job? task = some (.worker p inbox (.receiving retireAt)) →
      c.retireWorker task p inbox = some c' → Step p c [] c'
  | release {c : Cluster} (task inbox : Nat) (stage : WorkerStage) :
      c.job? task = some (.worker p inbox stage) →
      Step p c [] ((c.setJob task (Job.worker p inbox stage).releaseAnswer).wake task)
  | rest {c : Cluster} (task : Nat) (ready : List Turn) : c.stepJob task = none →
      (∀ turn ∈ c.ready, turn = .job task ∨ turn ∈ ready) →
      Step p c [] ({ c with ready := ready }.beginWait task)
  | others {c c' : Cluster} : Leaves p c c' → Step p c [] c'

inductive Run (p : Nat) (first : Cluster) : List Event → Cluster → Prop where
  | nothing : Run p first [] first
  | step {history events : List Event} {c c' : Cluster} :
      Run p first history c → Step p c events c' → Run p first (history ++ events) c'

section Stories

variable {txn : String} {history : List Event}

theorem storyOf_snoc (txn : String) (history : List Event) (event : Event) :
    storyOf txn (history ++ [event]) = (storyOf txn history).note txn event := by
  rw [storyOf, List.foldl_append]
  rfl

theorem arrived_own (txn : String) (history : List Event) :
    ∀ envelope ∈ (storyOf txn history).arrived, envelope.message.txn = txn := by
  induction history using List.reverseRecOn with
  | nil => simp [storyOf]
  | append_singleton history event ih =>
    rw [storyOf_snoc]
    cases event with
    | arrived envelope =>
      simp only [Story.note]
      split
      next own => simpa [or_imp, forall_and, own] using ih
      next => exact ih
    | began envelope =>
      simp only [Story.note]
      split <;> exact ih
    | ended name =>
      simp only [Story.note]
      split <;> exact ih

theorem handling_ended (told : List Event) (other : String) (distinct : other ≠ txn) :
    (storyOf other (told ++ [.ended txn])).handling = (storyOf other told).handling := by
  rw [storyOf_snoc, Story.note, if_neg (Ne.symm distinct)]

theorem handling_began (told : List Event) (envelope : Envelope) (other : String) :
    (storyOf other (told ++ [.began envelope])).handling = (storyOf other told).handling ++
      if envelope.message.txn = other then [envelope] else [] := by
  rw [storyOf_snoc, Story.note]
  split <;> simp

end Stories

end AtomicCommit.Cluster
