import AtomicCommit.Cluster.Coordinators
import AtomicCommit.Cluster.Participants

/-! Running a cluster: what can run takes turns, first come, first served, and time passes only when
nothing can run. -/

namespace AtomicCommit.Cluster

def accepts (c : Cluster) (packet : Packet) : Hook → Bool
  | .participant incarnation => c.participantLives incarnation
  | .coordinator incarnation => c.coordinatorAccepts incarnation packet

def arrive (c : Cluster) (packet : Packet) : Cluster :=
  let (arrival, transport) := c.transport.arrive (c.accepts packet) packet
  let c := { c with transport := transport }
  match arrival with
  | .consumed (.participant incarnation) => c.receiveAtParticipant incarnation packet
  | .consumed (.coordinator incarnation) => c.receiveAtCoordinator incarnation packet
  | .retained => c
  | .lost => c

def stepJob (c : Cluster) (task : Nat) : Option Cluster := do
  match ← c.job? task with
  | .worker incarnation inbox stage => c.stepWorker task incarnation inbox stage
  | .voteCall call incarnation request asked => c.stepVoteCall task call incarnation request asked
  | .engine incarnation inbox t stage => c.stepEngine task incarnation inbox t stage
  | .commitCall call incarnation name payload sources engine =>
    c.stepCommitCall task call incarnation name payload sources engine

/-- A job begins to wait. Waits have an order, in which equal deadlines are served. -/
def beginWait (c : Cluster) (task : Nat) : Cluster :=
  match c.tasks.get? task with
  | some ⟨job, none⟩ =>
    let (place, c) := c.fresh
    { c with tasks := c.tasks.insert task ⟨job, some place⟩ }
  | _ => c

/-- The first turn: a copy arrives, or a job makes a step and keeps its turn until it waits. -/
def turn (c : Cluster) : Cluster :=
  match c.ready with
  | [] => c
  | .arrival packet :: rest => { c with ready := rest }.arrive packet
  | .job task :: rest =>
    match c.stepJob task with
    | some c => c
    | none => { c with ready := rest }.beginWait task

def settleWithin : Nat → Cluster → Cluster
  | 0, c => c
  | turns + 1, c => if c.ready.isEmpty then c else settleWithin turns c.turn

/-- The most turns of one settling. Without this limit engines whose retry interval is zero would
take turns for ever. -/
def turnLimit : Nat := 1000000

def settle (c : Cluster) : Cluster := c.settleWithin turnLimit

def waitsUntil (c : Cluster) (time : Nat) : List (Nat × Nat × Nat) :=
  c.tasks.entries.filterMap fun (number, task) =>
    match task.job.deadline? with
    | some deadline =>
      if deadline ≤ time then some (deadline, task.waitingSince.getD number, number) else none
    | none => none

def firstDeadline (waits : List (Nat × Nat × Nat)) : Option Nat :=
  (waits.map (·.1)).min?

def expire (c : Cluster) (time : Nat) : Cluster :=
  let due := (c.waitsUntil time).mergeSort fun a b => a.2.1 ≤ b.2.1
  due.foldl (fun c (_, _, task) => c.wake task) { c with clock := time }

def advanceWithin : Nat → Nat → Cluster → Cluster
  | 0, target, c => { c with clock := target }
  | bound + 1, target, c =>
    match firstDeadline (c.waitsUntil target) with
    | none => { c with clock := target }
    | some deadline => advanceWithin bound target (c.expire (max c.clock deadline)).settle

/-- Lets time pass: waits end in the order of their deadlines, and after each deadline everything
settles. Each deadline is a millisecond of its own, so there are no more of them than time. -/
def advance (c : Cluster) (duration : Nat) : Cluster :=
  advanceWithin (duration + 1) (c.clock + duration) c

end AtomicCommit.Cluster
