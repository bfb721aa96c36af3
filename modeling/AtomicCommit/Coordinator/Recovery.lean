import AtomicCommit.Coordinator.Engine
import AtomicCommit.Inboxes
import AtomicCommit.Log.Trace

/-! Recovery of the coordinator from its log, before it admits transactions. A logged decision
stands; without one a transaction is aborted, and an artifact that was published just before the
crash is retracted first. -/

namespace AtomicCommit.Coordinator

structure RecoveryReport where
  resumed : List String := []
  aborted : List String := []
  completed : Nat := 0
  deriving DecidableEq, Repr

def RecoveryReport.text (report : RecoveryReport) : String :=
  toString report.resumed.length ++ " resumed, " ++ toString report.aborted.length ++
    " aborted, " ++ toString report.completed ++ " completed"

/-- What a log says about one transaction; of several records of a kind the last counts. -/
structure Trace where
  sources : Option (List Source) := none
  decision : Option Outcome := none
  isDone : Bool := false
  deriving DecidableEq, Repr

def Trace.note (trace : Trace) : Entry → Trace
  | .prepare _ sources => { trace with sources := some sources }
  | .decision _ outcome => { trace with decision := some outcome }
  | .done _ => { trace with isDone := true }

def traces (entries : List Entry) : List (String × Trace) := Log.traces Trace.note {} entries

inductive Plan where
  | completed
  | forgotten
  | resume (sources : List Source) (outcome : Outcome)
  | forceAbort (sources : List Source)
  deriving DecidableEq, Repr

def Trace.plan (trace : Trace) : Plan :=
  if trace.isDone then .completed
  else match trace.sources, trace.decision with
    | none, _ => .forgotten
    | some sources, some outcome => .resume sources outcome
    | some sources, none => .forceAbort sources

/-- An engine that goes on with a logged decision. -/
structure Resumed where
  inbox : Nat
  transaction : Transaction
  outcome : Outcome
  deriving DecidableEq, Repr

structure Recovering (σ : Type) where
  storage : σ
  inboxes : Inboxes Envelope
  engines : List Resumed := []
  report : RecoveryReport := {}

variable {σ : Type}

def Recovering.takeUp (txn : String) (sources : List Source) (outcome : Outcome)
    (r : Recovering σ) : Except CoordinatorError Unit × Recovering σ :=
  match r.inboxes.create txn with
  | none => (.error (.duplicate txn), r)
  | some (inbox, inboxes) =>
    (.ok (), { r with
      inboxes := inboxes
      engines := r.engines ++ [⟨inbox, ⟨txn, [], sources⟩, outcome⟩] })

variable [Journal σ Entry] [Publishing σ]

def forceAbort (txn : String) (storage : σ) : Except CoordinatorError Unit × σ :=
  match Publishing.retract txn storage with
  | (.error e, storage) => (.error (.publish txn e), storage)
  | (.ok (), storage) =>
    match Journal.append (.decision txn .abort) storage with
    | (.error e, storage) => (.error (.log e), storage)
    | (.ok (), storage) => (.ok (), storage)

def Recovering.follow (txn : String) (plan : Plan) (r : Recovering σ) :
    Except CoordinatorError Unit × Recovering σ :=
  match plan with
  | .completed => (.ok (), { r with report.completed := r.report.completed + 1 })
  | .forgotten => (.ok (), r)
  | .resume sources outcome =>
    { r with report.resumed := r.report.resumed ++ [txn] }.takeUp txn sources outcome
  | .forceAbort sources =>
    match forceAbort txn r.storage with
    | (.error e, storage) => (.error e, { r with storage := storage })
    | (.ok (), storage) =>
      { r with storage := storage, report.aborted := r.report.aborted ++ [txn] }.takeUp txn
        sources .abort

def followAll : List (String × Trace) → Recovering σ →
    Except CoordinatorError Unit × Recovering σ
  | [], r => (.ok (), r)
  | (txn, trace) :: rest, r =>
    match r.follow txn trace.plan with
    | (.error e, r) => (.error e, r)
    | (.ok (), r) => followAll rest r

/-- Goes through the log in the order of the transactions' first records. After a failure half way
the engines taken up before it are there. -/
def recover (config : Config) (inboxes : Inboxes Envelope) (storage : σ) :
    Except CoordinatorError Unit × Recovering σ :=
  match Journal.records storage with
  | .error e => (.error (.log e), { storage, inboxes })
  | .ok entries =>
    let kept := Log.unfinished entries
    match if config.compactOnRecovery then Journal.compact kept storage else (.ok (), storage) with
    | (.error e, storage) => (.error (.log e), { storage, inboxes })
    | (.ok (), storage) => followAll (traces entries) { storage, inboxes }

end AtomicCommit.Coordinator
