import AtomicCommit.Log.Trace
import AtomicCommit.Participant.Voting

/-! Recovery of a participant from its log, before it takes any message. -/

namespace AtomicCommit.Participant

structure Config where
  compactOnRecovery : Bool := true
  idleTimeout : Nat := 30000
  deriving DecidableEq, Repr

structure RecoveryReport where
  pending : Nat := 0
  reapplied : Nat := 0
  completed : Nat := 0
  deriving DecidableEq, Repr

def RecoveryReport.text (report : RecoveryReport) : String :=
  toString report.pending ++ " pending, " ++ toString report.reapplied ++ " re-applied, " ++
    toString report.completed ++ " completed"

structure Trace where
  vote : Option (List String × Vote) := none
  decision : Option Outcome := none
  isDone : Bool := false
  deriving DecidableEq, Repr

def Trace.note (trace : Trace) : Entry → Trace
  | .prepare _ resources vote => { trace with vote := some (resources, vote) }
  | .decision _ outcome => { trace with decision := some outcome }
  | .done _ => { trace with isDone := true }

def traces (entries : List Entry) : List (String × Trace) := Log.traces Trace.note {} entries

/-- What a compaction keeps: all of an unfinished transaction, and of a finished one its vote and
its end, which is all that a late duplicate needs. -/
def compacted (entries : List Entry) : List Entry :=
  entries.filter fun entry => !(Log.isFinished entries entry.txn && entry.isDecision)

def Memory.restore (memory : Memory) (txn : String) (trace : Trace) : Memory :=
  if trace.isDone then memory.resolve txn (trace.vote.map (·.2))
  else match trace.vote with
    | none => memory
    | some (resources, vote) =>
      let locks := if vote.isAccept then (memory.locks.lockAll txn resources).2 else memory.locks
      { memory with locks := locks }.await txn ⟨resources, vote, trace.decision⟩

/-- The decisions to apply again; without a pending vote there is nothing to apply but the end. -/
def toReapply : List (String × Trace) → List (String × Option Pending)
  | [] => []
  | (txn, trace) :: rest =>
    if trace.isDone then toReapply rest
    else match trace.vote, trace.decision with
      | none, _ => (txn, none) :: toReapply rest
      | some (resources, vote), some outcome =>
        (txn, some ⟨resources, vote, some outcome⟩) :: toReapply rest
      | some _, none => toReapply rest

variable {σ : Type} [Journal σ Entry]

def compactLog (config : Config) (entries : List Entry) (p : Participant σ) :
    Except ParticipantError Unit × Participant σ :=
  if config.compactOnRecovery then
    match Journal.compact (compacted entries) p.storage with
    | (.ok (), storage) => (.ok (), { p with storage := storage })
    | (.error e, storage) => (.error (.log e), { p with storage := storage })
  else (.ok (), p)

variable [ResourceStore σ]

def reapply : List (String × Option Pending) → Participant σ →
    Except ParticipantError Unit × Participant σ
  | [], p => (.ok (), p)
  | (txn, some pending) :: rest, p =>
    match p.finish txn pending with
    | (.error e, p) => (.error e, p)
    | (.ok (), p) => reapply rest p
  | (txn, none) :: rest, p =>
    match p.append (.done txn) with
    | (.error e, p) => (.error e, p)
    | (.ok (), p) => reapply rest (p.setResolved txn none)

def report (traces : List (String × Trace)) : RecoveryReport :=
  { pending := traces.countP fun (_, trace) =>
      !trace.isDone && trace.vote.isSome && trace.decision.isNone
    reapplied := (toReapply traces).length
    completed := traces.countP fun (_, trace) => trace.isDone }

def recover (config : Config) (p : Participant σ) :
    Except ParticipantError RecoveryReport × Participant σ :=
  match Journal.records p.storage with
  | .error e => (.error (.log e), p)
  | .ok entries =>
    match p.compactLog config entries with
    | (.error e, p) => (.error e, p)
    | (.ok (), p) =>
      let found := traces entries
      let memory := found.foldl (fun memory (txn, trace) => memory.restore txn trace) p.memory
      match reapply (toReapply found) { p with memory := memory } with
      | (.error e, p) => (.error e, p)
      | (.ok (), p) => (.ok (report found), p)

end AtomicCommit.Participant
