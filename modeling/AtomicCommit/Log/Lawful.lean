import AtomicCommit.Coordinator.Publisher
import AtomicCommit.Log.Journal
import AtomicCommit.Participant.Store

/-! What is expected of storages. Every operation may fail at any time; what an operation that failed
has left behind is part of the laws. -/

namespace AtomicCommit

/-- A log holds records, and a replay that succeeds yields just these. An append that fails changes
nothing. A compaction that fails has left the old records or the new ones. -/
class LawfulJournal (σ : Type) (ρ : outParam Type) [Journal σ ρ] where
  held : σ → List ρ
  records_ok {s : σ} {records : List ρ} : Journal.records s = .ok records → records = held s
  append_ok {record : ρ} {s s' : σ} :
    Journal.append record s = (.ok (), s') → held s' = held s ++ [record]
  append_error {record : ρ} {s s' : σ} {e : LogError} :
    Journal.append record s = (.error e, s') → held s' = held s
  compact_ok {records : List ρ} {s s' : σ} :
    Journal.compact records s = (.ok (), s') → held s' = records
  compact_error {records : List ρ} {s s' : σ} {e : LogError} :
    Journal.compact records s = (.error e, s') → held s' = held s ∨ held s' = records

export LawfulJournal (held)

/-- Artifacts are kept apart from the log. That is an assumption about the place of the log: when it lies
in the publish directory, as it may by default, an artifact that bears its name replaces it. -/
class LawfulPublishing (σ : Type) (ρ : outParam Type) [Journal σ ρ] [LawfulJournal σ ρ]
    [Publishing σ] : Prop where
  held_publish (name : String) (payload : Bytes) (s : σ) :
    held (Publishing.publish name payload s).2 = held s
  held_retract (name : String) (s : σ) : held (Publishing.retract name s).2 = held s

/-- Resources are kept apart from the log. That is an assumption about its place, too: when it lies among
the resources, the deletion of one that bears its name takes it away. -/
class LawfulStore (σ : Type) (ρ : outParam Type) [Journal σ ρ] [LawfulJournal σ ρ]
    [ResourceStore σ] : Prop where
  held_delete (name : String) (s : σ) : held (ResourceStore.delete name s).2 = held s

end AtomicCommit
