import AtomicCommit.Log.Actor
import AtomicCommit.Participant.Oracle
import AtomicCommit.Participant.Recovery

/-! The storage of a participant that runs: its log and its directory of resources. -/

namespace AtomicCommit.Participant

/-- The log has a disk of its own here: it is assumed not to lie among the resources. -/
structure Storage where
  log : ActorLog
  store : DirectoryStore
  deriving DecidableEq, Repr

namespace Storage

def append (entry : Entry) (s : Storage) : Except LogError Unit × Storage :=
  let (result, log) := s.log.append entry
  (result, { s with log := log })

def compact (entries : List Entry) (s : Storage) : Except LogError Unit × Storage :=
  let (result, log) := s.log.compact entries
  (result, { s with log := log })

instance : Journal Storage Entry := ⟨append, fun s => s.log.replay, compact⟩

def delete (name : String) (s : Storage) : Except FileError Unit × Storage :=
  let (result, store) := s.store.delete name
  (result, { s with store := store })

instance : ResourceStore Storage := ⟨fun name s => s.store.holds name, delete⟩

end Storage

end AtomicCommit.Participant
