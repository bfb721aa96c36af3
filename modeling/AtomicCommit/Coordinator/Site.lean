import AtomicCommit.Coordinator.Recovery
import AtomicCommit.Log.Actor

/-! The storage of a coordinator that runs: its log and its publish directory. -/

namespace AtomicCommit.Coordinator

/-- The log has a disk of its own here: it is assumed not to lie in the publish directory. -/
structure Storage where
  log : ActorLog
  publisher : Publisher
  deriving DecidableEq, Repr

namespace Storage

def append (entry : Entry) (s : Storage) : Except LogError Unit × Storage :=
  let (result, log) := s.log.append entry
  (result, { s with log := log })

def compact (entries : List Entry) (s : Storage) : Except LogError Unit × Storage :=
  let (result, log) := s.log.compact entries
  (result, { s with log := log })

instance : Journal Storage Entry := ⟨append, fun s => s.log.replay, compact⟩

def publish (name : String) (payload : Bytes) (s : Storage) : Except FileError Unit × Storage :=
  let (result, publisher) := s.publisher.publish name payload
  (result, { s with publisher := publisher })

def retract (name : String) (s : Storage) : Except FileError Unit × Storage :=
  let (result, publisher) := s.publisher.retract name
  (result, { s with publisher := publisher })

instance : Publishing Storage := ⟨fun name s => s.publisher.artifact? name, publish, retract⟩

end Storage

end AtomicCommit.Coordinator
