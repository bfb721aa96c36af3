import AtomicCommit.Log.File
import AtomicCommit.Log.Memory

/-! The log of an actor: in memory, or in a file that every start of the actor opens anew. -/

namespace AtomicCommit

structure LogMedium where
  memory : MemoryLog := {}
  disk : Disk := {}
  inFile : Bool := false
  deriving DecidableEq, Repr

inductive LogHandle where
  | memory
  | file (log : FileLog)
  deriving DecidableEq, Repr

structure ActorLog where
  medium : LogMedium
  handle : LogHandle
  deriving DecidableEq, Repr

namespace LogMedium

def filePath : Path := [FileLog.defaultName]

def openLog (ρ : Type) [Record ρ] (medium : LogMedium) : Except LogError LogHandle × LogMedium :=
  if medium.inFile then
    let (opened, disk) := FileLog.openAt ρ filePath medium.disk
    (opened.map .file, { medium with disk := disk })
  else (.ok .memory, medium)

def refuseAppends (medium : LogMedium) (refusing : Bool) : LogMedium :=
  { medium with memory := { medium.memory with refusing := refusing } }

def content (medium : LogMedium) : Bytes :=
  match medium.disk.read filePath with
  | .ok bytes => bytes
  | .error _ => []

end LogMedium

namespace ActorLog

variable {ρ : Type} [Record ρ]

def append (record : ρ) (log : ActorLog) : Except LogError Unit × ActorLog :=
  match log.handle with
  | .memory =>
    let (result, memory) := log.medium.memory.append record
    (result, { log with medium := { log.medium with memory := memory } })
  | .file file =>
    let (file, disk) := file.append record log.medium.disk
    (.ok (), ⟨{ log.medium with disk := disk }, .file file⟩)

def replay (log : ActorLog) : Except LogError (Log.Replay ρ) :=
  match log.handle with
  | .memory => .ok log.medium.memory.replay
  | .file file => file.replay log.medium.disk

def compact (records : List ρ) (log : ActorLog) : Except LogError Unit × ActorLog :=
  match log.handle with
  | .memory =>
    (.ok (), { log with medium := { log.medium with memory := log.medium.memory.compact records } })
  | .file file =>
    let (result, file, disk) := file.compact records log.medium.disk
    (result, ⟨{ log.medium with disk := disk }, .file file⟩)

end ActorLog

end AtomicCommit
