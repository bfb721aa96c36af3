import AtomicCommit.Log.Journal

/-! A log kept in memory as lines. It can be told to refuse appends. -/

namespace AtomicCommit

structure MemoryLog where
  lines : List String := []
  refusing : Bool := false
  deriving DecidableEq, Repr

namespace MemoryLog

variable {ρ : Type} [Record ρ]

def append (record : ρ) (log : MemoryLog) : Except LogError Unit × MemoryLog :=
  if log.refusing then (.error .appendRefused, log)
  else (.ok (), { log with lines := log.lines ++ [Log.line record] })

def replay (log : MemoryLog) : Log.Replay ρ := .ofLines (log.lines.map .ok)

def compact (records : List ρ) (log : MemoryLog) : MemoryLog :=
  { log with lines := records.map Log.line }

end MemoryLog

end AtomicCommit
