import AtomicCommit.Log.Record

/-! What an actor asks of its log. An operation that fails leaves the log readable as before. -/

namespace AtomicCommit

class Journal (σ : Type) (ρ : outParam Type) where
  /-- Once this succeeds the record is there after a crash. -/
  append : ρ → σ → Except LogError Unit × σ
  replay : σ → Except LogError (Log.Replay ρ)
  compact : List ρ → σ → Except LogError Unit × σ

def Journal.records {σ ρ : Type} [Journal σ ρ] (log : σ) : Except LogError (List ρ) := do
  (← Journal.replay log).records

end AtomicCommit
