import AtomicCommit.Log.Lawful

/-! A storage whose operations fail when it is settled beforehand that they do. An operation that
fails like this leaves the storage below as it was, and so does an actor that goes down just before
it. -/

namespace AtomicCommit

/-- Each operation takes one entry of `failures`; when none is left, only the storage itself fails. -/
structure Faulty (σ : Type) where
  storage : σ
  failures : List Bool := []
  deriving DecidableEq, Repr

namespace Faulty

variable {σ ρ ε : Type}

def attempt (s : Faulty σ) (fault : ε) (operation : σ → Except ε Unit × σ) :
    Except ε Unit × Faulty σ :=
  if s.failures.head? = some true then (.error fault, { s with failures := s.failures.tail })
  else ((operation s.storage).1, ⟨(operation s.storage).2, s.failures.tail⟩)

instance [Journal σ ρ] : Journal (Faulty σ) ρ where
  append record s := s.attempt .appendRefused (Journal.append record)
  replay s := Journal.replay s.storage
  compact records s := s.attempt .appendRefused (Journal.compact records)

instance [Publishing σ] : Publishing (Faulty σ) where
  artifact? name s := Publishing.artifact? name s.storage
  publish name payload s := s.attempt .notDirectory (Publishing.publish name payload)
  retract name s := s.attempt .notDirectory (Publishing.retract name)

instance [ResourceStore σ] : ResourceStore (Faulty σ) where
  holds name s := ResourceStore.holds name s.storage
  delete name s := s.attempt .notDirectory (ResourceStore.delete name)

theorem attempt_cases (s : Faulty σ) (fault : ε) (operation : σ → Except ε Unit × σ) :
    ((s.attempt fault operation).1 = .error fault ∧
        (s.attempt fault operation).2.storage = s.storage) ∨
      (s.attempt fault operation).1 = (operation s.storage).1 ∧
        (s.attempt fault operation).2.storage = (operation s.storage).2 := by
  rw [attempt]
  split <;> simp

theorem attempt_ok {s after : Faulty σ} {fault : ε} {operation : σ → Except ε Unit × σ}
    (succeeded : s.attempt fault operation = (.ok (), after)) :
    operation s.storage = (.ok (), after.storage) := by
  rcases s.attempt_cases fault operation with ⟨failed, _⟩ | ⟨result, storage⟩
  · simp [succeeded] at failed
  · rw [succeeded] at result storage
    exact Prod.ext result.symm storage.symm

theorem attempt_error {s after : Faulty σ} {fault e : ε} {operation : σ → Except ε Unit × σ}
    (failed : s.attempt fault operation = (.error e, after)) :
    after.storage = s.storage ∨ operation s.storage = (.error e, after.storage) := by
  rcases s.attempt_cases fault operation with ⟨_, storage⟩ | ⟨result, storage⟩
  · rw [failed] at storage
    exact .inl storage
  · rw [failed] at result storage
    exact .inr (Prod.ext result.symm storage.symm)

instance [Journal σ ρ] [LawfulJournal σ ρ] : LawfulJournal (Faulty σ) ρ where
  held s := held s.storage
  records_ok found := LawfulJournal.records_ok (σ := σ) found
  append_ok appended := LawfulJournal.append_ok (attempt_ok appended)
  append_error failed := (attempt_error failed).elim (congrArg held) LawfulJournal.append_error
  compact_ok compacted := LawfulJournal.compact_ok (attempt_ok compacted)
  compact_error failed := (attempt_error failed).elim (fun same => .inl (congrArg held same))
    LawfulJournal.compact_error

variable [Journal σ ρ] [LawfulJournal σ ρ]

theorem held_attempt {s : Faulty σ} {fault : ε} {operation : σ → Except ε Unit × σ}
    (kept : held (operation s.storage).2 = held s.storage) :
    held (s.attempt fault operation).2.storage = held s.storage := by
  rcases s.attempt_cases fault operation with ⟨_, storage⟩ | ⟨_, storage⟩
  · rw [storage]
  · rw [storage, kept]

instance [Publishing σ] [LawfulPublishing σ ρ] : LawfulPublishing (Faulty σ) ρ where
  held_publish name payload s := held_attempt (LawfulPublishing.held_publish name payload s.storage)
  held_retract name s := held_attempt (LawfulPublishing.held_retract name s.storage)

instance [ResourceStore σ] [LawfulStore σ ρ] : LawfulStore (Faulty σ) ρ where
  held_delete name s := held_attempt (LawfulStore.held_delete name s.storage)

end Faulty

end AtomicCommit
