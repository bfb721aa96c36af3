import AtomicCommit.Log.Faulty
import AtomicCommit.Proofs.Artifacts
import AtomicCommit.Proofs.Coordinator.Completion
import AtomicCommit.Proofs.Coordinator.Storages

/-! Storages in which publications and retractions may fail for any reason, before they have changed
anything or behind that, but not half. What an engine or a recovery has made of the artifacts can be told
from the deeds it has noted. -/

namespace AtomicCommit.Coordinator

/-- A storage with a publish directory. It is assumed that the log lies elsewhere, or that no artifact has
its name or that of a compaction's new file. -/
class HasShelf (σ : Type) (ρ : outParam Type) [Journal σ ρ] [Publishing σ] where
  shelf : σ → Publisher
  shelf_append (record : ρ) (s : σ) : shelf (Journal.append record s).2 = shelf s
  shelf_compact (records : List ρ) (s : σ) : shelf (Journal.compact records s).2 = shelf s
  artifact_eq (name : String) (s : σ) : Publishing.artifact? name s = (shelf s).artifact? name
  publish_shelves (name : String) (payload : Bytes) (s : σ) : (shelf s).disk.Sound →
    (shelf s).Shelves (Deed.noted (.published name payload : Deed ρ) (.stranded name payload)
        ((shelf (Publishing.publish name payload s).2).artifact? name ≠ (shelf s).artifact? name)
        (Publishing.publish name payload s).1) (shelf (Publishing.publish name payload s).2)
  retract_shelves (name : String) (s : σ) : (shelf s).disk.Sound →
    (shelf s).Shelves (Deed.noted (.retracted name : Deed ρ) (.retracted name)
        ((shelf (Publishing.retract name s).2).artifact? name ≠ (shelf s).artifact? name)
        (Publishing.retract name s).1) (shelf (Publishing.retract name s).2)

export HasShelf (shelf)

instance {σ ρ : Type} [Journal σ ρ] [Publishing σ] [HasPublisher σ ρ] : HasShelf σ ρ where
  shelf := publisher
  shelf_append := HasPublisher.publisher_append
  shelf_compact := HasPublisher.publisher_compact
  artifact_eq := HasPublisher.artifact_eq
  publish_shelves name payload s sound := by
    have shelves := (publisher s).publish_shelves sound name payload (ρ := ρ)
    rwa [← HasPublisher.publish_eq name payload s] at shelves
  retract_shelves name s sound := by
    have shelves := (publisher s).retract_shelves sound name (ρ := ρ)
    rwa [← HasPublisher.retract_eq name s] at shelves

instance {σ ρ : Type} [Journal σ ρ] [Publishing σ] [HasShelf σ ρ] : HasShelf (Faulty σ) ρ where
  shelf s := shelf s.storage
  shelf_append record s := by
    rcases s.attempt_cases LogError.appendRefused (Journal.append record) with ⟨_, same⟩ | ⟨_, done⟩
    · exact congrArg shelf same
    · exact (congrArg shelf done).trans (HasShelf.shelf_append record s.storage)
  shelf_compact records s := by
    rcases s.attempt_cases LogError.appendRefused (Journal.compact records)
      with ⟨_, same⟩ | ⟨_, done⟩
    · exact congrArg shelf same
    · exact (congrArg shelf done).trans (HasShelf.shelf_compact records s.storage)
  artifact_eq name s := HasShelf.artifact_eq name s.storage
  publish_shelves name payload s sound := by
    rcases s.attempt_cases FileError.notDirectory (Publishing.publish name payload)
      with ⟨failed, same⟩ | ⟨result, done⟩
    · simpa [Publishing.publish, failed, same, Deed.noted] using
        Publisher.Shelves.nothing (ρ := ρ) sound
    · simpa only [Publishing.publish, result, done] using
        HasShelf.publish_shelves name payload s.storage sound
  retract_shelves name s sound := by
    rcases s.attempt_cases FileError.notDirectory (Publishing.retract name)
      with ⟨failed, same⟩ | ⟨result, done⟩
    · simpa [Publishing.retract, failed, same, Deed.noted] using
        Publisher.Shelves.nothing (ρ := ρ) sound
    · simpa only [Publishing.retract, result, done] using
        HasShelf.retract_shelves name s.storage sound

section Recorded

variable {σ : Type} [Journal σ Entry] [Publishing σ] [HasShelf σ Entry]

def Shelved (s after : Recorded σ Entry) : Prop :=
  ∃ deeds, after.deeds = s.deeds ++ deeds ∧ ((shelf s.storage).disk.Sound →
    (shelf s.storage).Shelves deeds (shelf after.storage))

theorem Shelved.log {s : Recorded σ Entry} {ε : Type} {deed : Deed Entry}
    {result : Except ε Unit × σ} (other : ∀ name former, Deed.shelve name former deed = former)
    (same : shelf result.2 = shelf s.storage) : Shelved s (s.note deed result).2 := by
  rcases result with ⟨e | ⟨⟨⟩⟩, after⟩ <;> replace same : shelf after = shelf s.storage := same
  · refine ⟨[], by simp [Recorded.note], fun sound => ?_⟩
    simpa only [Recorded.note, same] using Publisher.Shelves.nothing sound
  · refine ⟨[deed], rfl, fun sound => ?_⟩
    simp only [Recorded.note, same]
    exact ⟨rfl, rfl, sound, fun name _ => (other name _).symm⟩

theorem shelved_pervasive : Pervasive (Shelved (σ := σ)) where
  refl s := ⟨[], by simp, .nothing⟩
  trans := by
    rintro s between after ⟨first, noted, shelves⟩ ⟨second, notedToo, shelvesToo⟩
    refine ⟨first ++ second, by rw [notedToo, noted, List.append_assoc], fun sound => ?_⟩
    exact (shelves sound).trans (shelvesToo (shelves sound).sound)
  append entry s := .log (fun _ _ => rfl) (HasShelf.shelf_append entry s.storage)
  compact entries s := .log (fun _ _ => rfl) (HasShelf.shelf_compact entries s.storage)
  publish name payload s := by
    refine ⟨_, rfl, ?_⟩
    simp only [HasShelf.artifact_eq]
    exact HasShelf.publish_shelves name payload s.storage
  retract name s := by
    refine ⟨_, rfl, ?_⟩
    simp only [HasShelf.artifact_eq]
    exact HasShelf.retract_shelves name s.storage

theorem Shelved.of_nothing {storage : σ} {after : Recorded σ Entry}
    (shelved : Shelved ⟨storage, []⟩ after) (sound : (shelf storage).disk.Sound) :
    (shelf storage).Shelves after.deeds (shelf after.storage) := by
  obtain ⟨deeds, noted, shelves⟩ := shelved
  rw [noted]
  exact shelves sound

theorem step_shelves {config : Config} {now : Nat} {t : Transaction} {stage : Stage}
    {queue : List Envelope} {storage : σ} {progress : Progress (Recorded σ Entry)}
    (sound : (shelf storage).disk.Sound)
    (stepped : step config now t stage queue ⟨storage, []⟩ = some progress) :
    (shelf storage).Shelves progress.storage.deeds (shelf progress.storage.storage) :=
  (shelved_pervasive.step stepped).of_nothing sound

theorem recover_shelves {storage : σ} (sound : (shelf storage).disk.Sound) (config : Config) :
    (shelf storage).Shelves
      (recover config {} (⟨storage, []⟩ : Recorded σ Entry)).2.storage.deeds
      (shelf (recover config {} (⟨storage, []⟩ : Recorded σ Entry)).2.storage.storage) :=
  (shelved_pervasive.recover config {} ⟨storage, []⟩).of_nothing sound

end Recorded

end AtomicCommit.Coordinator
