import AtomicCommit.Log.Faulty
import AtomicCommit.Log.Ledger
import AtomicCommit.Participant.Site
import AtomicCommit.Proofs.Artifacts
import AtomicCommit.Proofs.Participant.Run
import AtomicCommit.Proofs.Participant.Storages

/-! The resources of a participant go away by its deletions and by nothing else that it does. A deletion
that fails has taken away its resource or nothing. -/

namespace AtomicCommit

section Directories

namespace Disk

variable {disk after : Disk}

theorem find_remove {gone : Path} (removed : disk.remove gone = .ok after) {path : Path}
    (apart : ¬gone <+: path) : after.find path = disk.find path := by
  have walked : after.walk [] path = disk.walk [] path := by
    refine walk_congr [] path fun part ahead => node?_remove removed ?_
    rintro rfl
    exact apart ahead
  rw [find, find, walked]

theorem find_removed {place : Path} {name : String}
    (removed : disk.remove (place ++ [name]) = .ok after) :
    after.find (place ++ [name]) = .ok none := by
  obtain ⟨file, found, rfl⟩ := remove_eq_ok.mp removed
  have gone := node?_erase disk (child_ne_nil place name) (place ++ [name])
  rw [if_pos rfl] at gone
  rw [lookup, find] at found
  rw [find]
  split at found
  next => cases found
  next => cases found
  next => cases found
  next number there =>
    split at there
    · cases there
    next legal =>
      have walked := walk_last (fun part ahead => (node?_remove removed ?_).symm) there
      · rw [if_neg legal, walked, List.nil_append, gone]
      · rintro rfl
        have long := ahead.length_le
        rw [List.length_append, List.length_singleton] at long
        omega

theorem isFile_remove {place : Path} {name : String}
    (removed : disk.remove (place ++ [name]) = .ok after) : after.isFile (place ++ [name]) = false := by
  rw [isFile, find_removed removed]

theorem isFile_of_notFound {path : Path} (absent : disk.remove path = .error .notFound) :
    disk.isFile path = false := by
  rw [isFile]
  split
  next file there => simp [remove, lookup, there, Except.map] at absent
  next => rfl

end Disk

theorem DirectoryStore.holds_delete {name resource : String} {store : DirectoryStore} :
    (resource ≠ name → (store.delete name).2.holds resource = store.holds resource) ∧
      ((store.delete name).2.holds name → store.holds name) ∧
      ((store.delete name).1 = .ok () → (store.delete name).2.holds name = false) := by
  rw [delete]
  split
  next plain =>
    split
    next disk removed =>
      refine ⟨fun distinct => ?_, fun there => ?_, fun _ => by simp [holds, Disk.isFile_remove removed]⟩
      · have apart : ¬store.root ++ [name] <+: store.root ++ [resource] := by
          intro ahead
          have whole := ahead.eq_of_length (by simp)
          simp only [List.append_cancel_left_eq, List.cons.injEq, and_true] at whole
          exact distinct whole.symm
        simp [holds, Disk.isFile, Disk.find_remove removed apart]
      · simp [holds, Disk.isFile_remove removed] at there
    next absent =>
      exact ⟨fun _ => rfl, id, fun _ => by simp [holds, Disk.isFile_of_notFound absent]⟩
    next => exact ⟨fun _ => rfl, id, nofun⟩
  next => exact ⟨fun _ => rfl, id, nofun⟩

namespace DirectoryStore

variable {store : DirectoryStore} {name other : String}

def Deletable (store : DirectoryStore) (name : String) : Prop :=
  isPlainName name ∧ match store.disk.find (store.root ++ [name]) with
    | .ok (some .directory) => False
    | .ok (some (.file _)) => store.disk.sync store.root = .ok ()
    | .ok none => True
    | .error e => e = .notFound

theorem delete_ok_iff : (store.delete name).1 = .ok () ↔ store.Deletable name := by
  by_cases plain : isPlainName name
  · simp only [delete, plain, if_true, Deletable, Disk.remove, Disk.lookup, true_and]
    cases store.disk.find (store.root ++ [name]) with
    | error e => cases e <;> simp [Except.map]
    | ok node =>
      cases node with
      | none => simp [Except.map]
      | some node => cases node <;> simp [Except.map, Disk.sync, Disk.access]
  · simp [delete, plain, Deletable]

theorem Deletable.delete (deletable : store.Deletable other) (name : String) :
    (store.delete name).2.Deletable other := by
  rw [DirectoryStore.delete]
  split
  next =>
    split
    next disk removed =>
      refine ⟨deletable.1, ?_⟩
      by_cases same : other = name
      · subst same
        simp only [Disk.find_removed removed]
      · have apart : ¬store.root ++ [name] <+: store.root ++ [other] := by
          intro ahead
          have whole := ahead.eq_of_length (by simp)
          exact same (by simpa using whole.symm)
        simp only [Disk.find_remove removed apart, Disk.sync_congr (Disk.remove_closed removed)]
        exact deletable.2
    next => exact deletable
    next => exact deletable
  next => exact deletable

end DirectoryStore

end Directories

/-- A deletion takes away its resource and no other. One that fails may have done so. -/
class LawfulResources (σ : Type) [ResourceStore σ] : Prop where
  holds_other {name resource : String} (s : σ) : resource ≠ name →
    ResourceStore.holds resource (ResourceStore.delete name s).2 = ResourceStore.holds resource s
  brings_nothing {name : String} {s : σ} :
    ResourceStore.holds name (ResourceStore.delete name s).2 → ResourceStore.holds name s
  takes_away {name : String} {s : σ} : (ResourceStore.delete name s).1 = .ok () →
    ResourceStore.holds name (ResourceStore.delete name s).2 = false

class LawfulHoldings (σ : Type) (ρ : outParam Type) [Journal σ ρ] [ResourceStore σ] : Prop
    extends LawfulResources σ where
  holds_append (record : ρ) (s : σ) (resource : String) :
    ResourceStore.holds resource (Journal.append record s).2 = ResourceStore.holds resource s
  holds_compact (records : List ρ) (s : σ) (resource : String) :
    ResourceStore.holds resource (Journal.compact records s).2 = ResourceStore.holds resource s

section Instances

variable {σ β ρ : Type}

theorem LawfulResources.holds_delete [ResourceStore σ] [LawfulResources σ] {name : String} {s : σ}
    (deleted : (ResourceStore.delete name s).1 = .ok ()) (resource : String) :
    ResourceStore.holds resource (ResourceStore.delete name s).2 ↔
      ResourceStore.holds resource s ∧ resource ≠ name := by
  by_cases same : resource = name
  · simp [same, LawfulResources.takes_away deleted]
  · simp [same, LawfulResources.holds_other s same]

instance : LawfulResources DirectoryStore where
  holds_other _ := DirectoryStore.holds_delete.1
  brings_nothing := (@DirectoryStore.holds_delete _ "" _).2.1
  takes_away := (@DirectoryStore.holds_delete _ "" _).2.2

instance : LawfulHoldings Participant.Storage Participant.Entry where
  holds_other s := LawfulResources.holds_other s.store
  brings_nothing {_ s} := @LawfulResources.brings_nothing _ _ _ _ s.store
  takes_away {_ s} := @LawfulResources.takes_away _ _ _ _ s.store
  holds_append _ _ _ := rfl
  holds_compact _ _ _ := rfl

instance [Journal σ ρ] [ResourceStore β] [LawfulResources β] : LawfulHoldings (Beside σ β) ρ where
  holds_other s := LawfulResources.holds_other s.other
  brings_nothing {_ s} := @LawfulResources.brings_nothing _ _ _ _ s.other
  takes_away {_ s} := @LawfulResources.takes_away _ _ _ _ s.other
  holds_append _ _ _ := rfl
  holds_compact _ _ _ := rfl

theorem Faulty.holds_attempt {ε : Type} [ResourceStore σ] {s : Faulty σ} {fault : ε}
    {operation : σ → Except ε Unit × σ} {resource : String}
    (kept : ResourceStore.holds resource (operation s.storage).2 =
      ResourceStore.holds resource s.storage) :
    ResourceStore.holds resource (s.attempt fault operation).2 = ResourceStore.holds resource s := by
  simp only [ResourceStore.holds] at kept ⊢
  rcases s.attempt_cases fault operation with ⟨_, storage⟩ | ⟨_, storage⟩
  · rw [storage]
  · rw [storage, kept]

instance [Journal σ ρ] [ResourceStore σ] [LawfulHoldings σ ρ] : LawfulHoldings (Faulty σ) ρ where
  holds_other s distinct := Faulty.holds_attempt (LawfulResources.holds_other s.storage distinct)
  brings_nothing {name s} there := by
    rcases s.attempt_cases FileError.notDirectory (ResourceStore.delete name)
      with ⟨_, same⟩ | ⟨_, done⟩
    · simpa only [ResourceStore.holds, ResourceStore.delete, same] using there
    · simp only [ResourceStore.holds, ResourceStore.delete, done] at there
      exact @LawfulResources.brings_nothing σ _ _ name s.storage there
  takes_away {name s} deleted := by
    rcases s.attempt_cases FileError.notDirectory (ResourceStore.delete name)
      with ⟨failed, _⟩ | ⟨result, done⟩
    · simp [ResourceStore.delete, failed] at deleted
    · simp only [ResourceStore.delete, result] at deleted
      simp only [ResourceStore.holds, ResourceStore.delete, done]
      exact LawfulResources.takes_away deleted
  holds_append record s resource :=
    Faulty.holds_attempt (LawfulHoldings.holds_append record s.storage resource)
  holds_compact records s resource :=
    Faulty.holds_attempt (LawfulHoldings.holds_compact records s.storage resource)

end Instances

namespace Participant

variable {τ : Type} [ResourceStore τ]

def Emptied (s after : Recorded τ Entry) : Prop :=
  ∃ deeds, after.deeds = s.deeds ++ deeds ∧ ∀ resource,
    ResourceStore.holds resource after.storage ↔
      ResourceStore.holds resource s.storage ∧ .deleted resource ∉ deeds

theorem Emptied.log {s : Recorded τ Entry} {ε : Type} {deed : Deed Entry}
    {result : Except ε Unit × τ} (other : ∀ resource, deed ≠ .deleted resource)
    (same : ∀ resource, ResourceStore.holds resource result.2 =
      ResourceStore.holds resource s.storage) : Emptied s (s.note deed result).2 := by
  rcases result with ⟨e | ⟨⟨⟩⟩, after⟩
  · exact ⟨[], by simp [Recorded.note], fun resource => by simp [Recorded.note, same]⟩
  · refine ⟨[deed], rfl, fun resource => ?_⟩
    simp [Recorded.note, same, (other resource).symm]

theorem Emptied.delete [LawfulResources τ] (name : String) (s : Recorded τ Entry) :
    Emptied s (ResourceStore.delete name s).2 := by
  refine ⟨_, rfl, fun resource => ?_⟩
  have kept := @LawfulResources.brings_nothing τ _ _ name s.storage
  have gone := @LawfulResources.takes_away τ _ _ name s.storage
  by_cases same : resource = name
  · subst same
    simp only [ResourceStore.delete, Recorded.noteChange]
    rcases result : (ResourceStore.delete resource s.storage).1 with e | ⟨⟨⟩⟩
    · cases before : ResourceStore.holds resource s.storage <;>
        cases after : ResourceStore.holds resource (ResourceStore.delete resource s.storage).2 <;>
        simp_all [Deed.noted]
    · simp [Deed.noted, gone result]
  · have none : .deleted resource ∉ Deed.noted (.deleted name : Deed Entry) (.deleted name)
        (ResourceStore.holds name (ResourceStore.delete name s.storage).2 ≠
          ResourceStore.holds name s.storage) (ResourceStore.delete name s.storage).1 := by
      rcases (ResourceStore.delete name s.storage).1 with e | ⟨⟨⟩⟩ <;>
        simp [Deed.noted, same]
    simp only [none, not_false_eq_true, and_true]
    exact Bool.eq_iff_iff.mp (LawfulResources.holds_other s.storage same)

theorem Emptied.of_nothing {storage : τ} {after : Recorded τ Entry}
    (emptied : Emptied ⟨storage, []⟩ after) (resource : String) :
    ResourceStore.holds resource after.storage ↔
      ResourceStore.holds resource storage ∧ .deleted resource ∉ after.deeds := by
  obtain ⟨deeds, noted, gone⟩ := emptied
  rw [noted]
  exact gone resource

theorem reaction_empties {storage : τ} {first : Event} {now : Incarnation} {sender : String}
    {result : Reaction × Participant (Recorded τ Entry)} (quiet : Eventful.deed? first = none)
    (emptied : Emptied ⟨storage, []⟩ result.2.storage) (resource : String) :
    ResourceStore.holds resource (Station.afterReaction now sender result).storage ↔
      ResourceStore.holds resource storage ∧
        .did (.deleted resource) ∉ [first] ++ Station.reactionEvents sender result := by
  have left := emptied.of_nothing resource
  have other : .did (.deleted resource) ≠ first := by
    rintro rfl
    cases quiet
  simpa [Station.mem_reactionEvents, Station.afterReaction, other] using left

variable [Journal τ Entry] [LawfulHoldings τ Entry]

theorem emptied_pervasive : Pervasive (Emptied (τ := τ)) where
  refl s := ⟨[], by simp, by simp⟩
  trans := by
    rintro s between after ⟨first, noted, gone⟩ ⟨second, notedToo, goneToo⟩
    refine ⟨first ++ second, by rw [notedToo, noted, List.append_assoc], fun resource => ?_⟩
    rw [goneToo, gone, List.mem_append, not_or, and_assoc]
  append entry s := .log (by simp) (LawfulHoldings.holds_append entry s.storage)
  compact entries s := .log (by simp) (LawfulHoldings.holds_compact entries s.storage)
  delete := Emptied.delete

variable [LawfulJournal τ Entry] {s s' : Station τ} {history events : List Event}

omit [LawfulHoldings τ Entry] in
theorem step_disturbs (stepped : s.Step events s') :
    events = [.disturbed] ∨ .disturbed ∉ events := by
  cases stepped with
  | disturb => exact .inl rfl
  | start | stop => exact .inr (by simp [Station.startEvents])
  | receive | answer => exact .inr (by simp [Station.mem_reactionEvents])

theorem step_empties (stepped : s.Step events s') (undisturbed : .disturbed ∉ events)
    (resource : String) : ResourceStore.holds resource s'.storage ↔
      ResourceStore.holds resource s.storage ∧ .did (.deleted resource) ∉ events := by
  cases stepped with
  | disturb => simp at undisturbed
  | start config down =>
    have emptied := (emptied_pervasive.recover config
      (⟨{}, ⟨s.storage, []⟩⟩ : Participant (Recorded τ Entry))).of_nothing resource
    simpa [Station.startEvents, Station.afterStart] using emptied
  | stop => simp
  | receive now envelope running free =>
    exact reaction_empties rfl (emptied_pervasive.react _ _) resource
  | answer now txn question approved running asked =>
    exact reaction_empties rfl (emptied_pervasive.castVote _ _ _ _) resource

theorem deleted_gone (run : Station.Run history s) {resource : String}
    (deleted : Since .disturbed history (.did (.deleted resource))) :
    ResourceStore.holds resource s.storage = false := by
  induction run with
  | begin =>
    obtain ⟨_, _, split, _⟩ := deleted
    simp at split
  | @step history events _ _ run stepped ih =>
    rw [← Bool.not_eq_true]
    intro there
    rcases deleted.cases with new | ⟨old, undisturbed⟩
    · have undisturbed : .disturbed ∉ events := (step_disturbs stepped).resolve_left fun same => by
        simp [same] at new
      exact ((step_empties stepped undisturbed resource).mp there).2 new
    · have before := ((step_empties stepped undisturbed resource).mp there).1
      simp [ih old] at before

end Participant

end AtomicCommit
