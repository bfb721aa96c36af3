import AtomicCommit.Log.Lawful

/-! Deeds: what an actor has done to its storage, in order. A recorded storage works like the one it
wraps and notes each change that has been made, also one that is said to have failed. -/

namespace AtomicCommit

inductive Deed (ρ : Type) where
  | appended (record : ρ)
  | compacted (records : List ρ)
  | published (name : String) (payload : Bytes)
  /-- The publication is said to have failed, but the artifact is there. -/
  | stranded (name : String) (payload : Bytes)
  | retracted (name : String)
  | deleted (resource : String)
  deriving DecidableEq, Repr

def Deed.record? {ρ : Type} : Deed ρ → Option ρ
  | .appended record => some record
  | _ => none

namespace Deed

variable {ρ : Type}

@[simp] theorem record?_appended (record : ρ) : (appended record).record? = some record := rfl

@[simp] theorem record?_compacted (records : List ρ) : (compacted records).record? = none := rfl

@[simp] theorem record?_published (name : String) (payload : Bytes) :
    (published name payload : Deed ρ).record? = none := rfl

@[simp] theorem record?_stranded (name : String) (payload : Bytes) :
    (stranded name payload : Deed ρ).record? = none := rfl

@[simp] theorem record?_retracted (name : String) : (retracted name : Deed ρ).record? = none := rfl

@[simp] theorem record?_deleted (name : String) : (deleted name : Deed ρ).record? = none := rfl

def records (deeds : List (Deed ρ)) : List ρ := deeds.filterMap record?

@[simp] theorem records_nil : records ([] : List (Deed ρ)) = [] := rfl

@[simp] theorem records_cons (deed : Deed ρ) (deeds : List (Deed ρ)) :
    records (deed :: deeds) = deed.record?.toList ++ records deeds := by
  cases deed <;> rfl

@[simp] theorem records_deleted (gone : List String) :
    records (gone.map (deleted (ρ := ρ))) = [] :=
  List.filterMap_eq_nil_iff.mpr fun deed member => by
    obtain ⟨resource, _, rfl⟩ := List.mem_map.mp member
    rfl

@[simp] theorem records_append (deeds others : List (Deed ρ)) :
    records (deeds ++ others) = records deeds ++ records others :=
  List.filterMap_append ..

theorem mem_records {record : ρ} {deeds : List (Deed ρ)} :
    record ∈ records deeds ↔ .appended record ∈ deeds := by
  rw [records, List.mem_filterMap]
  constructor
  · rintro ⟨deed, member, found⟩
    cases deed <;> cases found
    exact member
  · exact fun member => ⟨_, member, rfl⟩

/-- What is noted of an operation with this result. One that has failed is noted, too, if what it is
about has changed by then. -/
def noted (deed failed : Deed ρ) (changed : Bool) : Except FileError Unit → List (Deed ρ)
  | .ok () => [deed]
  | .error _ => if changed then [failed] else []

end Deed

structure Recorded (σ ρ : Type) where
  storage : σ
  deeds : List (Deed ρ) := []

namespace Recorded

variable {σ ρ : Type}

def note {ε : Type} (deed : Deed ρ) (r : Recorded σ ρ) (result : Except ε Unit × σ) :
    Except ε Unit × Recorded σ ρ :=
  match result with
  | (.ok (), s) => (.ok (), ⟨s, r.deeds ++ [deed]⟩)
  | (.error e, s) => (.error e, ⟨s, r.deeds⟩)

def noteChange (deed failed : Deed ρ) (changed : σ → Bool) (r : Recorded σ ρ)
    (result : Except FileError Unit × σ) : Except FileError Unit × Recorded σ ρ :=
  (result.1, ⟨result.2, r.deeds ++ Deed.noted deed failed (changed result.2) result.1⟩)

instance [Journal σ ρ] : Journal (Recorded σ ρ) ρ where
  append record r := r.note (.appended record) (Journal.append record r.storage)
  replay r := Journal.replay r.storage
  compact records r := r.note (.compacted records) (Journal.compact records r.storage)

instance [Publishing σ] : Publishing (Recorded σ ρ) where
  artifact? name r := Publishing.artifact? name r.storage
  publish name payload r :=
    r.noteChange (.published name payload) (.stranded name payload)
      (fun s => Publishing.artifact? name s ≠ Publishing.artifact? name r.storage)
      (Publishing.publish name payload r.storage)
  retract name r :=
    r.noteChange (.retracted name) (.retracted name)
      (fun s => Publishing.artifact? name s ≠ Publishing.artifact? name r.storage)
      (Publishing.retract name r.storage)

instance [ResourceStore σ] : ResourceStore (Recorded σ ρ) where
  holds name r := ResourceStore.holds name r.storage
  delete name r :=
    r.noteChange (.deleted name) (.deleted name)
      (fun s => ResourceStore.holds name s ≠ ResourceStore.holds name r.storage)
      (ResourceStore.delete name r.storage)

section Laws

variable [Journal σ ρ] [LawfulJournal σ ρ]

theorem append_cases (record : ρ) (r : Recorded σ ρ) :
    (∃ s, Journal.append record r = (.ok (), ⟨s, r.deeds ++ [.appended record]⟩) ∧
        held s = held r.storage ++ [record]) ∨
      ∃ e s, Journal.append record r = (.error e, ⟨s, r.deeds⟩) ∧ held s = held r.storage := by
  rcases result : Journal.append record r.storage with ⟨e | ⟨⟨⟩⟩, s⟩
  · exact .inr ⟨e, s, by simp [Journal.append, note, result], LawfulJournal.append_error result⟩
  · exact .inl ⟨s, by simp [Journal.append, note, result], LawfulJournal.append_ok result⟩

theorem compact_cases (records : List ρ) (r : Recorded σ ρ) :
    (∃ s, Journal.compact records r = (.ok (), ⟨s, r.deeds ++ [.compacted records]⟩) ∧
        held s = records) ∨
      ∃ e s, Journal.compact records r = (.error e, ⟨s, r.deeds⟩) ∧
        (held s = held r.storage ∨ held s = records) := by
  rcases result : Journal.compact records r.storage with ⟨e | ⟨⟨⟩⟩, s⟩
  · exact .inr ⟨e, s, by simp [Journal.compact, note, result], LawfulJournal.compact_error result⟩
  · exact .inl ⟨s, by simp [Journal.compact, note, result], LawfulJournal.compact_ok result⟩

omit [Journal σ ρ] [LawfulJournal σ ρ] in
theorem noteChange_cases (deed failed : Deed ρ) (changed : σ → Bool) (r : Recorded σ ρ)
    (result : Except FileError Unit × σ) :
    r.noteChange deed failed changed result = (.ok (), ⟨result.2, r.deeds ++ [deed]⟩) ∨
      ∃ e, r.noteChange deed failed changed result = (.error e, ⟨result.2, r.deeds⟩) ∨
        r.noteChange deed failed changed result = (.error e, ⟨result.2, r.deeds ++ [failed]⟩) := by
  rcases result with ⟨e | ⟨⟨⟩⟩, s⟩
  · refine .inr ⟨e, ?_⟩
    cases moved : changed s <;> simp [noteChange, Deed.noted, moved]
  · exact .inl rfl

theorem publish_cases [Publishing σ] [LawfulPublishing σ ρ] (name : String) (payload : Bytes)
    (r : Recorded σ ρ) :
    ∃ s, held s = held r.storage ∧
      (Publishing.publish name payload r = (.ok (), ⟨s, r.deeds ++ [.published name payload]⟩) ∨
        ∃ e, Publishing.publish name payload r = (.error e, ⟨s, r.deeds⟩) ∨
          Publishing.publish name payload r = (.error e, ⟨s, r.deeds ++ [.stranded name payload]⟩)) :=
  ⟨_, LawfulPublishing.held_publish name payload r.storage, r.noteChange_cases _ _ _ _⟩

theorem retract_cases [Publishing σ] [LawfulPublishing σ ρ] (name : String) (r : Recorded σ ρ) :
    ∃ s, held s = held r.storage ∧
      (Publishing.retract name r = (.ok (), ⟨s, r.deeds ++ [.retracted name]⟩) ∨
        ∃ e, Publishing.retract name r = (.error e, ⟨s, r.deeds⟩) ∨
          Publishing.retract name r = (.error e, ⟨s, r.deeds ++ [.retracted name]⟩)) :=
  ⟨_, LawfulPublishing.held_retract name r.storage, r.noteChange_cases _ _ _ _⟩

theorem delete_cases [ResourceStore σ] [LawfulStore σ ρ] (name : String) (r : Recorded σ ρ) :
    ∃ s, held s = held r.storage ∧
      (ResourceStore.delete name r = (.ok (), ⟨s, r.deeds ++ [.deleted name]⟩) ∨
        ∃ e, ResourceStore.delete name r = (.error e, ⟨s, r.deeds⟩) ∨
          ResourceStore.delete name r = (.error e, ⟨s, r.deeds ++ [.deleted name]⟩)) :=
  ⟨_, LawfulStore.held_delete name r.storage, r.noteChange_cases _ _ _ _⟩

/-- From one storage to another with these deeds in between. The log grows by their records. -/
structure Does (s s' : Recorded σ ρ) (deeds : List (Deed ρ)) : Prop where
  noted : s'.deeds = s.deeds ++ deeds
  log : held s'.storage = held s.storage ++ Deed.records deeds

namespace Does

variable {s s' s'' : Recorded σ ρ} {deeds others : List (Deed ρ)}

theorem nothing (s : Recorded σ ρ) : Does s s [] := ⟨by simp, by simp⟩

theorem trans (first : Does s s' deeds) (second : Does s' s'' others) :
    Does s s'' (deeds ++ others) :=
  ⟨by rw [second.noted, first.noted, List.append_assoc],
    by rw [second.log, first.log, Deed.records_append, List.append_assoc]⟩

end Does

theorem records_held {r : Recorded σ ρ} {records : List ρ}
    (found : Journal.records r = .ok records) : records = held r.storage :=
  LawfulJournal.records_ok (s := r.storage) found

end Laws

end Recorded

end AtomicCommit
