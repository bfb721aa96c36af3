import AtomicCommit.Coordinator.Publisher
import AtomicCommit.Proofs.Disks

/-! When an artifact can be retracted, and that publications and retractions leave the publish
directory a place where others can be. -/

namespace AtomicCommit

namespace Publisher

/-- The name is plain, and what bears it is at most a file, in a directory that can be synced. -/
def Retractable (publisher : Publisher) (name : String) : Prop :=
  isPlainName name ∧ match publisher.disk.find (publisher.directory ++ [name]) with
    | .ok (some .directory) => False
    | .ok (some (.file _)) => publisher.disk.sync publisher.directory = .ok ()
    | .ok none => True
    | .error e => e = .notFound

variable {publisher after : Publisher} {name other : String}

theorem retract_ok_iff : (publisher.retract name).1 = .ok () ↔ publisher.Retractable name := by
  by_cases plain : isPlainName name
  · simp only [retract, pathOf, plain, if_true, Retractable, Disk.remove, Disk.lookup, true_and]
    cases publisher.disk.find (publisher.directory ++ [name]) with
    | error e => cases e <;> simp [Except.map]
    | ok node =>
      cases node with
      | none => simp [Except.map]
      | some node => cases node <;> simp [Except.map, Disk.sync, Disk.access]
  · simp [retract, pathOf, plain, Retractable]

theorem retractable_retract (distinct : other ≠ name) :
    (publisher.retract name).2.Retractable other ↔ publisher.Retractable other := by
  simp only [retract, pathOf]
  split
  next => rfl
  next path named =>
    split
    next disk removed =>
      split at named
      · cases named
        have found : disk.find (publisher.directory ++ [other]) =
            publisher.disk.find (publisher.directory ++ [other]) := by
          simp only [Disk.find]
          rw [Disk.walk_congr]
          intro part ahead
          refine Disk.node?_remove removed ?_
          rw [List.nil_append]
          rintro rfl
          have same := ahead.eq_of_length (by simp)
          exact distinct (by simpa using same.symm)
        simp only [Retractable, found, Disk.sync_congr (Disk.remove_closed removed)]
      · cases named
    next => rfl
    next => rfl

structure Tidy (publisher : Publisher) : Prop where
  there : publisher.disk.find publisher.directory = .ok (some .directory)
  synced : publisher.disk.sync publisher.directory = .ok ()
  files : ∀ name, publisher.disk.node? (publisher.directory ++ [name]) ≠ some .directory

def isArtifactName (name : String) : Bool :=
  isPlainName name && !name.toList.contains '\x00' && (Utf8.encode name).length ≤ nameLimit

theorem Tidy.find_child (tidy : publisher.Tidy) (name : String) :
    publisher.disk.find (publisher.directory ++ [name]) =
      if name.toList.contains '\x00' then .error .nulInName
      else if nameLimit < (Utf8.encode name).length then .error .nameTooLong
      else .ok (publisher.disk.node? (publisher.directory ++ [name])) :=
  Disk.find_child tidy.there name

theorem Tidy.retractable_iff (tidy : publisher.Tidy) :
    publisher.Retractable name ↔ isArtifactName name := by
  simp only [Retractable, tidy.find_child, isArtifactName, Bool.and_eq_true, and_assoc]
  refine and_congr_right fun _ => ?_
  by_cases nul : '\x00' ∈ name.toList
  · simp [nul]
  by_cases long : nameLimit < (Utf8.encode name).length
  · simp [nul, long]
  have files := tidy.files name
  have short : (Utf8.encode name).length ≤ nameLimit := Nat.le_of_not_lt long
  cases found : publisher.disk.node? (publisher.directory ++ [name]) with
  | none => simp [nul, long, short]
  | some node =>
    cases node with
    | directory => exact absurd found files
    | file number => simp [nul, long, short, tidy.synced]

structure Serves (publisher after : Publisher) : Prop where
  directory : after.directory = publisher.directory
  closed : after.disk.closed = publisher.disk.closed
  files : publisher.disk.OnlyFiles publisher.directory after.disk

theorem Serves.refl (publisher : Publisher) : publisher.Serves publisher :=
  ⟨rfl, rfl, .of_nodes rfl⟩

theorem Serves.trans {between : Publisher} (first : publisher.Serves between)
    (second : between.Serves after) : publisher.Serves after :=
  ⟨second.directory.trans first.directory, second.closed.trans first.closed,
    first.files.trans (first.directory ▸ second.files)⟩

theorem retract_serves (name : String) (publisher : Publisher) :
    publisher.Serves (publisher.retract name).2 := by
  simp only [retract, pathOf]
  split
  next => exact .refl publisher
  next path named =>
    split at named
    · cases named
      split
      next removed => exact ⟨rfl, Disk.remove_closed removed, Disk.remove_onlyFiles removed⟩
      next => exact .refl publisher
      next => exact .refl publisher
    · cases named

theorem place_unmoved (name : String) (payload : Bytes) (publisher : Publisher) :
    (publisher.place name payload).2.directory = publisher.directory ∧
      (publisher.place name payload).2.token = publisher.token ∧
      (publisher.place name payload).2.disk.closed = publisher.disk.closed := by
  simp only [place]
  split
  · exact ⟨rfl, rfl, rfl⟩
  next path named =>
    have closed := publisher.disk.makeDirectories_closed publisher.directory
    split
    next e disk made =>
      rw [made] at closed
      exact ⟨rfl, rfl, closed⟩
    next disk made =>
      rw [made] at closed
      have written := disk.applyAll_closed
        (steps (publisher.directory ++ [publisher.draftName name]) path payload)
      split
      next applied =>
        rw [applied] at written
        exact ⟨rfl, rfl, written.trans closed⟩
      next between applied =>
        rw [applied] at written
        exact ⟨rfl, rfl, (between.applyAll_closed _).trans (written.trans closed)⟩

/-- A publication fails behind its last change exactly when the directory cannot be synced. -/
theorem publish_eq_place (name : String) (payload : Bytes) (publisher : Publisher) :
    publisher.publish name payload =
      ((publisher.place name payload).1.bind fun _ => publisher.disk.sync publisher.directory,
        (publisher.place name payload).2) := by
  obtain ⟨directory, -, closed⟩ := publisher.place_unmoved name payload
  rw [publish]
  split
  next placed => simp [placed, Except.bind]
  next after placed =>
    rw [placed] at directory closed
    have there : after.directory = publisher.directory := directory
    simp [placed, Except.bind, there, Disk.sync_congr closed]

theorem publish_of_synced (synced : publisher.disk.sync publisher.directory = .ok ()) (name : String)
    (payload : Bytes) : publisher.publish name payload = publisher.place name payload := by
  rw [publish_eq_place, synced]
  rcases publisher.place name payload with ⟨e | ⟨⟨⟩⟩, after⟩ <;> rfl

theorem steps_within (publisher : Publisher) (draft name : String) (payload : Bytes) :
    ∀ change ∈ steps (publisher.directory ++ [draft]) (publisher.directory ++ [name]) payload,
      change.Within publisher.directory := by
  simp [steps, Disk.Change.Within]

theorem Tidy.place_serves (tidy : publisher.Tidy) (name : String) (payload : Bytes) :
    publisher.Serves (publisher.place name payload).2 := by
  simp only [place, pathOf]
  split
  next => exact .refl publisher
  next path named =>
    split at named
    · cases named
      simp only [Disk.makeDirectories_of_find tidy.there]
      have placed : publisher.disk.OnlyFiles publisher.directory _ :=
        Disk.applyAll_onlyFiles (publisher.steps_within (publisher.draftName name) name payload)
      have closed := publisher.disk.applyAll_closed (steps
        (publisher.directory ++ [publisher.draftName name]) (publisher.directory ++ [name]) payload)
      split
      next disk applied =>
        rw [applied] at placed closed
        exact ⟨rfl, closed, placed⟩
      next e disk applied =>
        rw [applied] at placed closed
        refine ⟨rfl, (disk.applyAll_closed _).trans closed,
          placed.trans (Disk.applyAll_onlyFiles ?_)⟩
        simp [Disk.Change.Within]
    · cases named

theorem publish_snd (name : String) (payload : Bytes) (publisher : Publisher) :
    (publisher.publish name payload).2 = (publisher.place name payload).2 := by
  rw [publish]
  split <;> simp [*]

theorem Tidy.publish_serves (tidy : publisher.Tidy) (name : String) (payload : Bytes) :
    publisher.Serves (publisher.publish name payload).2 := by
  rw [publish_snd]
  exact tidy.place_serves name payload

theorem Tidy.kept (tidy : publisher.Tidy) (serves : publisher.Serves after) : after.Tidy where
  there := by
    have there := tidy.there
    rw [serves.directory, ← there, Disk.find, Disk.find, Disk.walk_congr]
    intro part ahead
    rw [List.nil_append]
    rcases serves.files part with same | ⟨⟨name, rfl⟩, _⟩
    · exact same
    · have longer := ahead.length_le
      rw [List.length_append, List.length_singleton] at longer
      omega
  synced := by
    rw [serves.directory, Disk.sync_congr serves.closed, tidy.synced]
  files name := by
    rw [serves.directory]
    rcases serves.files (publisher.directory ++ [name]) with same | ⟨_, noDirectory⟩
    · rw [same]
      exact tidy.files name
    · exact noDirectory

end Publisher

end AtomicCommit
