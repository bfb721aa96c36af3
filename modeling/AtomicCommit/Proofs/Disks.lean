import AtomicCommit.Disk

/-! What an operation on a disk does when it succeeds, and what it leaves as it was: walks look at
nothing but the nodes on their way, and changes in one directory reach nothing outside. -/

namespace AtomicCommit.Disk

section Effects

variable {disk after : Disk} {path source target : Path} {file : Nat} {bytes : Bytes}

theorem create_eq_ok : disk.create path = .ok (file, after) ↔
    ∃ between, disk.openFile path = .ok (file, between) ∧ between.setContent file [] = after := by
  rw [create]
  rcases disk.openFile path with e | ⟨number, between⟩
  · simp [Except.map]
  · constructor
    · rintro ⟨⟩
      exact ⟨between, rfl, rfl⟩
    · rintro ⟨_, ⟨⟩, rfl⟩
      rfl

theorem remove_eq_ok : disk.remove path = .ok after ↔
    ∃ file, disk.lookup path = .ok file ∧ { disk with nodes := disk.nodes.erase path } = after := by
  rw [remove]
  cases disk.lookup path <;> simp [Except.map]

theorem rename_eq_ok : disk.rename source target = .ok after ↔
    ∃ file node, disk.lookup source = .ok file ∧ disk.find target = .ok node ∧
      node ≠ some .directory ∧ { disk with
        nodes := (disk.nodes.erase source).insert target (.file file) } = after := by
  simp only [rename, bind, Except.bind]
  cases disk.lookup source with
  | error e => simp
  | ok file =>
    cases disk.find target with
    | error e => simp
    | ok node => rcases node with _ | (_ | _) <;> simp [pure, Except.pure]

theorem apply_create_eq_ok : disk.apply (.create path) = .ok after ↔
    ∃ file, disk.create path = .ok (file, after) := by
  rw [apply]
  rcases disk.create path with e | ⟨number, between⟩ <;> simp [Except.map]

theorem apply_write_eq_ok : disk.apply (.write path bytes) = .ok after ↔
    ∃ file, disk.lookup path = .ok file ∧ disk.extend file bytes = after := by
  rw [apply]
  cases disk.lookup path <;> simp [Except.map]

theorem applyAll_cons_eq_ok {change : Change} {rest : List Change} :
    disk.applyAll (change :: rest) = (.ok (), after) ↔
      ∃ between, disk.apply change = .ok between ∧ between.applyAll rest = (.ok (), after) := by
  rw [applyAll]
  cases disk.apply change <;> simp

end Effects

variable {disk other : Disk}

theorem walk_congr (place : Path) (names : List String)
    (same : ∀ part, part <+: names → disk.node? (place ++ part) = other.node? (place ++ part)) :
    disk.walk place names = other.walk place names := by
  induction names generalizing place with
  | nil =>
    have here := same [] List.prefix_rfl
    rw [List.append_nil] at here
    rw [walk, walk, here]
  | cons name rest ih =>
    have here := same [] (List.nil_prefix)
    rw [List.append_nil] at here
    have further := ih (place ++ [name]) fun part ahead => by
      simpa using same (name :: part) (List.cons_prefix_cons.mpr ⟨rfl, ahead⟩)
    rw [walk, walk, here, further]

theorem walk_last {place : Path} {names : List String} {name : String} {found : Option FileNode}
    (same : ∀ part, part <+: names → disk.node? (place ++ part) = other.node? (place ++ part))
    (walked : disk.walk place (names ++ [name]) = .ok found) :
    other.walk place (names ++ [name]) = .ok (other.node? (place ++ names ++ [name])) := by
  induction names generalizing place with
  | nil =>
    have here := same [] List.prefix_rfl
    rw [List.append_nil] at here
    rw [List.nil_append, walk, here] at walked
    rw [List.nil_append, walk, List.append_nil]
    split at walked
    · cases walked
    · cases walked
    · split at walked
      · cases walked
      next short => simp [short, walk]
  | cons first rest ih =>
    have here := same [] List.nil_prefix
    rw [List.append_nil] at here
    rw [List.cons_append, walk, here] at walked
    rw [List.cons_append, walk]
    split at walked
    · cases walked
    · cases walked
    · split at walked
      · cases walked
      next short =>
        have further := ih (fun part ahead => by
          simpa using same (first :: part) (List.cons_prefix_cons.mpr ⟨rfl, ahead⟩)) walked
        simpa [short] using further

theorem walk_child (place : Path) (names : List String) (name : String)
    (inside : disk.walk place names = .ok (some .directory)) :
    disk.walk place (names ++ [name]) =
      if nameLimit < (Utf8.encode name).length then .error .nameTooLong
      else .ok (disk.node? (place ++ names ++ [name])) := by
  induction names generalizing place with
  | nil =>
    rw [walk, Except.ok.injEq] at inside
    simp only [List.nil_append, walk, inside, List.append_nil]
  | cons first rest ih =>
    rw [walk] at inside
    split at inside
    · cases inside
    · cases inside
    next here =>
      split at inside
      · cases inside
      next short =>
        have further := ih (place ++ [first]) inside
        rw [List.cons_append, walk, here]
        simpa [short] using further

theorem node?_remove {gone : Path} (removed : disk.remove gone = .ok other) {path : Path}
    (distinct : path ≠ gone) : other.node? path = disk.node? path := by
  obtain ⟨_, _, rfl⟩ := remove_eq_ok.mp removed
  cases path with
  | nil => rfl
  | cons name rest => simp [node?, distinct]

theorem node?_of_walk {place : Path} {names : List String}
    (walked : disk.walk place names = .ok (some .directory)) :
    disk.node? place = some .directory := by
  cases names with
  | nil => simpa [walk] using walked
  | cons name rest =>
    rw [walk] at walked
    split at walked
    · cases walked
    · cases walked
    next here => exact here

theorem makeFrom_of_walk {place : Path} {names : List String}
    (walked : disk.walk place names = .ok (some .directory)) :
    disk.makeFrom place names = (.ok (), disk) := by
  induction names generalizing place with
  | nil => rfl
  | cons name rest ih =>
    rw [walk] at walked
    split at walked
    next => cases walked
    next => cases walked
    next =>
      split at walked
      next => cases walked
      next short => simp [makeFrom, short, node?_of_walk walked, ih walked]

theorem makeDirectories_of_find {path : Path} (found : disk.find path = .ok (some .directory)) :
    disk.makeDirectories path = (.ok (), disk) := by
  rw [find] at found
  split at found
  · cases found
  next clean => rw [makeDirectories, if_neg clean, makeFrom_of_walk found]

theorem find_child {path : Path} (inside : disk.find path = .ok (some .directory)) (name : String) :
    disk.find (path ++ [name]) =
      if name.toList.contains '\x00' then .error .nulInName
      else if nameLimit < (Utf8.encode name).length then .error .nameTooLong
      else .ok (disk.node? (path ++ [name])) := by
  rw [find] at inside
  split at inside
  · cases inside
  next clean =>
    have child := walk_child [] _ name inside
    rw [List.nil_append] at child
    rw [find, List.any_append, Bool.eq_false_iff.mpr clean, Bool.false_or, List.any_cons,
      List.any_nil, Bool.or_false, child]

/-- All that differs is what some names in this place stand for, and none of them for a directory. -/
def OnlyFiles (place : Path) (disk after : Disk) : Prop :=
  ∀ path, after.node? path = disk.node? path ∨
    (∃ name, path = place ++ [name]) ∧ after.node? path ≠ some .directory

namespace OnlyFiles

variable {place : Path} {disk between after : Disk}

theorem of_nodes (same : after.nodes = disk.nodes) : OnlyFiles place disk after := by
  intro path
  cases path <;> simp [node?, same]

theorem trans (first : OnlyFiles place disk between) (second : OnlyFiles place between after) :
    OnlyFiles place disk after := by
  intro path
  rcases second path with same | changed
  · rw [same]
    exact first path
  · exact .inr changed

theorem of_insert (name : String) (file : Nat)
    (inserted : after.nodes = disk.nodes.insert (place ++ [name]) (.file file)) :
    OnlyFiles place disk after := by
  rintro (_ | ⟨first, rest⟩)
  · exact .inl rfl
  · by_cases here : first :: rest = place ++ [name]
    · exact .inr ⟨⟨name, here⟩, by simp [node?, inserted, here]⟩
    · exact .inl (by simp [node?, inserted, here])

theorem of_erase {name : String} (erased : after.nodes = disk.nodes.erase (place ++ [name])) :
    OnlyFiles place disk after := by
  rintro (_ | ⟨first, rest⟩)
  · exact .inl rfl
  · by_cases here : first :: rest = place ++ [name]
    · exact .inr ⟨⟨name, here⟩, by simp [node?, erased, here]⟩
    · exact .inl (by simp [node?, erased, here])

end OnlyFiles

def Change.Within (place : Path) : Change → Prop
  | .create path => ∃ name, path = place ++ [name]
  | .write path _ => ∃ name, path = place ++ [name]
  | .rename source target => (∃ name, source = place ++ [name]) ∧ ∃ name, target = place ++ [name]
  | .remove path => ∃ name, path = place ++ [name]

variable {place : Path} {after : Disk}

theorem create_onlyFiles {name : String} {file : Nat}
    (created : disk.create (place ++ [name]) = .ok (file, after)) : OnlyFiles place disk after := by
  obtain ⟨between, opened, rfl⟩ := create_eq_ok.mp created
  rw [openFile] at opened
  split at opened <;> cases opened
  · exact .of_nodes rfl
  · exact .of_insert name disk.nextFile rfl

theorem rename_onlyFiles {source target : String}
    (renamed : disk.rename (place ++ [source]) (place ++ [target]) = .ok after) :
    OnlyFiles place disk after := by
  obtain ⟨file, _, -, -, -, rfl⟩ := rename_eq_ok.mp renamed
  have erased : OnlyFiles place disk { disk with nodes := disk.nodes.erase (place ++ [source]) } :=
    .of_erase rfl
  exact erased.trans (.of_insert target file rfl)

theorem remove_onlyFiles {name : String} (removed : disk.remove (place ++ [name]) = .ok after) :
    OnlyFiles place disk after := by
  obtain ⟨_, _, rfl⟩ := remove_eq_ok.mp removed
  exact .of_erase rfl

theorem apply_onlyFiles {change : Change} (within : change.Within place)
    (applied : disk.apply change = .ok after) : OnlyFiles place disk after := by
  cases change with
  | create path =>
    obtain ⟨name, rfl⟩ := within
    obtain ⟨file, created⟩ := apply_create_eq_ok.mp applied
    exact create_onlyFiles created
  | write path bytes =>
    obtain ⟨file, -, rfl⟩ := apply_write_eq_ok.mp applied
    exact .of_nodes rfl
  | rename source target =>
    obtain ⟨⟨old, rfl⟩, new, rfl⟩ := within
    exact rename_onlyFiles applied
  | remove path =>
    obtain ⟨name, rfl⟩ := within
    exact remove_onlyFiles applied

theorem applyAll_onlyFiles {changes : List Change} (within : ∀ change ∈ changes, change.Within place) :
    OnlyFiles place disk (disk.applyAll changes).2 := by
  induction changes generalizing disk with
  | nil => exact .of_nodes rfl
  | cons change rest ih =>
    obtain ⟨first, others⟩ := List.forall_mem_cons.mp within
    rw [applyAll]
    split
    next disk' applied => exact (apply_onlyFiles first applied).trans (ih others)
    next => exact .of_nodes rfl

section Closed

theorem access_congr (same : after.closed = disk.closed) (path : Path) :
    after.access path = disk.access path := by
  rw [access, access, same]

theorem sync_congr (same : after.closed = disk.closed) (directory : Path) :
    after.sync directory = disk.sync directory := access_congr same directory

theorem openFile_closed {path : Path} {file : Nat} (opened : disk.openFile path = .ok (file, after)) :
    after.closed = disk.closed := by
  rw [openFile] at opened
  split at opened <;> cases opened <;> rfl

theorem create_closed {path : Path} {file : Nat} (created : disk.create path = .ok (file, after)) :
    after.closed = disk.closed := by
  obtain ⟨between, opened, rfl⟩ := create_eq_ok.mp created
  rw [setContent, openFile_closed opened]

theorem remove_closed {path : Path} (removed : disk.remove path = .ok after) :
    after.closed = disk.closed := by
  obtain ⟨_, _, rfl⟩ := remove_eq_ok.mp removed
  rfl

theorem rename_closed {source target : Path} (renamed : disk.rename source target = .ok after) :
    after.closed = disk.closed := by
  obtain ⟨_, _, -, -, -, rfl⟩ := rename_eq_ok.mp renamed
  rfl

theorem apply_closed {change : Change} (applied : disk.apply change = .ok after) :
    after.closed = disk.closed := by
  cases change with
  | create path =>
    obtain ⟨file, created⟩ := apply_create_eq_ok.mp applied
    exact create_closed created
  | write path bytes =>
    obtain ⟨file, -, rfl⟩ := apply_write_eq_ok.mp applied
    rfl
  | rename source target => exact rename_closed applied
  | remove path => exact remove_closed applied

theorem applyAll_closed (disk : Disk) (changes : List Change) :
    (disk.applyAll changes).2.closed = disk.closed := by
  induction changes generalizing disk with
  | nil => rfl
  | cons change rest ih =>
    rw [applyAll]
    split
    next applied => exact (ih _).trans (apply_closed applied)
    next => rfl

theorem makeFrom_closed (disk : Disk) (place : Path) (names : List String) :
    (disk.makeFrom place names).2.closed = disk.closed := by
  induction names generalizing disk place with
  | nil => rfl
  | cons name rest ih =>
    simp only [makeFrom]
    split
    · rfl
    · split
      · exact ih _ _
      · rfl
      · exact ih _ _

theorem makeDirectories_closed (disk : Disk) (path : Path) :
    (disk.makeDirectories path).2.closed = disk.closed := by
  rw [makeDirectories]
  split
  · rfl
  · exact makeFrom_closed disk [] path

end Closed

end AtomicCommit.Disk
