import AtomicCommit.Proofs.Files

/-! What can be seen on a disk, directories included, and what each change makes of it. -/

namespace AtomicCommit.Disk

/-- What is at a path: nothing, a directory, or a file with its content. -/
def view (disk : Disk) (path : Path) : Option (Option Bytes) :=
  (disk.node? path).map fun
    | .directory => none
    | .file file => some (disk.content file)

variable {disk after : Disk} {place : Path} {name : String}

theorem view_eq_none {path : Path} : disk.view path = none ↔ disk.node? path = none := by
  simp [view]

theorem view_eq_directory {path : Path} :
    disk.view path = some none ↔ disk.node? path = some .directory := by
  cases found : disk.node? path with
  | none => simp [view, found]
  | some node => cases node <;> simp [view, found]

theorem view_of_file {path : Path} {file : Nat} (there : disk.node? path = some (.file file)) :
    disk.view path = some (some (disk.content file)) := by
  simp [view, there]

theorem view_eq_file {path : Path} {bytes : Bytes} : disk.view path = some (some bytes) ↔
    ∃ file, disk.node? path = some (.file file) ∧ disk.content file = bytes := by
  cases found : disk.node? path with
  | none => simp [view, found]
  | some node => cases node <;> simp [view, found]

theorem view_congr {path other : Path} (node : after.node? path = disk.node? other)
    (content : ∀ file, disk.node? other = some (.file file) →
      after.content file = disk.content file) : after.view path = disk.view other := by
  cases found : disk.node? other with
  | none => simp [view, node, found]
  | some there =>
    cases there with
    | directory => simp [view, node, found]
    | file file => simp [view, node, found, content file found]

section Changes

theorem view_setContent (sound : disk.Sound) {path : Path} {file : Nat}
    (there : disk.node? path = some (.file file)) (bytes : Bytes) (other : Path) :
    (disk.setContent file bytes).view other =
      if other = path then some (some bytes) else disk.view other := by
  by_cases same : other = path
  · subst same
    rw [if_pos rfl, view_of_file (by rwa [node?_setContent]), content_setContent, if_pos rfl]
  · rw [if_neg same]
    refine view_congr (node?_setContent _ _) fun number found => ?_
    rw [content_setContent, if_neg]
    rintro rfl
    exact same (sound.single _ _ _ found there)

theorem view_openFile (sound : disk.Sound) {file : Nat}
    (opened : disk.openFile (place ++ [name]) = .ok (file, after)) {path : Path}
    (distinct : path ≠ place ++ [name]) : after.view path = disk.view path := by
  rw [openFile] at opened
  split at opened
  · cases opened
  · cases opened
  · cases opened
    rfl
  · cases opened
    refine view_congr ?_ fun number found => ?_
    · have nodes := disk.newFile.node?_insert (.file disk.nextFile) (child_ne_nil place name) path
      rwa [if_neg distinct, node?_newFile] at nodes
    · have other := Nat.ne_of_lt (sound.given _ _ found)
      simp [content, other]

theorem view_create (sound : disk.Sound) {file : Nat}
    (created : disk.create (place ++ [name]) = .ok (file, after)) (path : Path) :
    after.view path = if path = place ++ [name] then some (some []) else disk.view path := by
  obtain ⟨between, opened, rfl⟩ := create_eq_ok.mp created
  obtain ⟨alike, there, _⟩ := openFile_spec sound opened
  rw [view_setContent alike.sound there]
  split
  next => rfl
  next distinct => exact view_openFile sound opened distinct

theorem view_extend (sound : disk.Sound) {path : Path} {file : Nat}
    (found : disk.lookup path = .ok file) (bytes : Bytes) (other : Path) :
    (disk.extend file bytes).view other =
      if other = path then some (some (disk.content file ++ bytes)) else disk.view other :=
  view_setContent sound (lookup_ok found).1 _ other

theorem view_remove (removed : disk.remove (place ++ [name]) = .ok after) (path : Path) :
    after.view path = if path = place ++ [name] then none else disk.view path := by
  obtain ⟨number, _, rfl⟩ := remove_eq_ok.mp removed
  have node := disk.node?_erase (child_ne_nil place name) path
  split
  next here => exact view_eq_none.mpr (node.trans (if_pos here))
  next elsewhere => exact view_congr (node.trans (if_neg elsewhere)) fun _ _ => rfl

theorem view_rename {source target : String}
    (renamed : disk.rename (place ++ [source]) (place ++ [target]) = .ok after) (path : Path) :
    after.view path = if path = place ++ [target] then disk.view (place ++ [source])
      else if path = place ++ [source] then none else disk.view path := by
  obtain ⟨number, _, found, -, -, rfl⟩ := rename_eq_ok.mp renamed
  obtain ⟨there, _⟩ := lookup_ok found
  let erased : Disk := { disk with nodes := disk.nodes.erase (place ++ [source]) }
  have left : erased.node? path = if path = place ++ [source] then none else disk.node? path :=
    disk.node?_erase (child_ne_nil place source) path
  have moved := erased.node?_insert (.file number) (child_ne_nil place target) path
  by_cases here : path = place ++ [target]
  · rw [if_pos here]
    refine view_congr ?_ fun _ _ => rfl
    rw [moved, if_pos here, there]
  rw [if_neg here]
  rw [if_neg here, left] at moved
  by_cases former : path = place ++ [source]
  · rw [if_pos former]
    exact view_eq_none.mpr (moved.trans (if_pos former))
  · rw [if_neg former]
    exact view_congr (moved.trans (if_neg former)) fun _ _ => rfl

end Changes

/-- Directories that lead to a place have been made where nothing was, and nothing else has changed. -/
def LeadsTo (place : Path) (disk after : Disk) : Prop :=
  ∀ path, after.view path = disk.view path ∨
    path <+: place ∧ disk.view path = none ∧ after.view path = some none

theorem makeFrom_leads (place names : Path) :
    LeadsTo (place ++ names) disk (disk.makeFrom place names).2 := by
  induction names generalizing disk place with
  | nil => exact fun _ => .inl rfl
  | cons name rest ih =>
    have further : place ++ name :: rest = place ++ [name] ++ rest := by simp
    rw [makeFrom, further]
    split
    · exact fun _ => .inl rfl
    split
    next => exact ih (place ++ [name])
    next => exact fun _ => .inl rfl
    next free =>
      have node := disk.node?_insert .directory (child_ne_nil place name)
      let between : Disk := { disk with nodes := disk.nodes.insert (place ++ [name]) .directory }
      have leads : LeadsTo (place ++ [name] ++ rest) between
          (between.makeFrom (place ++ [name]) rest).2 := ih (place ++ [name])
      intro path
      rcases leads path with same | ⟨ahead, absent, made⟩
      · by_cases here : path = place ++ [name]
        · subst here
          refine .inr ⟨List.prefix_append _ _, view_eq_none.mpr free, same.trans ?_⟩
          exact view_eq_directory.mpr ((node _).trans (if_pos rfl))
        · refine .inl (same.trans (view_congr ?_ fun _ _ => rfl))
          rw [node, if_neg here]
      · have absentBefore : disk.view path = none := by
          rw [view_eq_none, node] at absent
          split at absent
          · cases absent
          · exact view_eq_none.mpr absent
        exact .inr ⟨ahead, absentBefore, made⟩

theorem makeDirectories_leads (disk : Disk) (path : Path) :
    LeadsTo path disk (disk.makeDirectories path).2 := by
  rw [makeDirectories]
  split
  · exact fun _ => .inl rfl
  · exact makeFrom_leads [] path

theorem LeadsTo.of_there (leads : LeadsTo place disk after) (sound : disk.Sound)
    (there : disk.node? place = some .directory) (path : Path) : after.view path = disk.view path := by
  rcases leads path with same | ⟨⟨rest, rfl⟩, absent, _⟩
  · exact same
  · rw [view_eq_none] at absent
    by_cases last : rest = []
    · rw [last, List.append_nil] at there
      cases absent.symm.trans there
    · cases absent.symm.trans (sound.above (by simp [there]) last)

theorem LeadsTo.inside (leads : LeadsTo place disk after) (name : String) :
    after.view (place ++ [name]) = disk.view (place ++ [name]) := by
  rcases leads (place ++ [name]) with same | ⟨ahead, _, _⟩
  · exact same
  · have longer := ahead.length_le
    rw [List.length_append, List.length_singleton] at longer
    omega

theorem Sound.walk_notFound (sound : disk.Sound) {place : Path} {names : List String}
    (walked : disk.walk place names = .error .notFound) : disk.node? (place ++ names) = none := by
  induction names generalizing place with
  | nil => cases walked
  | cons first rest ih =>
    rw [walk] at walked
    split at walked
    next absent =>
      cases found : disk.node? (place ++ first :: rest) with
      | none => rfl
      | some node =>
        cases absent.symm.trans (sound.above (by simp [found]) (List.cons_ne_nil first rest))
    · cases walked
    · split at walked
      · cases walked
      · simpa using ih walked

theorem Sound.view_of_notFound (sound : disk.Sound) {path : Path}
    (removed : disk.remove path = .error .notFound) : disk.view path = none := by
  simp only [remove, lookup, find] at removed
  rw [view_eq_none]
  by_cases nul : path.any fun name => name.toList.contains '\x00'
  · rw [if_pos nul] at removed
    cases removed
  · rw [if_neg nul] at removed
    rcases walked : disk.walk [] path with e | found
    · rw [walked] at removed
      cases removed
      simpa using sound.walk_notFound walked
    · rcases found with _ | (_ | file)
      · simpa using (walk_ok walked).1.symm
      · simp [walked, Except.map] at removed
      · simp [walked, Except.map] at removed

theorem Sound.interfere_write (sound : disk.Sound) (path : Path) (bytes : Bytes) :
    (disk.interfere path (.write bytes)).2.Sound := by
  rw [interfere]
  split
  next file after created =>
    rcases List.eq_nil_or_concat path with rfl | ⟨place, name, rfl⟩
    · cases created
    · rw [List.concat_eq_append] at created
      exact (create_spec sound created).1.sound.setContent bytes
  next => exact sound

theorem Sound.addEntries (sound : disk.Sound) (base : Path)
    (entries : List (String × Option Bytes)) : (disk.addEntries base entries).Sound := by
  induction entries generalizing disk with
  | nil => exact sound
  | cons entry rest ih =>
    obtain ⟨name, content⟩ := entry
    refine ih ?_
    cases content with
    | none => exact (makeDirectories_alike sound _).sound
    | some bytes => exact (makeDirectories_alike sound _).sound.interfere_write _ bytes

theorem Sound.ofEntries (base : Path) (entries : List (String × Option Bytes)) :
    (Disk.ofEntries base entries).Sound :=
  (makeDirectories_alike .empty base).sound.addEntries base entries

end AtomicCommit.Disk
