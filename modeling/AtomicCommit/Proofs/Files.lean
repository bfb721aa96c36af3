import AtomicCommit.Proofs.Disks
import Mathlib.Data.List.Induction

/-! What a disk holds at a path, and what each change makes of it. -/

namespace AtomicCommit.Disk

/-- Every node is in a directory. A file has one path, and a number that has been given out. -/
structure Sound (disk : Disk) : Prop where
  parents : ∀ place name, disk.node? (place ++ [name]) ≠ none → disk.node? place = some .directory
  given : ∀ path file, disk.node? path = some (.file file) → file < disk.nextFile
  single : ∀ path other file, disk.node? path = some (.file file) →
    disk.node? other = some (.file file) → path = other

/-- A path that can be looked up, whatever is there. -/
def Legal (path : Path) : Prop :=
  (∀ name ∈ path, '\x00' ∉ name.toList) ∧ ∀ name ∈ path, (Utf8.encode name).length ≤ nameLimit

variable {disk after : Disk}

section Nodes

theorem node?_insert (disk : Disk) {path : Path} (node : FileNode) (below : path ≠ []) (other : Path) :
    node? { disk with nodes := disk.nodes.insert path node } other =
      if other = path then some node else disk.node? other := by
  cases other with
  | nil => simp [node?, below.symm]
  | cons name rest => simp [node?]

theorem node?_erase (disk : Disk) {path : Path} (below : path ≠ []) (other : Path) :
    node? { disk with nodes := disk.nodes.erase path } other =
      if other = path then none else disk.node? other := by
  cases other with
  | nil => simp [node?, below.symm]
  | cons name rest => simp [node?]

theorem node?_closed (disk : Disk) (closed : Table Path FileError) (path : Path) :
    node? { disk with closed := closed } path = disk.node? path := by
  cases path <;> rfl

theorem child_ne_nil (place : Path) (name : String) : place ++ [name] ≠ [] := by simp

theorem Sound.empty {closed : Table Path FileError} : ({ closed := closed } : Disk).Sound := by
  have nothing : ∀ path, path ≠ [] → ({ closed := closed } : Disk).node? path = none := by
    rintro (_ | ⟨name, rest⟩) below
    · exact absurd rfl below
    · rfl
  constructor
  · intro place name there
    exact absurd (nothing _ (child_ne_nil place name)) there
  · rintro (_ | ⟨name, rest⟩) file there
    · cases there
    · cases (nothing _ (List.cons_ne_nil name rest)).symm.trans there
  · rintro (_ | ⟨name, rest⟩) other file there
    · cases there
    · cases (nothing _ (List.cons_ne_nil name rest)).symm.trans there

theorem Sound.above (sound : disk.Sound) {place rest : Path}
    (there : disk.node? (place ++ rest) ≠ none) (further : rest ≠ []) :
    disk.node? place = some .directory := by
  induction rest using List.reverseRecOn with
  | nil => exact absurd rfl further
  | append_singleton rest name ih =>
    rw [← List.append_assoc] at there
    have parent := sound.parents _ _ there
    by_cases last : rest = []
    · simpa [last] using parent
    · exact ih (by simp [parent]) last

end Nodes

section Walks

theorem walk_ok {place : Path} {names : List String} {found : Option FileNode}
    (walked : disk.walk place names = .ok found) : found = disk.node? (place ++ names) ∧
      ∀ name ∈ names, (Utf8.encode name).length ≤ nameLimit := by
  induction names generalizing place with
  | nil =>
    rw [walk, Except.ok.injEq] at walked
    simp [walked.symm]
  | cons name rest ih =>
    rw [walk] at walked
    split at walked
    · cases walked
    · cases walked
    · split at walked
      · cases walked
      next short =>
        obtain ⟨same, others⟩ := ih walked
        exact ⟨by simpa using same, List.forall_mem_cons.mpr ⟨Nat.le_of_not_lt short, others⟩⟩

theorem walk_parent {place : Path} {names : List String} {name : String} {found : Option FileNode}
    (walked : disk.walk place (names ++ [name]) = .ok found) :
    disk.node? (place ++ names) = some .directory := by
  induction names generalizing place with
  | nil =>
    rw [List.nil_append, walk] at walked
    split at walked
    · cases walked
    · cases walked
    next there => simpa using there
  | cons first rest ih =>
    rw [List.cons_append, walk] at walked
    split at walked
    · cases walked
    · cases walked
    · split at walked
      · cases walked
      · simpa using ih walked

theorem Sound.walk_of_node (sound : disk.Sound) {place : Path} {names : List String}
    {node : FileNode} (there : disk.node? (place ++ names) = some node)
    (short : ∀ name ∈ names, (Utf8.encode name).length ≤ nameLimit) :
    disk.walk place names = .ok (some node) := by
  induction names generalizing place with
  | nil => simpa [walk] using there
  | cons name rest ih =>
    obtain ⟨first, others⟩ := List.forall_mem_cons.mp short
    have here : disk.node? place = some .directory :=
      sound.above (by simp [there]) (List.cons_ne_nil name rest)
    rw [walk, here]
    simpa [Nat.not_lt.mpr first] using ih (by simpa using there) others

theorem find_ok {path : Path} {found : Option FileNode} (result : disk.find path = .ok found) :
    found = disk.node? path ∧ Legal path := by
  rw [find] at result
  split at result
  · cases result
  next clean =>
    obtain ⟨same, short⟩ := walk_ok result
    refine ⟨by simpa using same, fun name member nul => clean ?_, short⟩
    exact List.any_eq_true.mpr ⟨name, member, by simpa using nul⟩

theorem find_parent {place : Path} {name : String} {found : Option FileNode}
    (result : disk.find (place ++ [name]) = .ok found) : disk.node? place = some .directory := by
  rw [find] at result
  split at result
  · cases result
  · simpa using walk_parent result

theorem Sound.find_of_node (sound : disk.Sound) {path : Path} {node : FileNode}
    (there : disk.node? path = some node) (legal : Legal path) :
    disk.find path = .ok (some node) := by
  have clean : ¬(path.any fun name => name.toList.contains '\x00') := by
    simpa using legal.1
  rw [find, if_neg clean]
  exact sound.walk_of_node (by simpa using there) legal.2

theorem lookup_ok {path : Path} {file : Nat} (found : disk.lookup path = .ok file) :
    disk.node? path = some (.file file) ∧ Legal path := by
  rw [lookup] at found
  split at found
  · cases found
  · cases found
  · cases found
  next there =>
    cases found
    obtain ⟨same, legal⟩ := find_ok there
    exact ⟨same.symm, legal⟩

theorem Sound.fileAt?_eq_some (sound : disk.Sound) {path : Path} {bytes : Bytes} :
    disk.fileAt? path = some bytes ↔ Legal path ∧
      ∃ file, disk.node? path = some (.file file) ∧ disk.content file = bytes := by
  constructor
  · intro there
    rw [fileAt?, read] at there
    cases found : disk.lookup path with
    | error e => simp [found, Except.map, Except.toOption] at there
    | ok file =>
      obtain ⟨node, legal⟩ := lookup_ok found
      exact ⟨legal, file, node, by simpa [found, Except.map, Except.toOption] using there⟩
  · rintro ⟨legal, file, node, rfl⟩
    simp [fileAt?, read, lookup, sound.find_of_node node legal, Except.map, Except.toOption]

theorem fileAt?_congr (sound : disk.Sound) (soundToo : after.Sound) {path other : Path}
    (legal : Legal path ↔ Legal other)
    (same : ∀ file, after.node? path = some (.file file) ↔ disk.node? other = some (.file file))
    (contents : ∀ file, disk.node? other = some (.file file) →
      after.content file = disk.content file) : after.fileAt? path = disk.fileAt? other := by
  refine Option.ext fun bytes => ?_
  rw [soundToo.fileAt?_eq_some, sound.fileAt?_eq_some, legal]
  refine and_congr_right fun _ => exists_congr fun file => ?_
  rw [same file]
  refine and_congr_right fun there => ?_
  rw [contents file there]

theorem fileAt?_eq_none {path : Path} (absent : ∀ file, disk.node? path ≠ some (.file file)) :
    disk.fileAt? path = none := by
  rw [fileAt?, read]
  cases found : disk.lookup path with
  | error e => rfl
  | ok file => exact absurd (lookup_ok found).1 (absent file)

end Walks

/-- Sound disks with the same files everywhere but at some paths. -/
structure Alike (differing : Path → Prop) (disk after : Disk) : Prop where
  sound : after.Sound
  files : ∀ path, ¬differing path → after.fileAt? path = disk.fileAt? path

namespace Alike

variable {differing : Path → Prop} {between : Disk}

theorem refl (sound : disk.Sound) : Alike differing disk disk := ⟨sound, fun _ _ => rfl⟩

theorem trans (first : Alike differing disk between) (second : Alike differing between after) :
    Alike differing disk after :=
  ⟨second.sound, fun path spared => (second.files path spared).trans (first.files path spared)⟩

theorem mono {more : Path → Prop} (alike : Alike differing disk after)
    (wider : ∀ path, differing path → more path) : Alike more disk after :=
  ⟨alike.sound, fun path spared => alike.files path fun here => spared (wider path here)⟩

end Alike

theorem Sound.closed_alike (sound : disk.Sound) (closed : Table Path FileError) :
    Alike (fun _ => False) disk { disk with closed := closed } := by
  have still : Sound { disk with closed := closed } := by
    constructor <;> simp only [node?_closed]
    · exact sound.parents
    · exact sound.given
    · exact sound.single
  refine ⟨still, fun path _ => ?_⟩
  exact fileAt?_congr sound still Iff.rfl (fun file => by rw [node?_closed]) fun _ _ => rfl

section Changes

variable {place : Path} {name : String} {file : Nat}

theorem Sound.insert (sound : disk.Sound) {node : FileNode}
    (parent : disk.node? place = some .directory)
    (leaf : disk.node? (place ++ [name]) = some .directory → node = .directory)
    (own : ∀ file, node = .file file → file < disk.nextFile ∧
      ∀ path, disk.node? path = some (.file file) → path = place ++ [name]) :
    Sound { disk with nodes := disk.nodes.insert (place ++ [name]) node } := by
  constructor
  · intro upper last there
    rw [node?_insert _ _ (child_ne_nil _ _)] at there ⊢
    have above : disk.node? upper = some .directory := by
      split at there
      next same =>
        obtain ⟨rfl, _⟩ := List.append_inj' same rfl
        exact parent
      next => exact sound.parents upper last there
    split
    next same => rw [leaf (same ▸ above)]
    next => exact above
  · intro path file there
    rw [node?_insert _ _ (child_ne_nil _ _)] at there
    split at there
    · exact (own file (Option.some.inj there)).1
    · exact sound.given path file there
  · intro path other file one two
    rw [node?_insert _ _ (child_ne_nil _ _)] at one two
    split at one <;> split at two
    next here hereToo => exact here.trans hereToo.symm
    next elsewhere => exact absurd ((own file (Option.some.inj one)).2 _ two) elsewhere
    next elsewhere _ => exact absurd ((own file (Option.some.inj two)).2 _ one) elsewhere
    next => exact sound.single path other file one two

theorem Sound.erase (sound : disk.Sound) (there : disk.node? (place ++ [name]) = some (.file file)) :
    Sound { disk with nodes := disk.nodes.erase (place ++ [name]) } := by
  constructor
  · intro upper last found
    rw [node?_erase _ (child_ne_nil _ _)] at found ⊢
    split at found
    · exact absurd rfl found
    · have parent := sound.parents upper last found
      split
      next same => simp [← same, parent] at there
      next => exact parent
  · intro path number found
    rw [node?_erase _ (child_ne_nil _ _)] at found
    split at found
    · cases found
    · exact sound.given path number found
  · intro path other number one two
    rw [node?_erase _ (child_ne_nil _ _)] at one two
    split at one
    · cases one
    split at two
    · cases two
    exact sound.single path other number one two

theorem makeFrom_alike (sound : disk.Sound) {place : Path} (names : List String)
    (inside : disk.node? place = some .directory) :
    Alike (fun _ => False) disk (disk.makeFrom place names).2 := by
  induction names generalizing disk place with
  | nil => exact .refl sound
  | cons name rest ih =>
    simp only [makeFrom]
    split
    · exact .refl sound
    split
    next there => exact ih sound there
    next => exact .refl sound
    next free =>
      have node := disk.node?_insert .directory (child_ne_nil place name)
      have made : Sound { disk with nodes := disk.nodes.insert (place ++ [name]) .directory } :=
        sound.insert inside (fun _ => rfl) (by rintro _ ⟨⟩)
      have same : Alike (fun _ => False) disk
          { disk with nodes := disk.nodes.insert (place ++ [name]) .directory } := by
        refine ⟨made, fun path _ => fileAt?_congr sound made Iff.rfl (fun number => ?_) ?_⟩
        · rw [node]
          split
          next here => simp [here, free]
          next => rfl
        · exact fun _ _ => rfl
      exact same.trans (ih made (by rw [node, if_pos rfl]))

theorem makeDirectories_alike (sound : disk.Sound) (path : Path) :
    Alike (fun _ => False) disk (disk.makeDirectories path).2 := by
  rw [makeDirectories]
  split
  · exact .refl sound
  · exact makeFrom_alike sound path rfl

theorem content_setContent (bytes : Bytes) (other : Nat) :
    (disk.setContent file bytes).content other =
      if other = file then bytes else disk.content other := by
  by_cases same : other = file <;> simp [content, setContent, same]

theorem node?_setContent (bytes : Bytes) (path : Path) :
    (disk.setContent file bytes).node? path = disk.node? path := by
  cases path <;> rfl

theorem Sound.setContent (sound : disk.Sound) (bytes : Bytes) :
    (disk.setContent file bytes).Sound := by
  constructor <;> simp only [node?_setContent]
  · exact sound.parents
  · exact sound.given
  · exact sound.single

theorem setContent_alike (sound : disk.Sound) {path : Path}
    (there : disk.node? path = some (.file file)) (bytes : Bytes) :
    Alike (· = path) disk (disk.setContent file bytes) := by
  refine ⟨sound.setContent bytes, fun other distinct =>
    fileAt?_congr sound (sound.setContent bytes) Iff.rfl (fun number => ?_) ?_⟩
  · rw [node?_setContent]
  · intro number found
    rw [content_setContent, if_neg]
    rintro rfl
    exact distinct (sound.single _ _ _ found there)

theorem fileAt?_setContent (sound : disk.Sound) {path : Path} (legal : Legal path)
    (there : disk.node? path = some (.file file)) (bytes : Bytes) :
    (disk.setContent file bytes).fileAt? path = some bytes := by
  refine (sound.setContent bytes).fileAt?_eq_some.mpr ⟨legal, file, ?_, ?_⟩
  · rw [node?_setContent, there]
  · rw [content_setContent, if_pos rfl]

def newFile (disk : Disk) : Disk := { disk with
  contents := disk.contents.insert disk.nextFile [], nextFile := disk.nextFile + 1 }

theorem node?_newFile (path : Path) : disk.newFile.node? path = disk.node? path := by
  cases path <;> rfl

theorem Sound.newFile (sound : disk.Sound) : disk.newFile.Sound := by
  constructor <;> simp only [node?_newFile]
  · exact sound.parents
  · exact fun path number there => Nat.lt_succ_of_lt (sound.given path number there)
  · exact sound.single

theorem openFile_spec (sound : disk.Sound)
    (opened : disk.openFile (place ++ [name]) = .ok (file, after)) :
    Alike (· = place ++ [name]) disk after ∧
      after.node? (place ++ [name]) = some (.file file) ∧ Legal (place ++ [name]) := by
  rw [openFile] at opened
  split at opened
  · cases opened
  · cases opened
  next found =>
    cases opened
    obtain ⟨same, legal⟩ := find_ok found
    exact ⟨.refl sound, same.symm, legal⟩
  next found =>
    cases opened
    obtain ⟨free, legal⟩ := find_ok found
    have parent := find_parent found
    have nodes := disk.newFile.node?_insert (.file disk.nextFile) (child_ne_nil place name)
    simp only [node?_newFile] at nodes
    have soundToo : Sound { disk.newFile with
        nodes := disk.newFile.nodes.insert (place ++ [name]) (.file disk.nextFile) } := by
      apply sound.newFile.insert
      · rw [node?_newFile, parent]
      · intro directory
        rw [node?_newFile, ← free] at directory
        cases directory
      · rintro _ ⟨⟩
        refine ⟨Nat.lt_succ_self _, fun path there => ?_⟩
        rw [node?_newFile] at there
        exact absurd (sound.given _ _ there) (Nat.lt_irrefl _)
    refine ⟨⟨soundToo, fun path distinct =>
      fileAt?_congr sound soundToo Iff.rfl (fun number => ?_) ?_⟩, ?_, legal⟩
    · rw [nodes, if_neg distinct]
    · intro number found
      have other := Nat.ne_of_lt (sound.given _ _ found)
      simp [content, newFile, other]
    · exact (nodes _).trans (if_pos rfl)

theorem create_spec (sound : disk.Sound)
    (created : disk.create (place ++ [name]) = .ok (file, after)) :
    Alike (· = place ++ [name]) disk after ∧ after.fileAt? (place ++ [name]) = some [] := by
  obtain ⟨between, opened, rfl⟩ := create_eq_ok.mp created
  obtain ⟨alike, there, legal⟩ := openFile_spec sound opened
  exact ⟨alike.trans (setContent_alike alike.sound there []),
    fileAt?_setContent alike.sound legal there []⟩

theorem extend_spec (sound : disk.Sound) {path : Path} (found : disk.lookup path = .ok file)
    (bytes : Bytes) : Alike (· = path) disk (disk.extend file bytes) ∧
      ∀ former, disk.fileAt? path = some former →
        (disk.extend file bytes).fileAt? path = some (former ++ bytes) := by
  obtain ⟨there, legal⟩ := lookup_ok found
  refine ⟨setContent_alike sound there _, fun former held => ?_⟩
  obtain ⟨_, number, same, rfl⟩ := sound.fileAt?_eq_some.mp held
  obtain rfl : file = number := by simpa [there] using same
  exact fileAt?_setContent sound legal there _

theorem remove_spec (sound : disk.Sound) (removed : disk.remove (place ++ [name]) = .ok after) :
    Alike (· = place ++ [name]) disk after ∧ after.fileAt? (place ++ [name]) = none := by
  obtain ⟨number, found, rfl⟩ := remove_eq_ok.mp removed
  have gone := sound.erase (lookup_ok found).1
  have node := disk.node?_erase (child_ne_nil place name)
  refine ⟨⟨gone, fun path distinct => fileAt?_congr sound gone Iff.rfl (fun file => ?_) ?_⟩, ?_⟩
  · rw [node, if_neg distinct]
  · exact fun _ _ => rfl
  · exact fileAt?_eq_none (by simp [node])

theorem rename_spec (sound : disk.Sound) {source target : String} (distinct : source ≠ target)
    (renamed : disk.rename (place ++ [source]) (place ++ [target]) = .ok after) :
    Alike (fun path => path = place ++ [source] ∨ path = place ++ [target]) disk after ∧
      after.fileAt? (place ++ [target]) = disk.fileAt? (place ++ [source]) := by
  obtain ⟨number, node, found, goal, noDirectory, rfl⟩ := rename_eq_ok.mp renamed
  obtain ⟨there, legalSource⟩ := lookup_ok found
  obtain ⟨former, legalTarget⟩ := find_ok goal
  rw [former] at noDirectory
  let erased : Disk := { disk with nodes := disk.nodes.erase (place ++ [source]) }
  have left : ∀ path, erased.node? path =
      if path = place ++ [source] then none else disk.node? path :=
    disk.node?_erase (child_ne_nil place source)
  have nodes := erased.node?_insert (.file number) (child_ne_nil place target)
  have apart : place ++ [target] ≠ place ++ [source] := by simpa using distinct.symm
  have soundToo : Sound { erased with
      nodes := erased.nodes.insert (place ++ [target]) (.file number) } := by
    apply (sound.erase there).insert
    · rw [left, if_neg (by simp), find_parent goal]
    · intro directory
      rw [left, if_neg apart] at directory
      exact absurd directory noDirectory
    · rintro _ ⟨⟩
      refine ⟨sound.given _ _ there, fun path found => ?_⟩
      rw [left, Option.ite_none_left_eq_some] at found
      exact absurd (sound.single _ _ _ found.2 there) found.1
  refine ⟨⟨soundToo, fun path spared => ?_⟩, ?_⟩
  · obtain ⟨notSource, notTarget⟩ := not_or.mp spared
    refine fileAt?_congr sound soundToo Iff.rfl (fun file => ?_) fun _ _ => rfl
    rw [nodes, if_neg notTarget, left, if_neg notSource]
  · refine fileAt?_congr sound soundToo ⟨fun _ => legalSource, fun _ => legalTarget⟩
      (fun file => ?_) fun _ _ => rfl
    rw [nodes, if_pos rfl, there]

end Changes

end AtomicCommit.Disk
