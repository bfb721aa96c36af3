import AtomicCommit.Disk

/-! Publication of the artifacts of committed transactions. -/

namespace AtomicCommit

class Publishing (σ : Type) where
  artifact? : String → σ → Option Bytes
  /-- Either the whole payload is there under its name afterwards, or nothing has changed. An error
  does not tell which. -/
  publish : String → Bytes → σ → Except FileError Unit × σ
  /-- An artifact that is not there counts as retracted. -/
  retract : String → σ → Except FileError Unit × σ

/-- Artifacts as the files of one directory. Drafts carry the token in their names. -/
structure Publisher where
  directory : Path
  disk : Disk
  token : String := "00000000-0000-0000-0000-000000000000"
  deriving DecidableEq, Repr

namespace Publisher

def pathOf (publisher : Publisher) (name : String) : Except FileError Path :=
  if isPlainName name then .ok (publisher.directory ++ [name])
  else .error (.invalidName "artifact" name)

def draftName (publisher : Publisher) (name : String) : String :=
  "." ++ name ++ "." ++ publisher.token ++ ".tmp"

def steps (draft path : Path) (payload : Bytes) : List Disk.Change :=
  [.create draft, .write draft payload, .rename draft path]

def artifact? (publisher : Publisher) (name : String) : Option Bytes :=
  (publisher.pathOf name).toOption.bind publisher.disk.fileAt?

/-- Puts the whole payload under its name, or takes the draft away again. -/
def place (name : String) (payload : Bytes) (publisher : Publisher) :
    Except FileError Unit × Publisher :=
  match publisher.pathOf name with
  | .error e => (.error e, publisher)
  | .ok path =>
    match publisher.disk.makeDirectories publisher.directory with
    | (.error e, disk) => (.error e, { publisher with disk := disk })
    | (.ok (), disk) =>
      let draft := publisher.directory ++ [publisher.draftName name]
      match disk.applyAll (steps draft path payload) with
      | (.ok (), disk) => (.ok (), { publisher with disk := disk })
      | (.error e, disk) =>
        (.error e, { publisher with disk := (disk.applyAll [.remove draft]).2 })

/-- If the directory cannot be synced that is an error, though the artifact is there by then. -/
def publish (name : String) (payload : Bytes) (publisher : Publisher) :
    Except FileError Unit × Publisher :=
  match publisher.place name payload with
  | (.error e, left) => (.error e, left)
  | (.ok (), placed) => (placed.disk.sync placed.directory, placed)

def retract (name : String) (publisher : Publisher) : Except FileError Unit × Publisher :=
  match publisher.pathOf name with
  | .error e => (.error e, publisher)
  | .ok path =>
    match publisher.disk.remove path with
    | .ok disk => (disk.sync publisher.directory, { publisher with disk := disk })
    | .error .notFound => (.ok (), publisher)
    | .error e => (.error e, publisher)

def isPublished (publisher : Publisher) (name : String) : Bool :=
  match publisher.pathOf name with
  | .ok path => publisher.disk.isFile path
  | .error _ => false

def published (publisher : Publisher) : List (String × Option Bytes) :=
  publisher.disk.entries publisher.directory

instance : Publishing Publisher := ⟨fun name publisher => publisher.artifact? name, publish, retract⟩

end Publisher

end AtomicCommit
