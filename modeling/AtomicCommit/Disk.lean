import AtomicCommit.Table
import AtomicCommit.Text.Utf8

/-! A disk: directories and files under one root. A file keeps its number when its name goes away,
so whoever has it open still reaches it. What is written to an open file is there: that a disk breaks
is left out, and so are syncs of open files. A directory has to be opened to be synced. -/

namespace AtomicCommit

inductive FileError where
  | notFound
  | alreadyExists
  | notDirectory
  | isDirectory
  | nameTooLong
  | nulInName
  | invalidName (what name : String)
  deriving DecidableEq, Repr

def FileError.message : FileError → String
  | .notFound => "No such file or directory (os error 2)"
  | .alreadyExists => "File exists (os error 17)"
  | .notDirectory => "Not a directory (os error 20)"
  | .isDirectory => "Is a directory (os error 21)"
  | .nameTooLong => "File name too long (os error 36)"
  | .nulInName => "file name contained an unexpected NUL byte"
  | .invalidName what name => "invalid " ++ what ++ " name: " ++ name

abbrev Path := List String

inductive FileNode where
  | directory
  | file (number : Nat)
  deriving DecidableEq, Repr

structure Disk where
  nodes : Table Path FileNode := ∅
  contents : Table Nat Bytes := ∅
  nextFile : Nat := 0
  /-- What cannot be opened, and the error: a directory that may not be read or has the empty path, a
  log that may not be written. -/
  closed : Table Path FileError := ∅
  deriving DecidableEq, Repr

def nameLimit : Nat := 255

/-- Reads a path against the directory it starts from. -/
def Path.resolve (base : Path) (text : String) : Path :=
  (text.splitOn "/").foldl (fun path name =>
    if name = "" ∨ name = "." then path
    else if name = ".." then path.dropLast
    else path ++ [name]) base

def isPlainName (name : String) : Bool :=
  name ≠ "" && name ≠ "." && name ≠ ".." && name.toList.all fun c => c ≠ '/' && c ≠ '\\'

namespace Disk

def node? (disk : Disk) : Path → Option FileNode
  | [] => some .directory
  | path => disk.nodes.get? path

def content (disk : Disk) (file : Nat) : Bytes := (disk.contents.get? file).getD []

def walk (disk : Disk) (place : Path) : List String → Except FileError (Option FileNode)
  | [] => .ok (disk.node? place)
  | name :: rest =>
    match disk.node? place with
    | none => .error .notFound
    | some (.file _) => .error .notDirectory
    | some .directory =>
      if nameLimit < (Utf8.encode name).length then .error .nameTooLong
      else disk.walk (place ++ [name]) rest

def find (disk : Disk) (path : Path) : Except FileError (Option FileNode) :=
  if path.any fun name => name.toList.contains '\x00' then .error .nulInName
  else disk.walk [] path

def isFile (disk : Disk) (path : Path) : Bool :=
  match disk.find path with
  | .ok (some (.file _)) => true
  | _ => false

def lookup (disk : Disk) (path : Path) : Except FileError Nat :=
  match disk.find path with
  | .error e => .error e
  | .ok none => .error .notFound
  | .ok (some .directory) => .error .isDirectory
  | .ok (some (.file file)) => .ok file

def read (disk : Disk) (path : Path) : Except FileError Bytes :=
  (disk.lookup path).map disk.content

def fileAt? (disk : Disk) (path : Path) : Option Bytes := (disk.read path).toOption

def setContent (disk : Disk) (file : Nat) (bytes : Bytes) : Disk :=
  { disk with contents := disk.contents.insert file bytes }

def openFile (disk : Disk) (path : Path) : Except FileError (Nat × Disk) :=
  match disk.find path with
  | .error e => .error e
  | .ok (some .directory) => .error .isDirectory
  | .ok (some (.file file)) => .ok (file, disk)
  | .ok none => .ok (disk.nextFile, { disk with
      nodes := disk.nodes.insert path (.file disk.nextFile)
      contents := disk.contents.insert disk.nextFile []
      nextFile := disk.nextFile + 1 })

def create (disk : Disk) (path : Path) : Except FileError (Nat × Disk) :=
  (disk.openFile path).map fun (file, disk) => (file, disk.setContent file [])

def extend (disk : Disk) (file : Nat) (bytes : Bytes) : Disk :=
  disk.setContent file (disk.content file ++ bytes)

def resize (disk : Disk) (file length : Nat) : Disk :=
  let bytes := disk.content file
  disk.setContent file (bytes.take length ++ List.replicate (length - bytes.length) 0)

def access (disk : Disk) (path : Path) : Except FileError Unit :=
  match disk.closed.get? path with
  | some e => .error e
  | none => .ok ()

def sync (disk : Disk) (directory : Path) : Except FileError Unit := disk.access directory

def remove (disk : Disk) (path : Path) : Except FileError Disk :=
  (disk.lookup path).map fun _ => { disk with nodes := disk.nodes.erase path }

/-- Gives a file another name; a file that has that name already loses it. -/
def rename (disk : Disk) (source target : Path) : Except FileError Disk := do
  let file ← disk.lookup source
  match ← disk.find target with
  | some .directory => .error .isDirectory
  | _ => return { disk with nodes := (disk.nodes.erase source).insert target (.file file) }

def makeFrom (disk : Disk) (place : Path) : List String → Except FileError Unit × Disk
  | [] => (.ok (), disk)
  | name :: rest =>
    let path := place ++ [name]
    if nameLimit < (Utf8.encode name).length then (.error .nameTooLong, disk)
    else match disk.node? path with
      | some .directory => disk.makeFrom path rest
      | some (.file _) =>
        (.error (if rest.isEmpty then .alreadyExists else .notDirectory), disk)
      | none =>
        makeFrom { disk with nodes := disk.nodes.insert path .directory } path rest

def makeDirectories (disk : Disk) (path : Path) : Except FileError Unit × Disk :=
  if path.any fun name => name.toList.contains '\x00' then (.error .nulInName, disk)
  else disk.makeFrom [] path

def removeTree (disk : Disk) (path : Path) : Disk :=
  { disk with nodes := disk.nodes.restrict fun other => !path.isPrefixOf other }

def entries (disk : Disk) (path : Path) : List (String × Option Bytes) :=
  match disk.node? path with
  | some .directory =>
    disk.nodes.entries.filterMap fun (other, node) =>
      match other.getLast? with
      | some name =>
        if other.dropLast = path then
          match node with
          | .directory => some (name, none)
          | .file file => some (name, some (disk.content file))
        else none
      | none => none
  | _ => []

inductive Change where
  | create (path : Path)
  | write (path : Path) (bytes : Bytes)
  | rename (source target : Path)
  | remove (path : Path)
  deriving DecidableEq, Repr

def apply (disk : Disk) : Change → Except FileError Disk
  | .create path => (disk.create path).map (·.2)
  | .write path bytes => (disk.lookup path).map fun file => disk.extend file bytes
  | .rename source target => disk.rename source target
  | .remove path => disk.remove path

def applyAll (disk : Disk) : List Change → Except FileError Unit × Disk
  | [] => (.ok (), disk)
  | change :: rest =>
    match disk.apply change with
    | .ok disk => disk.applyAll rest
    | .error e => (.error e, disk)

/-- Something that others do to the disk; it tells whether it could be done. -/
inductive Interference where
  | write (bytes : Bytes)
  | append (bytes : Bytes)
  | truncate (length : Nat)
  | makeDirectory
  | remove
  deriving DecidableEq, Repr

def interfere (disk : Disk) (path : Path) : Interference → Bool × Disk
  | .write bytes =>
    match disk.create path with
    | .ok (file, disk) => (true, disk.setContent file bytes)
    | .error _ => (false, disk)
  | .append bytes =>
    match disk.openFile path with
    | .ok (file, disk) => (true, disk.extend file bytes)
    | .error _ => (false, disk)
  | .truncate length =>
    match disk.lookup path with
    | .ok file => (true, disk.resize file length)
    | .error _ => (false, disk)
  | .makeDirectory =>
    match disk.makeDirectories path with
    | (.ok (), disk) => (true, disk)
    | (.error _, disk) => (false, disk)
  | .remove =>
    match disk.find path with
    | .ok (some _) => (true, disk.removeTree path)
    | _ => (false, disk)

def addEntries (disk : Disk) (base : Path) (entries : List (String × Option Bytes)) : Disk :=
  entries.foldl (fun disk (name, content) =>
    let path := Path.resolve base name
    match content with
    | none => (disk.makeDirectories path).2
    | some bytes => ((disk.makeDirectories path.dropLast).2.interfere path (.write bytes)).2) disk

def ofEntries (base : Path) (entries : List (String × Option Bytes)) : Disk :=
  (({} : Disk).makeDirectories base).2.addEntries base entries

end Disk

end AtomicCommit
