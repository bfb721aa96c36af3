import AtomicCommit.Log.Journal

/-! A log kept in a file, one line for each record. -/

namespace AtomicCommit

/-- An open log: its path, the file that was there when it was opened, and the length up to its
last complete record. -/
structure FileLog where
  path : Path
  file : Nat
  length : Nat
  deriving DecidableEq, Repr

namespace FileLog

variable {ρ : Type} [Record ρ]

def newline : UInt8 := 0x0A

def defaultName : String := "log.txt"

def lines : Bytes → List (Bytes × Bool)
  | [] => []
  | b :: rest =>
    if b = newline then ([], true) :: lines rest
    else match lines rest with
      | [] => [([b], false)]
      | (line, isComplete) :: others => (b :: line, isComplete) :: others

/-- Where a record starts whose append never completed. The last line is torn when it lacks its
newline or does not decode; any other line that does not decode is damage. -/
def tornFrom (ρ : Type) [Record ρ] (number offset : Nat) :
    List (Bytes × Bool) → Except LogError (Option Nat)
  | [] => .ok none
  | (line, isComplete) :: rest =>
    let text := Utf8.decodeLossy line
    let next := offset + line.length + 1
    if Text.isBlank text then tornFrom ρ (number + 1) next rest
    else match (Log.decodeLine text number : Except LogError ρ) with
      | .ok _ => if isComplete then tornFrom ρ (number + 1) next rest else .ok (some offset)
      | .error fault => if rest.isEmpty then .ok (some offset) else .error fault

def torn (ρ : Type) [Record ρ] (content : Bytes) : Except LogError (Option Nat) :=
  tornFrom ρ 1 0 (lines content)

def repair (ρ : Type) [Record ρ] (path : Path) (disk : Disk) : Except LogError Disk :=
  match disk.lookup path with
  | .error .notFound => .ok disk
  | .error e => .error (.file e)
  | .ok file =>
    match torn ρ (disk.content file) with
    | .error fault => .error fault
    | .ok none => .ok disk
    | .ok (some offset) =>
      match disk.access path with
      | .error e => .error (.file e)
      | .ok () => .ok (disk.resize file offset)

def openTail (path : Path) (disk : Disk) : Except LogError (FileLog × Disk) :=
  match disk.access path with
  | .error e => .error (.file e)
  | .ok () =>
    match disk.openFile path with
    | .error e => .error (.file e)
    | .ok (file, disk) => .ok (⟨path, file, (disk.content file).length⟩, disk)

def openAt (ρ : Type) [Record ρ] (path : Path) (disk : Disk) : Except LogError FileLog × Disk :=
  match disk.makeDirectories path.dropLast with
  | (.error e, disk) => (.error (.file e), disk)
  | (.ok (), disk) =>
    match repair ρ path disk with
    | .error fault => (.error fault, disk)
    | .ok disk =>
      match openTail path disk with
      | .error fault => (.error fault, disk)
      | .ok (log, disk) => (.ok log, disk)

/-- Bytes past the known length come from an append that failed, and go first. -/
def append (record : ρ) (log : FileLog) (disk : Disk) : FileLog × Disk :=
  let line := Utf8.encode (Log.terminatedLine record)
  let disk := if (disk.content log.file).length = log.length then disk
    else disk.resize log.file log.length
  ({ log with length := log.length + line.length }, disk.extend log.file line)

/-- A carriage return before the newline belongs to the line end. -/
def lineText (line : Bytes × Bool) : Except LogError String :=
  let bytes := if line.2 ∧ line.1.getLast? = some 0x0D then line.1.dropLast else line.1
  match Utf8.decode? bytes with
  | some text => .ok text
  | none => .error .notText

/-- Reads whatever file has the log's name now. A directory in its place can be opened but never
read. -/
def replay (log : FileLog) (disk : Disk) : Except LogError (Log.Replay ρ) :=
  match disk.lookup log.path with
  | .error .notFound => .ok ⟨[], none⟩
  | .error .isDirectory => .ok ⟨[], some (.file .isDirectory)⟩
  | .error e => .error (.file e)
  | .ok file => .ok (.ofLines ((lines (disk.content file)).map lineText))

def stem (name : List Char) : List Char :=
  match name.reverse.dropWhile (· ≠ '.') with
  | _ :: c :: rest => (c :: rest).reverse
  | _ => name

/-- Where a compaction writes the new log: the extension of the name becomes `compact`. Of a name
such as `..x` only two dots would be left, which name the directory above. -/
def draftPath (path : Path) : Path :=
  match path.getLast? with
  | none => path
  | some name =>
    let stem := stem name.toList
    if stem = ['.'] then path.dropLast.dropLast
    else path.dropLast ++ [String.ofList stem ++ ".compact"]

def compaction (records : List ρ) (path : Path) : List Disk.Change :=
  let draft := draftPath path
  [.create draft] ++
    records.map (fun record => .write draft (Utf8.encode (Log.terminatedLine record))) ++
    [.rename draft path]

/-- When the directory cannot be synced, or the new file not be opened, the old file stays open, which
has no name any more. -/
def compact (records : List ρ) (log : FileLog) (disk : Disk) :
    Except LogError Unit × FileLog × Disk :=
  match disk.applyAll (compaction records log.path) with
  | (.error e, disk) => (.error (.file e), log, disk)
  | (.ok (), disk) =>
    match disk.sync log.path.dropLast with
    | .error e => (.error (.file e), log, disk)
    | .ok () =>
      match openTail log.path disk with
      | .error fault => (.error fault, log, disk)
      | .ok (log, disk) => (.ok (), log, disk)

end FileLog

end AtomicCommit
