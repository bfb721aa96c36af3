import AtomicCommit.Disk
import AtomicCommit.Text.Blank
import AtomicCommit.Json.Field

/-! Log records: one line of JSON each. -/

namespace AtomicCommit

/-- A record belongs to a transaction; a terminal one ends what has to be remembered of it. -/
class Record (ρ : Type) where
  txn : ρ → String
  isTerminal : ρ → Bool
  json : ρ → Json
  read : Json.Reader ρ

inductive LogError where
  | file (cause : FileError)
  | appendRefused
  | notText
  | unreadable (reason : String)
  | corrupt (line : Nat) (fault : Json.Fault)
  deriving DecidableEq, Repr

def LogError.message : LogError → String
  | .file cause => "Log I/O error: " ++ cause.message
  | .appendRefused => "Log I/O error: injected append failure"
  | .notText => "Log I/O error: stream did not contain valid UTF-8"
  | .unreadable reason => "Log I/O error: " ++ reason
  | .corrupt line fault => "Corrupt record at line " ++ toString line ++ ": " ++ fault.message

namespace Log

variable {ρ : Type} [Record ρ]

def line (record : ρ) : String := (Record.json record).text

def terminatedLine (record : ρ) : String := line record ++ "\n"

def decodeLine (text : String) (number : Nat) : Except LogError ρ :=
  match Json.readAll Record.read (Utf8.encode text) with
  | .ok record => .ok record
  | .error fault => .error (.corrupt number fault)

/-- The records of lines that are numbered from `number`; blank lines count but hold none. -/
def recordsFrom (number : Nat) : List (Except LogError String) → List (Except LogError ρ)
  | [] => []
  | .error fault :: rest => .error fault :: recordsFrom (number + 1) rest
  | .ok text :: rest =>
    if Text.isBlank text then recordsFrom (number + 1) rest
    else decodeLine text number :: recordsFrom (number + 1) rest

/-- What reading a log yields, item by item; after the items, a fault may come again and again. -/
structure Replay (ρ : Type) where
  items : List (Except LogError ρ)
  endless : Option LogError := none

def Replay.ofLines (lines : List (Except LogError String)) : Replay ρ := ⟨recordsFrom 1 lines, none⟩

def Replay.records (replay : Replay ρ) : Except LogError (List ρ) := do
  let records ← replay.items.mapM id
  match replay.endless with
  | some fault => .error fault
  | none => return records

def Replay.readable (replay : Replay ρ) : List ρ := replay.items.filterMap Except.toOption

def LogError.isReading : LogError → Bool
  | .corrupt _ _ => false
  | _ => true

def upToFaults (count : Nat) : List (Except LogError ρ) → List (Except LogError ρ)
  | [] => []
  | .ok record :: rest => .ok record :: upToFaults count rest
  | .error fault :: rest =>
    if LogError.isReading fault then
      match count with
      | 0 => []
      | 1 => [.error fault]
      | count + 1 => .error fault :: upToFaults count rest
    else .error fault :: upToFaults count rest

/-- What a reader sees who gives up when so many lines could not be read. -/
def Replay.seenBy (patience : Nat) (replay : Replay ρ) : List (Except LogError ρ) :=
  let again := match replay.endless with
    | some fault => List.replicate patience (.error fault)
    | none => []
  upToFaults patience (replay.items ++ again)

def isFinished (records : List ρ) (txn : String) : Bool :=
  records.any fun record => Record.isTerminal record && Record.txn record == txn

def unfinished (records : List ρ) : List ρ :=
  records.filter fun record => !isFinished records (Record.txn record)

end Log

end AtomicCommit
