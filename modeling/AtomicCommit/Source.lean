import AtomicCommit.Table
import AtomicCommit.Json.Field

/-! Sources: resources that participants contribute to a transaction, written
`participant:resource`. -/

namespace AtomicCommit

structure Source where
  participant : String
  resource : String
  deriving DecidableEq, Repr

inductive SourceError where
  | missingSeparator (text : String)
  | emptyParticipant (text : String)
  | emptyResource (text : String)
  deriving DecidableEq, Repr

def SourceError.message : SourceError → String
  | .missingSeparator text => "Source is missing the ':' separator: " ++ text
  | .emptyParticipant text => "Source has an empty participant: " ++ text
  | .emptyResource text => "Source has an empty resource: " ++ text

namespace Source

def text (s : Source) : String := s.participant ++ ":" ++ s.resource

def parse (text : String) : Except SourceError Source :=
  let participant := text.toList.takeWhile (· ≠ ':')
  match text.toList.dropWhile (· ≠ ':') with
  | [] => .error (.missingSeparator text)
  | _ :: resource =>
    if participant.isEmpty then .error (.emptyParticipant text)
    else if resource.isEmpty then .error (.emptyResource text)
    else .ok ⟨String.ofList participant, String.ofList resource⟩

def parseAll (texts : List String) : Except SourceError (List Source) := texts.mapM parse

def before (a b : Source) : Bool :=
  a.participant < b.participant || (a.participant == b.participant && !(b.resource < a.resource))

def sort (sources : List Source) : List Source := sources.mergeSort before

abbrev NameSet := Table String Unit

def sharesOf (sources : List Source) : Table String NameSet :=
  sources.foldl (fun shares s =>
    shares.insert s.participant (((shares.get? s.participant).getD ∅).insert s.resource ())) ∅

def shares (sources : List Source) : List (String × List String) :=
  (sharesOf sources).entries.map fun (participant, resources) => (participant, resources.keys)

def json (s : Source) : Json :=
  .object [("participant", .string s.participant), ("resource", .string s.resource)]

def ofJson (value : Json) : Except Json.Fault Source :=
  (Json.structure2 "struct SourceRef" ⟨"participant", Json.asString⟩ ⟨"resource", Json.asString⟩
    value).map fun (participant, resource) => ⟨participant, resource⟩

end Source

end AtomicCommit
