import AtomicCommit.Json.Field

/-! Votes, and the outcome that they decide. -/

namespace AtomicCommit

inductive Vote where
  | accept
  | refuse
  deriving DecidableEq, Repr

inductive Outcome where
  | commit
  | abort
  deriving DecidableEq, Repr

namespace Vote

def isAccept : Vote → Bool
  | .accept => true
  | .refuse => false

def text : Vote → String
  | .accept => "ACCEPT"
  | .refuse => "REFUSE"

def name : Vote → String
  | .accept => "Accept"
  | .refuse => "Refuse"

def names : List (String × Vote) := [("Accept", .accept), ("Refuse", .refuse)]

def json (vote : Vote) : Json := .string vote.name

open Json in
def read : Reader Vote := fun input => do
  let (b, rest) ← valueStart input
  if b = quoteMark then readVariant names (b :: rest)
  else if b = objectOpen then
    let (vote, rest) ← readVariant names rest
    let (b, rest) ← valueStart (← afterColon rest)
    let rest ← if b = 0x6E then word ['u', 'l', 'l'] rest else .error (mismatch "unit" (b :: rest))
    match skipSpace rest with
    | [] => .error .endInObject
    | b :: rest => if b = objectClose then return (vote, rest) else .error .expectedValue
  else .error .expectedValue

def parse (text : String) : Except Json.Fault Vote := Json.readAll read (Utf8.encode text)

end Vote

namespace Outcome

def ofVotes (votes : List Vote) : Outcome := if votes.all Vote.isAccept then .commit else .abort

def isCommit : Outcome → Bool
  | .commit => true
  | .abort => false

def text : Outcome → String
  | .commit => "COMMIT"
  | .abort => "ABORT"

def name : Outcome → String
  | .commit => "Commit"
  | .abort => "Abort"

def names : List (String × Outcome) := [("Commit", .commit), ("Abort", .abort)]

def json (outcome : Outcome) : Json := .string outcome.name

end Outcome

end AtomicCommit
