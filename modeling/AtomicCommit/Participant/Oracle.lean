import AtomicCommit.Text.Utf8

/-! The oracle that a participant asks before it accepts. -/

namespace AtomicCommit

/-- An answer is there at once, or it is held back until somebody releases it. -/
inductive Answer where
  | ready (approved : Bool)
  | held (approved : Bool)
  deriving DecidableEq, Repr

def Answer.release : Answer → Answer
  | .held approved => .ready approved
  | answer => answer

inductive Oracle where
  | approve
  | refuse
  | byPayload
  deriving DecidableEq, Repr

def Oracle.ask (oracle : Oracle) (payload : Bytes) : Answer :=
  match oracle with
  | .approve => .ready true
  | .refuse => .ready false
  | .byPayload =>
    let approved := !(Utf8.encode "no").isSuffixOf payload
    if (Utf8.encode "slow").isPrefixOf payload then .held approved else .ready approved

end AtomicCommit
