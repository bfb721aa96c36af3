import AtomicCommit.Coordinator.Engine
import AtomicCommit.Inboxes

/-! Admission of transactions. The sources are looked at first; then a transaction waits for the gate
and reserves its name. -/

namespace AtomicCommit.Coordinator

inductive Admission where
  | refused (cause : CoordinatorError)
  | stalled
  | admitted (inbox : Nat) (inboxes : Inboxes Envelope) (sources : List Source)

def admission (name : String) (sources : List String) (gateOpen : Bool) (inboxes : Inboxes Envelope) :
    Admission :=
  match Source.parseAll sources with
  | .error e => .refused (.source e)
  | .ok sources =>
    if !gateOpen then .stalled
    else match inboxes.create name with
      | none => .refused (.duplicate name)
      | some (inbox, inboxes) => .admitted inbox inboxes sources

end AtomicCommit.Coordinator
