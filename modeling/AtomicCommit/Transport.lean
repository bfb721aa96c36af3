import AtomicCommit.Message
import AtomicCommit.Table

/-! The transport between addresses. It may lose, duplicate and reorder what is sent; what the hook
of an address refuses is kept in the mailbox of that address. -/

namespace AtomicCommit

structure Packet where
  sender : String
  recipient : String
  body : Bytes
  deriving DecidableEq, Repr

inductive Fate where
  | deliver
  | drop
  | duplicate
  deriving DecidableEq, Repr

def Fate.copies : Fate → Nat
  | .deliver => 1
  | .drop => 0
  | .duplicate => 2

/-- A rule takes the packets that fit all that it names. It lets the first `skip` of them pass, and
gives the next `count` of them their fate. -/
structure FaultRule where
  sender : Option String := none
  recipient : Option String := none
  body : Option Bytes := none
  phase : Option String := none
  fate : Fate
  skip : Nat := 0
  count : Option Nat := none
  seen : Nat := 0
  deriving DecidableEq, Repr

namespace FaultRule

def fits (rule : FaultRule) (packet : Packet) : Bool :=
  rule.sender.all (· == packet.sender) && rule.recipient.all (· == packet.recipient) &&
  rule.body.all (· == packet.body) &&
  rule.phase.all fun tag =>
    match Message.decode packet.body with
    | .ok message => message.phase.tag == tag
    | .error _ => false

def applies (rule : FaultRule) : Bool :=
  decide (rule.skip ≤ rule.seen) && rule.count.all fun count => decide (rule.seen < rule.skip + count)

def judge (packet : Packet) : List FaultRule → Fate × List FaultRule
  | [] => (.deliver, [])
  | rule :: rest =>
    if rule.fits packet then
      let counted := { rule with seen := rule.seen + 1 }
      if rule.applies then (rule.fate, counted :: rest)
      else
        let (fate, rest) := judge packet rest
        (fate, counted :: rest)
    else
      let (fate, rest) := judge packet rest
      (fate, rule :: rest)

end FaultRule

inductive TransportError where
  | addressInUse (address : String)
  | addressNotFound (address : String)
  deriving DecidableEq, Repr

def TransportError.message : TransportError → String
  | .addressInUse address => "Address already has a handler: " ++ address
  | .addressNotFound address => "Address not found: " ++ address

def mailboxCapacity : Nat := 1024

/-- Everything sent is remembered, whatever became of it. -/
structure Transport (η : Type) where
  hooks : Table String η := ∅
  mailboxes : Table String (List Packet) := ∅
  partitioned : Table String Unit := ∅
  rules : List FaultRule := []
  sent : List Packet := []
  deriving Repr

inductive Arrival (η : Type) where
  | consumed (hook : η)
  | retained
  | lost
  deriving DecidableEq, Repr

namespace Transport

variable {η : Type}

def isRegistered (t : Transport η) (address : String) : Bool := t.hooks.contains address

def register (t : Transport η) (address : String) (hook : η) : Except TransportError (Transport η) :=
  if t.isRegistered address then .error (.addressInUse address)
  else .ok { t with hooks := t.hooks.insert address hook }

def unregister (t : Transport η) (address : String) : Except TransportError (Transport η) :=
  if t.isRegistered address then .ok { t with hooks := t.hooks.erase address }
  else .error (.addressNotFound address)

def isCut (t : Transport η) (packet : Packet) : Bool :=
  t.partitioned.contains packet.sender || t.partitioned.contains packet.recipient

def send (t : Transport η) (packet : Packet) : List Packet × Transport η :=
  let t := { t with sent := t.sent ++ [packet] }
  if t.isCut packet then ([], t)
  else
    let (fate, rules) := FaultRule.judge packet t.rules
    (List.replicate fate.copies packet, { t with rules := rules })

def mailbox (t : Transport η) (address : String) : List Packet :=
  (t.mailboxes.get? address).getD []

/-- Keeps a packet that its recipient refused; beyond the capacity the oldest one goes. -/
def retain (t : Transport η) (packet : Packet) : Transport η :=
  let kept := t.mailbox packet.recipient ++ [packet]
  let kept := if mailboxCapacity < kept.length then kept.drop 1 else kept
  { t with mailboxes := t.mailboxes.insert packet.recipient kept }

def arrive (t : Transport η) (accepts : η → Bool) (packet : Packet) : Arrival η × Transport η :=
  match t.hooks.get? packet.recipient with
  | none => (.lost, t)
  | some hook => if accepts hook then (.consumed hook, t) else (.retained, t.retain packet)

/-- Sends packets, then lets all their copies arrive in the order of sending. Gives what hooks took
in that order. -/
def exchange (t : Transport η) (accepts : η → Packet → Bool) (packets : List Packet) :
    List (η × Packet) × Transport η :=
  let send (state : List Packet × Transport η) (packet : Packet) : List Packet × Transport η :=
    let (copies, t) := state.2.send packet
    (state.1 ++ copies, t)
  let receive (state : List (η × Packet) × Transport η) (packet : Packet) :
      List (η × Packet) × Transport η :=
    match state.2.arrive (accepts · packet) packet with
    | (.consumed hook, t) => (state.1 ++ [(hook, packet)], t)
    | (_, t) => (state.1, t)
  let (travelling, t) := packets.foldl send ([], t)
  travelling.foldl receive ([], t)

def nextRetained (t : Transport η) (address : String) : Option Packet × Transport η :=
  match t.mailbox address with
  | [] => (none, t)
  | packet :: rest => (some packet, { t with mailboxes := t.mailboxes.insert address rest })

def partition (t : Transport η) (address : String) : Transport η :=
  { t with partitioned := t.partitioned.insert address () }

def heal (t : Transport η) (address : String) : Transport η :=
  { t with partitioned := t.partitioned.erase address }

def setRules (t : Transport η) (rules : List FaultRule) : Transport η := { t with rules := rules }

def sentCount (t : Transport η) (sender recipient : String) : Nat :=
  t.sent.countP fun packet => packet.sender == sender && packet.recipient == recipient

end Transport

end AtomicCommit
