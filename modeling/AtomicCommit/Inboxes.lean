import AtomicCommit.Table
import AtomicCommit.Text.Quoted

/-! Inboxes: one queue of messages for each transaction that somebody works on. -/

namespace AtomicCommit

structure Inbox (α : Type) where
  txn : String
  queue : List α := []
  deriving DecidableEq, Repr

/-- Inboxes have numbers in the order of their creation. A transaction has a route to one inbox at
most; an inbox outlives its route until whoever holds it lets go. -/
structure Inboxes (α : Type) where
  routes : Table String Nat := ∅
  inboxes : Table Nat (Inbox α) := ∅
  next : Nat := 0
  deriving DecidableEq, Repr

namespace Inboxes

variable {α : Type}

def transactions (t : Inboxes α) : List String := t.routes.keys

def has (t : Inboxes α) (txn : String) : Bool := t.routes.contains txn

def create (t : Inboxes α) (txn : String) : Option (Nat × Inboxes α) :=
  if t.has txn then none
  else some (t.next,
    { routes := t.routes.insert txn t.next
      inboxes := t.inboxes.insert t.next ⟨txn, []⟩
      next := t.next + 1 })

/-- Puts a message into the inbox of a transaction and tells its number; without an inbox the
message goes back. -/
def deliver (t : Inboxes α) (txn : String) (message : α) : Except α Nat × Inboxes α :=
  match t.routes.get? txn with
  | none => (.error message, t)
  | some number =>
    match t.inboxes.get? number with
    | none => (.error message, t)
    | some inbox =>
      (.ok number, { t with
        inboxes := t.inboxes.insert number { inbox with queue := inbox.queue ++ [message] } })

def queue (t : Inboxes α) (number : Nat) : List α :=
  match t.inboxes.get? number with
  | some inbox => inbox.queue
  | none => []

def receive (t : Inboxes α) (number : Nat) : Option α × Inboxes α :=
  match t.inboxes.get? number with
  | some ⟨txn, message :: rest⟩ =>
    (some message, { t with inboxes := t.inboxes.insert number ⟨txn, rest⟩ })
  | _ => (none, t)

def setQueue (t : Inboxes α) (number : Nat) (queue : List α) : Inboxes α :=
  { t with inboxes := t.inboxes.adjust ({ · with queue := queue }) number }

/-- Takes away the route to an inbox, but never one that leads to another inbox by now. -/
def unregister (t : Inboxes α) (number : Nat) : Inboxes α :=
  match t.inboxes.get? number with
  | some inbox =>
    if t.routes.get? inbox.txn = some number then
      { t with routes := t.routes.erase inbox.txn }
    else t
  | none => t

def drain (t : Inboxes α) (number : Nat) : List α × Inboxes α :=
  match t.inboxes.get? number with
  | some inbox =>
    (inbox.queue, { t with inboxes := t.inboxes.insert number { inbox with queue := [] } })
  | none => ([], t)

def drop (t : Inboxes α) (number : Nat) : Inboxes α :=
  let t := t.unregister number
  { t with inboxes := t.inboxes.erase number }

/-- Stops deliveries to an inbox, hands back its messages and lets go of it. -/
def close (t : Inboxes α) (number : Nat) : List α × Inboxes α :=
  let (leftovers, t) := (t.unregister number).drain number
  (leftovers, t.drop number)

def describe (t : Inboxes α) (number : Nat) : Option String :=
  (t.inboxes.get? number).map fun inbox =>
    "Inbox \x7b txn: " ++ Text.quote inbox.txn ++ ", generation: " ++ toString number ++ " \x7d"

end Inboxes

end AtomicCommit
