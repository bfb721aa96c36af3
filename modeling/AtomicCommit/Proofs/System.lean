import AtomicCommit.Proofs.Coordinator.Run
import AtomicCommit.Proofs.Participant.Run
import Mathlib.Logic.Function.Basic

/-! One coordinator and any number of participants over a transport that may lose, repeat, delay and
reorder what is sent: whatever was sent once may arrive at any later time, any number of times. -/

namespace AtomicCommit

inductive Happening where
  | coordinator (event : Coordinator.Event)
  | participant (address : String) (event : Participant.Event)

namespace Happening

def ofCoordinator? : Happening → Option Coordinator.Event
  | .coordinator event => some event
  | .participant _ _ => none

def ofParticipant? (address : String) : Happening → Option Participant.Event
  | .coordinator _ => none
  | .participant own event => if own = address then some event else none

def packet? (office : String) : Happening → Option Packet
  | .coordinator (.sent recipient message) => some ⟨office, recipient, message.encode⟩
  | .participant address (.sent recipient message) => some ⟨address, recipient, message.encode⟩
  | _ => none

end Happening

/-- Every address has a station of a participant; at most of them none is ever started. The office is
the address of the coordinator. -/
structure System (σ τ : Type) where
  office : String
  coordinator : Coordinator.Station σ
  participants : String → Participant.Station τ
  history : List Happening

namespace System

variable {σ τ : Type}

def coordinatorHistory (w : System σ τ) : List Coordinator.Event :=
  w.history.filterMap Happening.ofCoordinator?

def participantHistory (w : System σ τ) (address : String) : List Participant.Event :=
  w.history.filterMap (Happening.ofParticipant? address)

def packets (w : System σ τ) : List Packet := w.history.filterMap (Happening.packet? w.office)

/-- A packet has been sent that can arrive at the recipient and reads as the envelope there. -/
def Carries (w : System σ τ) (recipient : String) (envelope : Envelope) : Prop :=
  ∃ packet ∈ w.packets, packet.recipient = recipient ∧ packet.sender = envelope.sender ∧
    Message.decode packet.body = .ok envelope.message

variable [Journal σ Coordinator.Entry] [LawfulJournal σ Coordinator.Entry] [Publishing σ]
variable [Journal τ Participant.Entry] [LawfulJournal τ Participant.Entry] [ResourceStore τ]

inductive Step : System σ τ → System σ τ → Prop where
  | coordinator (w : System σ τ) (events : List Coordinator.Event)
      (station : Coordinator.Station σ) :
      Coordinator.Station.Step w.coordinator events station →
      (∀ envelope, .received envelope ∈ events → w.Carries w.office envelope) →
      Step w { w with
        coordinator := station
        history := w.history ++ events.map .coordinator }
  | participant (w : System σ τ) (address : String) (events : List Participant.Event)
      (station : Participant.Station τ) :
      Participant.Station.Step (w.participants address) events station →
      (∀ envelope, .received envelope ∈ events → w.Carries address envelope) →
      Step w { w with
        participants := Function.update w.participants address station
        history := w.history ++ events.map (.participant address) }

/-- The systems that a run leads to. All logs are empty when it begins. -/
inductive Reachable : System σ τ → Prop where
  | begin (office : String) (storage : σ) (storages : String → τ) :
      held storage = [] → (∀ address, held (storages address) = []) →
      Reachable ⟨office, { storage := storage }, fun address => { storage := storages address }, []⟩
  | step {w w' : System σ τ} : Reachable w → Step w w' → Reachable w'

end System

end AtomicCommit
