import AtomicCommit.Log.Ledger
import AtomicCommit.Proofs.Coordinator.Play
import AtomicCommit.Proofs.Delivery
import AtomicCommit.Proofs.Participant.Play

/-! Playing a run of a system. Messages are delivered by the place that their sending has in the
history. -/

namespace AtomicCommit

inductive Action where
  | coordinator (action : Coordinator.Action)
  | participant (address : String) (action : Participant.Action)
  | deliver (place : Nat)
  deriving DecidableEq, Repr

namespace System

variable {σ τ : Type}

def arrival? (w : System σ τ) (place : Nat) : Option (String × Envelope) :=
  match w.history[place]? with
  | some (.coordinator (.sent recipient message)) => some (recipient, ⟨w.office, message⟩)
  | some (.participant address (.sent recipient message)) => some (recipient, ⟨address, message⟩)
  | _ => none

theorem arrival_carries {w : System σ τ} {place : Nat} {recipient : String} {envelope : Envelope}
    (arrives : w.arrival? place = some (recipient, envelope)) : w.Carries recipient envelope := by
  simp only [arrival?] at arrives
  split at arrives
  next target message sent =>
    cases arrives
    exact ⟨_, List.mem_filterMap.mpr ⟨_, List.mem_of_getElem? sent, rfl⟩, rfl, rfl,
      message.decode_encode⟩
  next address target message sent =>
    cases arrives
    exact ⟨_, List.mem_filterMap.mpr ⟨_, List.mem_of_getElem? sent, rfl⟩, rfl, rfl,
      message.decode_encode⟩
  next => cases arrives

variable [Journal σ Coordinator.Entry] [Publishing σ]
variable [Journal τ Participant.Entry] [ResourceStore τ]

def playCoordinator (w : System σ τ) (action : Coordinator.Action) : Option (System σ τ) := do
  let (events, station) ← w.coordinator.play action
  some { w with coordinator := station, history := w.history ++ events.map .coordinator }

def playParticipant (w : System σ τ) (address : String) (action : Participant.Action) :
    Option (System σ τ) := do
  let (events, station) ← (w.participants address).play action
  some { w with
    participants := Function.update w.participants address station
    history := w.history ++ events.map (.participant address) }

def play (w : System σ τ) : Action → Option (System σ τ)
  | .coordinator (.receive _) => none
  | .coordinator action => w.playCoordinator action
  | .participant _ (.receive _) => none
  | .participant address action => w.playParticipant address action
  | .deliver place => do
    let (recipient, envelope) ← w.arrival? place
    if recipient = w.office then w.playCoordinator (.receive envelope)
    else w.playParticipant recipient (.receive envelope)

def playAll (w : System σ τ) : List Action → Option (System σ τ)
  | [] => some w
  | action :: rest => do (← w.play action).playAll rest

theorem silent (reaction : Participant.Reaction) (sender : String) (envelope : Envelope) :
    .received envelope ∉ reaction.events sender := by
  cases reaction <;> simp [Participant.Reaction.events]

theorem participant_receives {s s' : Participant.Station τ} {action : Participant.Action}
    {events : List Participant.Event} {envelope : Envelope}
    (played : s.play action = some (events, s')) (received : .received envelope ∈ events) :
    action = .receive envelope := by
  cases action with
  | start config =>
    simp only [Participant.Station.play] at played
    split at played
    next =>
      cases played
      simp [Participant.Station.startEvents] at received
    next => cases played
  | stop =>
    cases played
    simp at received
  | receive arrived =>
    simp only [Participant.Station.play, Option.bind_eq_bind, Option.bind_eq_some_iff] at played
    obtain ⟨now, running, played⟩ := played
    split at played
    next =>
      cases played
      obtain rfl : envelope = arrived := by
        simpa [Participant.Station.reactionEvents, silent] using received
      rfl
    next => cases played
  | answer txn approved =>
    simp only [Participant.Station.play, Option.bind_eq_bind, Option.bind_eq_some_iff] at played
    obtain ⟨now, running, question, asked, played⟩ := played
    cases played
    simp [Participant.Station.reactionEvents, silent] at received

variable [LawfulJournal σ Coordinator.Entry] [LawfulJournal τ Participant.Entry]

theorem playCoordinator_step {w w' : System σ τ} {action : Coordinator.Action}
    (played : w.playCoordinator action = some w')
    (arrives : ∀ envelope, action = .receive envelope → w.Carries w.office envelope) :
    Step w w' := by
  simp only [playCoordinator, Option.bind_eq_bind, Option.bind_eq_some_iff] at played
  obtain ⟨⟨events, station⟩, played, moved⟩ := played
  cases moved
  exact .coordinator w events station (Coordinator.Station.play_step played)
    fun envelope received => arrives envelope (Coordinator.Station.play_brings played _ received)

theorem playParticipant_step {w w' : System σ τ} {address : String} {action : Participant.Action}
    (played : w.playParticipant address action = some w')
    (arrives : ∀ envelope, action = .receive envelope → w.Carries address envelope) :
    Step w w' := by
  simp only [playParticipant, Option.bind_eq_bind, Option.bind_eq_some_iff] at played
  obtain ⟨⟨events, station⟩, played, moved⟩ := played
  cases moved
  exact .participant w address events station (Participant.Station.play_step played)
    fun envelope received => arrives envelope (participant_receives played received)

theorem play_step {w w' : System σ τ} {action : Action} (played : w.play action = some w') :
    Step w w' := by
  cases action with
  | coordinator action =>
    cases action with
    | receive => cases played
    | _ => exact playCoordinator_step played (by simp)
  | participant address action =>
    cases action with
    | receive => cases played
    | _ => exact playParticipant_step played (by simp)
  | deliver place =>
    simp only [play, Option.bind_eq_bind, Option.bind_eq_some_iff] at played
    obtain ⟨⟨recipient, envelope⟩, arrives, played⟩ := played
    have carries := arrival_carries arrives
    split at played
    next same =>
      subst same
      exact playCoordinator_step played (by rintro _ ⟨⟩; exact carries)
    next => exact playParticipant_step played (by rintro _ ⟨⟩; exact carries)

theorem playAll_reachable {w w' : System σ τ} {actions : List Action} (reachable : Reachable w)
    (played : w.playAll actions = some w') : Reachable w' := by
  induction actions generalizing w with
  | nil =>
    cases played
    exact reachable
  | cons action rest ih =>
    simp only [playAll, Option.bind_eq_bind, Option.bind_eq_some_iff] at played
    obtain ⟨between, one, others⟩ := played
    exact ih (reachable.step (play_step one)) others

def still : System (Beside (Ledger Coordinator.Entry) Publisher)
    (Beside (Ledger Participant.Entry) DirectoryStore) :=
  ⟨"office", { storage := ⟨{}, ⟨["out"], {}, "draft"⟩⟩ },
    fun _ => { storage := ⟨{}, ⟨[], { nodes := ⟨[(["x"], .file 0)]⟩ }⟩⟩ }, []⟩

def committing : List Action :=
  [.coordinator (.start {}), .participant "p" (.start {}), .coordinator (.commit "t" [7] ["p:x"]),
    .coordinator (.advance 0), .deliver 8, .participant "p" (.answer "t" true),
    .participant "p" .stop, .participant "p" (.start {}), .deliver 13, .coordinator (.advance 0),
    .coordinator (.advance 0), .coordinator (.advance 0), .coordinator (.advance 0),
    .coordinator (.advance 0), .deliver 21, .deliver 21, .deliver 26, .coordinator (.advance 0),
    .coordinator (.advance 0), .coordinator (.advance 0)]

theorem still_reaches {w : System (Beside (Ledger Coordinator.Entry) Publisher)
    (Beside (Ledger Participant.Entry) DirectoryStore)} {actions : List Action}
    (played : still.playAll actions = some w) : Reachable w :=
  playAll_reachable (.begin "office" _ _ rfl fun _ => rfl) played

end System

end AtomicCommit
