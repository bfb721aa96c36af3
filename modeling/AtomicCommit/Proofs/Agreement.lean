import AtomicCommit.Log.Ledger
import AtomicCommit.Proofs.Coordinator.Consistent
import AtomicCommit.Proofs.Coordinator.WriteAhead
import AtomicCommit.Proofs.Play

/-! Agreement: wherever an outcome of a transaction shows, it is the one outcome that the coordinator
has logged. -/

namespace AtomicCommit.System

variable {σ τ : Type}

/-- Where an outcome of a transaction can show: in a log, in a message of the coordinator, or as what
a commit returns. -/
inductive Shows (w : System σ τ) (txn : String) (outcome : Outcome) : Prop where
  | decided : .decision txn outcome ∈ logged w.coordinatorHistory → w.Shows txn outcome
  | heard (address : String) : .decision txn outcome ∈ logged (w.participantHistory address) →
      w.Shows txn outcome
  | announced (recipient : String) (message : Message) :
      .sent recipient message ∈ w.coordinatorHistory → message.txn = txn →
      message.phase = outcome.phase → w.Shows txn outcome
  | returned : .finished txn (.ok outcome) ∈ w.coordinatorHistory → w.Shows txn outcome

variable [Journal σ Coordinator.Entry] [LawfulJournal σ Coordinator.Entry] [Publishing σ]
variable [Journal τ Participant.Entry] [LawfulJournal τ Participant.Entry] [ResourceStore τ]
variable {w : System σ τ} {txn address : String} {outcome : Outcome}

theorem backed [LawfulPublishing σ Coordinator.Entry] (reachable : Reachable w)
    {recipient : String} {message : Message} (sent : .sent recipient message ∈ w.coordinatorHistory) :
    Coordinator.Backed w.coordinatorHistory recipient message :=
  (Coordinator.writeAhead_run reachable.coordinator).backed.of_mem Coordinator.backing_lasting sent

theorem grounded [LawfulStore τ Participant.Entry] (reachable : Reachable w)
    {event : Participant.Event} (happened : event ∈ w.participantHistory address) :
    Participant.grounds (w.participantHistory address) event :=
  (Participant.Grounded.run (reachable.participant address)).ordered.of_mem
    Participant.grounds_lasting happened

theorem honest [LawfulStore τ Participant.Entry] (reachable : Reachable w) {recipient : String}
    {message : Message} (sent : .sent recipient message ∈ w.participantHistory address) :
    Participant.Honest (logged (w.participantHistory address)) message :=
  grounded reachable sent

theorem replied [LawfulPublishing σ Coordinator.Entry] (reachable : Reachable w) {envelope : Envelope}
    (received : .received envelope ∈ w.coordinatorHistory)
    (unasked : envelope.message.phase ≠ .prepare)
    (untold : ∀ outcome : Outcome, envelope.message.phase ≠ outcome.phase) :
    .sent w.office envelope.message ∈ w.participantHistory envelope.sender := by
  rcases (reachable.office_carries received).origin with ⟨_, sent⟩ | sent
  · rcases (backed reachable sent).kind with phase | ⟨outcome, phase⟩
    · exact absurd phase unasked
    · exact absurd phase (untold outcome)
  · exact sent

variable [LawfulPublishing σ Coordinator.Entry] [LawfulStore τ Participant.Entry]

theorem told_decided (reachable : Reachable w)
    (told : Participant.Told (w.participantHistory address) txn outcome) :
    .decision txn outcome ∈ logged w.coordinatorHistory := by
  obtain ⟨envelope, received, phase, rfl⟩ := told
  rcases (reachable.participant_carries received).origin with ⟨_, sent⟩ | sent
  · exact (backed reachable sent).decision outcome phase
  · exact absurd phase ((honest reachable sent).phase outcome)

theorem shown_decided (reachable : Reachable w) (shows : w.Shows txn outcome) :
    .decision txn outcome ∈ logged w.coordinatorHistory := by
  cases shows with
  | decided decided => exact decided
  | heard address heard =>
    have told : Participant.Told (w.participantHistory address) txn outcome :=
      grounded reachable (Participant.mem_logged.mp heard)
    exact told_decided reachable told
  | announced recipient message sent named phase =>
    subst named
    exact (backed reachable sent).decision outcome phase
  | returned finished =>
    exact (Coordinator.writeAhead_run reachable.coordinator).backed.of_mem
      Coordinator.backing_lasting finished

/-- Two outcomes of one transaction are the same, wherever they show. -/
theorem outcome_agreed (reachable : Reachable w)
    (unique : Coordinator.UniqueNames w.coordinatorHistory) {first second : Outcome}
    (one : w.Shows txn first) (other : w.Shows txn second) : first = second :=
  Coordinator.decision_unique (Coordinator.consistent_run reachable.coordinator unique)
    (shown_decided reachable one) (shown_decided reachable other)

theorem agreed_after_restart : ∃ w, still.playAll committing = some w ∧
    .decision "t" .commit ∈ logged (w.participantHistory "p") ∧
    ∀ outcome, w.Shows "t" outcome → outcome = .commit := by
  have played : ((still.playAll committing).map fun w =>
      decide (Coordinator.UniqueNames w.coordinatorHistory) &&
        decide (.decision "t" .commit ∈ logged (w.participantHistory "p"))) = some true := by rfl
  obtain ⟨w, played, facts⟩ := Option.map_eq_some_iff.mp played
  rw [Bool.and_eq_true, decide_eq_true_eq, decide_eq_true_eq] at facts
  obtain ⟨unique, heard⟩ := facts
  refine ⟨w, played, heard, fun outcome shows => ?_⟩
  exact outcome_agreed (still_reaches played) unique shows (.heard "p" heard)

end AtomicCommit.System
