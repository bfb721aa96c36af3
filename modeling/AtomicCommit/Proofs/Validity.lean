import AtomicCommit.Proofs.Agreement
import AtomicCommit.Proofs.Coordinator.Votes
import AtomicCommit.Proofs.Participant.Exclusion
import AtomicCommit.Proofs.Sources

/-! Validity: what is committed was accepted by all its participants, each for its share of the
sources, and the shares stay locked until the commit has taken effect. -/

namespace AtomicCommit.System

variable {σ τ : Type} [Journal σ Coordinator.Entry] [LawfulJournal σ Coordinator.Entry]
  [Publishing σ] [LawfulPublishing σ Coordinator.Entry]
variable [Journal τ Participant.Entry] [LawfulJournal τ Participant.Entry] [ResourceStore τ]
  [LawfulStore τ Participant.Entry]
variable {w : System σ τ} {txn address : String} {resources : List String}

theorem accepted_logged (reachable : Reachable w)
    (voted : Coordinator.Voted w.coordinatorHistory txn address .accept) :
    ∃ resources, .prepare txn resources .accept ∈ logged (w.participantHistory address) := by
  obtain ⟨envelope, received, rfl, rfl, accepts⟩ := voted
  have sent := replied reachable received (by simp [accepts, Vote.phase])
    (by rintro (_ | _) <;> simp [accepts, Vote.phase, Outcome.phase])
  exact (honest reachable sent).acceptance accepts

theorem voted_share (reachable : Reachable w) {vote : Vote}
    (voted : .prepare txn resources vote ∈ logged (w.participantHistory address)) :
    ∃ sources, .prepare txn sources ∈ logged w.coordinatorHistory ∧
      (address, resources) ∈ Source.shares sources := by
  have requested : Participant.Requested (w.participantHistory address) txn resources :=
    grounded reachable (Participant.mem_logged.mp voted)
  obtain ⟨envelope, received, phase, rfl, rfl⟩ := requested
  rcases (reachable.participant_carries received).origin with ⟨_, sent⟩ | sent
  · exact (backed reachable sent).request phase
  · exact absurd phase (honest reachable sent).request

def Accepted (w : System σ τ) (txn : String) (sources : List Source) (address : String) : Prop :=
  ∃ resources, .prepare txn resources .accept ∈ held (w.participants address).storage ∧
    resources.Pairwise (· < ·) ∧ ∀ resource, resource ∈ resources ↔ ⟨address, resource⟩ ∈ sources

theorem commit_accepted (reachable : Reachable w)
    (unique : Coordinator.UniqueNames w.coordinatorHistory)
    (decided : .decision txn .commit ∈ logged w.coordinatorHistory) :
    ∃ payload sources, .admitted ⟨txn, payload, sources⟩ ∈ w.coordinatorHistory ∧
      .prepare txn sources ∈ logged w.coordinatorHistory ∧
      ∀ source ∈ sources, w.Accepted txn sources source.participant := by
  have collects := Coordinator.collects_run reachable.coordinator unique
  obtain ⟨sources, prepared, unanimous⟩ := collects.commits txn decided
  obtain ⟨payload, admitted⟩ := collects.prepares txn sources prepared
  refine ⟨payload, sources, admitted, prepared, fun source member => ?_⟩
  obtain ⟨asked, share⟩ := Source.share_of_mem member
  obtain ⟨resources, voted⟩ := accepted_logged reachable
    (unanimous source.participant (List.mem_map.mpr ⟨_, share, rfl⟩))
  obtain ⟨others, preparedToo, shareToo⟩ := voted_share reachable voted
  obtain rfl := Coordinator.request_unique
    (Coordinator.consistent_run reachable.coordinator unique) preparedToo prepared
  have kept := (Participant.consistent_run (reachable.participant source.participant)).kept
  exact ⟨resources, kept.mem_log voted rfl, Source.mem_shares shareToo⟩

/-- When a commit has been logged, all participants have accepted their shares. From the vote to the
end at a participant its share is locked there: no other transaction gets an acceptance on any of
it, and an earlier acceptance that is only repeated meanwhile is of a transaction that has ended. -/
theorem commit_valid {w : System σ τ} (reachable : Reachable w)
    (unique : Coordinator.UniqueNames w.coordinatorHistory) (txn : String) :
    (.decision txn .commit ∈ logged w.coordinatorHistory → ∃ payload sources,
      .admitted ⟨txn, payload, sources⟩ ∈ w.coordinatorHistory ∧
      .prepare txn sources ∈ logged w.coordinatorHistory ∧
      ∀ source ∈ sources, w.Accepted txn sources source.participant) ∧
    ∀ address resources, .prepare txn resources .accept ∈ logged (w.participantHistory address) →
      (.done txn ∉ logged (w.participantHistory address) → ∀ now,
        (w.participants address).running = some now → ∀ resource ∈ resources,
          now.memory.locks.owner? resource = some txn) ∧
      ∀ before event after, w.participantHistory address = before ++ event :: after →
        .prepare txn resources .accept ∈ logged before → .done txn ∉ logged before →
        (∀ other others, event = .did (.appended (.prepare other others .accept)) →
          other ≠ txn → ∀ resource ∈ resources, resource ∉ others) ∧
        ∀ recipient message, event = .sent recipient message → message.phase = .accept →
          message.txn ≠ txn → ∃ others, .prepare message.txn others .accept ∈ logged before ∧
            (.done message.txn ∉ logged before → ∀ resource ∈ resources, resource ∉ others) := by
  refine ⟨commit_accepted reachable unique, fun address resources voted => ⟨?_, ?_⟩⟩
  · intro open_ now running resource listed
    exact Participant.locked_while_open (reachable.participant address) voted open_ running listed
  · intro before event after split earlier open_
    constructor
    · rintro other others rfl distinct resource listed
      exact Participant.not_accepted_while_open (reachable.participant address) split earlier open_
        distinct listed
    · rintro recipient message rfl accepts distinct
      exact Participant.repeated_while_open (reachable.participant address) split accepts earlier
        open_ distinct

theorem accepted_before_restart :
    (∃ w now, still.playAll (committing.take 8) = some w ∧
      (w.participants "p").running = some now ∧ now.memory.locks.owner? "x" = some "t") ∧
    ∃ w payload sources, still.playAll committing = some w ∧
      .admitted ⟨"t", payload, sources⟩ ∈ w.coordinatorHistory ∧
      ∀ source ∈ sources, w.Accepted "t" sources source.participant := by
  constructor
  · have played : ((still.playAll (committing.take 8)).map fun w =>
        decide (Coordinator.UniqueNames w.coordinatorHistory) &&
          (decide (.prepare "t" ["x"] .accept ∈ logged (w.participantHistory "p")) &&
          (decide (.done "t" ∉ logged (w.participantHistory "p")) &&
          (w.participants "p").running.isSome))) = some true := by rfl
    obtain ⟨w, played, facts⟩ := Option.map_eq_some_iff.mp played
    simp only [Bool.and_eq_true, decide_eq_true_eq, Option.isSome_iff_exists] at facts
    obtain ⟨unique, voted, open_, now, running⟩ := facts
    exact ⟨w, now, played, running,
      ((commit_valid (still_reaches played) unique "t").2 "p" ["x"] voted).1 open_ now running "x"
        List.mem_cons_self⟩
  · have played : ((still.playAll committing).map fun w =>
        decide (Coordinator.UniqueNames w.coordinatorHistory) &&
          decide (.decision "t" .commit ∈ logged w.coordinatorHistory)) = some true := by rfl
    obtain ⟨w, played, facts⟩ := Option.map_eq_some_iff.mp played
    rw [Bool.and_eq_true, decide_eq_true_eq, decide_eq_true_eq] at facts
    obtain ⟨payload, sources, admitted, _, accepted⟩ :=
      (commit_valid (still_reaches played) facts.1 "t").1 facts.2
    exact ⟨w, payload, sources, played, admitted, accepted⟩

end AtomicCommit.System
