import AtomicCommit.Proofs.Coordinator.Acknowledged
import AtomicCommit.Proofs.Participant.WriteAhead
import AtomicCommit.Proofs.Validity
import Mathlib.Logic.Relation

/-! Completion: when a transaction has ended at the coordinator, its outcome has taken effect at all its
participants. -/

namespace AtomicCommit.System

variable {σ τ : Type} [Journal σ Coordinator.Entry] [LawfulJournal σ Coordinator.Entry]
  [Publishing σ]
variable [Journal τ Participant.Entry] [LawfulJournal τ Participant.Entry] [ResourceStore τ]
variable {w later : System σ τ} {txn address : String} {outcome : Outcome}

theorem Reachable.steps (reachable : Reachable w) (steps : Relation.ReflTransGen Step w later) :
    Reachable later := by
  induction steps with
  | refl => exact reachable
  | tail _ stepped ih => exact ih.step stepped

theorem participantHistory_grows (steps : Relation.ReflTransGen Step w later) (address : String) :
    w.participantHistory address <+: later.participantHistory address := by
  induction steps with
  | refl => exact List.prefix_rfl
  | tail _ stepped ih =>
    obtain ⟨_, happenings, grown⟩ := stepped.grows
    refine ih.trans ?_
    rw [participantHistory, participantHistory, grown, List.filterMap_append]
    exact List.prefix_append _ _

/-- What there is at a participant when the outcome of a transaction has taken effect. -/
structure Applied (w : System σ τ) (txn : String) (sources : List Source) (outcome : Outcome)
    (address : String) : Prop where
  ended : .done txn ∈ held (w.participants address).storage
  unlocked : ∀ later, Relation.ReflTransGen Step w later →
    ∀ now, (later.participants address).running = some now →
      ∀ resource, now.memory.locks.owner? resource ≠ some txn
  committed : outcome = .commit → ∀ resource, ⟨address, resource⟩ ∈ sources →
    .did (.deleted resource) ∈ w.participantHistory address ∧
      (.disturbed ∉ w.participantHistory address →
        ResourceStore.holds resource (w.participants address).storage = false)
  aborted : outcome = .abort → ∀ before resource after,
    w.participantHistory address = before ++ .did (.deleted resource) :: after →
      ¬Participant.OnBehalf before txn resource

def Completed (w : System σ τ) (txn : String) (outcome : Outcome) : Prop :=
  ∃ payload sources, .admitted ⟨txn, payload, sources⟩ ∈ w.coordinatorHistory ∧
    .decision txn outcome ∈ logged w.coordinatorHistory ∧
    ∀ source ∈ sources, w.Applied txn sources outcome source.participant

variable [LawfulStore τ Participant.Entry]

theorem unlocked_ever (reachable : Reachable w)
    (ended : .done txn ∈ logged (w.participantHistory address))
    (steps : Relation.ReflTransGen Step w later) {now : Participant.Incarnation}
    (running : (later.participants address).running = some now) (resource : String) :
    now.memory.locks.owner? resource ≠ some txn := by
  obtain ⟨events, grown⟩ := participantHistory_grows steps address
  have still : .done txn ∈ logged (later.participantHistory address) := by simp [← grown, ended]
  exact Participant.unlocked_when_ended ((reachable.steps steps).participant address) still running
    resource

variable [LawfulPublishing σ Coordinator.Entry]

theorem shown_outcome (reachable : Reachable w)
    (unique : Coordinator.UniqueNames w.coordinatorHistory) {other : Outcome}
    (shows : w.Shows txn other) (decided : .decision txn outcome ∈ logged w.coordinatorHistory) :
    other = outcome :=
  Coordinator.decision_unique (Coordinator.consistent_run reachable.coordinator unique)
    (shown_decided reachable shows) decided

theorem acked_ended (reachable : Reachable w)
    (acked : Coordinator.Acked w.coordinatorHistory txn address) :
    .done txn ∈ logged (w.participantHistory address) := by
  obtain ⟨envelope, received, rfl, rfl, phase⟩ := acked
  have sent := replied reachable received (by simp [phase])
    (by rintro (_ | _) <;> simp [phase, Outcome.phase])
  exact Participant.acknowledged_ended (reachable.participant _) sent phase

theorem share_deleted (reachable : Reachable w)
    (unique : Coordinator.UniqueNames w.coordinatorHistory) {sources : List Source}
    (decided : .decision txn .commit ∈ logged w.coordinatorHistory)
    (accepted : w.Accepted txn sources address)
    (ended : .done txn ∈ logged (w.participantHistory address)) {resource : String}
    (listed : ⟨address, resource⟩ ∈ sources) :
    .did (.deleted resource) ∈ w.participantHistory address := by
  have run := reachable.participant address
  obtain ⟨resources, voted, _, share⟩ := accepted
  have told : ∀ outcome, .decision txn outcome ∈ logged (w.participantHistory address) →
      outcome = .commit :=
    fun outcome heard => shown_outcome reachable unique (.heard address heard) decided
  exact Participant.deleted_when_ended run ((Participant.consistent_run run).kept.mem_entries voted)
    ended told ((share resource).mpr listed)

theorem applied [LawfulHoldings τ Participant.Entry] (reachable : Reachable w)
    (unique : Coordinator.UniqueNames w.coordinatorHistory) {sources : List Source}
    (prepared : .prepare txn sources ∈ logged w.coordinatorHistory)
    (decided : .decision txn outcome ∈ logged w.coordinatorHistory)
    (acked : Coordinator.Acked w.coordinatorHistory txn address) :
    w.Applied txn sources outcome address := by
  have run := reachable.participant address
  have ended := acked_ended reachable acked
  constructor
  case ended => exact (Participant.consistent_run run).kept.mem_log ended rfl
  case unlocked =>
    intro later steps now running resource
    exact unlocked_ever reachable ended steps running resource
  case committed =>
    rintro rfl resource listed
    obtain ⟨payload, asked, _, preparedToo, accepted⟩ := commit_accepted reachable unique decided
    obtain rfl := Coordinator.request_unique
      (Coordinator.consistent_run reachable.coordinator unique) prepared preparedToo
    have deleted := share_deleted reachable unique decided (accepted _ listed) ended listed
    refine ⟨deleted, fun undisturbed => Participant.deleted_gone run ?_⟩
    obtain ⟨before, after, split⟩ := List.append_of_mem deleted
    exact ⟨before, after, split, fun disturbed => undisturbed (by simp [split, disturbed])⟩
  case aborted =>
    rintro rfl before resource after split behalf
    have heard := Participant.committed_of_deleted run split behalf
    cases shown_outcome reachable unique (.heard address heard) decided

/-- When the coordinator has logged the end of a transaction, or a commit has returned its outcome, each
participant has logged the end and never locks anything for it again. On a commit it has deleted all its
share, and on an abort nothing. -/
theorem completed_applied [LawfulHoldings τ Participant.Entry] (reachable : Reachable w)
    (unique : Coordinator.UniqueNames w.coordinatorHistory) (txn : String) :
    (.done txn ∈ logged w.coordinatorHistory → ∃ outcome, w.Completed txn outcome) ∧
    ∀ outcome, .finished txn (.ok outcome) ∈ w.coordinatorHistory → w.Completed txn outcome := by
  have closes := Coordinator.closes_run reachable.coordinator unique
  have completed : .done txn ∈ logged w.coordinatorHistory → ∃ outcome, w.Completed txn outcome := by
    intro done
    obtain ⟨sources, outcome, prepared, decided, acked⟩ := closes.ended txn done
    obtain ⟨payload, admitted⟩ :=
      (Coordinator.collects_run reachable.coordinator unique).prepares txn sources prepared
    refine ⟨outcome, payload, sources, admitted, decided, fun source member => ?_⟩
    obtain ⟨resources, share⟩ := Source.share_of_mem member
    exact applied reachable unique prepared decided (acked _ (List.mem_map.mpr ⟨_, share, rfl⟩))
  refine ⟨completed, fun outcome returned => ?_⟩
  obtain ⟨other, payload, sources, admitted, decided, applied⟩ :=
    completed (closes.finished txn outcome returned)
  obtain rfl := shown_outcome reachable unique (.returned returned) decided
  exact ⟨payload, sources, admitted, decided, applied⟩

def refusing : List Action :=
  [.coordinator (.start {}), .participant "p" (.start {}), .participant "q" (.start {}),
    .coordinator (.commit "t" [7] ["p:x", "q:x"]), .coordinator (.advance 0), .deliver 11,
    .deliver 12, .participant "p" (.answer "t" true), .participant "q" (.answer "t" false),
    .deliver 22, .coordinator (.advance 0), .coordinator (.advance 0), .coordinator (.advance 0),
    .coordinator (.advance 0), .deliver 25, .deliver 30, .coordinator .stop,
    .coordinator (.start {}), .coordinator (.advance 0), .deliver 36, .deliver 37, .deliver 39,
    .deliver 43, .coordinator (.advance 0), .coordinator (.advance 0), .coordinator (.advance 0),
    .coordinator (.advance 0)]

theorem applied_when_over :
    (∃ w, still.playAll committing = some w ∧ w.Completed "t" .commit) ∧
    ∃ w, still.playAll refusing = some w ∧ .done "t" ∈ logged w.coordinatorHistory ∧
      w.Completed "t" .abort := by
  constructor
  · have played : ((still.playAll committing).map fun w =>
        decide (Coordinator.UniqueNames w.coordinatorHistory) &&
          decide (("t", some .commit) ∈ w.coordinatorHistory.filterMap fun event => match event with
            | .finished name result => some (name, result.toOption)
            | _ => none)) = some true := by rfl
    obtain ⟨w, played, facts⟩ := Option.map_eq_some_iff.mp played
    rw [Bool.and_eq_true, decide_eq_true_eq, decide_eq_true_eq] at facts
    obtain ⟨unique, results⟩ := facts
    obtain ⟨event, returned, read⟩ := List.mem_filterMap.mp results
    refine ⟨w, played, (completed_applied (still_reaches played) unique "t").2 .commit ?_⟩
    cases event with
    | finished name result =>
      cases result <;> cases read
      exact returned
    | _ => cases read
  · have played : ((still.playAll refusing).map fun w =>
        decide (Coordinator.UniqueNames w.coordinatorHistory) &&
          decide (logged w.coordinatorHistory =
            [.prepare "t" [⟨"p", "x"⟩, ⟨"q", "x"⟩], .decision "t" .abort, .done "t"])) =
        some true := by rfl
    obtain ⟨w, played, facts⟩ := Option.map_eq_some_iff.mp played
    rw [Bool.and_eq_true, decide_eq_true_eq, decide_eq_true_eq] at facts
    obtain ⟨unique, records⟩ := facts
    have done : .done "t" ∈ logged w.coordinatorHistory := by simp [records]
    obtain ⟨outcome, completed⟩ := (completed_applied (still_reaches played) unique "t").1 done
    have ⟨_, _, _, decided, _⟩ := completed
    obtain rfl : outcome = .abort := by simpa [records] using decided
    exact ⟨w, played, done, completed⟩

end AtomicCommit.System
