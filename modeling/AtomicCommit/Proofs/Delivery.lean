import AtomicCommit.Proofs.Participant.Grounded
import AtomicCommit.Proofs.System
import AtomicCommit.Proofs.Wire

/-! Each actor of a system runs as it would alone, and all that it receives has been sent. -/

namespace AtomicCommit.System

variable {σ τ : Type}

section Histories

variable (w : System σ τ)

theorem coordinatorHistory_own (events : List Coordinator.Event)
    (station : Coordinator.Station σ) : coordinatorHistory { w with
      coordinator := station
      history := w.history ++ events.map .coordinator } = w.coordinatorHistory ++ events := by
  have own : Happening.ofCoordinator? ∘ Happening.coordinator = some := rfl
  simp only [coordinatorHistory, List.filterMap_append, List.filterMap_map, own, List.filterMap_some]

theorem coordinatorHistory_other (address : String) (events : List Participant.Event)
    (stations : String → Participant.Station τ) : coordinatorHistory { w with
      participants := stations
      history := w.history ++ events.map (.participant address) } = w.coordinatorHistory := by
  have foreign : (events.map (Happening.participant address)).filterMap
      Happening.ofCoordinator? = [] := by
    rw [List.filterMap_map]
    exact List.filterMap_eq_nil_iff.mpr fun _ _ => rfl
  rw [coordinatorHistory, List.filterMap_append, foreign, List.append_nil, coordinatorHistory]

theorem participantHistory_other (events : List Coordinator.Event)
    (station : Coordinator.Station σ) (address : String) : participantHistory { w with
      coordinator := station
      history := w.history ++ events.map .coordinator } address = w.participantHistory address := by
  have foreign : (events.map Happening.coordinator).filterMap
      (Happening.ofParticipant? address) = [] := by
    rw [List.filterMap_map]
    exact List.filterMap_eq_nil_iff.mpr fun _ _ => rfl
  rw [participantHistory, List.filterMap_append, foreign, List.append_nil, participantHistory]

theorem participantHistory_of (own : String) (events : List Participant.Event)
    (stations : String → Participant.Station τ) (address : String) : participantHistory { w with
      participants := stations
      history := w.history ++ events.map (.participant own) } address =
        w.participantHistory address ++ if own = address then events else [] := by
  by_cases same : own = address
  · subst same
    have mine : Happening.ofParticipant? own ∘ Happening.participant own = some := by
      funext event
      exact if_pos rfl
    simp only [participantHistory, List.filterMap_append, List.filterMap_map, mine,
      List.filterMap_some, if_true]
  · have foreign : (events.map (Happening.participant own)).filterMap
        (Happening.ofParticipant? address) = [] := by
      rw [List.filterMap_map]
      exact List.filterMap_eq_nil_iff.mpr fun _ _ => if_neg same
    rw [participantHistory, List.filterMap_append, foreign, if_neg same, participantHistory]

end Histories

theorem Carries.origin {w : System σ τ} {recipient : String} {envelope : Envelope}
    (carries : w.Carries recipient envelope) :
    (envelope.sender = w.office ∧ .sent recipient envelope.message ∈ w.coordinatorHistory) ∨
      .sent recipient envelope.message ∈ w.participantHistory envelope.sender := by
  obtain ⟨packet, member, rfl, from_, decoded⟩ := carries
  obtain ⟨happening, happened, handed⟩ := List.mem_filterMap.mp member
  cases happening with
  | coordinator event =>
    cases event with
    | sent recipient message =>
      cases handed
      obtain rfl : message = envelope.message := by
        simpa [Message.decode_encode] using decoded
      exact .inl ⟨from_.symm, List.mem_filterMap.mpr ⟨_, happened, rfl⟩⟩
    | _ => cases handed
  | participant address event =>
    cases event with
    | sent recipient message =>
      cases handed
      obtain rfl : message = envelope.message := by
        simpa [Message.decode_encode] using decoded
      obtain rfl : address = envelope.sender := from_
      exact .inr (List.mem_filterMap.mpr ⟨_, happened, by simp [Happening.ofParticipant?]⟩)
    | _ => cases handed

theorem Carries.later {w w' : System σ τ} {recipient : String} {envelope : Envelope}
    (carries : w.Carries recipient envelope) (office : w'.office = w.office)
    {happenings : List Happening} (history : w'.history = w.history ++ happenings) :
    w'.Carries recipient envelope := by
  obtain ⟨packet, member, rest⟩ := carries
  refine ⟨packet, ?_, rest⟩
  rw [packets, office, history, List.filterMap_append]
  exact List.mem_append_left _ member

variable [Journal σ Coordinator.Entry] [LawfulJournal σ Coordinator.Entry] [Publishing σ]
variable [Journal τ Participant.Entry] [LawfulJournal τ Participant.Entry] [ResourceStore τ]

theorem Step.grows {w w' : System σ τ} (stepped : Step w w') : w'.office = w.office ∧
    ∃ happenings, w'.history = w.history ++ happenings := by
  cases stepped <;> exact ⟨rfl, _, rfl⟩

namespace Reachable

variable {w : System σ τ}

theorem coordinator (reachable : Reachable w) :
    Coordinator.Station.Run w.coordinatorHistory w.coordinator := by
  induction reachable with
  | begin office storage storages empty _ => exact .begin storage empty
  | step _ stepped ih =>
    cases stepped with
    | coordinator events station moved _ =>
      rw [coordinatorHistory_own]
      exact ih.step moved
    | participant own events station _ _ => rwa [coordinatorHistory_other]

theorem participant (reachable : Reachable w) (address : String) :
    Participant.Station.Run (w.participantHistory address) (w.participants address) := by
  induction reachable with
  | begin office storage storages _ empty => exact .begin (storages address) (empty address)
  | step _ stepped ih =>
    cases stepped with
    | coordinator events station _ _ => rwa [participantHistory_other]
    | participant own events station moved _ =>
      rw [participantHistory_of]
      by_cases same : own = address
      · subst same
        simpa using ih.step moved
      · simpa [same, Function.update_of_ne (Ne.symm same)] using ih

theorem office_carries (reachable : Reachable w) {envelope : Envelope}
    (received : .received envelope ∈ w.coordinatorHistory) : w.Carries w.office envelope := by
  induction reachable with
  | begin => cases received
  | step _ stepped ih =>
    obtain ⟨office, _, history⟩ := stepped.grows
    cases stepped with
    | coordinator events station _ carried =>
      rw [coordinatorHistory_own] at received
      rcases List.mem_append.mp received with before | now
      · exact (ih before).later office history
      · exact (carried envelope now).later office history
    | participant own events station _ _ =>
      rw [coordinatorHistory_other] at received
      exact (ih received).later office history

theorem participant_carries (reachable : Reachable w) {address : String} {envelope : Envelope}
    (received : .received envelope ∈ w.participantHistory address) :
    w.Carries address envelope := by
  induction reachable with
  | begin => cases received
  | step _ stepped ih =>
    obtain ⟨office, _, history⟩ := stepped.grows
    cases stepped with
    | coordinator events station _ _ =>
      rw [participantHistory_other] at received
      exact (ih received).later office history
    | participant own events station _ carried =>
      rw [participantHistory_of] at received
      rcases List.mem_append.mp received with before | now
      · exact (ih before).later office history
      · by_cases same : own = address
        · subst same
          exact (carried envelope (by simpa using now)).later office history
        · simp [same] at now

end Reachable

end AtomicCommit.System
