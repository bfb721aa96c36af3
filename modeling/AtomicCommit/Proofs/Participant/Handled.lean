import AtomicCommit.Proofs.Participant.Run

/-! Everything that the handling of a message or of an answer can do, with what it notes in the
storage, how it reacts, and what is in memory afterwards. -/

namespace AtomicCommit.Participant

theorem Pending.mem_doomed {pending : Pending} {outcome : Outcome} {resource : String} :
    resource ∈ pending.doomed outcome ↔
      outcome = .commit ∧ pending.vote = .accept ∧ resource ∈ pending.resources := by
  obtain ⟨resources, vote, decision⟩ := pending
  cases outcome <;> cases vote <;> simp [doomed, Outcome.isCommit, Vote.isAccept]

/-- `Finish txn pending memory deeds success after`: applying the decision of a pending transaction
can lead from `memory` to `after`. -/
inductive Finish (txn : String) (pending : Pending) (memory : Memory) :
    List (Deed Entry) → Bool → Memory → Prop where
  | undecided : pending.decision = none → Finish txn pending memory [] true memory
  | stuck (outcome gone) : pending.decision = some outcome → gone <+: pending.doomed outcome →
      Finish txn pending memory (gone.map .deleted) false memory
  | ended (outcome) : pending.decision = some outcome →
      Finish txn pending memory ((pending.doomed outcome).map .deleted ++ [.appended (.done txn)]) true
        (memory.retire txn pending)

theorem Finish.records {txn : String} {pending : Pending} {memory after : Memory}
    {deeds : List (Deed Entry)} {success : Bool}
    (finished : Finish txn pending memory deeds success after) :
    ∀ entry ∈ Deed.records deeds, entry = .done txn := by
  cases finished <;> simp

inductive Cause where
  | message (message : Message)
  | answer (request : VoteRequest) (approved : Bool)

def ackIf (txn : String) (success : Bool) : Reaction :=
  if success then .reply (.ack txn) else .silent

inductive Handled : Cause → Memory → List (Deed Entry) → Reaction → Memory → Prop where
  | repeated (m memory vote) : m.phase = .prepare → memory.recordedVote m.txn = some vote →
      Handled (.message m) memory [] (.reply (.vote m.txn vote)) memory
  | asked (m memory locks) : m.phase = .prepare → memory.recordedVote m.txn = none →
      memory.locks.lockAll m.txn m.resources = (.granted, locks) →
      Handled (.message m) memory [] (.ask (requestOf m)) { memory with locks := locks }
  | refused (m memory) : m.phase = .prepare → memory.recordedVote m.txn = none →
      Handled (.message m) memory [.appended (.prepare m.txn m.resources .refuse)]
        (.reply (.vote m.txn .refuse)) (memory.await m.txn ⟨m.resources, .refuse, none⟩)
  | notRefused (m memory) : m.phase = .prepare → memory.recordedVote m.txn = none →
      Handled (.message m) memory [] .silent memory
  | accepted (request memory) : Handled (.answer request true) memory
      [.appended (.prepare request.txn request.resources .accept)]
      (.reply (.vote request.txn .accept))
      (memory.await request.txn ⟨request.resources, .accept, none⟩)
  | notAccepted (request memory) : Handled (.answer request true) memory [] .silent
      (memory.release request.txn request.resources)
  | rejected (request memory) : Handled (.answer request false) memory
      [.appended (.prepare request.txn request.resources .refuse)]
      (.reply (.vote request.txn .refuse))
      ((memory.release request.txn request.resources).await request.txn
        ⟨request.resources, .refuse, none⟩)
  | notRejected (request memory) : Handled (.answer request false) memory [] .silent
      (memory.release request.txn request.resources)
  | settled (m outcome memory) : m.phase = Outcome.phase outcome →
      memory.resolved.contains m.txn →
      Handled (.message m) memory [] (.reply (.ack m.txn)) memory
  | unheard (m outcome memory) : m.phase = Outcome.phase outcome →
      memory.resolved.contains m.txn = false → Handled (.message m) memory [] .silent memory
  | unasked (m outcome memory) : m.phase = Outcome.phase outcome →
      memory.resolved.contains m.txn = false → memory.pending.get? m.txn = none →
      Handled (.message m) memory [.appended (.decision m.txn outcome)] .silent memory
  | unknown (m outcome memory) : m.phase = Outcome.phase outcome →
      memory.resolved.contains m.txn = false → memory.pending.get? m.txn = none →
      Handled (.message m) memory
        [.appended (.decision m.txn outcome), .appended (.done m.txn)] (.reply (.ack m.txn))
        (memory.resolve m.txn none)
  | again (m outcome memory pending former deeds success after) : m.phase = Outcome.phase outcome →
      memory.resolved.contains m.txn = false → memory.pending.get? m.txn = some pending →
      pending.decision = some former → Finish m.txn pending memory deeds success after →
      Handled (.message m) memory deeds (ackIf m.txn success) after
  | decided (m outcome memory pending deeds success after) : m.phase = Outcome.phase outcome →
      memory.resolved.contains m.txn = false → memory.pending.get? m.txn = some pending →
      pending.decision = none →
      Finish m.txn { pending with decision := some outcome }
        (memory.await m.txn { pending with decision := some outcome }) deeds success after →
      Handled (.message m) memory (.appended (.decision m.txn outcome) :: deeds)
        (ackIf m.txn success) after
  | ignored (m memory) : m.phase ≠ .prepare → (∀ outcome : Outcome, m.phase ≠ outcome.phase) →
      Handled (.message m) memory [] .silent memory

variable {τ : Type} [Journal τ Entry] [LawfulJournal τ Entry]

open Recorded (Does)

theorem append_does (entry : Entry) (p : Participant (Recorded τ Entry)) :
    ∃ s, (p.append entry = (.ok (), { p with storage := s }) ∧
        Does p.storage s [.appended entry]) ∨
      ∃ e, p.append entry = (.error (.log e), { p with storage := s }) ∧ Does p.storage s [] := by
  rcases Recorded.append_cases entry p.storage with ⟨s, result, kept⟩ | ⟨e, s, result, kept⟩
  · exact ⟨⟨s, p.storage.deeds ++ [.appended entry]⟩,
      .inl ⟨by simp only [Participant.append, result], rfl, kept⟩⟩
  · exact ⟨⟨s, p.storage.deeds⟩, .inr ⟨e, by simp only [Participant.append, result],
      (List.append_nil _).symm, by simpa using kept⟩⟩

def Handles (cause : Cause) (p : Participant (Recorded τ Entry))
    (result : Reaction × Participant (Recorded τ Entry)) : Prop :=
  ∃ deeds, Handled cause p.memory deeds result.1 result.2.memory ∧
    Does p.storage result.2.storage deeds

theorem answer_handles (request : VoteRequest) (approved : Bool)
    (p : Participant (Recorded τ Entry)) :
    Handles (.answer request approved) p (Station.answerReaction request approved p) := by
  cases approved with
  | true =>
    rcases append_does (.prepare request.txn request.resources .accept) p
      with ⟨s, ⟨logged, does⟩ | ⟨e, failed, kept⟩⟩
    · simp only [Station.answerReaction, answerVote, castVote, Vote.isAccept, if_true, Bool.not_true,
        Bool.and_false, Bool.false_eq_true, if_false, logged, voteReply]
      exact ⟨_, .accepted request p.memory, does⟩
    · simp only [Station.answerReaction, answerVote, castVote, Vote.isAccept, if_true, Bool.not_true,
        Bool.and_false, Bool.false_eq_true, if_false, failed, voteReply]
      exact ⟨_, .notAccepted request p.memory, kept⟩
  | false =>
    rcases append_does (.prepare request.txn request.resources .refuse)
      (p.releaseLocks request.txn request.resources) with ⟨s, ⟨logged, does⟩ | ⟨e, failed, kept⟩⟩
    · simp only [Station.answerReaction, answerVote, castVote, Vote.isAccept, if_true, Bool.not_false,
        Bool.and_true, Bool.false_eq_true, if_false, logged, voteReply]
      exact ⟨_, .rejected request p.memory, does⟩
    · simp only [Station.answerReaction, answerVote, castVote, Vote.isAccept, if_true, Bool.not_false,
        Bool.and_true, Bool.false_eq_true, if_false, failed, voteReply]
      exact ⟨_, .notRejected request p.memory, kept⟩

theorem refusal_handles {m : Message} {p : Participant (Recorded τ Entry)}
    (asked : m.phase = .prepare) (new : p.memory.recordedVote m.txn = none) :
    Handles (.message m) p (voteReply m.txn (p.castVote (requestOf m) false .refuse).1,
      (p.castVote (requestOf m) false .refuse).2) := by
  rcases append_does (.prepare m.txn m.resources .refuse) p
    with ⟨s, ⟨logged, does⟩ | ⟨e, failed, kept⟩⟩
  · simp only [castVote, requestOf, Vote.isAccept, Bool.not_false, Bool.and_true, Bool.false_eq_true,
      if_false, logged, voteReply]
    exact ⟨_, .refused m p.memory asked new, does⟩
  · simp only [castVote, requestOf, Vote.isAccept, Bool.not_false, Bool.and_true, Bool.false_eq_true,
      if_false, failed, voteReply]
    exact ⟨_, .notRefused m p.memory asked new, kept⟩

variable [ResourceStore τ]

omit [LawfulJournal τ Entry] in
theorem decide_eq (m : Message) (outcome : Outcome) (p : Participant (Recorded τ Entry)) :
    react.decide m p outcome = (ackIf m.txn (p.handleDecision m.txn outcome).1.isOk,
      (p.handleDecision m.txn outcome).2) := by
  rcases result : p.handleDecision m.txn outcome with ⟨e | ⟨⟨⟩⟩, after⟩ <;>
    simp [react.decide, result, ackIf, Except.isOk, Except.toBool]

variable [LawfulStore τ Entry]

theorem deleteAll_does (resources : List String) (p : Participant (Recorded τ Entry)) :
    ∃ s, (p.deleteAll resources = (.ok (), { p with storage := s }) ∧
        Does p.storage s (resources.map .deleted)) ∨
      ∃ e gone, p.deleteAll resources = (.error (.store e), { p with storage := s }) ∧
        gone <+: resources ∧ Does p.storage s (gone.map .deleted) := by
  induction resources generalizing p with
  | nil => exact ⟨p.storage, .inl ⟨rfl, .nothing _⟩⟩
  | cons resource rest ih =>
    obtain ⟨s, kept, results⟩ := Recorded.delete_cases resource p.storage
    have first : Does p.storage ⟨s, p.storage.deeds ++ [.deleted resource]⟩ [.deleted resource] :=
      ⟨rfl, by simpa using kept⟩
    rcases results with result | ⟨e, result | result⟩
    · rcases ih { p with storage := ⟨s, p.storage.deeds ++ [.deleted resource]⟩ }
        with ⟨s', ⟨others, does⟩ | ⟨e, gone, failed, some, does⟩⟩
      · exact ⟨s', .inl ⟨by simpa only [deleteAll, result] using others, first.trans does⟩⟩
      · exact ⟨s', .inr ⟨e, resource :: gone, by simpa only [deleteAll, result] using failed,
          List.cons_prefix_cons.mpr ⟨rfl, some⟩, first.trans does⟩⟩
    · exact ⟨⟨s, p.storage.deeds⟩, .inr ⟨e, [], by simp only [deleteAll, result], List.nil_prefix,
        (List.append_nil _).symm, by simpa using kept⟩⟩
    · exact ⟨_, .inr ⟨e, [resource], by simp only [deleteAll, result],
        List.cons_prefix_cons.mpr ⟨rfl, List.nil_prefix⟩, first⟩⟩

theorem finish_finishes (txn : String) (pending : Pending) (p : Participant (Recorded τ Entry)) :
    ∃ deeds, Finish txn pending p.memory deeds (p.finish txn pending).1.isOk
        (p.finish txn pending).2.memory ∧
      Does p.storage (p.finish txn pending).2.storage deeds := by
  cases decision : pending.decision with
  | none =>
    simp only [Participant.finish, decision]
    exact ⟨[], .undecided decision, .nothing _⟩
  | some outcome =>
    simp only [Participant.finish, decision]
    rcases deleteAll_does (pending.doomed outcome) p
      with ⟨s, ⟨deleted, does⟩ | ⟨e, gone, failed, some, does⟩⟩
    · simp only [deleted]
      rcases append_does (.done txn) { p with storage := s } with ⟨s', ⟨ended, done⟩ | ⟨e, failed, kept⟩⟩
      · simp only [ended]
        exact ⟨_, .ended outcome decision, does.trans done⟩
      · simp only [failed]
        exact ⟨_, .stuck outcome _ decision List.prefix_rfl, by simpa using does.trans kept⟩
    · simp only [failed]
      exact ⟨_, .stuck outcome gone decision some, does⟩

theorem decide_handles {m : Message} {outcome : Outcome} {p : Participant (Recorded τ Entry)}
    (told : m.phase = outcome.phase) : Handles (.message m) p (react.decide m p outcome) := by
  by_cases resolved : p.memory.resolved.contains m.txn
  · simp only [react.decide, handleDecision, resolved, if_true]
    exact ⟨_, .settled m outcome p.memory told resolved, .nothing _⟩
  replace resolved := Bool.eq_false_iff.mpr resolved
  cases waiting : p.memory.pending.get? m.txn with
  | none =>
    rcases append_does (.decision m.txn outcome) p with ⟨s, ⟨logged, does⟩ | ⟨e, failed, kept⟩⟩
    · rcases append_does (.done m.txn) { p with storage := s } with ⟨s', ⟨ended, done⟩ | ⟨e, failed, kept⟩⟩
      · simp only [react.decide, handleDecision, resolved, waiting, resolveUnknown, logged, ended,
          Bool.false_eq_true, if_false]
        exact ⟨_, .unknown m outcome p.memory told resolved waiting, does.trans done⟩
      · simp only [react.decide, handleDecision, resolved, waiting, resolveUnknown, logged, failed,
          Bool.false_eq_true, if_false]
        exact ⟨_, .unasked m outcome p.memory told resolved waiting, does.trans kept⟩
    · simp only [react.decide, handleDecision, resolved, waiting, resolveUnknown, failed,
        Bool.false_eq_true, if_false]
      exact ⟨_, .unheard m outcome p.memory told resolved, kept⟩
  | some pending =>
    cases decision : pending.decision with
    | some former =>
      obtain ⟨deeds, finish, does⟩ := finish_finishes m.txn pending p
      simp only [decide_eq, handleDecision, resolved, waiting, decision, Bool.false_eq_true, if_false]
      exact ⟨_, .again m outcome p.memory pending former _ _ _ told resolved waiting decision finish,
        does⟩
    | none =>
      rcases append_does (.decision m.txn outcome) p with ⟨s, ⟨logged, does⟩ | ⟨e, failed, kept⟩⟩
      · obtain ⟨deeds, finish, later⟩ := finish_finishes m.txn
          { pending with decision := some outcome }
          ({ p with storage := s }.setPending m.txn { pending with decision := some outcome })
        simp only [decide_eq, handleDecision, resolved, waiting, decision, logged,
          Bool.false_eq_true, if_false]
        exact ⟨_, .decided m outcome p.memory pending _ _ _ told resolved waiting decision finish,
          does.trans later⟩
      · simp only [react.decide, handleDecision, resolved, waiting, decision, failed,
          Bool.false_eq_true, if_false]
        exact ⟨_, .unheard m outcome p.memory told resolved, kept⟩

theorem react_handles (m : Message) (p : Participant (Recorded τ Entry)) :
    Handles (.message m) p (react m p) := by
  cases phase : m.phase with
  | prepare =>
    cases recorded : p.memory.recordedVote m.txn with
    | some vote =>
      simp only [react, phase, openVote, requestOf, recorded]
      exact ⟨_, .repeated m p.memory vote phase recorded, .nothing _⟩
    | none =>
      by_cases there : m.resources.all fun resource => ResourceStore.holds resource p.storage
      · rcases attempt : p.memory.locks.lockAll m.txn m.resources with ⟨_ | ⟨resource, holder⟩, locks⟩
        · simp only [react, phase, openVote, requestOf, recorded, there, if_true, attempt]
          exact ⟨_, .asked m p.memory locks phase recorded attempt, .nothing _⟩
        · simp only [react, phase, openVote, requestOf, recorded, there, if_true, attempt]
          exact refusal_handles phase recorded
      · simp only [react, phase, openVote, requestOf, recorded, there, Bool.false_eq_true, if_false]
        exact refusal_handles phase recorded
  | commit =>
    simp only [react, phase]
    exact decide_handles phase
  | abort =>
    simp only [react, phase]
    exact decide_handles phase
  | _ =>
    simp only [react, phase]
    exact ⟨_, .ignored m p.memory (by simp [phase]) (by rintro (_ | _) <;> simp [phase, Outcome.phase]),
      .nothing _⟩

end AtomicCommit.Participant
