import AtomicCommit.Proofs.Participant.Locking
import AtomicCommit.Proofs.Participant.WriteAhead

/-! What has been settled stays settled. A vote that was logged answers every later request, and after an
acknowledgement nothing happens any more on behalf of the transaction; messages on it are answered, and
change nothing. -/

namespace AtomicCommit.Participant

section Reactions

variable {σ : Type} [Journal σ Entry] [ResourceStore σ] {p : Participant σ} {m : Message}

theorem react_recorded {vote : Vote} (asks : m.phase = .prepare)
    (recorded : p.memory.recordedVote m.txn = some vote) :
    react m p = (.reply (.vote m.txn vote), p) := by
  simp [react, asks, openVote, requestOf, recorded]

theorem react_resolved {outcome : Outcome} (tells : m.phase = outcome.phase)
    (resolved : p.memory.resolved.contains m.txn) : react m p = (.reply (.ack m.txn), p) := by
  cases outcome <;>
    simp [react, tells, Outcome.phase, react.decide, handleDecision, resolved]

end Reactions

namespace Informed

variable {entries : List Entry} {memory : Memory} {asking : Table String Question} {txn : String}

theorem recorded (informed : Informed entries memory asking) {resources : List String} {vote : Vote}
    (voted : (known entries txn).vote = some (resources, vote)) :
    memory.recordedVote txn = some vote := by
  obtain ⟨resolved, ⟨decision, waits⟩, _⟩ := informed.agrees txn
  cases done : (known entries txn).isDone with
  | false =>
    rw [done, voted] at waits
    simp [Memory.recordedVote, waits]
  | true =>
    rw [done] at waits resolved
    simp [Memory.recordedVote, waits, resolved, voted]

theorem refuses (informed : Informed entries memory asking) (ended : .done txn ∈ entries)
    (unvoted : (known entries txn).vote = none) : memory.recordedVote txn = some .refuse := by
  obtain ⟨resolved, ⟨decision, waits⟩, _⟩ := informed.agrees txn
  rw [isDone_known.mpr ended] at waits resolved
  simp [Memory.recordedVote, waits, resolved, unvoted]

theorem recorded_of_ended (informed : Informed entries memory asking) (ended : .done txn ∈ entries) :
    ∃ vote, memory.recordedVote txn = some vote := by
  cases voted : (known entries txn).vote with
  | none => exact ⟨.refuse, informed.refuses ended voted⟩
  | some cast =>
    obtain ⟨resources, vote⟩ := cast
    exact ⟨vote, informed.recorded voted⟩

theorem resolved_of_ended (informed : Informed entries memory asking) (ended : .done txn ∈ entries) :
    memory.resolved.contains txn := by
  simp [Table.contains, (informed.agrees txn).resolved, isDone_known.mpr ended]

theorem not_pending_of_ended (informed : Informed entries memory asking)
    (ended : .done txn ∈ entries) : memory.pending.get? txn = none := by
  obtain ⟨_, ⟨decision, waits⟩, _⟩ := informed.agrees txn
  simpa [isDone_known.mpr ended] using waits

theorem isFree {now : Incarnation} (informed : Informed entries now.memory now.asking)
    {vote : Vote} (recorded : now.memory.recordedVote txn = some vote) : now.isFree txn := by
  refine Incarnation.isFree_iff.mpr (Option.eq_none_iff_forall_ne_some.mpr fun question asked => ?_)
  simp [(informed.asking txn question asked).2] at recorded

end Informed

section Events

variable {τ : Type}

theorem received_reactionEvents (envelope : Envelope) (sender : String)
    (result : Reaction × Participant (Recorded τ Entry)) :
    .received envelope ∉ Station.reactionEvents sender result := by
  simp [Station.mem_reactionEvents]

theorem received_startEvents (envelope : Envelope)
    (result : Except ParticipantError RecoveryReport × Participant (Recorded τ Entry)) :
    .received envelope ∉ Station.startEvents result := by
  simp [Station.startEvents]

theorem asked_reactionEvents {sender : String} {request : VoteRequest}
    {result : Reaction × Participant (Recorded τ Entry)} :
    .asked request ∈ Station.reactionEvents sender result ↔ result.1 = .ask request := by
  simp [Station.mem_reactionEvents]

end Events

variable {τ : Type} [Journal τ Entry] [LawfulJournal τ Entry] [ResourceStore τ]
  {history events later : List Event} {s s' after : Station τ} {envelope : Envelope}

/-- The envelope can be handled, and whenever it is, all that happens is this reply. -/
def OnlyReplies (s : Station τ) (envelope : Envelope) (reply : Message) : Prop :=
  ∀ events after, s.Step events after ∧ .received envelope ∈ events ↔ s.running.isSome ∧
    events = [.received envelope, .sent envelope.sender reply] ∧ after = s

theorem onlyReplies {reply : Message}
    (free : ∀ now, s.running = some now → now.isFree envelope.message.txn)
    (reacts : ∀ now, s.running = some now → react envelope.message (now.participant s.storage) =
      (.reply reply, now.participant s.storage)) : OnlyReplies s envelope reply := by
  have unchanged : ∀ now, s.running = some now → Station.afterReaction now envelope.sender
      (.reply reply, now.participant s.storage) = s := by
    intro now running
    obtain ⟨_, storage⟩ := s
    cases running
    rfl
  have events_eq : ∀ now : Incarnation, [.received envelope] ++ Station.reactionEvents envelope.sender
      (.reply reply, now.participant s.storage) =
        [.received envelope, .sent envelope.sender reply] := fun _ => rfl
  intro events after
  constructor
  · rintro ⟨stepped, received⟩
    cases stepped with
    | disturb | stop => simp at received
    | start => exact absurd received (received_startEvents envelope _)
    | receive now other running free =>
      obtain rfl : envelope = other := by
        simpa [received_reactionEvents] using received
      rw [reacts now running]
      exact ⟨by simp [running], events_eq now, unchanged now running⟩
    | answer => simp [received_reactionEvents] at received
  · rintro ⟨up, rfl, rfl⟩
    obtain ⟨now, running⟩ := Option.isSome_iff_exists.mp up
    have stepped := Station.Step.receive after now envelope running (free now running)
    rw [reacts now running, unchanged now running, events_eq now] at stepped
    exact ⟨stepped, by simp⟩

def Answers (s : Station τ) (phase : Phase) (txn : String) (reply : Message) : Prop :=
  ∀ envelope, envelope.message.phase = phase → envelope.message.txn = txn →
    OnlyReplies s envelope reply

variable [LawfulStore τ Entry] {txn : String}

theorem answers_recorded (run : Station.Run history s) {vote : Vote}
    (recorded : ∀ now, s.running = some now → now.memory.recordedVote txn = some vote) :
    Answers s .prepare txn (.vote txn vote) := by
  rintro envelope asks rfl
  exact onlyReplies
    (fun now running => ((consistent_run run).informed now running).isFree (recorded now running))
    (fun now running => react_recorded asks (recorded now running))

theorem answers_voted (run : Station.Run history s) {resources : List String} {vote : Vote}
    (voted : .prepare txn resources vote ∈ logged history) :
    Answers s .prepare txn (.vote txn vote) := by
  have consistent := consistent_run run
  exact answers_recorded run fun now running =>
    (consistent.informed now running).recorded (consistent.kept.vote _ _ _ voted)

/-- Once a vote is in the log it stays there, and it answers every request for a vote on its transaction
that is handled then or later. Nothing else comes of such a request. -/
theorem vote_stands (run : Station.Run history s) {resources : List String} {vote : Vote}
    (voted : .prepare txn resources vote ∈ held s.storage) (steps : Station.Steps s later s') :
    .prepare txn resources vote ∈ held s'.storage ∧ Answers s' .prepare txn (.vote txn vote) := by
  have grown := run.steps steps
  have logged : .prepare txn resources vote ∈ logged (history ++ later) := by
    rw [logged_append]
    exact List.mem_append_left _ ((consistent_run run).kept.mem_entries voted)
  exact ⟨(consistent_run grown).kept.mem_log logged rfl, answers_voted grown logged⟩

def acceptedAndCommitted : List Action :=
  [.start {}, .receive ⟨"c", .prepare "t" ["x"] []⟩, .answer "t" true,
    .receive ⟨"c", .decision "t" .commit⟩]

theorem vote_repeated_after_compaction : ∃ history s later s',
    shelved.playAll acceptedAndCommitted = some (history, s) ∧
    s.playAll [.stop, .start {}] = some (later, s') ∧
    held s'.storage = [.prepare "t" ["x"] .accept, .done "t"] ∧
    OnlyReplies s' ⟨"d", .prepare "t" ["y"] []⟩ (.vote "t" .accept) := by
  have played : ((shelved.playAll acceptedAndCommitted).bind fun result =>
      (result.2.playAll [.stop, .start {}]).map fun last =>
        decide (.prepare "t" ["x"] .accept ∈ held result.2.storage) &&
        decide (held last.2.storage = [.prepare "t" ["x"] .accept, .done "t"])) = some true := by rfl
  obtain ⟨⟨history, s⟩, voting, rest⟩ := Option.bind_eq_some_iff.mp played
  obtain ⟨⟨later, s'⟩, restarting, facts⟩ := Option.map_eq_some_iff.mp rest
  simp only [Bool.and_eq_true, decide_eq_true_eq] at facts
  obtain ⟨voted, compacted⟩ := facts
  have run : Station.Run history s := Station.playAll_run (.begin shelved.storage rfl) voting
  have steps : Station.Steps s later s' := Station.playAll_steps .nothing restarting
  exact ⟨history, s, later, s', voting, restarting, compacted,
    (vote_stands run voted steps).2 ⟨"d", .prepare "t" ["y"] []⟩ rfl rfl⟩

section Ended

theorem answers_decision (run : Station.Run history s) (ended : .done txn ∈ logged history)
    (outcome : Outcome) : Answers s outcome.phase txn (.ack txn) := by
  rintro envelope tells rfl
  refine onlyReplies (fun now running => ?_) fun now running => ?_
  · have informed := (consistent_run run).informed now running
    obtain ⟨vote, recorded⟩ := informed.recorded_of_ended ended
    exact informed.isFree recorded
  · exact react_resolved tells (((consistent_run run).informed now running).resolved_of_ended ended)

theorem answers_unvoted (run : Station.Run history s) (ended : .done txn ∈ logged history)
    (unvoted : ∀ resources vote, .prepare txn resources vote ∉ logged history) :
    Answers s .prepare txn (.vote txn .refuse) := by
  refine answers_recorded run fun now running => ?_
  refine ((consistent_run run).informed now running).refuses ended ?_
  cases voted : (known (logged history) txn).vote with
  | none => rfl
  | some cast => exact absurd (vote_known voted) (unvoted cast.1 cast.2)

theorem not_deleted_when_ended (run : Station.Run history s) {before after : List Event}
    {resource : String} (split : history = before ++ .did (.deleted resource) :: after)
    (ended : .done txn ∈ logged before) : ¬OnBehalf before txn resource := by
  intro behalf
  obtain ⟨owner, resources, dooms, _, only⟩ := deleted_for run split
  obtain rfl := (only txn).mp behalf
  exact isDone_known.not.mp (Bool.eq_false_iff.mp dooms.undone) ended

theorem not_logged_when_ended (run : Station.Run history s) {before after : List Event}
    {entry : Entry} (split : history = before ++ .did (.appended entry) :: after)
    (ended : .done txn ∈ logged before) : entry.txn ≠ txn := by
  rintro rfl
  have inOrder : entry.InOrder before := orderly_run run _ _ _ split
  exact inOrder.undone ended

theorem asked_unended (run : Station.Run history s) (stepped : s.Step events s')
    {request : VoteRequest} (asked : .asked request ∈ events) :
    .done request.txn ∉ logged history := by
  cases stepped with
  | disturb | stop | start => simp [Station.startEvents] at asked
  | receive now envelope running free =>
    obtain ⟨_, handled, _⟩ := react_handles envelope.message (now.participant s.storage)
    obtain ⟨_, rfl, unvoted⟩ := handled.asks (asked_reactionEvents.mp (by simpa using asked))
    exact ((consistent_run run).informed now running).open_
      ((Memory.recordedVote_eq_none _ _).mp unvoted).2
  | answer now txn question approved running open_ =>
    obtain ⟨_, handled, _⟩ := answer_handles question.request approved (now.participant s.storage)
    exact absurd (asked_reactionEvents.mp (by simpa using asked)) (handled.asks_nothing request)

theorem asked_later_unended (run : Station.Run history s) (steps : Station.Steps s later s')
    {request : VoteRequest} (asked : .asked request ∈ later) :
    .done request.txn ∉ logged history := by
  induction steps with
  | nothing => cases asked
  | step steps stepped ih =>
    rcases List.mem_append.mp asked with earlier | now
    · exact ih earlier
    · have unended := asked_unended (run.steps steps) stepped now
      rw [logged_append, List.mem_append, not_or] at unended
      exact unended.1

end Ended

/-- What a participant has left of a transaction, once it is over: no claim to anything. -/
structure AtRest (now : Incarnation) (txn : String) : Prop where
  notPending : now.memory.pending.contains txn = false
  unlocked : ∀ resource, now.memory.locks.owner? resource ≠ some txn
  notAsking : now.asking.contains txn = false

/-- After an acknowledgement of a transaction nothing happens on its behalf, whatever messages arrive
and however often the participant is started again. It says to each of them what it has said before. -/
theorem nothing_after_acknowledgement (run : Station.Run history s) {recipient : String}
    {message : Message} (sent : .sent recipient message ∈ history) (ack : message.phase = .ack)
    (steps : Station.Steps s later s') :
    (∀ now, s'.running = some now → AtRest now message.txn) ∧
    (∀ before event after, later = before ++ event :: after →
      (∀ resource, event = .did (.deleted resource) →
        ¬OnBehalf (history ++ before) message.txn resource) ∧
      (∀ entry, event = .did (.appended entry) → entry.txn ≠ message.txn) ∧
      ∀ request, event = .asked request → request.txn ≠ message.txn) ∧
    (∀ outcome : Outcome, Answers s' outcome.phase message.txn (.ack message.txn)) ∧
    (∀ resources vote, .prepare message.txn resources vote ∈ logged history →
      Answers s' .prepare message.txn (.vote message.txn vote)) ∧
    ((∀ resources vote, .prepare message.txn resources vote ∉ logged history) →
      Answers s' .prepare message.txn (.vote message.txn .refuse)) := by
  have ended := acknowledged_ended run sent ack
  have grown := run.steps steps
  have lasts : ∀ more : List Event, .done message.txn ∈ logged (history ++ more) := by
    intro more
    simp [ended]
  refine ⟨fun now running => ?_, ?_, fun outcome => answers_decision grown (lasts later) outcome,
    fun resources vote voted => ?_, ?_⟩
  · have informed := (consistent_run grown).informed now running
    obtain ⟨vote, recorded⟩ := informed.recorded_of_ended (lasts later)
    exact ⟨by simp [Table.contains, informed.not_pending_of_ended (lasts later)],
      unlocked_when_ended grown (lasts later) running,
      by simpa [Incarnation.isFree] using informed.isFree recorded⟩
  · rintro before event after rfl
    have split : history ++ (before ++ event :: after) = (history ++ before) ++ event :: after := by
      simp
    refine ⟨?_, ?_, ?_⟩
    · rintro resource rfl
      exact not_deleted_when_ended grown split (lasts before)
    · rintro entry rfl
      exact not_logged_when_ended grown split (lasts before)
    · rintro request rfl same
      exact asked_later_unended run steps (by simp) (same ▸ ended)
  · have stays := List.mem_append_left (logged later) voted
    rw [← logged_append] at stays
    exact answers_voted grown stays
  · -- What is logged later is of other transactions, and so there is no vote later either.
    intro unvoted
    refine answers_unvoted grown (lasts later) fun resources vote voted => ?_
    rw [logged_append, List.mem_append] at voted
    rcases voted with early | late
    · exact unvoted resources vote early
    · obtain ⟨before, after, rfl⟩ := List.append_of_mem (mem_logged.mp late)
      exact not_logged_when_ended grown (List.append_assoc ..).symm (lasts before) rfl

def overtaken : List Action := [.start {}, .receive ⟨"c", .decision "t" .abort⟩]

def lateRequest : List Action := [.stop, .start {}, .receive ⟨"d", .prepare "t" ["x"] []⟩]

theorem late_request_refused : ∃ history s later s',
    shelved.playAll overtaken = some (history, s) ∧ s.playAll lateRequest = some (later, s') ∧
    .sent "d" (.vote "t" .refuse) ∈ later ∧ held s'.storage = [.done "t"] ∧
    (∀ now, s'.running = some now → AtRest now "t") ∧
    OnlyReplies s' ⟨"c", .decision "t" .commit⟩ (.ack "t") ∧
    OnlyReplies s' ⟨"d", .prepare "t" ["y"] []⟩ (.vote "t" .refuse) := by
  have played : ((shelved.playAll overtaken).bind fun first =>
      (first.2.playAll lateRequest).map fun last => (first.1, last.1, held last.2.storage)) =
    some ([.started, .did (.compacted []), .recovered (.ok {}),
        .received ⟨"c", .decision "t" .abort⟩, .did (.appended (.decision "t" .abort)),
        .did (.appended (.done "t")), .sent "c" (.ack "t")],
      [.stopped, .started, .did (.compacted [.done "t"]), .recovered (.ok ⟨0, 0, 1⟩),
        .received ⟨"d", .prepare "t" ["x"] []⟩, .sent "d" (.vote "t" .refuse)],
      [.done "t"]) := by rfl
  obtain ⟨⟨history, s⟩, deciding, rest⟩ := Option.bind_eq_some_iff.mp played
  obtain ⟨⟨later, s'⟩, requesting, facts⟩ := Option.map_eq_some_iff.mp rest
  simp only [Prod.mk.injEq] at facts
  obtain ⟨happened, followed, compacted⟩ := facts
  have run : Station.Run history s := Station.playAll_run (.begin shelved.storage rfl) deciding
  have steps : Station.Steps s later s' := Station.playAll_steps .nothing requesting
  have acked : .sent "c" (.ack "t") ∈ history := by simp [happened]
  obtain ⟨rests, _, acks, _, refuses⟩ := nothing_after_acknowledgement run acked rfl steps
  refine ⟨history, s, later, s', deciding, requesting, by simp [followed], compacted, rests,
    acks .commit _ rfl rfl, refuses (fun resources vote voted => ?_) _ rfl rfl⟩
  rw [mem_logged, happened] at voted
  simp [Message.ack] at voted

end AtomicCommit.Participant
