import AtomicCommit.Proofs.Participant.Consistent

/-! What a participant logs and says has its grounds in what it has received and logged before. -/

namespace AtomicCommit.Participant

def Requested (before : List Event) (txn : String) (resources : List String) : Prop :=
  ∃ envelope, .received envelope ∈ before ∧ envelope.message.phase = .prepare ∧
    envelope.message.txn = txn ∧ envelope.message.resources = resources

def Told (before : List Event) (txn : String) (outcome : Outcome) : Prop :=
  ∃ envelope, .received envelope ∈ before ∧ envelope.message.phase = outcome.phase ∧
    envelope.message.txn = txn

def Entry.Founded (before : List Event) : Entry → Prop
  | .prepare txn resources _ => Requested before txn resources
  | .decision txn outcome => Told before txn outcome
  | .done _ => True

def Honest (entries : List Entry) (message : Message) : Prop :=
  (∃ txn, message = .ack txn) ∨ ∃ txn vote, message = .vote txn vote ∧
    (vote = .accept → ∃ resources, .prepare txn resources .accept ∈ entries)

theorem Honest.phase {entries : List Entry} {message : Message} (honest : Honest entries message)
    (outcome : Outcome) : message.phase ≠ outcome.phase := by
  intro same
  rcases honest with ⟨txn, rfl⟩ | ⟨txn, vote, rfl, _⟩
  · cases outcome <;> cases same
  · cases vote <;> cases outcome <;> cases same

theorem Honest.request {entries : List Entry} {message : Message}
    (honest : Honest entries message) : message.phase ≠ .prepare := by
  intro same
  rcases honest with ⟨txn, rfl⟩ | ⟨txn, vote, rfl, _⟩
  · cases same
  · cases vote <;> cases same

theorem Honest.acceptance {entries : List Entry} {message : Message}
    (honest : Honest entries message) (accepts : message.phase = .accept) :
    ∃ resources, .prepare message.txn resources .accept ∈ entries := by
  rcases honest with ⟨txn, rfl⟩ | ⟨txn, vote, rfl, logged⟩
  · cases accepts
  · cases vote with
    | accept => exact logged rfl
    | refuse => cases accepts

def grounds (before : List Event) : Event → Prop
  | .did (.appended entry) => entry.Founded before
  | .sent _ message => Honest (logged before) message
  | _ => True

theorem Requested.later {before : List Event} {txn : String} {resources : List String}
    (requested : Requested before txn resources) (more : List Event) :
    Requested (before ++ more) txn resources := by
  obtain ⟨envelope, received, rest⟩ := requested
  exact ⟨envelope, List.mem_append_left _ received, rest⟩

theorem grounds_lasting : Lasting grounds := by
  intro before more event grounded
  cases event with
  | did deed =>
    cases deed with
    | appended entry =>
      cases entry with
      | prepare txn resources vote => exact Requested.later grounded more
      | decision txn outcome =>
        obtain ⟨envelope, received, rest⟩ := grounded
        exact ⟨envelope, List.mem_append_left _ received, rest⟩
      | done txn => trivial
    | _ => trivial
  | sent recipient message =>
    rcases grounded with ack | ⟨txn, vote, said, accepted⟩
    · exact .inl ack
    · refine .inr ⟨txn, vote, said, fun accepts => ?_⟩
      obtain ⟨resources, logged⟩ := accepted accepts
      exact ⟨resources, by simp [logged]⟩
  | _ => trivial

theorem grounds_deeds {before : List Event} {deeds : List (Deed Entry)}
    (founded : ∀ entry ∈ Deed.records deeds, entry.Founded before) :
    ∀ event ∈ deeds.map .did, grounds before event := by
  intro event member
  obtain ⟨deed, done, rfl⟩ := List.mem_map.mp member
  cases deed with
  | appended entry => exact founded entry (Deed.mem_records.mpr done)
  | _ => trivial

namespace Handled

variable {before : List Event} {memory after : Memory} {deeds : List (Deed Entry)}
  {reaction : Reaction}

theorem message_founded {envelope : Envelope} (received : .received envelope ∈ before)
    (handled : Handled (.message envelope.message) memory deeds reaction after) :
    ∀ entry ∈ Deed.records deeds, entry.Founded before := by
  have told : ∀ outcome : Outcome, envelope.message.phase = outcome.phase →
      (Entry.decision envelope.message.txn outcome).Founded before :=
    fun outcome phase => ⟨envelope, received, phase, rfl⟩
  have ended : (Entry.done envelope.message.txn).Founded before := trivial
  cases handled with
  | refused _ _ phase _ =>
    have requested : Requested before envelope.message.txn envelope.message.resources :=
      ⟨envelope, received, phase, rfl, rfl⟩
    simpa [Entry.Founded] using requested
  | unasked _ outcome _ phase _ _ => simpa using told outcome phase
  | unknown _ outcome _ phase _ _ => simpa using ⟨told outcome phase, ended⟩
  | again _ outcome _ pending former deeds success after phase _ _ _ finished =>
    cases finished <;> simp [ended]
  | decided _ outcome _ pending deeds success after phase _ _ _ finished =>
    cases finished <;> simp [ended, told outcome phase]
  | _ => simp

theorem answer_founded {request : VoteRequest} {approved : Bool}
    (requested : Requested before request.txn request.resources)
    (handled : Handled (.answer request approved) memory deeds reaction after) :
    ∀ entry ∈ Deed.records deeds, entry.Founded before := by
  cases handled with
  | accepted | rejected => simpa [Entry.Founded] using requested
  | _ => simp

theorem asks {m : Message} {request : VoteRequest}
    (handled : Handled (.message m) memory deeds reaction after) (asks : reaction = .ask request) :
    m.phase = .prepare ∧ request = requestOf m ∧ memory.recordedVote m.txn = none := by
  cases handled with
  | asked _ _ locks phase unvoted _ =>
    cases asks
    exact ⟨phase, rfl, unvoted⟩
  | again _ _ _ _ _ _ success | decided _ _ _ _ _ success => cases success <;> cases asks
  | _ => cases asks

theorem asks_nothing {request : VoteRequest} {approved : Bool}
    (handled : Handled (.answer request approved) memory deeds reaction after)
    (other : VoteRequest) : reaction ≠ .ask other := by
  rintro rfl
  cases handled

end Handled

theorem asking_conclude {now : Incarnation} {sender txn : String} {memory : Memory}
    {reaction : Reaction} {question : Question}
    (asked : (now.conclude sender memory reaction).asking.get? txn = some question) :
    now.asking.get? txn = some question ∨
      ∃ request, reaction = .ask request ∧ question = ⟨sender, request⟩ := by
  cases reaction with
  | ask request =>
    simp only [Incarnation.conclude, Table.get?_insert] at asked
    split at asked
    · exact .inr ⟨request, rfl, (Option.some.inj asked).symm⟩
    · exact .inl asked
  | silent => exact .inl asked
  | reply message => exact .inl asked

namespace Informed

variable {entries : List Entry} {memory after : Memory} {asking : Table String Question}
  {deeds : List (Deed Entry)} {reaction : Reaction} {cause : Cause}

theorem accepted (informed : Informed entries memory asking) {txn : String}
    (recorded : memory.recordedVote txn = some .accept) :
    ∃ resources, .prepare txn resources .accept ∈ entries := by
  have agrees := informed.agrees txn
  cases waiting : memory.pending.get? txn with
  | some pending =>
    rw [waiting] at agrees
    have accepts : pending.vote = .accept := by simpa [Memory.recordedVote, waiting] using recorded
    exact ⟨_, accepts ▸ vote_known agrees.voted.2⟩
  | none =>
    have ended := agrees.resolved
    simp only [Memory.recordedVote, waiting, Option.map_eq_some_iff] at recorded
    obtain ⟨vote, resolved, accepts⟩ := recorded
    obtain rfl : vote = some .accept := by
      cases vote with
      | none => cases accepts
      | some vote => exact congrArg some accepts
    rw [resolved] at ended
    have remembered : (known entries txn).vote.map (·.2) = some .accept := by
      split at ended
      · exact (Option.some.inj ended).symm
      · cases ended
    obtain ⟨⟨resources, _⟩, voted, rfl⟩ := Option.map_eq_some_iff.mp remembered
    exact ⟨resources, vote_known voted⟩

theorem honest (informed : Informed entries memory asking)
    (handled : Handled cause memory deeds reaction after) {message : Message}
    (replied : reaction = .reply message) : Honest (entries ++ Deed.records deeds) message := by
  have acked : ∀ txn success, ackIf txn success = .reply message → message = .ack txn := by
    intro txn success acks
    cases success <;> cases acks
    rfl
  have refused : ∀ txn, Honest (entries ++ Deed.records deeds) (.vote txn .refuse) :=
    fun txn => .inr ⟨txn, .refuse, rfl, by simp⟩
  cases handled with
  | repeated m _ vote phase recorded =>
    cases replied
    refine .inr ⟨m.txn, vote, rfl, ?_⟩
    rintro rfl
    simpa using informed.accepted recorded
  | accepted request =>
    cases replied
    exact .inr ⟨request.txn, .accept, rfl, fun _ => ⟨request.resources, by simp⟩⟩
  | refused | rejected =>
    cases replied
    exact refused _
  | settled | unknown =>
    cases replied
    exact .inl ⟨_, rfl⟩
  | again | decided => exact .inl ⟨_, acked _ _ replied⟩
  | _ => cases replied

end Informed

variable {τ : Type}

structure Grounded (history : List Event) (s : Station τ) : Prop where
  asking : ∀ now, s.running = some now → ∀ txn question, now.asking.get? txn = some question →
    Requested history question.request.txn question.request.resources
  ordered : Ordered grounds history

namespace Grounded

variable {history : List Event} {s s' : Station τ}

theorem quiet (grounded : Grounded history s) {event : Event} (silent : grounds history event) :
    Ordered grounds (history ++ [event]) :=
  grounded.ordered.append_all grounds_lasting (by simpa using silent)

theorem later (grounded : Grounded history s) (events : List Event) : ∀ now, s.running = some now →
    ∀ txn question, now.asking.get? txn = some question →
      Requested (history ++ events) question.request.txn question.request.resources :=
  fun now running txn question asked => (grounded.asking now running txn question asked).later events

variable [Journal τ Entry] [LawfulJournal τ Entry]

open Recorded (Does)

theorem reacted (grounded : Grounded history s) {first : Event} {sender : String}
    {result : Reaction × Participant (Recorded τ Entry)} {deeds : List (Deed Entry)}
    (silent : grounds history first) (quiet : Eventful.deed? first = none)
    (does : Does ⟨s.storage, []⟩ result.2.storage deeds)
    (founded : ∀ entry ∈ Deed.records deeds, entry.Founded (history ++ [first]))
    (honest : ∀ message, result.1 = .reply message →
      Honest (logged history ++ Deed.records deeds) message) :
    Ordered grounds (history ++ ([first] ++ Station.reactionEvents sender result)) := by
  have noted : result.2.storage.deeds = deeds := does.noted
  have done : Ordered grounds (history ++ [first] ++ deeds.map .did) :=
    (grounded.quiet silent).append_all grounds_lasting (grounds_deeds founded)
  have said : Ordered grounds (history ++ [first] ++ deeds.map .did ++ result.1.events sender) := by
    refine done.append_all grounds_lasting fun event member => ?_
    cases replied : result.1 with
    | reply message =>
      obtain rfl : event = .sent sender message := by simpa [replied, Reaction.events] using member
      have truthful := honest message replied
      rwa [← logged_quiet history quiet, ← logged_did, ← logged_append] at truthful
    | silent => simp [replied, Reaction.events] at member
    | ask request =>
      obtain rfl : event = .asked request := by simpa [replied, Reaction.events] using member
      trivial
  simpa [Station.reactionEvents, noted] using said

variable [ResourceStore τ] [LawfulStore τ Entry]

theorem recover_ends (config : Config) (storage : τ) :
    ∀ entry ∈ Deed.records
      (recover config (⟨{}, ⟨storage, []⟩⟩ : Participant (Recorded τ Entry))).2.storage.deeds,
      ∃ txn waiting, (txn, waiting) ∈ toReapply (traces (held storage)) ∧ entry = .done txn := by
  rcases recover_cases config storage with ⟨e, t, result, replayed⟩ | ⟨t, replayed, result⟩
  · simp [result, replayed.records]
  · rw [result]
    obtain ⟨_, ⟨_, ends⟩, _⟩ := reapply_induction
      (P := fun rest p => rest ⊆ toReapply (traces (held storage)) ∧
        ∀ entry ∈ Deed.records p.storage.deeds,
          ∃ txn waiting, (txn, waiting) ∈ toReapply (traces (held storage)) ∧ entry = .done txn)
      (by
        rintro txn waiting rest p deeds success after ⟨some, ends⟩ applied does
        obtain ⟨here, others⟩ := List.cons_subset.mp some
        refine ⟨others, fun entry member => ?_⟩
        rw [does.noted, Deed.records_append, List.mem_append] at member
        refine member.elim (ends entry) fun new => ⟨txn, waiting, here, ?_⟩
        generalize after.memory = later at applied
        cases applied with
        | applied pending _ _ _ _ finished => exact finished.records entry new
        | ended => simpa using new
        | unended => simp at new)
      (toReapply (traces (held storage))) ⟨restored (traces (held storage)) {}, t⟩
      ⟨List.Subset.refl _, by simp [replayed.records]⟩
    exact ends

theorem step (grounded : Grounded history s) (consistent : Consistent history s)
    {events : List Event} (stepped : s.Step events s') : Grounded (history ++ events) s' := by
  cases stepped with
  | disturb storage same => exact ⟨grounded.later _, grounded.quiet trivial⟩
  | start config down =>
    have ends := recover_ends config s.storage
    constructor
    · rintro now running txn question asked
      simp only [Station.afterStart, Option.ite_none_right_eq_some] at running
      obtain ⟨_, ⟨⟩⟩ := running
      cases asked
    · refine grounded.ordered.append_all grounds_lasting ?_
      simp only [Station.startEvents, List.mem_append, List.mem_singleton]
      rintro event ((rfl | noted) | rfl)
      · trivial
      · refine grounds_deeds ?_ event noted
        intro entry member
        obtain ⟨txn, _, _, rfl⟩ := ends entry member
        trivial
      · trivial
  | stop => exact ⟨by simp, grounded.quiet trivial⟩
  | receive now envelope running free =>
    obtain ⟨deeds, handled, does⟩ := react_handles envelope.message (now.participant s.storage)
    constructor
    · rintro later ⟨⟩ txn question asked
      rcases asking_conclude asked with open_ | ⟨request, asks, rfl⟩
      · exact grounded.later _ now running txn question open_
      · obtain ⟨phase, rfl, _⟩ := handled.asks asks
        exact ⟨envelope, by simp, phase, rfl, rfl⟩
    · exact grounded.reacted trivial rfl does (handled.message_founded (by simp))
        fun message => (consistent.informed now running).honest handled
  | answer now txn question approved running asked =>
    obtain ⟨deeds, handled, does⟩ := answer_handles question.request approved (now.participant s.storage)
    constructor
    · rintro later ⟨⟩ other open_ found
      rcases asking_conclude found with still | ⟨request, asks, rfl⟩
      · simp only [Table.get?_erase, Option.ite_none_left_eq_some] at still
        exact grounded.later _ now running other open_ still.2
      · exact absurd asks (handled.asks_nothing request)
    · exact grounded.reacted trivial rfl does
        (handled.answer_founded (grounded.later _ now running txn question asked))
        fun message => (consistent.informed now running).honest handled

theorem run {history : List Event} {s : Station τ} (run : Station.Run history s) :
    Grounded history s := by
  induction run with
  | begin storage empty => exact ⟨by simp, .nil _⟩
  | step run stepped ih => exact ih.step (consistent_run run) stepped

end Grounded

end AtomicCommit.Participant
