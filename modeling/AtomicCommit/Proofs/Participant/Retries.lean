import AtomicCommit.Proofs.Participant.AtRest
import AtomicCommit.Proofs.Participant.Interrupted
import AtomicCommit.Proofs.Participant.Repeats

/-! A decision that is told until it is acknowledged. Whatever fails on the way, and however often the
participant goes down, it has the effects of a decision that succeeds at once. -/

namespace AtomicCommit.Participant

open Recorded (Does)

section Handling

variable {memory after : Memory} {deeds : List (Deed Entry)} {reaction : Reaction} {message : Message}
  {outcome : Outcome} {txn : String}

theorem phase_injective {outcome other : Outcome} (same : outcome.phase = other.phase) :
    outcome = other := by
  cases outcome <;> cases other <;> cases same <;> rfl

theorem Handled.decision_records (handled : Handled (.message message) memory deeds reaction after)
    (told : message.phase = outcome.phase) : ∀ entry ∈ Deed.records deeds,
      entry = .decision message.txn outcome ∨ entry = .done message.txn := by
  have notPrepare : message.phase ≠ .prepare := by
    rw [told]
    cases outcome <;> simp [Outcome.phase]
  cases handled with
  | refused _ _ phase => exact absurd phase notPrepare
  | unasked _ heard _ phase =>
    obtain rfl := phase_injective (phase.symm.trans told)
    simp
  | unknown _ heard _ phase =>
    obtain rfl := phase_injective (phase.symm.trans told)
    simp
  | again _ _ _ _ _ _ _ _ _ _ _ _ finished =>
    exact fun entry member => .inr (finished.records entry member)
  | decided _ heard _ _ _ _ _ phase _ _ _ finished =>
    obtain rfl := phase_injective (phase.symm.trans told)
    intro entry member
    rcases List.mem_cons.mp member with rfl | later
    · exact .inl rfl
    · exact .inr (finished.records entry later)
  | _ => simp

end Handling

variable {τ : Type} [Journal τ Entry] [LawfulJournal τ Entry] [ResourceStore τ]
  [LawfulStore τ Entry] {history events : List Event} {s s' : Station τ} {txn : String}
  {outcome : Outcome} {pending : Pending}

theorem Handled.acknowledged {memory after : Memory} {deeds : List (Deed Entry)} {message : Message}
    (handled : Handled (.message message) memory deeds (.reply (.ack message.txn)) after)
    (told : message.phase = outcome.phase) (waits : memory.pending.get? message.txn = some pending)
    (undecided : pending.decision = none)
    (unresolved : memory.resolved.contains message.txn = false) :
    deeds = .appended (.decision message.txn outcome) ::
      ((pending.doomed outcome).map .deleted ++ [.appended (.done message.txn)]) := by
  generalize replied : Reaction.reply (Message.ack message.txn) = reaction at handled
  cases handled with
  | repeated _ _ _ phase => cases outcome <;> cases told.symm.trans phase
  | refused _ _ phase => cases outcome <;> cases told.symm.trans phase
  | settled _ _ _ _ resolved => simp [resolved] at unresolved
  | unknown _ _ _ _ _ absent => simp [absent] at waits
  | again _ _ _ _ _ _ _ _ _ _ waiting decided =>
    obtain rfl := Option.some.inj (waits.symm.trans waiting)
    simp [undecided] at decided
  | decided _ heard _ _ _ success _ phase _ waiting _ finished =>
    obtain rfl := Option.some.inj (waits.symm.trans waiting)
    obtain rfl := phase_injective (phase.symm.trans told)
    cases finished with
    | undecided impossible => cases impossible
    | stuck => cases replied
    | ended _ decided =>
      obtain rfl := Option.some.inj decided
      rfl
  | _ => cases replied

theorem Handled.ends_decided {entries : List Entry} {asking : Table String Question} {memory after : Memory}
    {deeds : List (Deed Entry)} {reaction : Reaction} {cause : Cause}
    (informed : Informed entries memory asking) (handled : Handled cause memory deeds reaction after)
    {name : String} (ended : .done name ∈ Deed.records deeds) :
    ∃ outcome, .decision name outcome ∈ entries ++ Deed.records deeds := by
  cases handled with
  | unknown m outcome =>
    obtain rfl : name = m.txn := by simpa using ended
    exact ⟨outcome, by simp⟩
  | again m outcome _ pending former _ _ _ _ _ waiting decided finished =>
    obtain rfl : name = m.txn := Entry.done.inj (finished.records _ ended)
    have told := (informed.agrees m.txn).decision pending waiting former decided
    exact ⟨former, List.mem_append_left _ (decision_known told)⟩
  | decided m outcome _ pending _ _ _ _ _ _ _ finished =>
    obtain rfl : name = m.txn := by
      rcases List.mem_cons.mp ended with impossible | later
      · cases impossible
      · exact Entry.done.inj (finished.records _ later)
    exact ⟨outcome, by simp⟩
  | _ => simp at ended

theorem decided_of_ended (run : Station.Run history s) (ended : .done txn ∈ logged history) :
    ∃ outcome, .decision txn outcome ∈ logged history := by
  induction run with
  | begin => simp at ended
  | @step history events s s' run stepped ih =>
    have consistent := consistent_run run
    rw [logged_append, List.mem_append] at ended
    simp only [logged_append history]
    rcases ended with early | late
    · obtain ⟨outcome, told⟩ := ih early
      exact ⟨outcome, by simp [told]⟩
    cases stepped with
    | disturb | stop => cases late
    | start config =>
      rw [logged_startEvents] at late
      obtain ⟨name, _, taken, ⟨⟩⟩ := Grounded.recover_ends config s.storage _ late
      obtain ⟨_, decided, _⟩ := mem_toReapply_traces.mp taken
      obtain ⟨outcome, told⟩ := decided_iff.mp decided
      exact ⟨outcome, by simp [consistent.kept.mem_entries told]⟩
    | receive now envelope running =>
      obtain ⟨deeds, handled, does⟩ := react_handles envelope.message (now.participant s.storage)
      have noted : _ = deeds := does.noted
      rw [logged_reaction rfl, noted] at late ⊢
      exact handled.ends_decided (consistent.informed now running) late
    | answer now _ question approved running =>
      obtain ⟨deeds, handled, does⟩ := answer_handles question.request approved (now.participant s.storage)
      have noted : _ = deeds := does.noted
      rw [logged_reaction rfl, noted] at late ⊢
      exact handled.ends_decided (consistent.informed now running) late

/-- From one state to another by nothing but one decision, told any number of times, and restarts. -/
structure Station.Retries (s : Station τ) (txn : String) (outcome : Outcome) (events : List Event)
    (s' : Station τ) : Prop where
  steps : s.Steps events s'
  told : ∀ envelope, .received envelope ∈ events →
    envelope.message.txn = txn ∧ envelope.message.phase = outcome.phase
  unanswered : ∀ request approved, .answered request approved ∉ events
  alone : .disturbed ∉ events

structure Awaits (history : List Event) (txn : String) (pending : Pending) : Prop where
  voted : (known (logged history) txn).vote = some (pending.resources, pending.vote)
  undone : .done txn ∉ logged history
  undecided : ∀ outcome, .decision txn outcome ∉ logged history

theorem awaits_of_pending (run : Station.Run history s) {now : Incarnation}
    (running : s.running = some now) (waits : now.memory.pending.get? txn = some pending)
    (undecided : ∀ outcome, .decision txn outcome ∉ held s.storage) :
    Awaits history txn pending := by
  have consistent := consistent_run run
  have agrees := (consistent.informed now running).agrees txn
  rw [waits] at agrees
  obtain ⟨undone, voted⟩ := agrees.voted
  have open_ : .done txn ∉ logged history := isDone_known.not.mp (Bool.eq_false_iff.mp undone)
  refine ⟨voted, open_, fun outcome told => undecided outcome ?_⟩
  have whole := (consistent.kept.log txn).resolve_right fun ⟨ended, _⟩ => open_ ended
  have own : .decision txn outcome ∈ Log.recordsOf txn (logged history) :=
    Log.mem_recordsOf.mpr ⟨told, rfl⟩
  exact (Log.mem_recordsOf.mp (whole ▸ own)).1

/-- What a retried decision has come to. Nothing but the decision and ends has been logged, and deletions
were for its sake, or for the sake of commits that a restart has found in the log. -/
structure Retried (history : List Event) (txn : String) (outcome : Outcome) (pending : Pending)
    (events : List Event) (s : Station τ) : Prop where
  records : ∀ entry ∈ logged events, entry = .decision txn outcome ∨ entry.isDone
  calm : .started ∈ events → ∀ now, s.running = some now → ∀ other, other ≠ txn →
    (known (logged (history ++ events)) other).isDone = false →
      (known (logged (history ++ events)) other).decision = none
  deleted : ∀ resource, .did (.deleted resource) ∈ events →
    resource ∈ pending.doomed outcome ∨ .started ∈ events ∧ Doomed (logged history) resource

section Retried

theorem known_append (entries records : List Entry) (txn : String) :
    known (entries ++ records) txn = (Log.recordsOf txn records).foldl Trace.note (known entries txn) := by
  rw [known, Log.traceOf, Log.recordsOf_append, List.foldl_append]
  rfl

theorem known_decided {entries records : List Entry} {other : String}
    (only : ∀ entry ∈ records, entry = .decision txn outcome ∨ entry.isDone) (distinct : other ≠ txn)
    (undone : (known (entries ++ records) other).isDone = false) :
    known (entries ++ records) other = known entries other := by
  have none : Log.recordsOf other records = [] := by
    refine List.filter_eq_nil_iff.mpr fun entry member own => ?_
    have ended : .done other ∉ entries ++ records :=
      isDone_known.not.mp (Bool.eq_false_iff.mp undone)
    rcases only entry member with rfl | isEnd
    · exact distinct (of_decide_eq_true own).symm
    · refine ended (List.mem_append_right _ ?_)
      rw [← (of_decide_eq_true own : entry.txn = other), ← Entry.eq_done isEnd]
      exact member
  rw [known_append, none, List.foldl_nil]

theorem Awaits.dooms (awaits : Awaits history txn pending) {records : List Entry} {owner resource : String}
    {resources : List String}
    (only : ∀ entry ∈ records, entry = .decision txn outcome ∨ entry.isDone)
    (dooms : (known (logged history ++ records) owner).Dooms resources)
    (listed : resource ∈ resources) :
    owner = txn ∧ resource ∈ pending.doomed outcome ∨
      owner ≠ txn ∧ Doomed (logged history) resource := by
  by_cases own : owner = txn
  · subst own
    have kinds : ∀ entry ∈ Log.recordsOf owner records,
        entry = .done owner ∨ ∃ outcome, entry = .decision owner outcome := by
      intro entry member
      obtain ⟨there, mine⟩ := Log.mem_recordsOf.mp member
      rcases only entry there with rfl | isEnd
      · exact .inr ⟨outcome, rfl⟩
      · exact .inl ((Entry.eq_done isEnd).trans (congrArg Entry.done mine))
    have voted := dooms.accepted
    rw [known_append, vote_told _ kinds, awaits.voted, Option.some.injEq, Prod.mk.injEq] at voted
    have told := decision_known dooms.committed
    obtain rfl : outcome = .commit := by
      rcases List.mem_append.mp told with early | late
      · exact absurd early (awaits.undecided _)
      · rcases only _ late with same | isEnd
        · exact (Entry.decision.inj same).2.symm
        · cases isEnd
    exact .inl ⟨rfl, Pending.mem_doomed.mpr ⟨rfl, voted.2, voted.1 ▸ listed⟩⟩
  · refine .inr ⟨own, owner, resources, ?_, listed⟩
    rwa [known_decided only own dooms.undone] at dooms

theorem handling_received (before : List Event) (envelope : Envelope) (deeds : List (Deed Entry)) :
    Handling (before ++ [.received envelope] ++ deeds.map .did) envelope := by
  have none : (deeds.map Event.did).filter (fun event => (Eventful.deed? event).isNone) = [] :=
    List.filter_eq_nil_iff.mpr fun event member => by
      obtain ⟨deed, _, rfl⟩ := List.mem_map.mp member
      exact Bool.false_ne_true
  rw [Handling, List.filter_append, none, List.append_nil, List.filter_append]
  exact List.getLast?_concat

theorem Awaits.owner (awaits : Awaits history txn pending) {before after : List Event} {resource : String}
    (run : Station.Run (history ++ events) s) (split : events = before ++ .did (.deleted resource) :: after)
    (only : ∀ entry ∈ logged events, entry = .decision txn outcome ∨ entry.isDone) :
    resource ∈ pending.doomed outcome ∨
      ¬OnBehalf (history ++ before) txn resource ∧ Doomed (logged history) resource := by
  have whole : history ++ events = history ++ before ++ .did (.deleted resource) :: after := by
    simp [split]
  obtain ⟨owner, resources, dooms, listed, behalf⟩ := deleted_for run whole
  rw [logged_append] at dooms
  have early : ∀ entry ∈ logged before, entry = .decision txn outcome ∨ entry.isDone := by
    intro entry member
    refine only entry ?_
    rw [split, logged_append]
    exact List.mem_append_left _ member
  refine (awaits.dooms early dooms listed).imp And.right fun ⟨other, doomed⟩ => ⟨?_, doomed⟩
  rw [behalf]
  exact Ne.symm other

namespace Retried

variable {more : List Event}

omit [Journal τ Entry] [LawfulJournal τ Entry] [ResourceStore τ] [LawfulStore τ Entry] in
theorem begin (history : List Event) (s : Station τ) (txn : String) (outcome : Outcome)
    (pending : Pending) : Retried history txn outcome pending [] s :=
  ⟨by simp, by simp, by simp⟩

theorem deletes (retried : Retried history txn outcome pending events s)
    (awaits : Awaits history txn pending) (run : Station.Run (history ++ (events ++ more)) s')
    (only : ∀ entry ∈ logged (events ++ more), entry = .decision txn outcome ∨ entry.isDone)
    (cause : ∀ resource, .did (.deleted resource) ∈ more → .started ∈ more ∨
      ∃ before after, more = before ++ .did (.deleted resource) :: after ∧
        OnBehalf (history ++ (events ++ before)) txn resource)
    {resource : String} (member : .did (.deleted resource) ∈ events ++ more) :
    resource ∈ pending.doomed outcome ∨
      .started ∈ events ++ more ∧ Doomed (logged history) resource := by
  rcases List.mem_append.mp member with early | late
  · exact (retried.deleted resource early).imp_right fun ⟨started, doomed⟩ =>
      ⟨List.mem_append_left _ started, doomed⟩
  rcases cause resource late with started | ⟨before, after, split, behalf⟩
  · obtain ⟨before, after, split⟩ := List.append_of_mem member
    exact (awaits.owner run split only).imp_right fun ⟨_, doomed⟩ =>
      ⟨List.mem_append_right _ started, doomed⟩
  · have whole : events ++ more = events ++ before ++ .did (.deleted resource) :: after := by
      simp [split]
    exact .inl ((awaits.owner run whole only).resolve_right fun ⟨foreign, _⟩ => foreign behalf)

theorem start (retried : Retried history txn outcome pending events s)
    (awaits : Awaits history txn pending) (run : Station.Run (history ++ events) s) (config : Config)
    (down : s.running = none) : Retried history txn outcome pending
      (events ++ Station.startEvents
        (recover config (⟨{}, ⟨s.storage, []⟩⟩ : Participant (Recorded τ Entry))))
      (s.afterStart (recover config ⟨{}, ⟨s.storage, []⟩⟩)) := by
  have consistent := consistent_run run
  have later := run.step (.start s config down)
  rw [List.append_assoc] at later
  have only : ∀ entry ∈ logged (events ++ Station.startEvents
      (recover config (⟨{}, ⟨s.storage, []⟩⟩ : Participant (Recorded τ Entry)))),
      entry = .decision txn outcome ∨ entry.isDone := by
    intro entry member
    rw [logged_append, logged_startEvents] at member
    rcases List.mem_append.mp member with early | late
    · exact retried.records entry early
    · obtain ⟨name, _, _, rfl⟩ := Grounded.recover_ends config s.storage entry late
      exact .inr rfl
  refine ⟨only, ?_, fun resource => retried.deletes awaits later only fun _ _ => .inl ?_⟩
  · intro _ now running other distinct undone
    rcases result : recover config (⟨{}, ⟨s.storage, []⟩⟩ : Participant (Recorded τ Entry))
      with ⟨e | found, after⟩
    · simp [Station.afterStart, result, Except.isOk, Except.toBool] at running
    · -- A restart that succeeds ends all that has been decided, so nothing decided is open.
      obtain ⟨ends, _, settled⟩ := recover_settles consistent.kept consistent.exclusive result
      have grown : logged (history ++ (events ++ Station.startEvents (Except.ok found, after))) =
          logged (history ++ events) ++ missingEnds (held s.storage) := by
        rw [← List.append_assoc, logged_append, logged_startEvents, ends]
      rw [result, grown] at undone
      rw [grown]
      exact settled.calm other undone
  · simp [Station.startEvents]

theorem receive (retried : Retried history txn outcome pending events s)
    (awaits : Awaits history txn pending) (run : Station.Run (history ++ events) s) {now : Incarnation}
    {envelope : Envelope} (running : s.running = some now) (free : now.isFree envelope.message.txn)
    (own : envelope.message.txn = txn) (told : envelope.message.phase = outcome.phase) :
    Retried history txn outcome pending
      (events ++ ([.received envelope] ++
        Station.reactionEvents envelope.sender (react envelope.message (now.participant s.storage))))
      (Station.afterReaction now envelope.sender
        (react envelope.message (now.participant s.storage))) := by
  obtain ⟨deeds, handled, does⟩ := react_handles envelope.message (now.participant s.storage)
  have noted : (react envelope.message (now.participant s.storage)).2.storage.deeds = deeds := does.noted
  have later := run.step (.receive s now envelope running free)
  rw [List.append_assoc] at later
  have records := handled.decision_records told
  rw [own] at records
  have new : logged ([.received envelope] ++ Station.reactionEvents envelope.sender
      (react envelope.message (now.participant s.storage))) = Deed.records deeds := by
    rw [logged_reaction rfl, noted]
  have only : ∀ entry ∈ logged (events ++ ([.received envelope] ++
      Station.reactionEvents envelope.sender (react envelope.message (now.participant s.storage)))),
      entry = .decision txn outcome ∨ entry.isDone := by
    intro entry member
    rw [logged_append, new] at member
    rcases List.mem_append.mp member with early | late
    · exact retried.records entry early
    · exact (records entry late).imp_right fun same => by rw [same]; rfl
  refine ⟨only, ?_, fun resource => retried.deletes awaits later only fun resource member => .inr ?_⟩
  · intro started later _ other distinct
    have mine : ∀ entry ∈ Deed.records deeds, entry.txn = txn := by
      intro entry member
      rcases records entry member with rfl | rfl <;> rfl
    rw [← List.append_assoc, logged_append (history ++ events), new, known_other mine distinct]
    refine retried.calm ?_ now running other distinct
    rcases List.mem_append.mp started with early | late
    · exact early
    · simp [Station.mem_reactionEvents] at late
  · have deleted : .deleted resource ∈ deeds := by
      simpa [Station.mem_reactionEvents, noted] using member
    obtain ⟨first, rest, rfl⟩ := List.append_of_mem deleted
    rw [Station.reactionEvents, noted]
    refine ⟨[.received envelope] ++ first.map .did, rest.map .did ++ _, by simp; rfl,
      .inl ⟨envelope, ?_, own⟩⟩
    have handling := handling_received (history ++ events) envelope first
    simpa using handling

theorem run (run : Station.Run history s) (awaits : Awaits history txn pending)
    (retries : s.Retries txn outcome events s') :
    Retried history txn outcome pending events s' := by
  obtain ⟨steps, told, unanswered, alone⟩ := retries
  induction steps with
  | nothing => exact begin history s txn outcome pending
  | @step events more between s' steps stepped ih =>
    have retried := ih (fun envelope received => told envelope (List.mem_append_left _ received))
      (fun request approved answered => unanswered request approved (List.mem_append_left _ answered))
      (fun disturbed => alone (List.mem_append_left _ disturbed))
    have earlier := run.steps steps
    cases stepped with
    | disturb => exact absurd (by simp) alone
    | start config down => exact retried.start awaits earlier config down
    | stop =>
      have same : logged (events ++ [.stopped]) = logged events := logged_quiet events rfl
      exact ⟨by simpa [same] using retried.records, by simp, by simpa using retried.deleted⟩
    | receive now envelope running free =>
      obtain ⟨own, phase⟩ := told envelope (by simp)
      exact retried.receive awaits earlier running free own phase
    | answer now name question approved => exact absurd (by simp) (unanswered question.request approved)

end Retried

end Retried

section Ends

omit [LawfulStore τ Entry] in
theorem Station.Steps.first (steps : s.Steps events s') :
    events = [] ∨ ∃ first rest, events = first :: rest ∧ Eventful.deed? first = none := by
  induction steps with
  | nothing => exact .inl rfl
  | @step events more between s' steps stepped ih =>
    refine .inr ?_
    rcases ih with rfl | ⟨first, rest, rfl, quiet⟩
    · cases stepped <;> exact ⟨_, _, rfl, rfl⟩
    · exact ⟨first, rest ++ more, rfl, quiet⟩

theorem Station.Steps.deletes (steps : s.Steps events s') (run : Station.Run history s)
    {owner resource : String} {resources : List String}
    (dooms : ∀ before after, events = before ++ .did (.appended (.done owner)) :: after →
      (Entry.done owner).InOrder (history ++ before) →
        (known (logged (history ++ before)) owner).Dooms resources)
    (ended : .done owner ∈ logged events) (listed : resource ∈ resources) :
    .did (.deleted resource) ∈ events := by
  obtain ⟨before, after, split⟩ := List.append_of_mem (mem_logged.mp ended)
  have inOrder : (Entry.done owner).InOrder (history ++ before) :=
    orderly_run (run.steps steps) (history ++ before) (.did (.appended (.done owner))) after
      (by rw [split, List.append_assoc])
  obtain ⟨_, accepted, committed⟩ := dooms before after split inOrder
  obtain ⟨_, decided, gone⟩ := inOrder.applied owner resources rfl accepted
  have suffix := gone (Option.some.inj (decided.symm.trans committed))
  rcases steps.first with rfl | ⟨first, rest, rfl, quiet⟩
  · simp at split
  rcases before with _ | ⟨_, before⟩
  · obtain ⟨rfl, _⟩ := List.cons_eq_cons.mp split
    cases quiet
  obtain ⟨rfl, rfl⟩ := List.cons_eq_cons.mp split
  have member : .did (.deleted resource) ∈ deletions resources :=
    List.mem_map.mpr ⟨resource, listed, rfl⟩
  have foreign : first ∉ deletions resources := by
    intro deleted
    obtain ⟨_, _, rfl⟩ := List.mem_map.mp deleted
    cases quiet
  rcases List.suffix_or_suffix_of_suffix suffix (List.suffix_append history (first :: before))
    with late | early
  · exact List.mem_append_left (_ :: after) (late.subset member)
  · exact absurd (early.subset List.mem_cons_self) foreign

end Ends

section Decided

omit [Journal τ Entry] [LawfulJournal τ Entry] [ResourceStore τ] [LawfulStore τ Entry] in
theorem Awaits.foreign (awaits : Awaits history txn pending) {owner : String} {resources : List String}
    (dooms : (known (logged history) owner).Dooms resources) : owner ≠ txn := by
  rintro rfl
  exact awaits.undecided _ (decision_known dooms.committed)

namespace Retried

theorem deletes_doomed (retried : Retried history txn outcome pending events s')
    (awaits : Awaits history txn pending) (run : Station.Run history s) (steps : s.Steps events s')
    {now : Incarnation} (running : s'.running = some now) (started : .started ∈ events)
    {resource : String} (doomed : Doomed (logged history) resource) :
    .did (.deleted resource) ∈ events := by
  obtain ⟨owner, resources, dooms, listed⟩ := doomed
  have distinct := awaits.foreign dooms
  have same : ∀ before after, events = before ++ after →
      (known (logged (history ++ before)) owner).isDone = false →
      known (logged (history ++ before)) owner = known (logged history) owner := by
    rintro before after rfl undone
    rw [logged_append] at undone ⊢
    refine known_decided (fun entry member => retried.records entry ?_) distinct undone
    rw [logged_append]
    exact List.mem_append_left _ member
  refine steps.deletes run (fun before after split inOrder => ?_) (?_ : Entry.done owner ∈ _) listed
  · rwa [same before _ split (Bool.eq_false_iff.mpr (isDone_known.not.mpr inOrder.undone))]
  · by_contra open_
    have undone : (known (logged (history ++ events)) owner).isDone = false := by
      rw [Bool.eq_false_iff, ne_eq, isDone_known, logged_append, List.mem_append, not_or]
      exact ⟨isDone_known.not.mp (Bool.eq_false_iff.mp dooms.undone), open_⟩
    have calm := retried.calm started now running owner distinct undone
    rw [same events [] (List.append_nil events).symm undone, dooms.committed] at calm
    cases calm

theorem deletes_own (retried : Retried history txn outcome pending events s')
    (awaits : Awaits history txn pending) (run : Station.Run history s) (steps : s.Steps events s')
    (ended : .done txn ∈ logged events) {resource : String}
    (doomed : resource ∈ pending.doomed outcome) : .did (.deleted resource) ∈ events := by
  have consistent := consistent_run (run.steps steps)
  obtain ⟨committed, accepted, listed⟩ := Pending.mem_doomed.mp doomed
  refine steps.deletes run (fun before after split inOrder => ?_) ended listed
  have whole : history ++ events = history ++ before ++ .did (.appended (.done txn)) :: after := by
    rw [split, List.append_assoc]
  have kept := consistent.kept
  rw [whole, logged_append] at kept
  have voted : .prepare txn pending.resources .accept ∈ logged (history ++ before) := by
    have there := vote_known awaits.voted
    rw [accepted] at there
    simp [there]
  have vote := kept.vote_early voted
  obtain ⟨other, decided, _⟩ := inOrder.applied txn _ rfl vote
  have told := decision_known decided
  rw [logged_append] at told
  rcases List.mem_append.mp told with early | late
  · exact absurd early (awaits.undecided other)
  refine ⟨Bool.eq_false_iff.mpr (isDone_known.not.mpr inOrder.undone), vote, ?_⟩
  rcases retried.records (.decision txn other) (by rw [split, logged_append]; simp [late])
    with same | impossible
  · rw [decided, (Entry.decision.inj same).2, committed]
  · cases impossible

theorem deleted_iff (retried : Retried history txn outcome pending events s')
    (awaits : Awaits history txn pending) (run : Station.Run history s) (steps : s.Steps events s')
    {now : Incarnation} (running : s'.running = some now) (ended : .done txn ∈ logged events)
    (resource : String) : .did (.deleted resource) ∈ events ↔
      resource ∈ pending.doomed outcome ∨ .started ∈ events ∧ Doomed (logged history) resource := by
  refine ⟨retried.deleted resource, ?_⟩
  rintro (own | ⟨started, doomed⟩)
  · exact retried.deletes_own awaits run steps ended own
  · exact retried.deletes_doomed awaits run steps running started doomed

theorem told_of_ended (retried : Retried history txn outcome pending events s')
    (awaits : Awaits history txn pending) (run : Station.Run history s) (steps : s.Steps events s')
    (ended : .done txn ∈ logged events) : .decision txn outcome ∈ logged events := by
  have endedLate : .done txn ∈ logged (history ++ events) := by simp [ended]
  obtain ⟨other, told⟩ := decided_of_ended (run.steps steps) endedLate
  rw [logged_append] at told
  have late := (List.mem_append.mp told).resolve_left (awaits.undecided other)
  rcases retried.records _ late with same | impossible
  · rwa [same] at late
  · cases impossible

theorem records_ended (retried : Retried history txn outcome pending events s')
    (awaits : Awaits history txn pending) (run : Station.Run history s) (steps : s.Steps events s')
    (ended : .done txn ∈ logged events) :
    Log.recordsOf txn (logged events) = [.decision txn outcome, .done txn] := by
  have later := run.steps steps
  obtain ⟨before, after, split⟩ := List.append_of_mem (mem_logged.mp (vote_known awaits.voted))
  have whole : history ++ events =
      before ++ .did (.appended (.prepare txn pending.resources pending.vote)) :: (after ++ events) := by
    simp [split]
  have orphans : OrphansEnd (history ++ events) txn := by
    refine orphansEnd_of_voteFirst later whole fun other early => awaits.undecided other ?_
    rw [split, logged_append]
    exact List.mem_append_left _ early
  have inForm := inForm_logged (orderly_run later) (heedful_run later).timely orphans
  rw [logged_append, Log.recordsOf_append] at inForm
  have ascends := inForm_iff.mp (inForm.sublist (List.sublist_append_right _ _))
  have expected : [Entry.decision txn outcome, .done txn].Pairwise
      fun earlier later => earlier.stage < later.stage := by
    simp [Entry.stage]
  have distinct : ∀ records : List Entry,
      records.Pairwise (fun earlier later => earlier.stage < later.stage) → records.Nodup := by
    intro records
    refine List.Pairwise.imp ?_
    rintro entry _ below rfl
    exact Nat.lt_irrefl _ below
  refine List.Perm.eq_of_pairwise (fun _ _ _ _ below above => absurd (Nat.lt_trans below above)
    (Nat.lt_irrefl _)) ascends expected
    ((List.perm_ext_iff_of_nodup (distinct _ ascends) (distinct _ expected)).mpr fun entry => ?_)
  rw [Log.mem_recordsOf]
  constructor
  · rintro ⟨member, own⟩
    rcases retried.records entry member with rfl | isEnd
    · exact List.mem_cons_self
    · have named : entry.txn = txn := own
      rw [Entry.eq_done isEnd, named]
      simp
  · intro member
    rcases List.mem_pair.mp member with rfl | rfl
    · exact ⟨retried.told_of_ended awaits run steps ended, rfl⟩
    · exact ⟨ended, rfl⟩

end Retried

structure Finished (txn : String) (pending : Pending) (memory : Memory) : Prop where
  gone : memory.pending.get? txn = none
  resolved : memory.resolved.get? txn = some (some pending.vote)
  unlocked : ∀ resource, memory.locks.owner? resource ≠ some txn

theorem Informed.at_end {entries : List Entry} {memory : Memory} {asking : Table String Question}
    (informed : Informed entries memory asking) (ended : .done txn ∈ entries)
    (voted : (known entries txn).vote = some (pending.resources, pending.vote)) :
    Finished txn pending memory := by
  refine ⟨informed.not_pending_of_ended ended, ?_, informed.unlocked ended⟩
  rw [(informed.agrees txn).resolved, isDone_known.mpr ended, voted]
  rfl

theorem handleDecision_handled {p after : Participant (Recorded τ Entry)}
    (succeeded : p.handleDecision txn outcome = (.ok (), after)) :
    ∃ deeds, Handled (.message (.decision txn outcome)) p.memory deeds (.reply (.ack txn))
      after.memory ∧ Does p.storage after.storage deeds := by
  have handles : Handles (.message (.decision txn outcome)) p
      (react.decide (.decision txn outcome) p outcome) := decide_handles rfl
  have same : p.handleDecision (Message.decision txn outcome).txn outcome = (.ok (), after) := succeeded
  rw [decide_eq, same] at handles
  exact handles

theorem applied_at_once [LawfulHoldings τ Entry] (run : Station.Run history s) {now : Incarnation}
    (running : s.running = some now) (awaits : Awaits history txn pending)
    (waits : now.memory.pending.get? txn = some pending) {storage : τ}
    {single : Participant (Recorded τ Entry)}
    (succeeded : (now.participant storage).handleDecision txn outcome = (.ok (), single)) :
    Finished txn pending single.memory ∧ ∀ resource,
      ResourceStore.holds resource single.storage.storage ↔
        ResourceStore.holds resource storage ∧ resource ∉ pending.doomed outcome := by
  have informed := (consistent_run run).informed now running
  obtain ⟨deeds, handled, does⟩ := handleDecision_handled succeeded
  have undecided : pending.decision = none := by
    refine Option.eq_none_iff_forall_ne_some.mpr fun other told => awaits.undecided other ?_
    exact decision_known ((informed.agrees txn).decision pending waits other told)
  have unresolved : now.memory.resolved.contains txn = false := by
    rw [Table.contains, (informed.agrees txn).resolved,
      Bool.eq_false_iff.mpr (isDone_known.not.mpr awaits.undone)]
    rfl
  have all : deeds = .appended (.decision txn outcome) ::
      ((pending.doomed outcome).map .deleted ++ [.appended (.done txn)]) :=
    handled.acknowledged rfl waits undecided unresolved
  have later := informed.message (informed.idle_of_pending waits) handled ""
  have ended : .done txn ∈ logged history ++ Deed.records deeds := by simp [all]
  have voted : (known (logged history ++ Deed.records deeds) txn).vote =
      some (pending.resources, pending.vote) := by
    have own : Log.recordsOf txn (Deed.records deeds) = [.decision txn outcome, .done txn] := by
      simp [all, Log.recordsOf, Record.txn, Entry.txn]
    rw [known_append, own]
    exact awaits.voted
  refine ⟨later.at_end ended voted, fun resource => ?_⟩
  have emptied := emptied_pervasive.handleDecision txn outcome (now.participant storage)
  rw [succeeded] at emptied
  have noted : single.storage.deeds = deeds := does.noted
  have left : ResourceStore.holds resource single.storage.storage ↔ _ :=
    Emptied.of_nothing emptied resource
  rw [left, noted, all]
  simp

omit [LawfulStore τ Entry] in
theorem Station.Steps.running_of_sent (steps : s.Steps events s') {recipient : String} {message : Message}
    (last : events.getLast? = some (.sent recipient message)) : ∃ now, s'.running = some now := by
  cases steps with
  | nothing => cases last
  | @step events more between s' steps stepped =>
    cases stepped with
    | disturb | stop => simp at last
    | start =>
      rw [Station.startEvents, ← List.append_assoc, List.getLast?_concat] at last
      cases last
    | receive | answer => exact ⟨_, rfl⟩

omit [LawfulStore τ Entry] in
theorem steps_empty [LawfulHoldings τ Entry] (steps : s.Steps events s') (alone : .disturbed ∉ events)
    (resource : String) : ResourceStore.holds resource s'.storage ↔
      ResourceStore.holds resource s.storage ∧ .did (.deleted resource) ∉ events := by
  induction steps with
  | nothing => simp
  | @step events more between s' steps stepped ih =>
    rw [List.mem_append, not_or] at alone
    rw [step_empties stepped alone.2, ih alone.1, List.mem_append, not_or, and_assoc]

omit [Journal τ Entry] [LawfulJournal τ Entry] [ResourceStore τ] [LawfulStore τ Entry] in
theorem Awaits.vote_later (awaits : Awaits history txn pending) {later : List Entry} {log : List Entry}
    (kept : Kept (logged history ++ later) log) :
    (known (logged history ++ later) txn).vote = some (pending.resources, pending.vote) :=
  kept.vote _ _ _ (List.mem_append_left _ (vote_known awaits.voted))

namespace Station.Retries

theorem locked (retries : s.Retries txn outcome events s') (run : Station.Run history s)
    {now later : Incarnation} (running : s.running = some now) (awaits : Awaits history txn pending)
    (up : s'.running = some later) (open_ : .done txn ∉ logged events) (resource : String) :
    later.memory.locks.owner? resource = some txn ↔ now.memory.locks.owner? resource = some txn := by
  have laterConsistent := consistent_run (run.steps retries.steps)
  have informed := laterConsistent.informed later up
  have kept := laterConsistent.kept
  rw [logged_append] at informed kept
  have openToo : .done txn ∉ logged history ++ logged events := by simp [awaits.undone, open_]
  rw [informed.owner_iff openToo (awaits.vote_later kept),
    ((consistent_run run).informed now running).owner_iff awaits.undone awaits.voted]

theorem ends_first (retries : s.Retries txn outcome events s') (run : Station.Run history s)
    (awaits : Awaits history txn pending) {before after : List Event} {recipient : String}
    (split : events = before ++ .sent recipient (.ack txn) :: after) : .done txn ∈ logged before := by
  have ended : .done txn ∈ logged (history ++ before) := by
    refine orderly_run (run.steps retries.steps) (history ++ before)
      (.sent recipient (.ack txn)) after ?_ rfl
    rw [split, List.append_assoc]
  rw [logged_append] at ended
  exact (List.mem_append.mp ended).resolve_left awaits.undone

theorem acknowledged [LawfulHoldings τ Entry] {recipient : String}
    (retries : s.Retries txn outcome (events ++ [.sent recipient (.ack txn)]) s')
    (run : Station.Run history s) (awaits : Awaits history txn pending) :
    ∃ final, s'.running = some final ∧ Finished txn pending final.memory ∧
      Log.recordsOf txn (logged events) = [.decision txn outcome, .done txn] ∧
      ∀ resource, ResourceStore.holds resource s'.storage ↔ ResourceStore.holds resource s.storage ∧
        resource ∉ pending.doomed outcome ∧ ¬(.started ∈ events ∧ Doomed (held s.storage) resource) := by
  have steps := retries.steps
  have retried := Retried.run run awaits retries
  have quiet : logged (events ++ [.sent recipient (.ack txn)]) = logged events := logged_quiet events rfl
  have ended : .done txn ∈ logged (events ++ [.sent recipient (.ack txn)]) :=
    quiet ▸ retries.ends_first run awaits rfl
  obtain ⟨final, up⟩ := steps.running_of_sent List.getLast?_concat
  have laterConsistent := consistent_run (run.steps steps)
  have informed := laterConsistent.informed final up
  have kept := laterConsistent.kept
  rw [logged_append] at informed kept
  refine ⟨final, up, informed.at_end (List.mem_append_right _ ended) (awaits.vote_later kept),
    quiet ▸ retried.records_ended awaits run steps ended, fun resource => ?_⟩
  rw [steps_empty steps retries.alone, retried.deleted_iff awaits run steps up ended,
    (consistent_run run).kept.doomed_iff]
  simp

end Station.Retries

/-- A decision on a pending vote that is told any number of times, whatever fails on the way and however
often the participant goes down and is started again. Until its end has been logged all locks of the
transaction stay held whenever the participant runs, and nothing is acknowledged. Once it is
acknowledged the transaction has the locks, the pending and the resolved vote of a decision that
succeeds at once, and the decision and its end have been logged just once. The resources are those
that such a decision leaves, but for what a restart has deleted meanwhile for other commits that were
in the log. -/
theorem retried_decision_converges [LawfulHoldings τ Entry] (run : Station.Run history s)
    {now : Incarnation} (running : s.running = some now)
    (waits : now.memory.pending.get? txn = some pending)
    (undecided : ∀ outcome, .decision txn outcome ∉ held s.storage) (outcome : Outcome) :
    (∀ events s', s.Retries txn outcome events s' →
      (∀ later, s'.running = some later → .done txn ∉ logged events → ∀ resource,
        later.memory.locks.owner? resource = some txn ↔
          now.memory.locks.owner? resource = some txn) ∧
      ∀ before recipient after, events = before ++ .sent recipient (.ack txn) :: after →
        .done txn ∈ logged before) ∧
    ∀ events recipient s', s.Retries txn outcome (events ++ [.sent recipient (.ack txn)]) s' →
      ∀ (storage : τ) (single : Participant (Recorded τ Entry)),
        (∀ resource, ResourceStore.holds resource storage = ResourceStore.holds resource s.storage) →
        (now.participant storage).handleDecision txn outcome = (.ok (), single) →
        ∃ final, s'.running = some final ∧
          (∀ resource, final.memory.locks.owner? resource = some txn ↔
            single.memory.locks.owner? resource = some txn) ∧
          final.memory.pending.get? txn = single.memory.pending.get? txn ∧
          final.memory.resolved.get? txn = single.memory.resolved.get? txn ∧
          Log.recordsOf txn (logged events) = [.decision txn outcome, .done txn] ∧
          ∀ resource, ResourceStore.holds resource s'.storage ↔
            ResourceStore.holds resource single.storage.storage ∧
              ¬(.started ∈ events ∧ Doomed (held s.storage) resource) := by
  have awaits := awaits_of_pending run running waits undecided
  refine ⟨fun events s' retries => ⟨fun later up open_ => retries.locked run running awaits up open_,
    fun before recipient after split => retries.ends_first run awaits split⟩, ?_⟩
  intro events recipient s' retries storage single same succeeded
  obtain ⟨final, up, applied, records, left⟩ := retries.acknowledged run awaits
  obtain ⟨atOnce, leftAtOnce⟩ := applied_at_once run running awaits waits succeeded
  refine ⟨final, up, by simp [applied.unlocked, atOnce.unlocked], applied.gone.trans atOnce.gone.symm,
    applied.resolved.trans atOnce.resolved.symm, records, fun resource => ?_⟩
  rw [left, leftAtOnce, same, and_assoc]

end Decided

def troubled (running : Option Incarnation) (log : List Entry) (failures : List Bool) :
    Station (Faulty (Beside (Ledger Entry) DirectoryStore)) :=
  ⟨running, ⟨⟨⟨log, []⟩, strained.storage.storage.other⟩, failures⟩⟩

def burdened : Incarnation :=
  { memory := {
      locks := ⟨⟨[("x", "t"), ("y", "u")]⟩⟩
      pending := ⟨[("t", ⟨["x"], .accept, none⟩), ("u", ⟨["y"], .accept, some .commit⟩)]⟩ } }

def halfLog : List Entry :=
  [.prepare "t" ["x"] .accept, .prepare "u" ["y"] .accept, .decision "u" .commit]

def burdenedStation : Station (Faulty (Beside (Ledger Entry) DirectoryStore)) :=
  troubled (some burdened) halfLog [true, false, true, false, true]

theorem burdened_undecided : ∀ outcome, .decision "t" outcome ∉ held burdenedStation.storage := by
  rintro (_ | _) <;> decide

def retold : List Action :=
  [.receive ⟨"c", .decision "t" .commit⟩, .receive ⟨"c", .decision "t" .commit⟩, .stop, .start {},
    .start {}, .receive ⟨"c", .decision "t" .commit⟩]

theorem burdened_run : ∃ history, Station.Run history burdenedStation := by
  obtain ⟨history, played⟩ : ∃ history, (troubled none [] [false, false, false, false, true, true,
      false, true, false, true]).playAll (halfDecided.take 6) = some (history, burdenedStation) :=
    ⟨_, rfl⟩
  exact ⟨history, Station.playAll_run (.begin _ rfl) played⟩

def retoldEvents : List Event :=
  [.received ⟨"c", .decision "t" .commit⟩, .received ⟨"c", .decision "t" .commit⟩,
    .did (.appended (.decision "t" .commit)), .stopped,
    .started, .did (.compacted (halfLog ++ [.decision "t" .commit])),
    .recovered (.error (.store .notDirectory)),
    .started, .did (.compacted (halfLog ++ [.decision "t" .commit])), .did (.deleted "x"),
    .did (.appended (.done "t")), .did (.deleted "y"), .did (.appended (.done "u")),
    .recovered (.ok ⟨0, 2, 0⟩), .received ⟨"c", .decision "t" .commit⟩]

theorem retold_retries : ∃ s',
    burdenedStation.Retries "t" .commit (retoldEvents ++ [.sent "c" (.ack "t")]) s' ∧
    ResourceStore.holds "y" s'.storage = false := by
  have played : (burdenedStation.playAll retold).map
      (fun result => (result.1, ResourceStore.holds "y" result.2.storage)) =
    some (retoldEvents ++ [.sent "c" (.ack "t")], false) := by rfl
  obtain ⟨⟨events, s'⟩, played, facts⟩ := Option.map_eq_some_iff.mp played
  obtain ⟨rfl, gone⟩ := Prod.mk.inj facts
  have steps := Station.playAll_steps .nothing played
  rw [List.nil_append] at steps
  refine ⟨s', ⟨steps, fun envelope received => ?_, by simp [retoldEvents], by simp [retoldEvents]⟩, gone⟩
  obtain rfl : envelope = ⟨"c", .decision "t" .commit⟩ := by simpa [retoldEvents] using received
  exact ⟨rfl, rfl⟩

/-- A restart deletes a resource for the other commit, which a decision that succeeds at once leaves
there. -/
theorem restart_deletes_more : ∃ history s' single,
    Station.Run history burdenedStation ∧ burdenedStation.running = some burdened ∧
    burdened.memory.pending.get? "t" = some ⟨["x"], .accept, none⟩ ∧
    (∀ outcome, .decision "t" outcome ∉ held burdenedStation.storage) ∧
    burdenedStation.Retries "t" .commit (retoldEvents ++ [.sent "c" (.ack "t")]) s' ∧
    (burdened.participant (troubled none halfLog []).storage).handleDecision "t" .commit =
      (.ok (), single) ∧
    ResourceStore.holds "y" single.storage.storage = true ∧
    ResourceStore.holds "y" s'.storage = false := by
  obtain ⟨history, run⟩ := burdened_run
  obtain ⟨s', retries, gone⟩ := retold_retries
  exact ⟨history, s', _, run, rfl, rfl, burdened_undecided, retries, rfl, rfl, gone⟩

theorem retold_converges : ∃ history s' final,
    Station.Run history burdenedStation ∧ burdenedStation.running = some burdened ∧
    burdened.memory.pending.get? "t" = some ⟨["x"], .accept, none⟩ ∧
    (∀ outcome, .decision "t" outcome ∉ held burdenedStation.storage) ∧
    burdenedStation.Retries "t" .commit (retoldEvents ++ [.sent "c" (.ack "t")]) s' ∧
    s'.running = some final ∧ final.memory.resolved.get? "t" = some (some .accept) ∧
    Log.recordsOf "t" (logged retoldEvents) = [.decision "t" .commit, .done "t"] ∧
    ResourceStore.holds "x" s'.storage = false := by
  obtain ⟨history, run⟩ := burdened_run
  obtain ⟨s', retries, _⟩ := retold_retries
  obtain ⟨single, atOnce, resolved, gone⟩ : ∃ single,
      (burdened.participant (troubled none halfLog []).storage).handleDecision "t" .commit =
        (.ok (), single) ∧ single.memory.resolved.get? "t" = some (some .accept) ∧
      ResourceStore.holds "x" single.storage.storage = false := ⟨_, rfl, rfl, rfl⟩
  have waits : burdened.memory.pending.get? "t" = some ⟨["x"], .accept, none⟩ := rfl
  obtain ⟨final, up, _, _, same, records, left⟩ := (retried_decision_converges run rfl
    waits burdened_undecided .commit).2 retoldEvents "c" s' retries
    (troubled none halfLog []).storage single (fun _ => rfl) atOnce
  refine ⟨history, s', final, run, rfl, waits, burdened_undecided, retries, up, same.trans resolved,
    records, ?_⟩
  have not := (left "x").not
  simpa [gone] using not

end AtomicCommit.Participant
