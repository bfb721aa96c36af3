import AtomicCommit.Proofs.Participant.Exclusion
import AtomicCommit.Proofs.Participant.Play
import AtomicCommit.Proofs.Participant.Resources

/-! The write-ahead rule of a participant: what it deletes and what it says is in its log before. -/

namespace AtomicCommit.Participant

/-- Apart from deeds the arrival of this message was the last that happened, and so it is being
handled. -/
def Handling (before : List Event) (envelope : Envelope) : Prop :=
  (before.filter fun event => (Eventful.deed? event).isNone).getLast? = some (.received envelope)

def Serves (before : List Event) (txn : String) : Prop :=
  ∀ envelope, Handling before envelope → envelope.message.txn = txn

section Handling

variable {before : List Event} {txn : String}

@[simp] theorem serves_did (before : List Event) (deeds : List (Deed Entry)) (txn : String) :
    Serves (before ++ deeds.map .did) txn ↔ Serves before txn := by
  have none : (deeds.map Event.did).filter (fun event => (Eventful.deed? event).isNone) = [] := by
    simp [Eventful.deed?, Event.deed?]
  simp [Serves, Handling, none]

theorem serves_received (before : List Event) (envelope : Envelope) :
    Serves (before ++ [.received envelope]) envelope.message.txn := by
  intro other handling
  simp only [Handling, List.filter_append, Eventful.deed?] at handling
  simp [Event.deed?] at handling
  rw [handling]

theorem serves_started (before : List Event) (txn : String) :
    Serves (before ++ [.started]) txn := by
  intro other handling
  simp only [Handling, List.filter_append, Eventful.deed?] at handling
  simp [Event.deed?] at handling

end Handling

def deletions (resources : List String) : List Event :=
  resources.map fun resource => .did (.deleted resource)

theorem deletions_eq (resources : List String) :
    deletions resources = (resources.map Deed.deleted).map .did := by
  simp [deletions]

@[simp] theorem logged_deletions (resources : List String) : logged (deletions resources) = [] := by
  rw [deletions_eq, logged_did, Deed.records_deleted]

@[simp] theorem logged_appended (before : List Event) (entry : Entry) :
    logged (before ++ [.did (.appended entry)]) = logged before ++ [entry] :=
  logged_append before _

namespace Trace

/-- An acceptance whose commit stands: the resources are to go. Of several decisions the last that was
logged stands. -/
structure Dooms (trace : Trace) (resources : List String) : Prop where
  undone : trace.isDone = false
  accepted : trace.vote = some (resources, .accept)
  committed : trace.decision = some .commit

theorem Dooms.locks {trace : Trace} {resources : List String} (dooms : trace.Dooms resources)
    {resource : String} (listed : resource ∈ resources) : trace.Locks resource :=
  ⟨dooms.undone, resources, dooms.accepted, listed⟩

end Trace

structure Entry.InOrder (before : List Event) (entry : Entry) : Prop where
  undone : .done entry.txn ∉ logged before
  applied : ∀ txn resources, entry = .done txn →
    (known (logged before) txn).vote = some (resources, .accept) →
      ∃ outcome, (known (logged before) txn).decision = some outcome ∧
        (outcome = .commit → deletions resources <:+ before)

/-- What a participant does and says comes after the records that it rests on. -/
def orderly (before : List Event) : Event → Prop
  | .did (.deleted resource) => ∃ txn resources, (known (logged before) txn).Dooms resources ∧
    resource ∈ resources ∧ Serves before txn
  | .did (.appended entry) => entry.InOrder before
  | .sent _ message => message.phase = .ack → .done message.txn ∈ logged before
  | _ => True

theorem Entry.InOrder.of_open {before : List Event} {entry : Entry}
    (undone : .done entry.txn ∉ logged before) (other : ∀ txn, entry ≠ .done txn) :
    entry.InOrder before :=
  ⟨undone, fun txn _ same => absurd same (other txn)⟩

theorem deletions_orderly {before : List Event} {txn : String} {resources : List String}
    (dooms : (known (logged before) txn).Dooms resources) (serves : Serves before txn)
    (gone : List String) (listed : ∀ resource ∈ gone, resource ∈ resources) :
    OrderedFrom orderly before (deletions gone) := by
  induction gone generalizing before with
  | nil => trivial
  | cons resource rest ih =>
    obtain ⟨here, others⟩ := List.forall_mem_cons.mp listed
    have same : logged (before ++ [.did (.deleted resource)]) = logged before := by
      rw [logged_append]
      exact List.append_nil _
    refine ⟨⟨txn, resources, dooms, here, serves⟩, ih (same ▸ dooms) ?_ others⟩
    exact (serves_did before [.deleted resource] txn).mpr serves

theorem Finish.orderly {before : List Event} {txn : String} {pending : Pending}
    {memory after : Memory} {deeds : List (Deed Entry)} {success : Bool}
    {ended : Option (Option Vote)}
    (finished : Finish txn pending memory deeds success after)
    (agrees : Agrees (known (logged before) txn) (some pending) ended) (serves : Serves before txn) :
    OrderedFrom orderly before (deeds.map .did) := by
  obtain ⟨undone, voted⟩ := agrees.voted
  have doomed : ∀ outcome gone, pending.decision = some outcome →
      (∀ resource ∈ gone, resource ∈ pending.doomed outcome) →
      OrderedFrom Participant.orderly before (deletions gone) := by
    intro outcome gone decided listed
    obtain ⟨resources, vote, decision⟩ := pending
    have committed := agrees.decision _ rfl outcome decided
    rcases outcome with _ | _ <;> rcases vote with _ | _
    case commit.accept =>
      exact deletions_orderly ⟨undone, voted, committed⟩ serves gone listed
    all_goals
      obtain rfl : gone = [] := List.eq_nil_iff_forall_not_mem.mpr fun resource member => by
        simpa [Pending.doomed, Outcome.isCommit, Vote.isAccept] using listed resource member
      trivial
  cases finished with
  | undecided => trivial
  | stuck outcome gone decided some =>
    rw [← deletions_eq]
    exact doomed outcome gone decided fun resource member => some.subset member
  | ended outcome decided =>
    rw [List.map_append, ← deletions_eq, orderedFrom_append]
    refine ⟨doomed outcome _ decided fun _ member => member, ⟨?_, ?_⟩, trivial⟩
    · simpa [Entry.txn] using isDone_known.not.mp (Bool.eq_false_iff.mp undone)
    · rintro other resources ⟨⟩ accepted
      rw [logged_append, logged_deletions, List.append_nil] at accepted ⊢
      refine ⟨outcome, agrees.decision _ rfl outcome decided, ?_⟩
      rintro rfl
      obtain ⟨rfl, vote⟩ : pending.resources = resources ∧ pending.vote = .accept := by
        simpa [voted] using accepted
      simp [Pending.doomed, Outcome.isCommit, Vote.isAccept, vote]

namespace Informed

variable {history : List Event} {entries : List Entry} {memory after : Memory}
  {asking : Table String Question} {deeds : List (Deed Entry)} {reaction : Reaction} {cause : Cause}

theorem Finish.ends {txn : String} {pending : Pending} {success : Bool} {outcome : Outcome}
    (finished : Finish txn pending memory deeds success after)
    (decided : pending.decision = some outcome) (succeeded : success = true) :
    .done txn ∈ Deed.records deeds := by
  cases finished with
  | undecided undecided => simp [undecided] at decided
  | stuck => cases succeeded
  | ended => simp

theorem acks (informed : Informed entries memory asking)
    (handled : Handled cause memory deeds reaction after) {message : Message}
    (replied : reaction = .reply message) (ack : message.phase = .ack) :
    .done message.txn ∈ entries ++ Deed.records deeds := by
  have acked : ∀ txn success, ackIf txn success = .reply message →
      message = .ack txn ∧ success = true := by
    intro txn success acks
    cases success <;> cases acks
    exact ⟨rfl, rfl⟩
  have votes : ∀ txn vote, (Message.vote txn vote).phase ≠ .ack := by
    rintro txn (_ | _) <;> simp [Message.vote, Message.bare, Vote.phase]
  cases handled with
  | repeated m _ vote =>
    cases replied
    exact absurd ack (votes _ vote)
  | refused | accepted | rejected =>
    cases replied
    exact absurd ack (votes _ _)
  | settled m outcome _ phase resolved =>
    cases replied
    exact List.mem_append_left _ (informed.ended resolved)
  | unknown =>
    cases replied
    exact List.mem_append_right _ (by simp [Message.ack, Message.bare])
  | again m outcome _ pending former deeds success after _ _ _ decided finished =>
    obtain ⟨rfl, succeeded⟩ := acked _ _ replied
    exact List.mem_append_right _ (Finish.ends finished decided succeeded)
  | decided m outcome _ pending deeds success after _ _ _ _ finished =>
    obtain ⟨rfl, succeeded⟩ := acked _ _ replied
    exact List.mem_append_right _ (List.mem_cons_of_mem _ (Finish.ends finished rfl succeeded))
  | _ => cases replied

theorem vote_orderly {before : List Event} {txn : String} {resources : List String} {vote : Vote}
    (undone : .done txn ∉ logged before) :
    OrderedFrom orderly before [.did (.appended (.prepare txn resources vote))] :=
  ⟨.of_open undone (by simp), trivial⟩

theorem message_orderly {m : Message} {before : List Event}
    (informed : Informed (logged before) memory asking) (serves : Serves before m.txn)
    (handled : Handled (.message m) memory deeds reaction after) :
    OrderedFrom orderly before (deeds.map .did) := by
  have undone : memory.resolved.contains m.txn = false → .done m.txn ∉ logged before := by
    intro unresolved
    exact informed.open_ (by simpa [Table.contains] using unresolved)
  have heard : ∀ outcome, memory.resolved.contains m.txn = false →
      orderly before (.did (.appended (.decision m.txn outcome))) :=
    fun outcome unresolved => .of_open (undone unresolved) (by simp)
  cases handled with
  | refused _ _ phase unvoted =>
    exact vote_orderly (informed.open_ ((Memory.recordedVote_eq_none _ _).mp unvoted).2)
  | unasked _ outcome _ phase unresolved notPending => exact ⟨heard outcome unresolved, trivial⟩
  | unknown _ outcome _ phase unresolved notPending =>
    have told := informed.hear outcome notPending
    have unvoted := told.agrees m.txn
    have notResolved : memory.resolved.get? m.txn = none := by
      simpa [Table.contains] using unresolved
    rw [notPending, notResolved] at unvoted
    refine ⟨heard outcome unresolved, ⟨?_, ?_⟩, trivial⟩
    · rw [logged_appended]
      exact told.open_ notResolved
    · rintro txn resources ⟨⟩ accepted
      rw [logged_appended, unvoted.unvoted.2] at accepted
      cases accepted
  | again _ outcome _ pending former deeds success after phase unresolved waiting decision finished =>
    exact finished.orderly (waiting ▸ informed.agrees m.txn) serves
  | decided _ outcome _ pending deeds success after phase unresolved waiting decision finished =>
    have decided := (informed.decide outcome waiting).agrees m.txn
    rw [Memory.pending_await, if_pos rfl, ← logged_appended] at decided
    refine ⟨heard outcome unresolved, finished.orderly decided ?_⟩
    exact (serves_did before [.appended (.decision m.txn outcome)] m.txn).mpr serves
  | _ => trivial

theorem answer_orderly {request : VoteRequest} {approved : Bool} {before : List Event}
    (informed : Informed (logged before) memory asking)
    (unvoted : memory.recordedVote request.txn = none)
    (handled : Handled (.answer request approved) memory deeds reaction after) :
    OrderedFrom orderly before (deeds.map .did) := by
  have undone := informed.open_ ((Memory.recordedVote_eq_none _ _).mp unvoted).2
  cases handled with
  | accepted | rejected => exact vote_orderly undone
  | _ => trivial

end Informed

variable {τ : Type} [Journal τ Entry] [LawfulJournal τ Entry]

open Recorded (Does)

theorem reaction_orderly {history : List Event} {storage : τ} {first : Event} {sender : String}
    {result : Reaction × Participant (Recorded τ Entry)} {deeds : List (Deed Entry)}
    (ordered : Ordered orderly history) (silent : ∀ before, orderly before first)
    (quiet : Eventful.deed? first = none)
    (does : Does ⟨storage, []⟩ result.2.storage deeds)
    (done : OrderedFrom orderly (history ++ [first]) (deeds.map .did))
    (acks : ∀ message, result.1 = .reply message → message.phase = .ack →
      .done message.txn ∈ logged history ++ Deed.records deeds) :
    Ordered orderly (history ++ ([first] ++ Station.reactionEvents sender result)) := by
  have noted : result.2.storage.deeds = deeds := does.noted
  rw [Station.reactionEvents, noted, ordered_append, orderedFrom_append, orderedFrom_append]
  refine ⟨ordered, ⟨silent _, trivial⟩, done, ?_⟩
  have grown : logged (history ++ [first] ++ deeds.map .did) =
      logged history ++ Deed.records deeds := by
    rw [logged_append, logged_quiet history quiet, logged_did]
  cases replied : result.1 with
  | silent => trivial
  | reply message =>
    refine ⟨fun ack => ?_, trivial⟩
    rw [grown]
    exact acks message replied ack
  | ask request => exact ⟨trivial, trivial⟩

variable [ResourceStore τ] [LawfulStore τ Entry] {history events : List Event} {s s' : Station τ}

theorem recover_orderly {storage : τ}
    (kept : Kept (logged history) (held storage)) (exclusive : Exclusive (logged history))
    (config : Config) :
    OrderedFrom orderly (history ++ [.started])
      ((recover config (⟨{}, ⟨storage, []⟩⟩ :
        Participant (Recorded τ Entry))).2.storage.deeds.map .did) := by
  have compacting : ∀ {s : Recorded τ Entry}, Replayed storage s →
      OrderedFrom orderly (history ++ [.started]) (s.deeds.map .did) := by
    intro s replayed
    refine orderedFrom_free (fun event member before => ?_) _
    obtain ⟨deed, done, rfl⟩ := List.mem_map.mp member
    obtain ⟨records, rfl⟩ := replayed.compacts deed done
    trivial
  rcases recover_cases config storage with ⟨e, s, result, replayed⟩ | ⟨s, replayed, result⟩
  · rw [result]
    exact compacting replayed
  · rw [result]
    obtain ⟨rest, ⟨_, ordered⟩, _⟩ := reapply_induction
      (P := fun rest p => Recovers (logged history) rest p ∧
        OrderedFrom orderly (history ++ [.started]) (p.storage.deeds.map .did))
      (by
        rintro txn waiting rest p deeds success after ⟨recovers, ordered⟩ applied does
        refine ⟨recovers.turn applied does, ?_⟩
        obtain ⟨waits, notResolved⟩ := recovers.rest txn waiting List.mem_cons_self
        have grown : logged (history ++ [.started] ++ p.storage.deeds.map .did) =
            logged history ++ Deed.records p.storage.deeds := by
          rw [logged_append, logged_quiet history rfl, logged_did]
        have informed := recovers.informed
        rw [← grown] at informed
        have agrees := informed.agrees txn
        have serves : Serves (history ++ [.started] ++ p.storage.deeds.map .did) txn :=
          (serves_did _ _ _).mpr (serves_started history txn)
        rw [does.noted, List.map_append, orderedFrom_append]
        refine ⟨ordered, ?_⟩
        generalize after.memory = later at applied
        cases applied with
        | applied pending _ _ _ _ finished => exact finished.orderly (waits ▸ agrees) serves
        | ended =>
          refine ⟨⟨informed.open_ notResolved, ?_⟩, trivial⟩
          rintro _ resources ⟨⟩ accepted
          rw [waits, notResolved] at agrees
          rw [agrees.unvoted.2] at accepted
          cases accepted
        | unended => trivial)
      (toReapply (traces (held storage))) ⟨restored (traces (held storage)) {}, s⟩
      ⟨restored_recovers kept exclusive replayed, compacting replayed⟩
    exact ordered

theorem orderly_step
    (ordered : Ordered orderly history) (consistent : Consistent history s)
    (stepped : s.Step events s') : Ordered orderly (history ++ events) := by
  cases stepped with
  | disturb storage same => exact ordered.snoc trivial
  | start config down =>
    have applied := recover_orderly consistent.kept consistent.exclusive config
    rw [Station.startEvents, ordered_append, orderedFrom_append, orderedFrom_append]
    exact ⟨ordered, ⟨⟨trivial, trivial⟩, applied⟩, trivial, trivial⟩
  | stop => exact ordered.snoc trivial
  | receive now envelope running free =>
    have informed := consistent.informed now running
    obtain ⟨deeds, handled, does⟩ := react_handles envelope.message (now.participant s.storage)
    have still : Informed (logged (history ++ [.received envelope])) now.memory now.asking := by
      rwa [logged_quiet history rfl]
    exact reaction_orderly ordered (fun _ => trivial) rfl does
      (still.message_orderly (serves_received history envelope) handled) fun message =>
        informed.acks handled
  | answer now txn question approved running asked =>
    have informed := consistent.informed now running
    obtain ⟨named, unvoted⟩ := informed.asking txn question asked
    obtain ⟨deeds, handled, does⟩ := answer_handles question.request approved (now.participant s.storage)
    have still : Informed (logged (history ++ [.answered question.request approved])) now.memory
        now.asking := by
      rwa [logged_quiet history rfl]
    exact reaction_orderly ordered (fun _ => trivial) rfl does
      (still.answer_orderly (named ▸ unvoted) handled) fun message => informed.acks handled

theorem orderly_run (run : Station.Run history s) : Ordered orderly history := by
  induction run with
  | begin storage empty => exact .nil _
  | step run stepped ih => exact orderly_step ih (consistent_run run) stepped

theorem acknowledged_ended (run : Station.Run history s) {recipient : String} {message : Message}
    (sent : .sent recipient message ∈ history) (ack : message.phase = .ack) :
    .done message.txn ∈ logged history := by
  obtain ⟨before, after, rfl⟩ := List.append_of_mem sent
  have ended : .done message.txn ∈ logged before := orderly_run run before _ after rfl ack
  simp [ended]

theorem logged_before_end (run : Station.Run history s) {before after : List Event} {txn : String}
    (split : history = before ++ .did (.appended (.done txn)) :: after) {entry : Entry}
    (member : entry ∈ logged history) (own : entry.txn = txn) (other : entry ≠ .done txn) :
    entry ∈ logged before := by
  have happened := mem_logged.mp member
  rw [split] at happened
  rcases List.mem_append.mp happened with earlier | here | ⟨_, later⟩
  · exact mem_logged.mpr earlier
  · exact absurd rfl other
  · obtain ⟨between, rest, rfl⟩ := List.append_of_mem later
    have again : history = (before ++ .did (.appended (.done txn)) :: between) ++
        .did (.appended entry) :: rest := by simp [split]
    have inOrder : entry.InOrder (before ++ .did (.appended (.done txn)) :: between) :=
      orderly_run run _ _ _ again
    exact absurd (mem_logged.mpr (by simp [own])) inOrder.undone

theorem deleted_when_ended (run : Station.Run history s) {txn : String} {resources : List String}
    (voted : .prepare txn resources .accept ∈ logged history) (ended : .done txn ∈ logged history)
    (told : ∀ outcome, .decision txn outcome ∈ logged history → outcome = .commit)
    {resource : String} (listed : resource ∈ resources) :
    .did (.deleted resource) ∈ history := by
  obtain ⟨before, after, split⟩ := List.append_of_mem (mem_logged.mp ended)
  have earlier := logged_before_end run split voted rfl (by simp)
  have kept := (consistent_run run).kept
  rw [split, logged_append] at kept
  have inOrder : (Entry.done txn).InOrder before := orderly_run run _ _ _ split
  obtain ⟨outcome, decided, gone⟩ := inOrder.applied txn resources rfl (kept.vote_early earlier)
  obtain rfl := told outcome (by simp [split, decision_known decided])
  rw [split]
  refine List.mem_append_left _ ((gone rfl).subset ?_)
  exact List.mem_map.mpr ⟨resource, listed, rfl⟩

/-- On whose behalf a resource is deleted: while a message is handled, of its transaction; and in a
recovery, of the transaction that holds the resource. -/
def OnBehalf (before : List Event) (txn resource : String) : Prop :=
  (∃ envelope, Handling before envelope ∧ envelope.message.txn = txn) ∨
    (known (logged before) txn).Locks resource

theorem deleted_for (run : Station.Run history s) {before after : List Event} {resource : String}
    (split : history = before ++ .did (.deleted resource) :: after) :
    ∃ txn resources, (known (logged before) txn).Dooms resources ∧ resource ∈ resources ∧
      ∀ other, OnBehalf before other resource ↔ other = txn := by
  obtain ⟨txn, resources, dooms, listed, serves⟩ : orderly before (.did (.deleted resource)) :=
    orderly_run run _ _ _ split
  have excluded : Ordered apart before := (split ▸ apart_run run).of_append
  refine ⟨txn, resources, dooms, listed, fun other => ⟨?_, ?_⟩⟩
  · rintro (⟨envelope, handling, rfl⟩ | locks)
    · exact serves envelope handling
    · exact exclusive_of_apart excluded other txn resource locks (dooms.locks listed)
  · rintro rfl
    exact .inr (dooms.locks listed)

theorem committed_of_deleted (run : Station.Run history s) {before after : List Event}
    {txn resource : String} (split : history = before ++ .did (.deleted resource) :: after)
    (behalf : OnBehalf before txn resource) : .decision txn .commit ∈ logged history := by
  obtain ⟨owner, resources, dooms, _, only⟩ := deleted_for run split
  obtain rfl := (only txn).mp behalf
  simp [split, decision_known dooms.committed]

/-- Resources are deleted only on behalf of a transaction that was accepted with them in its list and
whose commit was logged, and they are gone when its end is logged. An acceptance is sent after it was
logged, and an acknowledgement after the end. Nothing but such a deletion takes a resource away. -/
theorem deletions_follow_records [LawfulHoldings τ Entry] (run : Station.Run history s) :
    (∀ before event after, history = before ++ event :: after →
      (∀ resource, event = .did (.deleted resource) →
        (∃ txn, OnBehalf before txn resource) ∧ ∀ txn, OnBehalf before txn resource →
          (∃ resources, .prepare txn resources .accept ∈ logged before ∧ resource ∈ resources) ∧
            .decision txn .commit ∈ logged before ∧ .done txn ∉ logged before) ∧
      (∀ txn resources, event = .did (.appended (.done txn)) →
        .prepare txn resources .accept ∈ logged before →
        (known (logged before) txn).decision = some .commit → deletions resources <:+ before) ∧
      ∀ recipient message, event = .sent recipient message →
        (message.phase = .accept →
          ∃ resources, .prepare message.txn resources .accept ∈ logged before) ∧
        (message.phase = .ack → .done message.txn ∈ logged before)) ∧
    (∀ resource, Since .disturbed history (.did (.deleted resource)) →
      ResourceStore.holds resource s.storage = false) ∧
    ∀ events s', s.Step events s' → .disturbed ∉ events → ∀ resource,
      ResourceStore.holds resource s.storage → ResourceStore.holds resource s'.storage = false →
        .did (.deleted resource) ∈ events := by
  refine ⟨fun before event after split => ⟨?_, ?_, ?_⟩, fun resource => deleted_gone run, ?_⟩
  · rintro resource rfl
    obtain ⟨txn, resources, dooms, listed, behalf⟩ := deleted_for run split
    refine ⟨⟨txn, (behalf txn).mpr rfl⟩, fun other on => ?_⟩
    obtain rfl := (behalf other).mp on
    refine ⟨⟨resources, vote_known dooms.accepted, listed⟩, decision_known dooms.committed, ?_⟩
    exact isDone_known.not.mp (Bool.eq_false_iff.mp dooms.undone)
  · rintro txn resources rfl voted committed
    have kept := (consistent_run run).kept
    rw [split, logged_append] at kept
    have inOrder : (Entry.done txn).InOrder before := orderly_run run _ _ _ split
    obtain ⟨outcome, decided, gone⟩ := inOrder.applied txn resources rfl (kept.vote_early voted)
    exact gone (Option.some.inj (decided.symm.trans committed))
  · rintro recipient message rfl
    have honest : Honest (logged before) message := (Grounded.run run).ordered _ _ _ split
    exact ⟨honest.acceptance, orderly_run run _ _ _ split⟩
  · intro events s' stepped undisturbed resource there gone
    by_contra kept
    have still := (step_empties stepped undisturbed resource).mpr ⟨there, kept⟩
    simp [gone] at still

def stocked : Station (Faulty (Beside (Ledger Entry) DirectoryStore)) :=
  { storage := {
      storage := ⟨{}, ⟨[], { nodes := ⟨[(["x"], .file 0)]⟩ }⟩⟩
      failures := [false, false, false, true, false, false, true] } }

def committedInSteps : List Action :=
  [.start {}, .receive ⟨"c", .prepare "t" ["x"] []⟩, .answer "t" true,
    .receive ⟨"c", .decision "t" .commit⟩, .stop, .start {}, .start {},
    .receive ⟨"c", .decision "t" .commit⟩]

theorem acknowledged_after_failures : ∃ history s,
    stocked.playAll committedInSteps = some (history, s) ∧
    ResourceStore.holds "x" s.storage = false ∧
    (∀ before after, history = before ++ .did (.deleted "x") :: after →
      .decision "t" .commit ∈ logged before) ∧
    ∃ before after, history = before ++ .sent "c" (.ack "t") :: after ∧
      .done "t" ∈ logged before := by
  have played : ((stocked.playAll committedInSteps).map fun result =>
      decide (logged result.1 = [.prepare "t" ["x"] .accept, .decision "t" .commit, .done "t"]) &&
      decide (ResourceStore.holds "x" result.2.storage = false) &&
      decide (("c", .ack "t") ∈ result.1.filterMap fun event => match event with
        | .sent recipient message => some (recipient, message)
        | _ => none)) = some true := by rfl
  obtain ⟨⟨history, s⟩, played, facts⟩ := Option.map_eq_some_iff.mp played
  simp only [Bool.and_eq_true, decide_eq_true_eq] at facts
  obtain ⟨⟨records, gone⟩, sent⟩ := facts
  have run : Station.Run history s := Station.playAll_run (.begin stocked.storage rfl) played
  have follows := (deletions_follow_records run).1
  refine ⟨history, s, played, gone, fun before after split => ?_, ?_⟩
  · obtain ⟨⟨txn, behalf⟩, rests⟩ := (follows before _ after split).1 "x" rfl
    obtain ⟨_, committed, _⟩ := rests txn behalf
    have there : .decision txn .commit ∈ logged history := by
      rw [split, logged_append]
      exact List.mem_append_left _ committed
    obtain rfl : txn = "t" := by simpa [records] using there
    exact committed
  · obtain ⟨event, happened, read⟩ := List.mem_filterMap.mp sent
    cases event <;> cases read
    obtain ⟨before, after, split⟩ := List.append_of_mem happened
    exact ⟨before, after, split, ((follows before _ after split).2.2 "c" _ rfl).2 rfl⟩

end AtomicCommit.Participant
