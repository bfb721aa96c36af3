import AtomicCommit.Proofs.Participant.Grounded

/-! Acceptances exclude each other: none is cast on a resource that another one locks. -/

namespace AtomicCommit.Participant

theorem quiet_reaction {reaction : Reaction} {sender : String} :
    ∀ event ∈ reaction.events sender, Eventful.deed? event = none := by
  cases reaction <;> simp [Reaction.events, Eventful.deed?, Event.deed?]

def Restricts (kind : Entry → Bool) (allowed : List Event → Event → Prop) : Prop :=
  ∀ before event, (∀ entry, event = .did (.appended entry) → kind entry = false) →
    allowed before event

namespace Restricts

variable {kind : Entry → Bool} {allowed : List Event → Event → Prop} {history : List Event}
  {deeds : List (Deed Entry)}

theorem quiet (restricts : Restricts kind allowed) {event : Event}
    (quiet : Eventful.deed? event = none) (before : List Event) : allowed before event := by
  refine restricts before event ?_
  rintro entry rfl
  cases quiet

theorem done (restricts : Restricts kind allowed)
    (others : ∀ entry ∈ Deed.records deeds, kind entry = false) :
    ∀ event ∈ deeds.map .did, ∀ before, allowed before event := by
  intro event member before
  obtain ⟨deed, done, rfl⟩ := List.mem_map.mp member
  refine restricts before _ ?_
  rintro entry ⟨⟩
  exact others entry (Deed.mem_records.mpr done)

variable {τ : Type} [Journal τ Entry] [LawfulJournal τ Entry]

omit [Journal τ Entry] [LawfulJournal τ Entry] in
theorem reacted (restricts : Restricts kind allowed) {first : Event} {sender : String}
    {result : Reaction × Participant (Recorded τ Entry)} (ordered : Ordered allowed history)
    (quiet : Eventful.deed? first = none) (noted : result.2.storage.deeds = deeds)
    (written : OrderedFrom allowed (history ++ [first]) (deeds.map .did)) :
    Ordered allowed (history ++ ([first] ++ Station.reactionEvents sender result)) := by
  rw [Station.reactionEvents, noted, ordered_append, orderedFrom_append, orderedFrom_append]
  exact ⟨ordered, ⟨restricts.quiet quiet _, trivial⟩, written,
    orderedFrom_free (fun event member => restricts.quiet (quiet_reaction event member)) _⟩

theorem started [ResourceStore τ] [LawfulStore τ Entry] (restricts : Restricts kind allowed)
    (ends : ∀ txn, kind (.done txn) = false) (ordered : Ordered allowed history) (config : Config)
    (storage : τ) :
    Ordered allowed (history ++ Station.startEvents
      (recover config (⟨{}, ⟨storage, []⟩⟩ : Participant (Recorded τ Entry)))) := by
  apply ordered.append_free
  simp only [Station.startEvents, List.mem_append, List.mem_singleton]
  rintro event ((rfl | noted) | rfl)
  · exact restricts.quiet rfl
  · refine restricts.done ?_ event noted
    intro entry member
    obtain ⟨txn, _, _, rfl⟩ := Grounded.recover_ends config storage entry member
    exact ends txn
  · exact restricts.quiet rfl

end Restricts

def apart (before : List Event) : Event → Prop
  | .did (.appended (.prepare txn resources .accept)) => ∀ other resource, resource ∈ resources →
      (known (logged before) other).Locks resource → other = txn
  | _ => True

def Entry.isAcceptance : Entry → Bool
  | .prepare _ _ vote => vote.isAccept
  | _ => false

theorem apart_restricts : Restricts Entry.isAcceptance apart := by
  intro before event free
  cases event with
  | did deed =>
    cases deed with
    | appended entry =>
      have other := free entry rfl
      cases entry with
      | prepare txn resources vote =>
        cases vote with
        | accept => cases other
        | refuse => trivial
      | _ => trivial
    | _ => trivial
  | _ => trivial

namespace Handled

variable {memory after : Memory} {deeds : List (Deed Entry)} {reaction : Reaction}

theorem message_accepts_nothing {m : Message}
    (handled : Handled (.message m) memory deeds reaction after) :
    ∀ entry ∈ Deed.records deeds, entry.isAcceptance = false := by
  cases handled with
  | again _ _ _ _ _ _ _ _ _ _ _ _ finished | decided _ _ _ _ _ _ _ _ _ _ _ finished =>
    cases finished <;> simp [Entry.isAcceptance]
  | _ => simp [Entry.isAcceptance, Vote.isAccept]

theorem answer_accepts {request : VoteRequest} {approved : Bool}
    (handled : Handled (.answer request approved) memory deeds reaction after) :
    deeds = [.appended (.prepare request.txn request.resources .accept)] ∨
      ∀ entry ∈ Deed.records deeds, entry.isAcceptance = false := by
  cases handled with
  | accepted => exact .inl rfl
  | _ => exact .inr (by simp [Entry.isAcceptance, Vote.isAccept])

end Handled

variable {τ : Type} [Journal τ Entry] [LawfulJournal τ Entry] [ResourceStore τ]
  [LawfulStore τ Entry] {history : List Event} {s s' : Station τ}
  {txn : String} {resources : List String}

theorem apart_step (ordered : Ordered apart history) (consistent : Consistent history s)
    {events : List Event} (stepped : s.Step events s') : Ordered apart (history ++ events) := by
  cases stepped with
  | disturb storage same => exact ordered.snoc trivial
  | start config down => exact apart_restricts.started (fun _ => rfl) ordered config s.storage
  | stop => exact ordered.snoc trivial
  | receive now envelope running free =>
    obtain ⟨deeds, handled, does⟩ := react_handles envelope.message (now.participant s.storage)
    refine apart_restricts.reacted ordered rfl does.noted (orderedFrom_free ?_ _)
    exact apart_restricts.done handled.message_accepts_nothing
  | answer now txn question approved running asked =>
    have informed := consistent.informed now running
    obtain ⟨named, _⟩ := informed.asking txn question asked
    obtain ⟨deeds, handled, does⟩ := answer_handles question.request approved (now.participant s.storage)
    refine apart_restricts.reacted ordered rfl does.noted ?_
    rcases handled.answer_accepts with rfl | others
    · refine ⟨?_, trivial⟩
      intro other resource listed locks
      rw [logged_quiet history rfl] at locks
      have owned := (informed.locks resource txn).mpr (.inr ⟨question, asked, listed⟩)
      rw [informed.locked locks, Option.some.injEq] at owned
      exact owned.trans named.symm
    · exact orderedFrom_free (apart_restricts.done others) _

theorem apart_run (run : Station.Run history s) : Ordered apart history := by
  induction run with
  | begin storage empty => exact .nil _
  | step run stepped ih => exact apart_step ih (consistent_run run) stepped

theorem locks_snoc {entries : List Entry} {entry : Entry} {resource : String}
    (locks : (known (entries ++ [entry]) txn).Locks resource) :
    (known entries txn).Locks resource ∨
      ∃ resources, entry = .prepare txn resources .accept ∧ resource ∈ resources := by
  by_cases own : entry.txn = txn
  · rw [known_own (by simpa using own)] at locks
    obtain ⟨undone, resources, voted, listed⟩ := locks
    cases entry with
    | prepare other others vote =>
      cases own
      cases voted
      exact .inr ⟨_, rfl, listed⟩
    | decision other outcome => exact .inl ⟨undone, resources, voted, listed⟩
    | done other => cases undone
  · rw [known_other (List.forall_mem_singleton.mpr rfl) (Ne.symm own)] at locks
    exact .inl locks

theorem exclusive_of_apart (ordered : Ordered apart history) : Exclusive (logged history) := by
  induction history using List.reverseRecOn with
  | nil =>
    rintro first second resource ⟨_, _, voted, _⟩
    cases voted
  | append_singleton before event ih =>
    have exclusive := ih ordered.of_append
    have allowed : apart before event := ordered before event [] rfl
    cases event with
    | did deed =>
      cases deed with
      | appended entry =>
        rw [logged_append]
        change Exclusive (logged before ++ [entry])
        intro first second resource one other
        rcases locks_snoc one with old | ⟨resources, rfl, listed⟩
        · rcases locks_snoc other with oldToo | ⟨resources, rfl, listed⟩
          · exact exclusive first second resource old oldToo
          · exact allowed first resource listed old
        · rcases locks_snoc other with old | ⟨others, same, _⟩
          · exact (allowed second resource listed old).symm
          · cases same
            rfl
      | _ =>
        rw [logged_append]
        exact (List.append_nil (logged before)).symm ▸ exclusive
    | _ => rwa [logged_quiet before rfl]

theorem locked_while_open (run : Station.Run history s)
    (voted : .prepare txn resources .accept ∈ logged history) (open_ : .done txn ∉ logged history)
    {now : Incarnation} (running : s.running = some now) {resource : String}
    (listed : resource ∈ resources) : now.memory.locks.owner? resource = some txn := by
  have consistent := consistent_run run
  have undone : (known (logged history) txn).isDone = false :=
    Bool.eq_false_iff.mpr (isDone_known.not.mpr open_)
  exact (consistent.informed now running).locked
    ⟨undone, resources, consistent.kept.vote txn resources .accept voted, listed⟩

theorem unlocked_when_ended (run : Station.Run history s) (ended : .done txn ∈ logged history)
    {now : Incarnation} (running : s.running = some now) (resource : String) :
    now.memory.locks.owner? resource ≠ some txn :=
  ((consistent_run run).informed now running).unlocked ended resource

theorem not_accepted_while_open (run : Station.Run history s) {before after : List Event}
    {other : String} {others : List String}
    (split : history = before ++ .did (.appended (.prepare other others .accept)) :: after)
    (voted : .prepare txn resources .accept ∈ logged before) (open_ : .done txn ∉ logged before)
    (distinct : other ≠ txn) {resource : String} (listed : resource ∈ resources) :
    resource ∉ others := by
  intro wanted
  have kept := (consistent_run run).kept
  rw [split, logged_append] at kept
  have undone : (known (logged before) txn).isDone = false :=
    Bool.eq_false_iff.mpr (isDone_known.not.mpr open_)
  have locks : (known (logged before) txn).Locks resource :=
    ⟨undone, resources, kept.vote_early voted, listed⟩
  have excluded : apart before (.did (.appended (.prepare other others .accept))) :=
    apart_run run before _ after split
  exact distinct (excluded txn resource wanted locks).symm

theorem repeated_while_open (run : Station.Run history s) {before after : List Event}
    {recipient : String} {message : Message}
    (split : history = before ++ .sent recipient message :: after)
    (accepts : message.phase = Vote.accept.phase)
    (voted : .prepare txn resources .accept ∈ logged before) (open_ : .done txn ∉ logged before)
    (distinct : message.txn ≠ txn) :
    ∃ others, .prepare message.txn others .accept ∈ logged before ∧
      (.done message.txn ∉ logged before → ∀ resource ∈ resources, resource ∉ others) := by
  have honest : Honest (logged before) message := (Grounded.run run).ordered before _ after split
  obtain ⟨others, accepted⟩ := honest.acceptance accepts
  refine ⟨others, accepted, fun openToo resource listed wanted => ?_⟩
  have kept := (consistent_run run).kept
  have ordered := apart_run run
  rw [split] at ordered
  rw [split, logged_append] at kept
  have undone : ∀ name, .done name ∉ logged before → (known (logged before) name).isDone = false :=
    fun name unended => Bool.eq_false_iff.mpr (isDone_known.not.mpr unended)
  exact distinct (exclusive_of_apart ordered.of_append message.txn txn resource
    ⟨undone _ openToo, others, kept.vote_early accepted, wanted⟩
    ⟨undone _ open_, resources, kept.vote_early voted, listed⟩)

end AtomicCommit.Participant
