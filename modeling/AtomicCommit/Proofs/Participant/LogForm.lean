import AtomicCommit.Proofs.Participant.WriteAhead

/-! The form of a participant's log: of each transaction first its vote, then its decision, then its end,
and none of them twice. One thing alone can spoil it. Of a decision without a vote nothing is remembered
before its end is logged as well; if that fails, a vote or a second decision may be logged after it. -/

namespace AtomicCommit.Participant

namespace Entry

def isVote : Entry → Bool
  | .prepare _ _ _ => true
  | _ => false

def stage : Entry → Nat
  | .prepare _ _ _ => 0
  | .decision _ _ => 1
  | .done _ => 2

end Entry

/-- What holds of the entries of a transaction in any case: it is voted on once, and it ends once and
for all. -/
structure EndsOnce (records : List Entry) : Prop where
  votes : records.countP Entry.isVote ≤ 1
  ends : records.countP Entry.isDone ≤ 1
  last : records.Pairwise fun earlier _ => earlier.isDone = false

structure InForm (records : List Entry) : Prop extends EndsOnce records where
  decisions : records.countP Entry.isDecision ≤ 1
  voteFirst : records.Pairwise fun earlier later =>
    later.isVote → earlier.isDecision = false ∧ earlier.isDone = false

section Forms

variable {records fewer : List Entry} {entry : Entry}

theorem EndsOnce.sublist (ends : EndsOnce records) (sublist : fewer.Sublist records) :
    EndsOnce fewer :=
  ⟨Nat.le_trans sublist.countP_le ends.votes, Nat.le_trans sublist.countP_le ends.ends,
    ends.last.sublist sublist⟩

theorem InForm.sublist (inForm : InForm records) (sublist : fewer.Sublist records) : InForm fewer :=
  ⟨inForm.toEndsOnce.sublist sublist, Nat.le_trans sublist.countP_le inForm.decisions,
    inForm.voteFirst.sublist sublist⟩

theorem countP_ascending {p : Entry → Bool} (same : ∀ first second, p first → p second →
    first.stage = second.stage)
    (ascending : records.Pairwise fun earlier later => earlier.stage < later.stage) :
    records.countP p ≤ 1 := by
  induction ascending with
  | nil => simp
  | @cons entry rest above _ ih =>
    by_cases counts : p entry
    · have others : rest.countP p = 0 := List.countP_eq_zero.mpr fun later member counted =>
        Nat.ne_of_lt (above later member) (same entry later counts counted)
      simp [counts, others]
    · rwa [List.countP_cons_of_neg counts]

theorem inForm_iff :
    InForm records ↔ records.Pairwise fun earlier later => earlier.stage < later.stage := by
  constructor
  · intro inForm
    rw [List.pairwise_iff_forall_sublist]
    intro earlier later sublist
    obtain ⟨⟨votes, ends, last⟩, decisions, voteFirst⟩ := inForm.sublist sublist
    cases earlier <;> cases later <;>
      simp_all [List.countP_cons, Entry.stage, Entry.isVote, Entry.isDone, Entry.isDecision]
  · intro ascending
    refine ⟨⟨countP_ascending ?_ ascending, countP_ascending ?_ ascending, ascending.imp ?_⟩,
      countP_ascending ?_ ascending, ascending.imp ?_⟩ <;>
      rintro (_ | _ | _) (_ | _ | _) <;>
      simp [Entry.stage, Entry.isVote, Entry.isDone, Entry.isDecision]

instance (records : List Entry) : Decidable (InForm records) :=
  decidable_of_iff _ inForm_iff.symm

theorem inForm_snoc : InForm (records ++ [entry]) ↔
    InForm records ∧ ∀ earlier ∈ records, earlier.stage < entry.stage := by
  simp [inForm_iff, List.pairwise_append]

theorem EndsOnce.snoc (ends : EndsOnce records) (undone : ∀ earlier ∈ records, earlier.isDone = false)
    (unvoted : entry.isVote → ∀ earlier ∈ records, earlier.isVote = false) :
    EndsOnce (records ++ [entry]) := by
  have none : records.countP Entry.isDone = 0 :=
    List.countP_eq_zero.mpr fun earlier member => by simp [undone earlier member]
  refine ⟨?_, ?_, ?_⟩
  · cases voted : entry.isVote with
    | false => simpa [List.countP_append, voted] using ends.votes
    | true =>
      have first : records.countP Entry.isVote = 0 :=
        List.countP_eq_zero.mpr fun earlier member => by simp [unvoted voted earlier member]
      simp [List.countP_append, first, voted]
  · simp only [List.countP_append, none, Nat.zero_add]
    exact List.countP_le_length
  · simpa [List.pairwise_append, ends.last] using undone

end Forms

section Known

variable {entries : List Entry} {txn : String}

theorem isSome_vote_note (records : List Entry) (start : Trace) :
    (records.foldl Trace.note start).vote.isSome =
      (start.vote.isSome || records.any Entry.isVote) := by
  induction records generalizing start with
  | nil => simp
  | cons entry rest ih => cases entry <;> simp [ih, Trace.note, Entry.isVote]

theorem isSome_decision_note (records : List Entry) (start : Trace) :
    (records.foldl Trace.note start).decision.isSome =
      (start.decision.isSome || records.any Entry.isDecision) := by
  induction records generalizing start with
  | nil => simp
  | cons entry rest ih => cases entry <;> simp [ih, Trace.note, Entry.isDecision]

theorem unvoted_iff : (known entries txn).vote = none ↔
    ∀ entry ∈ Log.recordsOf txn entries, entry.isVote = false := by
  rw [← Option.isSome_eq_false_iff.trans Option.isNone_iff_eq_none, known, Log.traceOf,
    isSome_vote_note, Bool.or_eq_false_iff, List.any_eq_false]
  simp

theorem unvoted_of_append {later : List Entry} (unvoted : (known (entries ++ later) txn).vote = none) :
    (known entries txn).vote = none := by
  rw [unvoted_iff] at unvoted ⊢
  intro record member
  refine unvoted record ?_
  rw [Log.recordsOf_append]
  exact List.mem_append_left _ member

theorem undecided_iff : (known entries txn).decision = none ↔
    ∀ entry ∈ Log.recordsOf txn entries, entry.isDecision = false := by
  rw [← Option.isSome_eq_false_iff.trans Option.isNone_iff_eq_none, known, Log.traceOf,
    isSome_decision_note, Bool.or_eq_false_iff, List.any_eq_false]
  simp

theorem decided_iff : (known entries txn).decision ≠ none ↔
    ∃ outcome, .decision txn outcome ∈ entries := by
  constructor
  · intro decided
    obtain ⟨outcome, told⟩ := Option.ne_none_iff_exists'.mp decided
    exact ⟨outcome, decision_known told⟩
  · rintro ⟨outcome, told⟩ undecided
    have none := undecided_iff.mp undecided _ (Log.mem_recordsOf.mpr ⟨told, rfl⟩)
    cases none

theorem undone_iff : (known entries txn).isDone = false ↔
    ∀ entry ∈ Log.recordsOf txn entries, entry.isDone = false := by
  rw [known, Log.traceOf, isDone_foldl, Bool.false_or, List.any_eq_false]
  simp

theorem ascends_iff {entry : Entry} :
    (∀ earlier ∈ Log.recordsOf txn entries, earlier.stage < entry.stage) ↔
      (known entries txn).isDone = false ∧
      (entry.isDone = false → (known entries txn).decision = none) ∧
      (entry.isVote → (known entries txn).vote = none) := by
  rw [undone_iff, undecided_iff, unvoted_iff]
  constructor
  · intro below
    refine ⟨fun earlier member => ?_, fun open_ earlier member => ?_, fun votes earlier member => ?_⟩ <;>
      have stage := below earlier member <;>
      cases entry <;> cases earlier <;>
      simp_all [Entry.stage, Entry.isVote, Entry.isDone, Entry.isDecision]
  · rintro ⟨undone, undecided, unvoted⟩ earlier member
    have notEnd := undone earlier member
    have notDecision := fun open_ => undecided open_ earlier member
    have notVote := fun votes => unvoted votes earlier member
    cases entry <;> cases earlier <;>
      simp_all [Entry.stage, Entry.isVote, Entry.isDone, Entry.isDecision]

end Known

/-- A decision was logged, but neither a vote nor an end. In memory there is no sign of it. -/
structure Trace.Orphaned (trace : Trace) : Prop where
  unvoted : trace.vote = none
  decided : trace.decision ≠ none
  undone : trace.isDone = false

def timely (before : List Event) : Event → Prop
  | .did (.appended (.prepare txn _ _)) => (known (logged before) txn).vote = none
  | .did (.appended (.decision txn _)) => InForm (Log.recordsOf txn (logged before)) →
    (known (logged before) txn).vote ≠ none → (known (logged before) txn).decision = none
  | _ => True

/-- Nothing but its end was ever logged of a transaction with an orphaned decision. -/
def OrphansEnd (history : List Event) (txn : String) : Prop :=
  ∀ before entry after, history = before ++ .did (.appended entry) :: after → entry.txn = txn →
    (known (logged before) txn).Orphaned → entry = .done txn

def EndsAtOnce (history : List Event) (txn : String) : Prop :=
  ∀ before outcome after, history = before ++ .did (.appended (.decision txn outcome)) :: after →
    (known (logged before) txn).vote = none → ∃ rest, after = .did (.appended (.done txn)) :: rest

section Timely

variable {txn : String} {history : List Event}

theorem logged_snoc (history : List Event) (event : Event) :
    logged (history ++ [event]) = logged history ∨ ∃ entry, event = .did (.appended entry) := by
  by_cases record : ∃ entry, event = .did (.appended entry)
  · exact .inr record
  · refine .inl ?_
    have nothing : logged [event] = [] := List.eq_nil_iff_forall_not_mem.mpr fun entry member =>
      record ⟨entry, (List.mem_singleton.mp (mem_logged.mp member)).symm⟩
    rw [logged_append, nothing, List.append_nil]

theorem undone_of_orderly (ordered : Ordered orderly history) {before after : List Event}
    {entry : Entry} (split : history = before ++ .did (.appended entry) :: after) :
    (known (logged before) entry.txn).isDone = false := by
  have inOrder : entry.InOrder before := ordered _ _ _ split
  exact Bool.eq_false_iff.mpr (isDone_known.not.mpr inOrder.undone)

theorem unvoted_of_timely (timed : Ordered timely history) {before after : List Event}
    {entry : Entry} (split : history = before ++ .did (.appended entry) :: after)
    (votes : entry.isVote) : (known (logged before) entry.txn).vote = none := by
  cases entry with
  | prepare => exact timed _ _ _ split
  | _ => cases votes

theorem endsOnce_logged (ordered : Ordered orderly history) (timed : Ordered timely history) :
    EndsOnce (Log.recordsOf txn (logged history)) := by
  induction history using List.reverseRecOn with
  | nil => exact ⟨by simp [Log.recordsOf], by simp [Log.recordsOf], by simp [Log.recordsOf]⟩
  | append_singleton history event ih =>
    have ends := ih ordered.of_append timed.of_append
    rcases logged_snoc history event with same | ⟨entry, rfl⟩
    · rwa [same]
    · rw [logged_appended, Log.recordsOf_snoc]
      split
      · next own =>
        obtain rfl : entry.txn = txn := own
        exact ends.snoc (undone_iff.mp (undone_of_orderly ordered rfl))
          fun votes => unvoted_iff.mp (unvoted_of_timely timed rfl votes)
      · exact ends

theorem inForm_logged (ordered : Ordered orderly history) (timed : Ordered timely history)
    (ended : OrphansEnd history txn) : InForm (Log.recordsOf txn (logged history)) := by
  induction history using List.reverseRecOn with
  | nil => exact inForm_iff.mpr .nil
  | append_singleton history event ih =>
    have inForm := ih ordered.of_append timed.of_append fun before entry after split =>
      ended before entry (after ++ [event]) (by simp [split])
    rcases logged_snoc history event with same | ⟨entry, rfl⟩
    · rwa [same]
    · rw [logged_appended, Log.recordsOf_snoc]
      split
      · next own =>
        obtain rfl : entry.txn = txn := own
        have undone := undone_of_orderly ordered rfl
        refine inForm_snoc.mpr ⟨inForm, ascends_iff.mpr ⟨undone, fun open_ => ?_, fun votes =>
          unvoted_of_timely timed rfl votes⟩⟩
        by_contra decided
        by_cases unvoted : (known (logged history) entry.txn).vote = none
        · rw [ended history entry [] rfl rfl ⟨unvoted, decided, undone⟩] at open_
          cases open_
        · -- After a vote there is only one decision.
          cases entry with
          | prepare => exact unvoted (unvoted_of_timely timed rfl rfl)
          | decision => exact decided (timed history _ [] rfl inForm unvoted)
          | done => cases open_
      · exact inForm

theorem orphansEnd_of_inForm (inForm : InForm (Log.recordsOf txn (logged history))) :
    OrphansEnd history txn := by
  rintro before entry after split rfl orphaned
  have early : (Log.recordsOf entry.txn (logged before) ++ [entry]).Sublist
      (Log.recordsOf entry.txn (logged history)) := by
    have whole : history = (before ++ [.did (.appended entry)]) ++ after := by simp [split]
    rw [whole, logged_append, logged_appended, Log.recordsOf_append, Log.recordsOf_snoc,
      if_pos (by rfl)]
    exact List.sublist_append_left _ _
  obtain ⟨_, undecided, _⟩ := ascends_iff.mp (inForm_snoc.mp (inForm.sublist early)).2
  cases entry with
  | done => rfl
  | _ => exact absurd (undecided rfl) orphaned.decided

theorem EndsAtOnce.orphansEnd (atOnce : EndsAtOnce history txn) : OrphansEnd history txn := by
  rintro before entry after split own ⟨unvoted, decided, undone⟩
  obtain ⟨outcome, told⟩ := Option.ne_none_iff_exists'.mp decided
  obtain ⟨earlier, between, rfl⟩ := List.append_of_mem (mem_logged.mp (decision_known told))
  rw [logged_append] at unvoted
  have unvotedEarly := unvoted_of_append unvoted
  obtain ⟨rest, follows⟩ := atOnce earlier outcome (between ++ .did (.appended entry) :: after)
    (by simp [split]) unvotedEarly
  cases between with
  | nil =>
    cases follows
    rfl
  | cons first between =>
    obtain ⟨rfl, _⟩ := List.cons_eq_cons.mp follows
    have ended : .done txn ∈ logged (earlier ++ .did (.appended (.decision txn outcome)) ::
        .did (.appended (.done txn)) :: between) := mem_logged.mpr (by simp)
    exact absurd ended (isDone_known.not.mp (Bool.eq_false_iff.mp undone))

end Timely

def Heeds (entries : List Entry) (memory : Memory) : Prop :=
  ∀ txn pending, memory.pending.get? txn = some pending → pending.decision = none →
    InForm (Log.recordsOf txn entries) → (known entries txn).decision = none

def LeavesOpen (memory after : Memory) (records : List Entry) : Prop :=
  ∀ txn pending, after.pending.get? txn = some pending → pending.decision = none →
    (memory.pending.get? txn = some pending ∧ ∀ entry ∈ records, entry.txn ≠ txn) ∨
      ∃ resources vote, records = [.prepare txn resources vote]

section Heeds

variable {entries : List Entry} {memory after : Memory} {deeds : List (Deed Entry)}
  {reaction : Reaction} {cause : Cause} {txn : String} {success : Bool}

theorem Finish.leavesOpen {pending : Pending}
    (finished : Finish txn pending memory deeds success after) {other : String} {waiting : Pending}
    (waits : after.pending.get? other = some waiting) :
    memory.pending.get? other = some waiting ∧ ∀ entry ∈ Deed.records deeds, entry.txn ≠ other := by
  cases finished with
  | undecided | stuck => exact ⟨waits, by simp⟩
  | ended =>
    rw [Memory.pending_retire] at waits
    split at waits
    · cases waits
    · next distinct => exact ⟨waits, by simpa [Entry.txn] using Ne.symm distinct⟩

theorem leavesOpen_vote {before : Memory} (same : before.pending = memory.pending) (name : String)
    (resources : List String) (vote : Vote) :
    LeavesOpen memory (before.await name ⟨resources, vote, none⟩) [.prepare name resources vote] := by
  intro other waiting waits _
  rw [Memory.pending_await, same] at waits
  split at waits
  · next own => exact .inr ⟨resources, vote, by rw [own]⟩
  · next distinct => exact .inl ⟨waits, by simpa [Entry.txn] using Ne.symm distinct⟩

theorem leavesOpen_absent {records : List Entry} {name : String}
    (absent : memory.pending.get? name = none) (same : after.pending = memory.pending)
    (own : ∀ entry ∈ records, entry.txn = name) : LeavesOpen memory after records := by
  intro other waiting waits _
  rw [same] at waits
  refine .inl ⟨waits, ?_⟩
  rintro entry member rfl
  simp [own entry member, absent] at waits

theorem Handled.leavesOpen (handled : Handled cause memory deeds reaction after) :
    LeavesOpen memory after (Deed.records deeds) := by
  cases handled with
  | refused m | accepted request => exact leavesOpen_vote rfl _ _ _
  | rejected request => exact leavesOpen_vote (Memory.pending_release _ _ _) _ _ _
  | unasked _ _ _ _ _ absent | unknown _ _ _ _ _ absent =>
    exact leavesOpen_absent absent rfl (by simp [Entry.txn])
  | again _ _ _ _ _ _ _ _ _ _ _ _ finished =>
    exact fun other waiting waits _ => .inl (finished.leavesOpen waits)
  | decided m outcome _ pending deeds success after _ _ _ _ finished =>
    intro other waiting waits undecided
    obtain ⟨waited, others⟩ := finished.leavesOpen waits
    rw [Memory.pending_await] at waited
    split at waited
    · cases waited
      cases undecided
    · next distinct =>
      refine .inl ⟨waited, ?_⟩
      simpa [Entry.txn] using ⟨Ne.symm distinct, others⟩
  | _ => exact fun other waiting waits _ => .inl ⟨waits, by simp⟩

theorem Reapply.leavesOpen {waiting : Option Pending}
    (applied : Reapply txn waiting memory deeds success after)
    (waits : memory.pending.get? txn = waiting) :
    LeavesOpen memory after (Deed.records deeds) := by
  cases applied with
  | applied _ _ _ _ _ finished => exact fun other waiting waits _ => .inl (finished.leavesOpen waits)
  | ended => exact leavesOpen_absent waits rfl (by simp [Entry.txn])
  | unended => exact fun other waiting waits _ => .inl ⟨waits, by simp⟩

theorem Heeds.append (heeds : Heeds entries memory) {records : List Entry}
    (leaves : LeavesOpen memory after records) : Heeds (entries ++ records) after := by
  intro txn pending waits undecided inForm
  rw [Log.recordsOf_append] at inForm
  rcases leaves txn pending waits undecided with ⟨waited, others⟩ | ⟨resources, vote, rfl⟩
  · have none : Log.recordsOf txn records = [] :=
      List.filter_eq_nil_iff.mpr fun entry member => by simpa [Record.txn] using others entry member
    rw [none, List.append_nil] at inForm
    rw [undecided_iff, Log.recordsOf_append, none, List.append_nil, ← undecided_iff]
    exact heeds txn pending waited undecided inForm
  · -- The vote has just been logged. In form there is nothing before it.
    have own : Log.recordsOf txn [Entry.prepare txn resources vote] =
        [.prepare txn resources vote] := Log.recordsOf_own (by simp [Record.txn, Entry.txn])
    rw [own, inForm_snoc] at inForm
    obtain ⟨_, first, _⟩ := ascends_iff.mp inForm.2
    rw [undecided_iff, Log.recordsOf_append, own]
    simpa [or_imp, forall_and, Entry.isDecision] using undecided_iff.mp (first rfl)

theorem Heeds.restored {log : List Entry} (kept : Kept entries log) :
    Heeds entries (restored (traces log) {}) := by
  intro txn pending waits undecided _
  rw [pending_fromLog] at waits
  rcases kept.recounts txn with same | ⟨done, same⟩
  · rw [same] at waits
    obtain ⟨vote, _, rfl⟩ := Option.map_eq_some_iff.mp (Option.ite_none_left_eq_some.mp waits).2
    exact undecided
  · rw [same] at waits
    simp [Trace.waiting?, done] at waits

end Heeds

section Steps

variable {memory after : Memory} {deeds : List (Deed Entry)} {reaction : Reaction} {cause : Cause}
  {asking : Table String Question} {before : List Event}

theorem timely_restricts : Restricts (fun entry => !entry.isDone) timely := by
  intro before event free
  cases event with
  | did deed =>
    cases deed with
    | appended entry =>
      have isEnd := free entry rfl
      cases entry with
      | done txn => trivial
      | _ => cases isEnd
    | _ => trivial
  | _ => trivial

theorem Finish.timely {txn : String} {pending : Pending} {success : Bool}
    (finished : Finish txn pending memory deeds success after) (before : List Event) :
    OrderedFrom timely before (deeds.map .did) := by
  refine orderedFrom_free (timely_restricts.done ?_) before
  cases finished <;> simp [Entry.isDone]

namespace Informed

variable {entries : List Entry} {txn : String}

theorem unvoted (informed : Informed entries memory asking)
    (new : memory.recordedVote txn = none) : (known entries txn).vote = none := by
  obtain ⟨notPending, notResolved⟩ := (Memory.recordedVote_eq_none _ _).mp new
  have agrees := informed.agrees txn
  rw [notPending, notResolved] at agrees
  exact agrees.unvoted.2

theorem message_timely {m : Message} (informed : Informed (logged before) memory asking)
    (heeds : Heeds (logged before) memory)
    (handled : Handled (.message m) memory deeds reaction after) :
    OrderedFrom timely before (deeds.map .did) := by
  have first : ∀ outcome, memory.resolved.contains m.txn = false →
      memory.pending.get? m.txn = none →
      timely before (.did (.appended (.decision m.txn outcome))) := by
    intro outcome unresolved notPending _ voted
    have notResolved : memory.resolved.get? m.txn = none := by
      simpa [Table.contains] using unresolved
    exact absurd (informed.unvoted ((Memory.recordedVote_eq_none _ _).mpr ⟨notPending, notResolved⟩))
      voted
  cases handled with
  | refused _ _ phase new => exact ⟨informed.unvoted new, trivial⟩
  | unasked _ outcome _ phase unresolved notPending =>
    exact ⟨first outcome unresolved notPending, trivial⟩
  | unknown _ outcome _ phase unresolved notPending =>
    exact ⟨first outcome unresolved notPending, trivial, trivial⟩
  | again _ _ _ _ _ _ _ _ _ _ _ _ finished => exact finished.timely before
  | decided _ outcome _ pending _ _ _ phase unresolved waiting undecided finished =>
    exact ⟨fun inForm _ => heeds m.txn pending waiting undecided inForm, finished.timely _⟩
  | _ => trivial

theorem answer_timely {request : VoteRequest} {approved : Bool}
    (informed : Informed (logged before) memory asking)
    (new : memory.recordedVote request.txn = none)
    (handled : Handled (.answer request approved) memory deeds reaction after) :
    OrderedFrom timely before (deeds.map .did) := by
  cases handled with
  | accepted | rejected => exact ⟨informed.unvoted new, trivial⟩
  | _ => trivial

end Informed

variable {τ : Type} [Journal τ Entry] [LawfulJournal τ Entry] [ResourceStore τ]
  [LawfulStore τ Entry] {history events : List Event} {s s' : Station τ}

structure Heedful (history : List Event) (s : Station τ) : Prop where
  timely : Ordered timely history
  heeds : ∀ now, s.running = some now → Heeds (logged history) now.memory

namespace Heedful

omit [Journal τ Entry] [LawfulJournal τ Entry] [ResourceStore τ] [LawfulStore τ Entry] in
theorem reacted {now : Incarnation} {first : Event} {sender : String}
    {result : Reaction × Participant (Recorded τ Entry)}
    (timed : Ordered Participant.timely history) (quiet : Eventful.deed? first = none)
    (heeds : Heeds (logged history) now.memory)
    (noted : result.2.storage.deeds = deeds)
    (written : OrderedFrom Participant.timely (history ++ [first]) (deeds.map .did))
    (leaves : LeavesOpen now.memory result.2.memory (Deed.records deeds)) :
    Heedful (history ++ ([first] ++ Station.reactionEvents sender result))
      (Station.afterReaction now sender result) := by
  refine ⟨timely_restricts.reacted timed quiet noted written, ?_⟩
  rintro later ⟨⟩
  rw [← List.append_assoc, logged_append, logged_quiet history quiet, logged_reactionEvents, noted]
  have kept := heeds.append leaves
  cases result.1 <;> exact kept

theorem start (heedful : Heedful history s) (consistent : Consistent history s) (config : Config) :
    Heedful (history ++ Station.startEvents
        (recover config (⟨{}, ⟨s.storage, []⟩⟩ : Participant (Recorded τ Entry))))
      (s.afterStart (recover config ⟨{}, ⟨s.storage, []⟩⟩)) := by
  constructor
  · exact timely_restricts.started (fun _ => rfl) heedful.timely config s.storage
  · rintro now running
    simp only [Station.afterStart, Option.ite_none_right_eq_some] at running
    obtain ⟨_, ⟨⟩⟩ := running
    rw [logged_append, logged_startEvents]
    rcases recover_cases config s.storage with ⟨e, t, result, replayed⟩ | ⟨t, replayed, result⟩
    · rw [result]
      exact fun txn pending waits => absurd waits (by simp)
    · rw [result]
      obtain ⟨_, ⟨_, heeds⟩, _⟩ := reapply_induction
        (P := fun rest p => Recovers (logged history) rest p ∧
          Heeds (logged history ++ Deed.records p.storage.deeds) p.memory)
        (by
          rintro txn waiting rest p deeds success after ⟨recovers, heeds⟩ applied does
          refine ⟨recovers.turn applied does, ?_⟩
          obtain ⟨waits, _⟩ := recovers.rest txn waiting List.mem_cons_self
          rw [does.noted, Deed.records_append, ← List.append_assoc]
          exact heeds.append (applied.leavesOpen waits))
        (toReapply (traces (held s.storage))) ⟨restored (traces (held s.storage)) {}, t⟩
        ⟨restored_recovers consistent.kept consistent.exclusive replayed, by
          rw [replayed.records, List.append_nil]
          exact .restored consistent.kept⟩
      exact heeds

theorem step (heedful : Heedful history s) (consistent : Consistent history s)
    (stepped : s.Step events s') : Heedful (history ++ events) s' := by
  cases stepped with
  | disturb storage same =>
    refine ⟨heedful.timely.snoc trivial, ?_⟩
    rw [logged_quiet history rfl]
    exact heedful.heeds
  | start config down => exact heedful.start consistent config
  | stop => exact ⟨heedful.timely.snoc trivial, by simp⟩
  | receive now envelope running free =>
    obtain ⟨deeds, handled, does⟩ := react_handles envelope.message (now.participant s.storage)
    have heeds := heedful.heeds now running
    have quiet : logged (history ++ [.received envelope]) = logged history := logged_quiet history rfl
    refine reacted heedful.timely rfl heeds does.noted ?_ handled.leavesOpen
    exact (quiet ▸ consistent.informed now running).message_timely (quiet ▸ heeds) handled
  | answer now txn question approved running asked =>
    obtain ⟨deeds, handled, does⟩ := answer_handles question.request approved (now.participant s.storage)
    have informed := consistent.informed now running
    obtain ⟨rfl, new⟩ := informed.asking txn question asked
    have quiet : logged (history ++ [.answered question.request approved]) = logged history :=
      logged_quiet history rfl
    refine reacted heedful.timely rfl ?_ does.noted ?_ handled.leavesOpen
    · exact heedful.heeds now running
    · exact (quiet ▸ informed).answer_timely new handled

end Heedful

theorem heedful_run (run : Station.Run history s) : Heedful history s := by
  induction run with
  | begin storage empty => exact ⟨.nil _, by simp⟩
  | step run stepped ih => exact ih.step (consistent_run run) stepped

/-- The log holds a vote and an end of each transaction at most, and nothing of it after the end. All
that was logged of a transaction is in form, and what the log still holds of it with that, just if no
vote and no second decision was logged after an orphaned decision; so it is when each decision without
a vote could be ended at once. -/
theorem log_in_form_iff (run : Station.Run history s) (txn : String) :
    EndsOnce (Log.recordsOf txn (held s.storage)) ∧
    (InForm (Log.recordsOf txn (logged history)) ↔ OrphansEnd history txn) ∧
    (OrphansEnd history txn → InForm (Log.recordsOf txn (held s.storage))) ∧
    (EndsAtOnce history txn → OrphansEnd history txn) := by
  have ordered := orderly_run run
  have timed := (heedful_run run).timely
  have fewer : (Log.recordsOf txn (held s.storage)).Sublist (Log.recordsOf txn (logged history)) := by
    rcases (consistent_run run).kept.log txn with whole | ⟨_, decisionsGone⟩
    · exact whole ▸ List.Sublist.refl _
    · exact decisionsGone ▸ List.filter_sublist
  exact ⟨(endsOnce_logged ordered timed).sublist fewer,
    ⟨orphansEnd_of_inForm, inForm_logged ordered timed⟩,
    fun ended => (inForm_logged ordered timed ended).sublist fewer, EndsAtOnce.orphansEnd⟩

end Steps

def hindered : Station (Faulty (Beside (Ledger Entry) DirectoryStore)) :=
  { storage := {
      storage := ⟨{}, ⟨[], { nodes := ⟨[(["x"], .file 0)]⟩ }⟩⟩
      failures := [false, false, true] } }

def decidedTwice : List Action :=
  [.start {}, .receive ⟨"c", .decision "t" .abort⟩, .receive ⟨"c", .prepare "t" ["x"] []⟩,
    .answer "t" true, .receive ⟨"c", .decision "t" .abort⟩]

/-- The decision is forgotten, a vote follows it, and then the same decision again. -/
theorem voted_after_decision : ∃ history s,
    hindered.playAll decidedTwice = some (history, s) ∧
    held s.storage = [.decision "t" .abort, .prepare "t" ["x"] .accept, .decision "t" .abort,
      .done "t"] ∧
    EndsOnce (Log.recordsOf "t" (held s.storage)) ∧ ¬InForm (Log.recordsOf "t" (held s.storage)) ∧
    ¬OrphansEnd history "t" ∧ ¬EndsAtOnce history "t" := by
  have played : ((hindered.playAll decidedTwice).map fun result =>
      decide (held result.2.storage = [.decision "t" .abort, .prepare "t" ["x"] .accept,
        .decision "t" .abort, .done "t"])) = some true := by rfl
  obtain ⟨⟨history, s⟩, played, records⟩ := Option.map_eq_some_iff.mp played
  replace records := of_decide_eq_true records
  have run : Station.Run history s := Station.playAll_run (.begin hindered.storage rfl) played
  obtain ⟨ends, _, inForm, atOnce⟩ := log_in_form_iff run "t"
  have spoilt : ¬InForm (Log.recordsOf "t" (held s.storage)) := by
    rw [records]
    decide
  have orphan := mt inForm spoilt
  exact ⟨history, s, played, records, ends, spoilt, orphan, mt atOnce orphan⟩

/-- Handlers that are called directly may overlap, which the handling of messages never does. Then a vote
does not look again at what was decided while the oracle was asked: it is logged after the end, and its
locks stay until the participant goes down. -/
theorem voted_after_end :
    let asked := react (.prepare "t" ["x"] []) (⟨{}, hindered.storage.storage⟩ : Participant _)
    let told := react (.decision "t" .abort) asked.2
    let answered := told.2.answerVote ⟨"t", ["x"], []⟩ true
    asked.1 = .ask ⟨"t", ["x"], []⟩ ∧ told.1 = .reply (.ack "t") ∧ answered.1 = .ok .accept ∧
    held answered.2.storage =
      [.decision "t" .abort, .done "t", .prepare "t" ["x"] .accept] ∧
    ¬InForm (Log.recordsOf "t" (held answered.2.storage)) ∧
    answered.2.memory.resolved.contains "t" ∧
    answered.2.memory.locks.owner? "x" = some "t" := by
  decide

end AtomicCommit.Participant
