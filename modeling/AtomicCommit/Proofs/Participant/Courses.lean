import AtomicCommit.Proofs.Participant.Repeats
import AtomicCommit.Proofs.Participant.Unfailing

/-! What becomes of one transaction at a participant where nothing fails, by itself: it takes the messages
of the transaction, the answers of the oracle, and which resources could be had at the beginning. -/

namespace AtomicCommit.Participant

def Reaction.replies (sender : String) : Reaction → List (String × Message)
  | .reply message => [(sender, message)]
  | _ => []

structure Turn where
  reaction : Reaction
  deeds : List (Deed Entry) := []
  pending : Option Pending
  resolved : Option (Option Vote)

/-- All that a transaction has done so far, and what is in memory of it. -/
structure Course where
  pending : Option Pending
  resolved : Option (Option Vote)
  asked : Option Question
  deeds : List (Deed Entry) := []
  replies : List (String × Message) := []

namespace Course

def recordedVote (course : Course) : Option Vote :=
  match course.pending with
  | some pending => some pending.vote
  | none => course.resolved.map fun vote => vote.getD .refuse

def idle (course : Course) (reaction : Reaction) : Turn :=
  { reaction, pending := course.pending, resolved := course.resolved }

def cast (course : Course) (request : VoteRequest) (vote : Vote) : Turn where
  reaction := .reply (.vote request.txn vote)
  deeds := [.appended (.prepare request.txn request.resources vote)]
  pending := some ⟨request.resources, vote, none⟩
  resolved := course.resolved

def consider (course : Course) (available : String → Bool) (request : VoteRequest) : Turn :=
  match course.recordedVote with
  | some vote => course.idle (.reply (.vote request.txn vote))
  | none =>
    if request.resources.all fun resource =>
        available resource && decide (.deleted resource ∉ course.deeds) then
      course.idle (.ask request)
    else course.cast request .refuse

def finish (txn : String) (pending : Pending) (deeds : List (Deed Entry)) : Turn where
  reaction := .reply (.ack txn)
  deeds := deeds ++ amends (txn, some pending)
  pending := none
  resolved := some (some pending.vote)

def hear (course : Course) (txn : String) (outcome : Outcome) : Turn :=
  match course.resolved, course.pending with
  | some _, _ => course.idle (.reply (.ack txn))
  | none, none =>
    { reaction := .reply (.ack txn)
      deeds := [.appended (.decision txn outcome), .appended (.done txn)]
      pending := none
      resolved := some none }
  | none, some pending =>
    if pending.decision.isSome then finish txn pending []
    else finish txn { pending with decision := some outcome } [.appended (.decision txn outcome)]

def respond (course : Course) (available : String → Bool) (message : Message) : Turn :=
  match message.phase with
  | .prepare => course.consider available (requestOf message)
  | .commit => course.hear message.txn .commit
  | .abort => course.hear message.txn .abort
  | _ => course.idle .silent

def after (course : Course) (sender : String) (turn : Turn) : Course where
  pending := turn.pending
  resolved := turn.resolved
  asked := match turn.reaction with
    | .ask request => some ⟨sender, request⟩
    | _ => none
  deeds := course.deeds ++ turn.deeds
  replies := course.replies ++ turn.reaction.replies sender

def settle (course : Course) (oracle : Bytes → List String → Bool) : Course :=
  match course.asked with
  | none => course
  | some ⟨sender, request⟩ => course.after sender
      (course.cast request (if oracle request.payload request.resources then .accept else .refuse))

def serve (oracle : Bytes → List String → Bool) (available : String → Bool) (course : Course)
    (envelope : Envelope) : Course :=
  (course.after envelope.sender (course.respond available envelope.message)).settle oracle

end Course

variable {τ : Type} [Journal τ Entry] [ResourceStore τ] {course : Course} {txn : String}
  {p : Participant (Recorded τ Entry)} {deletable : String → Prop} {fine : τ → Prop}

structure Course.Recalls (course : Course) (txn : String) (memory : Memory) : Prop where
  pending : memory.pending.get? txn = course.pending
  resolved : memory.resolved.get? txn = course.resolved

structure Turn.Taken (turn : Turn) (txn : String) (p : Participant (Recorded τ Entry))
    (result : Reaction × Participant (Recorded τ Entry)) : Prop where
  reaction : result.1 = turn.reaction
  storage : result.2.storage = perform turn.deeds p.storage
  pending : result.2.memory.pending.get? txn = turn.pending
  resolved : result.2.memory.resolved.get? txn = turn.resolved

def available (memory : Memory) (storage : τ) (txn resource : String) : Bool :=
  ResourceStore.holds resource storage && (memory.locks.owner? resource).all (· = txn)

namespace Course

theorem Recalls.idle (recalls : course.Recalls txn p.memory) (reaction : Reaction) :
    (course.idle reaction).Taken txn p (reaction, p) :=
  ⟨rfl, by simp [Course.idle, perform], recalls.pending, recalls.resolved⟩

theorem Recalls.recordedVote {memory : Memory} (recalls : course.Recalls txn memory) :
    memory.recordedVote txn = course.recordedVote := by
  cases pending : course.pending <;>
    simp [Memory.recordedVote, Course.recordedVote, recalls.pending, recalls.resolved, pending]

variable [LawfulJournal τ Entry]

theorem Recalls.cast (recalls : course.Recalls txn p.memory) (unfailing : Unfailing deletable fine)
    (start : fine p.storage.storage) {request : VoteRequest} (own : request.txn = txn)
    (wasGranted : Bool) (vote : Vote) : (course.cast request vote).Taken txn p
      (voteReply request.txn (p.castVote request wasGranted vote).1,
        (p.castVote request wasGranted vote).2) := by
  subst own
  have resolved := recalls.resolved
  by_cases release : wasGranted && !vote.isAccept
  · have appended := unfailing.appended (p := p.releaseLocks request.txn request.resources) start
      (.prepare request.txn request.resources vote)
    simp only [castVote, release, if_true, appended]
    exact ⟨rfl, rfl, by simp [setPending, Course.cast], resolved⟩
  · have appended := unfailing.appended start (.prepare request.txn request.resources vote)
    simp only [castVote, release, Bool.false_eq_true, if_false, appended]
    exact ⟨rfl, rfl, by simp [setPending, Course.cast], resolved⟩

def Deletes (course : Course) (resource : String) : Prop :=
  ∃ pending, course.pending = some pending ∧ resource ∈ pending.resources

theorem finish_taken (unfailing : Unfailing deletable fine) (p : Participant (Recorded τ Entry))
    (txn : String) (pending : Pending) (start : fine p.storage.storage) (decided : pending.decision ≠ none)
    (allowed : ∀ resource ∈ pending.resources, deletable resource) :
    ∃ after, p.finish txn pending = (.ok (), after) ∧
      (Course.finish txn pending []).Taken txn p (.reply (.ack txn), after) :=
  ⟨_, unfailing.finish start decided fun resource owed =>
    allowed resource (Pending.mem_resources_of_owed owed), rfl, rfl, by simp [Course.finish],
    by simp [Course.finish]⟩

theorem Recalls.hear (recalls : course.Recalls txn p.memory) (unfailing : Unfailing deletable fine)
    (start : fine p.storage.storage) (allowed : ∀ resource, course.Deletes resource → deletable resource)
    (outcome : Outcome) : ∃ after, p.handleDecision txn outcome = (.ok (), after) ∧
      (course.hear txn outcome).Taken txn p (.reply (.ack txn), after) := by
  have told := unfailing.appended start (.decision txn outcome)
  have startToo : fine (perform [.appended (.decision txn outcome)] p.storage).storage :=
    (unfailing.append _ start).2
  cases resolved : course.resolved with
  | some vote =>
    have known : p.memory.resolved.contains txn := by simp [Table.contains, recalls.resolved, resolved]
    refine ⟨p, by simp [handleDecision, known], ?_⟩
    simpa only [Course.hear, resolved] using recalls.idle (.reply (.ack txn))
  | none =>
    have unknown : p.memory.resolved.contains txn = false := by
      simp [Table.contains, recalls.resolved, resolved]
    cases waiting : course.pending with
    | none =>
      have absent := recalls.pending.trans waiting
      have ended := unfailing.appended (p := { p with storage := perform _ p.storage }) startToo (.done txn)
      simp only [handleDecision, unknown, Bool.false_eq_true, if_false, absent, resolveUnknown, told,
        ended, Course.hear, resolved, waiting]
      exact ⟨_, rfl, rfl, (perform_append _ _ _).symm, absent, by simp [setResolved]⟩
    | some pending =>
      have waits := recalls.pending.trans waiting
      have listed : ∀ resource ∈ pending.resources, deletable resource := fun resource member =>
        allowed resource ⟨pending, waiting, member⟩
      cases decision : pending.decision with
      | some former =>
        obtain ⟨after, finished, taken⟩ :=
          finish_taken unfailing p txn pending start (by simp [decision]) listed
        simp only [handleDecision, unknown, Bool.false_eq_true, if_false, waits, decision, finished,
          Course.hear, resolved, waiting, Option.isSome_some, if_true]
        exact ⟨after, rfl, taken⟩
      | none =>
        obtain ⟨after, finished, taken⟩ := finish_taken unfailing
          ({ p with storage := perform [.appended (.decision txn outcome)] p.storage }.setPending txn
            { pending with decision := some outcome })
          txn { pending with decision := some outcome } startToo (by simp) listed
        simp only [handleDecision, unknown, Bool.false_eq_true, if_false, waits, decision, told, finished,
          Course.hear, resolved, waiting, Option.isSome_none]
        refine ⟨after, rfl, rfl, taken.storage.trans ?_, taken.pending, taken.resolved⟩
        exact (perform_append _ _ _).symm

omit [Journal τ Entry] [LawfulJournal τ Entry] in
theorem all_available {memory : Memory} {storage : τ} {resources : List String} :
    resources.all (available memory storage txn) ↔
      (resources.all fun resource => ResourceStore.holds resource storage) ∧
        ∃ locks, memory.locks.lockAll txn resources = (.granted, locks) := by
  simp only [available, List.all_eq_true, Bool.and_eq_true, Option.all_eq_true, LockTable.granted_iff,
    exists_and_left, exists_eq, and_true, decide_eq_true_eq, forall_and]

theorem Recalls.consider (recalls : course.Recalls txn p.memory) (unfailing : Unfailing deletable fine)
    (start : fine p.storage.storage) {able : String → Bool} {m : Message} (own : m.txn = txn)
    (asks : m.phase = .prepare)
    (left : ∀ resource ∈ m.resources, available p.memory p.storage txn resource =
      (able resource && decide (.deleted resource ∉ course.deeds))) :
    (course.consider able (requestOf m)).Taken txn p (react m p) := by
  subst own
  have voted := recalls.recordedVote
  cases recorded : course.recordedVote with
  | some vote =>
    rw [react_recorded asks (voted.trans recorded)]
    simpa only [Course.consider, requestOf, recorded] using recalls.idle (.reply (.vote m.txn vote))
  | none =>
    rw [recorded] at voted
    have all : (m.resources.all fun resource =>
        able resource && decide (.deleted resource ∉ course.deeds)) =
        m.resources.all (available p.memory p.storage m.txn) := by
      rw [Bool.eq_iff_iff, List.all_eq_true, List.all_eq_true]
      exact forall₂_congr fun resource listed => by rw [left resource listed]
    simp only [Course.consider, recorded, requestOf, all]
    by_cases granted : m.resources.all (available p.memory p.storage m.txn)
    · obtain ⟨there, locks, attempt⟩ := all_available.mp granted
      simp only [react, asks, openVote, requestOf, voted, there, if_true, attempt, granted]
      exact ⟨rfl, by simp [setLocks, Course.idle, perform], recalls.pending, recalls.resolved⟩
    · have refused : openVote (requestOf m) p = (.refused, p) := by
        by_cases there : m.resources.all fun resource => ResourceStore.holds resource p.storage
        · rcases attempt : p.memory.locks.lockAll m.txn m.resources with ⟨_ | ⟨resource, holder⟩, locks⟩
          · exact absurd (all_available.mpr ⟨there, locks, attempt⟩) granted
          · simp only [openVote, requestOf, voted, there, if_true, attempt]
        · simp only [openVote, requestOf, voted, there, Bool.false_eq_true, if_false]
      simp only [react, asks, refused, granted, Bool.false_eq_true, if_false]
      exact recalls.cast unfailing start rfl false .refuse

theorem Recalls.respond (recalls : course.Recalls txn p.memory) (unfailing : Unfailing deletable fine)
    (start : fine p.storage.storage) (allowed : ∀ resource, course.Deletes resource → deletable resource)
    {able : String → Bool} {m : Message} (own : m.txn = txn)
    (left : m.phase = .prepare → ∀ resource ∈ m.resources, available p.memory p.storage txn resource =
      (able resource && decide (.deleted resource ∉ course.deeds))) :
    (course.respond able m).Taken txn p (react m p) := by
  have decided : ∀ outcome, (course.hear m.txn outcome).Taken txn p (react.decide m p outcome) := by
    subst own
    intro outcome
    obtain ⟨after, succeeded, taken⟩ := recalls.hear unfailing start allowed outcome
    simpa only [react.decide, succeeded] using taken
  cases phase : m.phase with
  | prepare =>
    simp only [Course.respond, phase]
    exact recalls.consider unfailing start own phase (left phase)
  | commit => simpa only [Course.respond, react, phase] using decided .commit
  | abort => simpa only [Course.respond, react, phase] using decided .abort
  | _ => simpa only [Course.respond, react, phase] using recalls.idle .silent

structure Within (course : Course) (txn : String) (named : String → Prop) : Prop where
  pending : ∀ resource, course.Deletes resource → named resource
  asked : ∀ question, course.asked = some question →
    question.request.txn = txn ∧ ∀ resource ∈ question.request.resources, named resource

end Course

structure Turn.Within (turn : Turn) (txn : String) (named : String → Prop) : Prop where
  replies : ∀ message, turn.reaction = .reply message → message.txn = txn
  asks : ∀ request, turn.reaction = .ask request →
    request.txn = txn ∧ ∀ resource ∈ request.resources, named resource
  records : ∀ entry ∈ Deed.records turn.deeds, entry.txn = txn
  deletes : ∀ resource, .deleted resource ∈ turn.deeds → named resource
  pending : ∀ pending, turn.pending = some pending → ∀ resource ∈ pending.resources, named resource

namespace Course

variable {named : String → Prop}

theorem Within.cast (course : Course) {request : VoteRequest} (own : request.txn = txn)
    (listed : ∀ resource ∈ request.resources, named resource) (vote : Vote) :
    (course.cast request vote).Within txn named := by
  subst own
  exact ⟨by simp [Course.cast, Message.vote, Message.bare], by simp [Course.cast],
    by simp [Course.cast, Entry.txn], by simp [Course.cast], by simpa [Course.cast] using listed⟩

theorem Within.idle (within : course.Within txn named) {reaction : Reaction}
    (replies : ∀ message, reaction = .reply message → message.txn = txn)
    (asks : ∀ request, reaction = .ask request →
      request.txn = txn ∧ ∀ resource ∈ request.resources, named resource) :
    (course.idle reaction).Within txn named :=
  ⟨replies, asks, by simp [Course.idle], by simp [Course.idle], fun pending waits resource listed =>
    within.pending resource ⟨pending, waits, listed⟩⟩

theorem Within.finish {pending : Pending} (listed : ∀ resource ∈ pending.resources, named resource)
    {deeds : List (Deed Entry)} (own : ∀ entry ∈ Deed.records deeds, entry.txn = txn)
    (keeps : ∀ resource, .deleted resource ∉ deeds) :
    (Course.finish txn pending deeds).Within txn named := by
  refine ⟨by simp [Course.finish, Message.ack, Message.bare], by simp [Course.finish], ?_, ?_,
    by simp [Course.finish]⟩
  · simpa [Course.finish, amends, or_imp, forall_and, Entry.txn] using own
  · intro resource gone
    have owed : resource ∈ pending.owed := by simpa [Course.finish, amends, keeps] using gone
    exact listed resource (Pending.mem_resources_of_owed owed)

theorem Within.hear (within : course.Within txn named) (outcome : Outcome) :
    (course.hear txn outcome).Within txn named := by
  cases resolved : course.resolved with
  | some vote =>
    simp only [Course.hear, resolved]
    exact within.idle (by simp [Message.ack, Message.bare]) (by simp)
  | none =>
    cases waiting : course.pending with
    | none =>
      simp only [Course.hear, resolved, waiting]
      exact ⟨by simp [Message.ack, Message.bare], by simp, by simp [Entry.txn], by simp, by simp⟩
    | some pending =>
      have listed : ∀ resource ∈ pending.resources, named resource := fun resource member =>
        within.pending resource ⟨pending, waiting, member⟩
      simp only [Course.hear, resolved, waiting]
      split
      · apply Within.finish
        exacts [listed, by simp, by simp]
      · apply Within.finish
        exacts [listed, by simp [Entry.txn], by simp]

theorem Within.consider (within : course.Within txn named) (able : String → Bool) {request : VoteRequest}
    (own : request.txn = txn) (listed : ∀ resource ∈ request.resources, named resource) :
    (course.consider able request).Within txn named := by
  rw [Course.consider]
  split
  · exact within.idle (by simp [Message.vote, Message.bare, own]) (by simp)
  · split
    · exact within.idle (by simp) (by simpa [own] using listed)
    · exact Within.cast course own listed .refuse

theorem Within.respond (within : course.Within txn named) (able : String → Bool) {m : Message}
    (own : m.txn = txn) (listed : m.phase = .prepare → ∀ resource ∈ m.resources, named resource) :
    (course.respond able m).Within txn named := by
  cases phase : m.phase with
  | prepare =>
    simp only [Course.respond, phase]
    exact within.consider able own (listed phase)
  | commit | abort =>
    simp only [Course.respond, phase]
    exact own ▸ within.hear _
  | _ =>
    simp only [Course.respond, phase]
    exact within.idle (by simp) (by simp)

theorem Within.after (course : Course) {turn : Turn} (within : turn.Within txn named) (sender : String) :
    (course.after sender turn).Within txn named := by
  refine ⟨fun resource ⟨pending, waits, listed⟩ => within.pending pending waits resource listed, ?_⟩
  intro question asked
  rcases reaction : turn.reaction with _ | message | request
  · simp [Course.after, reaction] at asked
  · simp [Course.after, reaction] at asked
  · obtain rfl : ⟨sender, request⟩ = question := by simpa [Course.after, reaction] using asked
    exact within.asks request reaction

end Course

end AtomicCommit.Participant
