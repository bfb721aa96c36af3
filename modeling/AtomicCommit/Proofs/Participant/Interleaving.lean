import AtomicCommit.Proofs.Participant.Courses
import AtomicCommit.Proofs.Participant.Interrupted

/-! Transactions with nothing in common do not notice each other. However the handling of their messages is
interleaved, and however long the oracle takes, each gets the replies, the votes and the locks that it
gets by itself. -/

namespace AtomicCommit.Participant

def Event.reply? : Event → Option (String × Message)
  | .sent recipient message => some (recipient, message)
  | _ => none

def Event.received? : Event → Option Envelope
  | .received envelope => some envelope
  | _ => none

def repliesOf (txn : String) (events : List Event) : List (String × Message) :=
  (events.filterMap Event.reply?).filter fun reply => reply.2.txn = txn

def receivedOf (txn : String) (events : List Event) : List Envelope :=
  (events.filterMap Event.received?).filter fun envelope => envelope.message.txn = txn

section Events

variable {txn : String} {events more : List Event}

@[simp] theorem repliesOf_append :
    repliesOf txn (events ++ more) = repliesOf txn events ++ repliesOf txn more := by
  simp [repliesOf]

@[simp] theorem receivedOf_append :
    receivedOf txn (events ++ more) = receivedOf txn events ++ receivedOf txn more := by
  simp [receivedOf]

theorem mem_receivedOf {envelope : Envelope} : envelope ∈ receivedOf txn events ↔
    .received envelope ∈ events ∧ envelope.message.txn = txn := by
  rw [receivedOf, List.mem_filter, decide_eq_true_eq, List.mem_filterMap]
  refine and_congr_left fun _ => ⟨?_, fun received => ⟨_, received, rfl⟩⟩
  rintro ⟨event, happened, read⟩
  cases event <;> cases read
  exact happened

variable {τ : Type} (sender : String) (result : Reaction × Participant (Recorded τ Entry))

theorem replies_did (deeds : List (Deed Entry)) : (deeds.map Event.did).filterMap Event.reply? = [] := by
  simp [Event.reply?]

@[simp] theorem repliesOf_reactionEvents : repliesOf txn (Station.reactionEvents sender result) =
    (result.1.replies sender).filter fun reply => reply.2.txn = txn := by
  rw [repliesOf, Station.reactionEvents, List.filterMap_append, replies_did]
  rcases result.1 <;> rfl

@[simp] theorem receivedOf_reactionEvents : receivedOf txn (Station.reactionEvents sender result) = [] := by
  refine List.eq_nil_iff_forall_not_mem.mpr fun envelope member => ?_
  exact received_reactionEvents envelope sender result (mem_receivedOf.mp member).1

end Events

section Others

variable {memory after : Memory} {deeds : List (Deed Entry)} {reaction : Reaction} {cause : Cause}

def Cause.txn : Cause → String
  | .message m => m.txn
  | .answer request _ => request.txn

theorem Handled.others (handled : Handled cause memory deeds reaction after) {other : String}
    (distinct : other ≠ cause.txn) : after.pending.get? other = memory.pending.get? other ∧
      after.resolved.get? other = memory.resolved.get? other := by
  cases handled with
  | again _ _ _ _ _ _ _ _ _ _ _ _ finished => cases finished <;> simp_all [Cause.txn]
  | decided _ _ _ _ _ _ _ _ _ _ _ finished => cases finished <;> simp_all [Cause.txn]
  | _ => simp_all [Cause.txn]

end Others

variable {τ : Type} [Journal τ Entry] [LawfulJournal τ Entry] [ResourceStore τ]

/-- The resources that a transaction has to do with: those of its pending vote, those that the oracle is
being asked about, and those that its messages ask for. -/
def Concerns (now : Incarnation) (txn : String) (inbox : List Envelope) (resource : String) : Prop :=
  (∃ pending, now.memory.pending.get? txn = some pending ∧ resource ∈ pending.resources) ∨
  (∃ question, now.asking.get? txn = some question ∧ resource ∈ question.request.resources) ∨
  ∃ envelope ∈ inbox, envelope.message.phase = .prepare ∧ resource ∈ envelope.message.resources

/-- From one state to another by an interleaving of the handling of messages, those of each transaction in
the order of its inbox. In the end no question is open. -/
structure Station.Interleaves (s : Station τ) (oracle : Bytes → List String → Bool)
    (txns : List String) (inbox : String → List Envelope) (events : List Event) (s' : Station τ) :
    Prop where
  steps : s.Steps events s'
  received : ∀ txn ∈ txns, receivedOf txn events = inbox txn
  own : ∀ envelope, .received envelope ∈ events → envelope.message.txn ∈ txns
  answered : ∀ request approved, .answered request approved ∈ events →
    request.txn ∈ txns ∧ approved = oracle request.payload request.resources
  up : .stopped ∉ events
  alone : .disturbed ∉ events
  closed : ∀ now, s'.running = some now → ∀ txn ∈ txns, now.isFree txn

def Course.begin (now : Incarnation) (txn : String) : Course :=
  { pending := now.memory.pending.get? txn
    resolved := now.memory.resolved.get? txn
    asked := now.asking.get? txn }

section Together

variable {oracle : Bytes → List String → Bool} {s s' : Station τ} {now later : Incarnation}
  {txns : List String} {named : String → String → Prop} {fine : τ → Prop} {deletable : String → Prop}
  {events : List Event} {txn : String} {course : Course}

structure Course.Follows (course : Course) (oracle : Bytes → List String → Bool) (s : Station τ)
    (now : Incarnation) (named : String → Prop) (events : List Event) (later : Incarnation)
    (storage : τ) (txn : String) : Prop where
  recalls : course.Recalls txn later.memory
  asked : later.asking.get? txn = course.asked
  within : course.Within txn named
  holds : ∀ resource, named resource → (ResourceStore.holds resource storage ↔
    ResourceStore.holds resource s.storage ∧ .deleted resource ∉ course.deeds)
  records : Log.recordsOf txn (logged events) = Deed.records course.deeds
  replies : repliesOf txn events = course.replies
  settles : course.settle oracle = (receivedOf txn events).foldl
    (Course.serve oracle (available now.memory s.storage txn)) ((Course.begin now txn).settle oracle)

def Apart (txns : List String) (named : String → String → Prop) : Prop :=
  ∀ one ∈ txns, ∀ other ∈ txns, one ≠ other → ∀ resource, named one resource → ¬named other resource

structure Together (oracle : Bytes → List String → Bool) (s : Station τ) (now : Incarnation)
    (txns : List String) (named : String → String → Prop) (fine : τ → Prop) (events : List Event)
    (s' : Station τ) (later : Incarnation) : Prop where
  running : s'.running = some later
  fine : fine s'.storage
  log : held s'.storage = held s.storage ++ logged events
  own : ∀ entry ∈ logged events, entry.txn ∈ txns
  others : ∀ other, other ∉ txns →
    later.memory.pending.get? other = now.memory.pending.get? other ∧
      later.memory.resolved.get? other = now.memory.resolved.get? other ∧
      later.asking.get? other = now.asking.get? other
  stays : ∀ resource, (∀ txn ∈ txns, ¬named txn resource) →
    ResourceStore.holds resource s'.storage = ResourceStore.holds resource s.storage
  follows : ∀ txn ∈ txns, ∃ course : Course,
    course.Follows oracle s now (named txn) events later s'.storage txn

section Done

variable {turn : Turn} {base : Incarnation} {first : Event} {sender other : String} {storage : τ}
  {result : Reaction × Participant (Recorded τ Entry)} {mine : String → Prop}

structure Turn.Done (turn : Turn) (txn : String) (mine : String → Prop) (later base : Incarnation)
    (storage : τ) (first : Event) (sender : String)
    (result : Reaction × Participant (Recorded τ Entry)) : Prop where
  taken : turn.Taken txn (later.participant storage) result
  within : turn.Within txn mine
  does : Recorded.Does ⟨storage, []⟩ result.2.storage turn.deeds
  others : ∀ other, other ≠ txn →
    result.2.memory.pending.get? other = later.memory.pending.get? other ∧
      result.2.memory.resolved.get? other = later.memory.resolved.get? other ∧
      base.asking.get? other = later.asking.get? other
  idle : base.asking.get? txn = none
  quiet : Eventful.deed? first = none
  mute : first.reply? = none
  heard : ∀ other, other ≠ txn → receivedOf other [first] = []

namespace Turn.Done

theorem deeds (done : turn.Done txn mine later base storage first sender result) :
    result.2.storage.deeds = turn.deeds := done.does.noted

theorem logs (done : turn.Done txn mine later base storage first sender result) :
    logged ([first] ++ Station.reactionEvents sender result) = Deed.records turn.deeds := by
  rw [logged_reaction done.quiet, done.deeds]

theorem replies (done : turn.Done txn mine later base storage first sender result) (name : String) :
    repliesOf name ([first] ++ Station.reactionEvents sender result) =
      (turn.reaction.replies sender).filter fun reply => reply.2.txn = name := by
  have none : repliesOf name [first] = [] := by simp [repliesOf, done.mute]
  rw [repliesOf_append, none, List.nil_append, repliesOf_reactionEvents, done.taken.reaction]

theorem own (done : turn.Done txn mine later base storage first sender result)
    {reply : String × Message} (member : reply ∈ turn.reaction.replies sender) : reply.2.txn = txn := by
  rcases reaction : turn.reaction with _ | message | request
  · simp [Reaction.replies, reaction] at member
  · obtain rfl : reply = (sender, message) := by simpa [Reaction.replies, reaction] using member
    exact done.within.replies message reaction
  · simp [Reaction.replies, reaction] at member

theorem asking (done : turn.Done txn mine later base storage first sender result) (course : Course) :
    (base.conclude sender result.2.memory result.1).asking.get? txn =
      (course.after sender turn).asked := by
  rw [done.taken.reaction]
  rcases reaction : turn.reaction with _ | message | request
  · simpa [Incarnation.conclude, Course.after, reaction] using done.idle
  · simpa [Incarnation.conclude, Course.after, reaction] using done.idle
  · obtain ⟨rfl, _⟩ := done.within.asks request reaction
    simp [Incarnation.conclude, Course.after, reaction]

theorem asking_other (done : turn.Done txn mine later base storage first sender result)
    (distinct : other ≠ txn) :
    (base.conclude sender result.2.memory result.1).asking.get? other = later.asking.get? other := by
  obtain ⟨_, _, same⟩ := done.others other distinct
  rw [done.taken.reaction]
  rcases reaction : turn.reaction with _ | message | request
  · simpa [Incarnation.conclude] using same
  · simpa [Incarnation.conclude] using same
  · obtain ⟨rfl, _⟩ := done.within.asks request reaction
    simpa [Incarnation.conclude, distinct] using same

end Turn.Done

theorem Turn.Taken.done {cause : Cause} (taken : turn.Taken txn (later.participant storage) result)
    (within : turn.Within txn mine) (handles : Handles cause (later.participant storage) result)
    (own : cause.txn = txn)
    (asking : ∀ other, other ≠ txn → base.asking.get? other = later.asking.get? other)
    (idle : base.asking.get? txn = none) (quiet : Eventful.deed? first = none)
    (mute : first.reply? = none) (heard : ∀ other, other ≠ txn → receivedOf other [first] = []) :
    turn.Done txn mine later base storage first sender result := by
  obtain ⟨deeds, handled, does⟩ := handles
  have noted : deeds = turn.deeds := does.noted.symm.trans (congrArg Recorded.deeds taken.storage)
  refine ⟨taken, within, noted ▸ does, fun other distinct => ?_, idle, quiet, mute, heard⟩
  obtain ⟨pending, resolved⟩ := handled.others (own ▸ distinct)
  exact ⟨pending, resolved, asking other distinct⟩

theorem Turn.Done.emptied (done : turn.Done txn mine later base storage first sender result)
    (emptied : Emptied ⟨storage, []⟩ result.2.storage) (resource : String) :
    ResourceStore.holds resource (Station.afterReaction base sender result).storage ↔
      ResourceStore.holds resource storage ∧ .deleted resource ∉ turn.deeds := by
  rw [← done.deeds]
  exact emptied.of_nothing resource

namespace Course.Follows

theorem goesOn (follows : course.Follows oracle s now mine events later storage txn)
    (done : turn.Done txn mine later base storage first sender result)
    (emptied : Emptied ⟨storage, []⟩ result.2.storage)
    (settles : (course.after sender turn).settle oracle = (receivedOf txn (events ++ [first])).foldl
      (Course.serve oracle (available now.memory s.storage txn)) ((Course.begin now txn).settle oracle)) :
    (course.after sender turn).Follows oracle s now mine
      (events ++ ([first] ++ Station.reactionEvents sender result))
      (base.conclude sender result.2.memory result.1)
      (Station.afterReaction base sender result).storage txn where
  recalls := by
    rw [Incarnation.memory_conclude]
    exact ⟨done.taken.pending, done.taken.resolved⟩
  asked := done.asking course
  within := Course.Within.after course done.within sender
  holds resource named := by
    rw [done.emptied emptied, follows.holds resource named, Course.after, List.mem_append, not_or,
      and_assoc]
  records := by
    rw [logged_append, Log.recordsOf_append, follows.records, done.logs,
      Log.recordsOf_own done.within.records]
    simp [Course.after]
  replies := by
    rw [repliesOf_append, follows.replies, done.replies, Course.after,
      List.filter_eq_self.mpr fun reply member => decide_eq_true (done.own member)]
  settles := by
    have same : receivedOf txn (events ++ ([first] ++ Station.reactionEvents sender result)) =
        receivedOf txn (events ++ [first]) := by
      simp only [receivedOf_append, receivedOf_reactionEvents, List.append_nil]
    rw [settles, same]

theorem beside (follows : course.Follows oracle s now mine events later storage other)
    {theirs : String → Prop} (done : turn.Done txn theirs later base storage first sender result)
    (emptied : Emptied ⟨storage, []⟩ result.2.storage) (distinct : other ≠ txn)
    (apart : ∀ resource, theirs resource → ¬mine resource) :
    course.Follows oracle s now mine (events ++ ([first] ++ Station.reactionEvents sender result))
      (base.conclude sender result.2.memory result.1)
      (Station.afterReaction base sender result).storage other where
  recalls := by
    obtain ⟨pending, resolved, _⟩ := done.others other distinct
    rw [Incarnation.memory_conclude]
    exact ⟨pending.trans follows.recalls.pending, resolved.trans follows.recalls.resolved⟩
  asked := (done.asking_other distinct).trans follows.asked
  within := follows.within
  holds resource named := by
    have kept : .deleted resource ∉ turn.deeds := fun deleted =>
      apart resource (done.within.deletes resource deleted) named
    rw [done.emptied emptied, and_iff_left kept]
    exact follows.holds resource named
  records := by
    rw [logged_append, Log.recordsOf_append, follows.records, done.logs,
      Log.recordsOf_other done.within.records distinct, List.append_nil]
  replies := by
    have none : ((turn.reaction.replies sender).filter fun reply => reply.2.txn = other) = [] :=
      List.filter_eq_nil_iff.mpr fun reply member => by simp [done.own member, distinct.symm]
    rw [repliesOf_append, follows.replies, done.replies, none, List.append_nil]
  settles := by
    rw [receivedOf_append, receivedOf_append, done.heard other distinct, receivedOf_reactionEvents,
      List.append_nil, List.append_nil]
    exact follows.settles

end Course.Follows

end Done

namespace Together

theorem begin (running : s.running = some now) (start : fine s.storage)
    (pending : ∀ txn ∈ txns, ∀ waits, now.memory.pending.get? txn = some waits →
      ∀ resource ∈ waits.resources, named txn resource)
    (asked : ∀ txn ∈ txns, ∀ question, now.asking.get? txn = some question →
      question.request.txn = txn ∧ ∀ resource ∈ question.request.resources, named txn resource) :
    Together oracle s now txns named fine [] s now where
  running := running
  fine := start
  log := by simp
  own := by simp
  others _ _ := ⟨rfl, rfl, rfl⟩
  stays _ _ := rfl
  follows txn member := ⟨Course.begin now txn, ⟨rfl, rfl⟩, rfl,
    ⟨fun resource ⟨waits, waiting, listed⟩ => pending txn member waits waiting resource listed,
      asked txn member⟩, by simp [Course.begin], rfl, rfl, rfl⟩

variable {turn : Turn} {base : Incarnation} {first : Event} {sender : String}
  {result : Reaction × Participant (Recorded τ Entry)}

theorem goesOn (together : Together oracle s now txns named fine events s' later)
    (apart : Apart txns named) (unfailing : Unfailing deletable fine)
    (allowed : ∀ txn ∈ txns, ∀ resource, named txn resource → deletable resource)
    (member : txn ∈ txns) (follows : course.Follows oracle s now (named txn) events later s'.storage txn)
    (done : turn.Done txn (named txn) later base s'.storage first sender result)
    (emptied : Emptied ⟨s'.storage, []⟩ result.2.storage)
    (settles : (course.after sender turn).settle oracle = (receivedOf txn (events ++ [first])).foldl
      (Course.serve oracle (available now.memory s.storage txn)) ((Course.begin now txn).settle oracle)) :
    Together oracle s now txns named fine
      (events ++ ([first] ++ Station.reactionEvents sender result))
      (Station.afterReaction base sender result) (base.conclude sender result.2.memory result.1) where
  running := rfl
  fine := by
    have left := unfailing.acts (fun resource deleted => allowed txn member resource
      (done.within.deletes resource deleted)) together.fine
    rw [Station.afterReaction, done.taken.storage]
    exact left
  log := by
    rw [logged_append, done.logs, ← List.append_assoc, ← together.log]
    exact done.does.log
  own := by
    rw [logged_append, done.logs]
    intro entry logged
    rcases List.mem_append.mp logged with early | late
    · exact together.own entry early
    · exact done.within.records entry late ▸ member
  others other absent := by
    have distinct : other ≠ txn := fun same => absent (same ▸ member)
    obtain ⟨pending, resolved, _⟩ := done.others other distinct
    obtain ⟨pendingToo, resolvedToo, asked⟩ := together.others other absent
    rw [Incarnation.memory_conclude, done.asking_other distinct]
    exact ⟨pending.trans pendingToo, resolved.trans resolvedToo, asked⟩
  stays resource foreign := by
    have kept : .deleted resource ∉ turn.deeds := fun deleted =>
      foreign txn member (done.within.deletes resource deleted)
    rw [Bool.eq_iff_iff, done.emptied emptied, and_iff_left kept, together.stays resource foreign]
  follows other memberToo := by
    by_cases same : other = txn
    · subst same
      exact ⟨course.after sender turn, follows.goesOn done emptied settles⟩
    · obtain ⟨theirs, followsToo⟩ := together.follows other memberToo
      exact ⟨theirs, followsToo.beside done emptied same (apart txn member other memberToo (Ne.symm same))⟩

theorem available_iff (together : Together oracle s now txns named fine events s' later)
    (apart : Apart txns named) {entries entriesLater : List Entry}
    (informed : Informed entries now.memory now.asking)
    (informedLater : Informed entriesLater later.memory later.asking)
    (claims : ∀ txn ∈ txns, ∀ resource, Claims now.memory now.asking txn resource → named txn resource)
    (member : txn ∈ txns) (follows : course.Follows oracle s now (named txn) events later s'.storage txn)
    {resource : String} (mine : named txn resource) :
    available later.memory s'.storage txn resource =
      (available now.memory s.storage txn resource && decide (.deleted resource ∉ course.deeds)) := by
  have claimsLater : ∀ other ∈ txns, Claims later.memory later.asking other resource →
      named other resource := by
    intro other memberToo claimed
    obtain ⟨theirs, followsToo⟩ := together.follows other memberToo
    rcases claimed with ⟨pending, waits, _, listed⟩ | ⟨question, asked, listed⟩
    · exact followsToo.within.pending resource
        ⟨pending, followsToo.recalls.pending.symm.trans waits, listed⟩
    · exact (followsToo.within.asked question (followsToo.asked.symm.trans asked)).2 resource listed
  have foreign : ∀ holder, holder ≠ txn → (later.memory.locks.owner? resource = some holder ↔
      now.memory.locks.owner? resource = some holder) := by
    intro holder distinct
    rw [informed.locks, informedLater.locks]
    by_cases among : holder ∈ txns
    · have none := apart txn member holder among (Ne.symm distinct) resource mine
      exact iff_of_false (fun claimed => none (claimsLater holder among claimed))
        fun claimed => none (claims holder among resource claimed)
    · obtain ⟨pending, _, asked⟩ := together.others holder among
      rw [Claims, Claims, pending, asked]
  have owners : (later.memory.locks.owner? resource).all (· = txn) =
      (now.memory.locks.owner? resource).all (· = txn) := by
    rw [Bool.eq_iff_iff, Option.all_eq_true, Option.all_eq_true]
    refine forall_congr' fun holder => ?_
    by_cases own : holder = txn
    · simp [own]
    · rw [foreign holder own]
  have left := follows.holds resource mine
  rw [Bool.eq_iff_iff, available, available, owners]
  simp only [Bool.and_eq_true, decide_eq_true_eq, left]
  exact and_right_comm

end Together

theorem Course.settle_of_free (free : course.asked = none) : course.settle oracle = course := by
  rw [Course.settle, free]

theorem Course.settle_of_asked {question : Question} (asked : course.asked = some question) :
    course.settle oracle = course.after question.sender (course.cast question.request
      (if oracle question.request.payload question.request.resources then .accept else .refuse)) := by
  rw [Course.settle, asked]

omit [Journal τ Entry] [LawfulJournal τ Entry] in
theorem Course.Follows.over (follows : course.Follows oracle s now (named txn) events later s'.storage txn)
    (free : later.isFree txn) : course = (receivedOf txn events).foldl
      (Course.serve oracle (available now.memory s.storage txn)) ((Course.begin now txn).settle oracle) := by
  rw [← follows.settles, Course.settle_of_free]
  exact follows.asked.symm.trans (Incarnation.isFree_iff.mp free)

section Turns

variable [LawfulStore τ Entry]

theorem receive_done (together : Together oracle s now txns named fine events s' later)
    (unfailing : Unfailing deletable fine)
    (allowed : ∀ txn ∈ txns, ∀ resource, named txn resource → deletable resource)
    {envelope : Envelope} (member : envelope.message.txn ∈ txns)
    (follows : course.Follows oracle s now (named envelope.message.txn) events later s'.storage
      envelope.message.txn)
    (free : later.isFree envelope.message.txn) {able : String → Bool}
    (listed : envelope.message.phase = .prepare → ∀ resource ∈ envelope.message.resources,
      named envelope.message.txn resource)
    (left : ∀ resource, named envelope.message.txn resource →
      available later.memory s'.storage envelope.message.txn resource =
        (able resource && decide (.deleted resource ∉ course.deeds))) :
    (course.respond able envelope.message).Done envelope.message.txn (named envelope.message.txn)
      later later s'.storage (.received envelope) envelope.sender
      (react envelope.message (later.participant s'.storage)) := by
  have taken : (course.respond able envelope.message).Taken envelope.message.txn
      (later.participant s'.storage) (react envelope.message (later.participant s'.storage)) := by
    refine Course.Recalls.respond follows.recalls unfailing together.fine ?_ rfl ?_
    · exact fun resource deletes => allowed _ member resource (follows.within.pending resource deletes)
    · exact fun phase resource asked => left resource (listed phase resource asked)
  refine taken.done (follows.within.respond able rfl listed) (react_handles _ _) rfl (fun _ _ => rfl)
    (Incarnation.isFree_iff.mp free) rfl rfl fun other distinct => ?_
  simp [receivedOf, Event.received?, Ne.symm distinct]

omit [LawfulStore τ Entry] in
theorem answer_done (together : Together oracle s now txns named fine events s' later)
    (unfailing : Unfailing deletable fine)
    (follows : course.Follows oracle s now (named txn) events later s'.storage txn)
    {question : Question} (asked : later.asking.get? txn = some question) :
    (course.cast question.request (if oracle question.request.payload question.request.resources then
        .accept else .refuse)).Done txn (named txn) later
      { later with asking := later.asking.erase txn } s'.storage
      (.answered question.request (oracle question.request.payload question.request.resources))
      question.sender (Station.answerReaction question.request
        (oracle question.request.payload question.request.resources) (later.participant s'.storage)) := by
  obtain ⟨own, listed⟩ := follows.within.asked question (follows.asked.symm.trans asked)
  generalize oracle question.request.payload question.request.resources = approved
  have taken : (course.cast question.request (if approved then .accept else .refuse)).Taken txn
      (later.participant s'.storage) (Station.answerReaction question.request approved
        (later.participant s'.storage)) :=
    Course.Recalls.cast follows.recalls unfailing together.fine own true _
  exact taken.done (Course.Within.cast course own listed _) (answer_handles _ approved _) own
    (fun other distinct => by simp [distinct]) (by simp) rfl rfl fun _ _ => rfl

end Turns

section Runs

variable [LawfulHoldings τ Entry] [LawfulStore τ Entry] {history : List Event}

namespace Together

variable {entries entriesLater : List Entry}

theorem receive (together : Together oracle s now txns named fine events s' later)
    (apart : Apart txns named) (unfailing : Unfailing deletable fine)
    (allowed : ∀ txn ∈ txns, ∀ resource, named txn resource → deletable resource)
    (informed : Informed entries now.memory now.asking)
    (informedLater : Informed entriesLater later.memory later.asking)
    (claims : ∀ txn ∈ txns, ∀ resource, Claims now.memory now.asking txn resource → named txn resource)
    {envelope : Envelope} (free : later.isFree envelope.message.txn)
    (member : envelope.message.txn ∈ txns)
    (listed : envelope.message.phase = .prepare → ∀ resource ∈ envelope.message.resources,
      named envelope.message.txn resource) :
    ∃ latest, Together oracle s now txns named fine
      (events ++ ([.received envelope] ++ Station.reactionEvents envelope.sender
        (react envelope.message (later.participant s'.storage))))
      (Station.afterReaction later envelope.sender
        (react envelope.message (later.participant s'.storage))) latest := by
  obtain ⟨course, follows⟩ := together.follows _ member
  have done := receive_done together unfailing allowed member follows free listed fun resource mine =>
    together.available_iff apart informed informedLater claims member follows mine
  refine ⟨_, together.goesOn apart unfailing allowed member follows done (emptied_pervasive.react _ _) ?_⟩
  have idle : course.asked = none := follows.asked.symm.trans (Incarnation.isFree_iff.mp free)
  have one : receivedOf envelope.message.txn [.received envelope] = [envelope] := by
    simp [receivedOf, Event.received?]
  rw [receivedOf_append, one, List.foldl_append, ← follows.settles, Course.settle_of_free idle]
  rfl

omit [LawfulStore τ Entry] in
theorem answer (together : Together oracle s now txns named fine events s' later)
    (apart : Apart txns named) (unfailing : Unfailing deletable fine)
    (allowed : ∀ txn ∈ txns, ∀ resource, named txn resource → deletable resource)
    {question : Question} (asked : later.asking.get? question.request.txn = some question)
    (member : question.request.txn ∈ txns) {approved : Bool}
    (answered : approved = oracle question.request.payload question.request.resources) :
    ∃ latest, Together oracle s now txns named fine
      (events ++ ([.answered question.request approved] ++ Station.reactionEvents question.sender
        (Station.answerReaction question.request approved (later.participant s'.storage))))
      (Station.afterReaction { later with asking := later.asking.erase question.request.txn }
        question.sender (Station.answerReaction question.request approved
          (later.participant s'.storage))) latest := by
  subst answered
  obtain ⟨course, follows⟩ := together.follows _ member
  refine ⟨_, together.goesOn apart unfailing allowed member follows
    (answer_done together unfailing follows asked) (emptied_pervasive.castVote _ _ _ _) ?_⟩
  have none : ∀ approved, receivedOf question.request.txn [.answered question.request approved] = [] :=
    fun _ => rfl
  rw [receivedOf_append, none, List.append_nil, ← follows.settles,
    Course.settle_of_asked (follows.asked.symm.trans asked)]
  exact Course.settle_of_free rfl

end Together

theorem together_run (run : Station.Run history s) (running : s.running = some now)
    (apart : Apart txns named)
    (claims : ∀ txn ∈ txns, ∀ resource, Concerns now txn [] resource → named txn resource)
    (unfailing : Unfailing deletable fine) (start : fine s.storage)
    (allowed : ∀ txn ∈ txns, ∀ resource, named txn resource → deletable resource)
    (steps : s.Steps events s')
    (received : ∀ envelope, .received envelope ∈ events → envelope.message.txn ∈ txns ∧
      (envelope.message.phase = .prepare → ∀ resource ∈ envelope.message.resources,
        named envelope.message.txn resource))
    (answered : ∀ request approved, .answered request approved ∈ events →
      request.txn ∈ txns ∧ approved = oracle request.payload request.resources)
    (up : .stopped ∉ events) (alone : .disturbed ∉ events) :
    ∃ later, Together oracle s now txns named fine events s' later := by
  have informed := (consistent_run run).informed now running
  have claimed : ∀ txn ∈ txns, ∀ resource, Claims now.memory now.asking txn resource →
      named txn resource := by
    rintro txn member resource (⟨pending, waits, _, listed⟩ | asked)
    · exact claims txn member resource (.inl ⟨pending, waits, listed⟩)
    · exact claims txn member resource (.inr (.inl asked))
  induction steps with
  | nothing =>
    refine ⟨now, .begin running start ?_ ?_⟩
    · exact fun txn member pending waits resource listed =>
        claims txn member resource (.inl ⟨pending, waits, listed⟩)
    · exact fun txn member question asked => ⟨(informed.asking txn question asked).1,
        fun resource listed => claims txn member resource (.inr (.inl ⟨question, asked, listed⟩))⟩
  | @step events more between s' steps stepped ih =>
    obtain ⟨later, together⟩ := ih
      (fun envelope member => received envelope (List.mem_append_left _ member))
      (fun request approved member => answered request approved (List.mem_append_left _ member))
      (fun member => up (List.mem_append_left _ member))
      (fun member => alone (List.mem_append_left _ member))
    have informedLater := (consistent_run (run.steps steps)).informed later together.running
    cases stepped with
    | disturb => exact absurd (by simp) alone
    | start config down => cases together.running.symm.trans down
    | stop => exact absurd (by simp) up
    | receive latest envelope runs free =>
      obtain rfl := Option.some.inj (together.running.symm.trans runs)
      obtain ⟨member, listed⟩ := received envelope (by simp)
      exact together.receive apart unfailing allowed informed informedLater claimed free member listed
    | answer latest name question approved runs asked =>
      obtain rfl := Option.some.inj (together.running.symm.trans runs)
      obtain ⟨member, foreseen⟩ := answered question.request approved (by simp)
      obtain ⟨rfl, _⟩ := informedLater.asking name question asked
      exact together.answer apart unfailing allowed asked member foreseen

end Runs

end Together

section Commuting

variable {history events others : List Event}
  {s s' t' : Station τ} {now first second : Incarnation} {oracle : Bytes → List String → Bool}
  {txns : List String} {inbox : String → List Envelope} {deletable : String → Prop} {fine : τ → Prop}
  {named : String → String → Prop}

theorem Station.Interleaves.together [LawfulHoldings τ Entry] [LawfulStore τ Entry]
    (interleaves : s.Interleaves oracle txns inbox events s')
    (run : Station.Run history s) (running : s.running = some now)
    (apart : ∀ one ∈ txns, ∀ other ∈ txns, one ≠ other → ∀ resource,
      Concerns now one (inbox one) resource → ¬Concerns now other (inbox other) resource)
    (unfailing : Unfailing deletable fine) (start : fine s.storage)
    (allowed : ∀ txn ∈ txns, ∀ resource, Concerns now txn (inbox txn) resource → deletable resource) :
    ∃ later, Together oracle s now txns (fun txn => Concerns now txn (inbox txn)) fine events s' later := by
  refine together_run run running apart ?_ unfailing start allowed interleaves.steps ?_
    interleaves.answered interleaves.up interleaves.alone
  · rintro txn _ resource (pending | asked | ⟨_, none, _⟩)
    · exact .inl pending
    · exact .inr (.inl asked)
    · cases none
  · intro envelope happened
    have member := interleaves.own envelope happened
    refine ⟨member, fun phase resource listed => .inr (.inr ⟨envelope, ?_, phase, listed⟩)⟩
    rw [← interleaves.received _ member]
    exact mem_receivedOf.mpr ⟨happened, rfl⟩

structure Alike (txn : String) (events others : List Event) (first second : Incarnation)
    (storage storageToo : τ) (named : String → Prop) : Prop where
  pending : first.memory.pending.get? txn = second.memory.pending.get? txn
  resolved : first.memory.resolved.get? txn = second.memory.resolved.get? txn
  asked : first.asking.get? txn = second.asking.get? txn
  holds : ∀ resource, named resource →
    ResourceStore.holds resource storage = ResourceStore.holds resource storageToo
  records : Log.recordsOf txn (logged events) = Log.recordsOf txn (logged others)
  replies : repliesOf txn events = repliesOf txn others

namespace Together

section Alike

variable (one : Together oracle s now txns named fine events s' first)
  (other : Together oracle s now txns named fine others t' second)

include one other

theorem alike {txn : String} (member : txn ∈ txns) (free : first.isFree txn) (freeToo : second.isFree txn)
    (same : receivedOf txn events = receivedOf txn others) :
    Alike txn events others first second s'.storage t'.storage (named txn) := by
  obtain ⟨course, follows⟩ := one.follows txn member
  obtain ⟨_, followsToo⟩ := other.follows txn member
  obtain rfl := (follows.over free).trans ((same ▸ followsToo.over freeToo).symm)
  refine ⟨follows.recalls.pending.trans followsToo.recalls.pending.symm,
    follows.recalls.resolved.trans followsToo.recalls.resolved.symm,
    follows.asked.trans followsToo.asked.symm, fun resource mine => ?_,
    follows.records.trans followsToo.records.symm, follows.replies.trans followsToo.replies.symm⟩
  rw [Bool.eq_iff_iff, follows.holds resource mine, followsToo.holds resource mine]

variable
  (alike : ∀ txn ∈ txns, Alike txn events others first second s'.storage t'.storage (named txn))

include alike

theorem same_traces (txn : String) :
    first.memory.pending.get? txn = second.memory.pending.get? txn ∧
      first.memory.resolved.get? txn = second.memory.resolved.get? txn ∧
      first.asking.get? txn = second.asking.get? txn := by
  by_cases member : txn ∈ txns
  · exact ⟨(alike txn member).pending, (alike txn member).resolved, (alike txn member).asked⟩
  · obtain ⟨pending, resolved, asked⟩ := one.others txn member
    obtain ⟨pendingToo, resolvedToo, askedToo⟩ := other.others txn member
    exact ⟨pending.trans pendingToo.symm, resolved.trans resolvedToo.symm, asked.trans askedToo.symm⟩

theorem same_memory [LawfulStore τ Entry] {historyToo : List Event} (run : Station.Run history s')
    (runToo : Station.Run historyToo t') : first.memory = second.memory := by
  have same := one.same_traces other alike
  exact ((consistent_run run).informed first one.running).unique
    ((consistent_run runToo).informed second other.running)
    (memory_sorted run first one.running) (memory_sorted runToo second other.running)
    (fun txn => (same txn).1) (fun txn => (same txn).2.1) fun txn => (same txn).2.2

theorem same_holdings (resource : String) :
    ResourceStore.holds resource s'.storage = ResourceStore.holds resource t'.storage := by
  by_cases mine : ∃ txn ∈ txns, named txn resource
  · obtain ⟨txn, member, concerns⟩ := mine
    exact (alike txn member).holds resource concerns
  · have foreign : ∀ txn ∈ txns, ¬named txn resource := by simpa using mine
    exact (one.stays resource foreign).trans (other.stays resource foreign).symm

theorem reordered : Log.Reordered (logged events) (logged others) := by
  intro txn
  by_cases member : txn ∈ txns
  · exact (alike txn member).records
  · have none : ∀ records : List Entry, (∀ entry ∈ records, entry.txn ∈ txns) →
        Log.recordsOf txn records = [] := by
      intro records own
      refine List.filter_eq_nil_iff.mpr fun entry logged same => member ?_
      rw [← (of_decide_eq_true same : entry.txn = txn)]
      exact own entry logged
    rw [none _ one.own, none _ other.own]

end Alike

end Together

end Commuting

/-- Transactions with disjoint resource lists, whatever else they do, do not notice each other. However
the handling of their messages and the waits for the oracle are interleaved, as long as nothing fails,
each gets the same replies in the same order, and in the end the same locks, votes and resources are
there. What is logged differs only in how the records of one transaction lie between those of
another. -/
theorem independent_transactions_commute [LawfulHoldings τ Entry] [LawfulStore τ Entry]
    {history events others : List Event} {s s' t' : Station τ} (run : Station.Run history s)
    {now : Incarnation} (running : s.running = some now) {oracle : Bytes → List String → Bool}
    {txns : List String} {inbox : String → List Envelope}
    (apart : ∀ one ∈ txns, ∀ other ∈ txns, one ≠ other → ∀ resource,
      Concerns now one (inbox one) resource → ¬Concerns now other (inbox other) resource)
    {deletable : String → Prop} {fine : τ → Prop} (unfailing : Unfailing deletable fine)
    (start : fine s.storage)
    (allowed : ∀ txn ∈ txns, ∀ resource, Concerns now txn (inbox txn) resource → deletable resource)
    (one : s.Interleaves oracle txns inbox events s')
    (other : s.Interleaves oracle txns inbox others t') :
    ∃ first second, s'.running = some first ∧ t'.running = some second ∧
      first.memory = second.memory ∧
      (∀ txn ∈ txns, repliesOf txn events = repliesOf txn others) ∧
      (∀ resource, ResourceStore.holds resource s'.storage = ResourceStore.holds resource t'.storage) ∧
      held s'.storage = held s.storage ++ logged events ∧
      held t'.storage = held s.storage ++ logged others ∧
      (∀ entry ∈ logged events, entry.txn ∈ txns) ∧ Log.Reordered (logged events) (logged others) := by
  obtain ⟨first, together⟩ := one.together run running apart unfailing start allowed
  obtain ⟨second, togetherToo⟩ := other.together run running apart unfailing start allowed
  have alike : ∀ txn ∈ txns, Alike txn events others first second s'.storage t'.storage
      (Concerns now txn (inbox txn)) := fun txn member =>
    together.alike togetherToo member (one.closed first together.running txn member)
      (other.closed second togetherToo.running txn member)
      ((one.received txn member).trans (other.received txn member).symm)
  exact ⟨first, second, together.running, togetherToo.running,
    together.same_memory togetherToo alike (run.steps one.steps) (run.steps other.steps),
    fun txn member => (alike txn member).replies, together.same_holdings togetherToo alike, together.log,
    togetherToo.log, together.own, together.reordered togetherToo alike⟩

def Event.isFair (oracle : Bytes → List String → Bool) (txns : List String) : Event → Bool
  | .received envelope => envelope.message.txn ∈ txns
  | .answered request approved =>
    request.txn ∈ txns && approved = oracle request.payload request.resources
  | .stopped | .disturbed => false
  | _ => true

theorem Station.interleaves_of_played {s s' : Station τ} {oracle : Bytes → List String → Bool}
    {txns : List String} {inbox : String → List Envelope} {actions : List Action} {events : List Event}
    (played : s.playAll actions = some (events, s'))
    (fair : events.all (Event.isFair oracle txns))
    (received : ∀ txn ∈ txns, receivedOf txn events = inbox txn)
    (closed : s'.running.map (fun now => now.asking) = some ∅) :
    s.Interleaves oracle txns inbox events s' := by
  have each := List.all_eq_true.mp fair
  have steps := Station.playAll_steps .nothing played
  rw [List.nil_append] at steps
  refine ⟨steps, received, fun envelope happened => ?_, fun request approved happened => ?_,
    fun happened => ?_, fun happened => ?_, fun now running txn _ => ?_⟩
  · simpa [Event.isFair] using each _ happened
  · simpa [Event.isFair] using each _ happened
  · simpa [Event.isFair] using each _ happened
  · simpa [Event.isFair] using each _ happened
  · have none : now.asking = ∅ := by simpa [running] using closed
    simp [Incarnation.isFree_iff, none]

def ready : Station (Faulty (Beside (Ledger Entry) DirectoryStore)) :=
  ⟨some {}, ⟨⟨{}, ⟨[], { nodes := ⟨[(["x"], .file 0), (["y"], .file 1)]⟩ }⟩⟩, []⟩⟩

def twoInboxes (txn : String) : List Envelope :=
  if txn = "t" then [⟨"c", .prepare "t" ["x"] []⟩, ⟨"c", .decision "t" .commit⟩]
  else [⟨"d", .prepare "u" ["y"] [1]⟩, ⟨"d", .decision "u" .abort⟩]

def approvesBlank (payload : Bytes) (_ : List String) : Bool := payload.isEmpty

def crossed : List Event :=
  [.received ⟨"c", .prepare "t" ["x"] []⟩, .asked ⟨"t", ["x"], []⟩,
    .received ⟨"d", .prepare "u" ["y"] [1]⟩, .asked ⟨"u", ["y"], [1]⟩,
    .answered ⟨"u", ["y"], [1]⟩ false, .did (.appended (.prepare "u" ["y"] .refuse)),
    .sent "d" (.vote "u" .refuse),
    .answered ⟨"t", ["x"], []⟩ true, .did (.appended (.prepare "t" ["x"] .accept)),
    .sent "c" (.vote "t" .accept),
    .received ⟨"c", .decision "t" .commit⟩, .did (.appended (.decision "t" .commit)),
    .did (.deleted "x"), .did (.appended (.done "t")), .sent "c" (.ack "t"),
    .received ⟨"d", .decision "u" .abort⟩, .did (.appended (.decision "u" .abort)),
    .did (.appended (.done "u")), .sent "d" (.ack "u")]

def inTurn : List Event :=
  [.received ⟨"c", .prepare "t" ["x"] []⟩, .asked ⟨"t", ["x"], []⟩,
    .answered ⟨"t", ["x"], []⟩ true, .did (.appended (.prepare "t" ["x"] .accept)),
    .sent "c" (.vote "t" .accept),
    .received ⟨"c", .decision "t" .commit⟩, .did (.appended (.decision "t" .commit)),
    .did (.deleted "x"), .did (.appended (.done "t")), .sent "c" (.ack "t"),
    .received ⟨"d", .prepare "u" ["y"] [1]⟩, .asked ⟨"u", ["y"], [1]⟩,
    .answered ⟨"u", ["y"], [1]⟩ false, .did (.appended (.prepare "u" ["y"] .refuse)),
    .sent "d" (.vote "u" .refuse),
    .received ⟨"d", .decision "u" .abort⟩, .did (.appended (.decision "u" .abort)),
    .did (.appended (.done "u")), .sent "d" (.ack "u")]

def crossing : List Action :=
  [.receive ⟨"c", .prepare "t" ["x"] []⟩, .receive ⟨"d", .prepare "u" ["y"] [1]⟩, .answer "u" false,
    .answer "t" true, .receive ⟨"c", .decision "t" .commit⟩, .receive ⟨"d", .decision "u" .abort⟩]

def takingTurns : List Action :=
  [.receive ⟨"c", .prepare "t" ["x"] []⟩, .answer "t" true, .receive ⟨"c", .decision "t" .commit⟩,
    .receive ⟨"d", .prepare "u" ["y"] [1]⟩, .answer "u" false, .receive ⟨"d", .decision "u" .abort⟩]

theorem ready_deletable (resource : String) (named : resource = "x" ∨ resource = "y") :
    ready.storage.storage.other.Deletable resource := by
  rcases named with rfl | rfl <;> exact DirectoryStore.delete_ok_iff.mp (by rfl)

theorem twoInboxes_concern {txn resource : String} (member : txn ∈ ["t", "u"])
    (concerns : Concerns {} txn (twoInboxes txn) resource) :
    txn = "t" ∧ resource = "x" ∨ txn = "u" ∧ resource = "y" := by
  rcases concerns with ⟨_, impossible, _⟩ | ⟨_, impossible, _⟩ | ⟨envelope, sent, phase, listed⟩
  · cases impossible
  · cases impossible
  · rcases List.mem_pair.mp member with rfl | rfl <;> rcases List.mem_pair.mp sent with rfl | rfl
    · exact .inl ⟨rfl, List.mem_singleton.mp listed⟩
    · cases phase
    · exact .inr ⟨rfl, List.mem_singleton.mp listed⟩
    · cases phase

theorem crossed_like_in_turn : ∃ history s' t' first second,
    Station.Run history ready ∧
    ready.Interleaves approvesBlank ["t", "u"] twoInboxes crossed s' ∧
    ready.Interleaves approvesBlank ["t", "u"] twoInboxes inTurn t' ∧
    s'.running = some first ∧ t'.running = some second ∧ first.memory = second.memory ∧
    repliesOf "u" crossed = repliesOf "u" inTurn ∧
    (∀ resource, ResourceStore.holds resource s'.storage = ResourceStore.holds resource t'.storage) ∧
    Log.Reordered (logged crossed) (logged inTurn) ∧ held s'.storage ≠ held t'.storage := by
  obtain ⟨history, begun⟩ : ∃ history, Station.playAll { ready with running := none } [.start {}] =
      some (history, ready) := ⟨_, rfl⟩
  have run := Station.playAll_run (.begin ready.storage rfl) begun
  have played : (ready.playAll crossing).map (fun result =>
      (result.1, result.2.running.map fun now => now.asking)) = some (crossed, some ∅) := by rfl
  have playedToo : (ready.playAll takingTurns).map (fun result =>
      (result.1, result.2.running.map fun now => now.asking)) = some (inTurn, some ∅) := by rfl
  obtain ⟨⟨_, s'⟩, played, facts⟩ := Option.map_eq_some_iff.mp played
  obtain ⟨rfl, closed⟩ := Prod.mk.inj facts
  obtain ⟨⟨_, t'⟩, playedToo, factsToo⟩ := Option.map_eq_some_iff.mp playedToo
  obtain ⟨rfl, closedToo⟩ := Prod.mk.inj factsToo
  have one : ready.Interleaves approvesBlank ["t", "u"] twoInboxes crossed s' :=
    Station.interleaves_of_played played (by decide) (by decide) closed
  have other : ready.Interleaves approvesBlank ["t", "u"] twoInboxes inTurn t' :=
    Station.interleaves_of_played playedToo (by decide) (by decide) closedToo
  have apart : ∀ one ∈ ["t", "u"], ∀ other ∈ ["t", "u"], one ≠ other → ∀ resource,
      Concerns {} one (twoInboxes one) resource → ¬Concerns {} other (twoInboxes other) resource := by
    intro one member other memberToo distinct resource mine theirs
    have name := twoInboxes_concern member mine
    have nameToo := twoInboxes_concern memberToo theirs
    grind
  obtain ⟨first, second, up, upToo, memory, replies, holds, log, logToo, _, reordered⟩ :=
    independent_transactions_commute run rfl apart
      unfailing_directory.faulty ⟨rfl, rfl, ready_deletable⟩ (fun txn member resource mine =>
        (twoInboxes_concern member mine).imp And.right And.right) one other
  refine ⟨history, s', t', first, second, run, one, other, up, upToo, memory, replies "u" (by simp), holds,
    reordered, ?_⟩
  rw [log, logToo]
  decide

end AtomicCommit.Participant
