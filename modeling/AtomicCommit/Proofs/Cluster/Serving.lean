import AtomicCommit.Proofs.Cluster.Stories
import AtomicCommit.Proofs.Routes

/-! A participant that serves its messages: what holds between the inboxes, the workers and what has
been told, and the steps of a worker. -/

namespace AtomicCommit.Cluster

open Participant (Reaction VoteRequest requestOf)

def WorkerStage.CanStep (queue : List Envelope) : WorkerStage → Prop
  | .receiving _ => queue ≠ []
  | .asking _ _ _ (.ready _) => True
  | .asking _ _ _ (.held _) => False

def WorkerStage.Handles (handling : List Envelope) : WorkerStage → Prop
  | .receiving _ => handling = []
  | .asking sender request _ _ => ∃ envelope, handling = [envelope] ∧ envelope.sender = sender ∧
    envelope.message.phase = .prepare ∧ request = requestOf envelope.message

structure Manned (p : Nat) (c : Cluster) (inboxes : Inboxes Envelope) : Prop where
  numbered : c.Numbered
  paired : inboxes.Paired
  worker : ∀ number inbox, inboxes.inboxes.get? number = some inbox →
    ∃ task stage, c.job? task = some (.worker p number stage)
  inbox : ∀ task number stage, c.job? task = some (.worker p number stage) →
    ∃ txn queue, inboxes.inboxes.get? number = some ⟨txn, queue⟩
  once : ∀ task other number stage stage', c.job? task = some (.worker p number stage) →
    c.job? other = some (.worker p number stage') → task = other

def Awake (p : Nat) (c : Cluster) (inboxes : Inboxes Envelope) : Prop :=
  ∀ task number stage, c.job? task = some (.worker p number stage) →
    stage.CanStep (inboxes.queue number) → .job task ∈ c.ready

def Accounted (history : List Event) (hands : List Envelope) (inboxes : Inboxes Envelope) : Prop :=
  ∀ txn, (storyOf txn history).arrived = (storyOf txn history).handled ++
    (storyOf txn history).handling ++ inboxes.queued txn ++
      hands.filter fun envelope => envelope.message.txn = txn

structure Busy (p : Nat) (c : Cluster) (inboxes : Inboxes Envelope) (history : List Event) :
    Prop where
  idle : ∀ txn, inboxes.routes.get? txn = none → (storyOf txn history).handling = []
  worker : ∀ task number stage txn queue, c.job? task = some (.worker p number stage) →
    inboxes.inboxes.get? number = some ⟨txn, queue⟩ → stage.Handles (storyOf txn history).handling

/-- A participant that runs, with the messages in the hands of the step that routes them. In the middle
of a worker's step more has been told than what the stages of the workers show. -/
structure Underway (p : Nat) (c : Cluster) (address : String) (inboxes : Inboxes Envelope)
    (shown told : List Event) (hands : List Envelope) : Prop where
  service : c.service p = some (address, inboxes)
  node : (c.nodes.get? address).isSome
  manned : Manned p c inboxes
  awake : Awake p c inboxes
  accounted : Accounted told hands inboxes
  busy : Busy p c inboxes shown

abbrev Serving (p : Nat) (c : Cluster) (address : String) (inboxes : Inboxes Envelope)
    (history : List Event) (hands : List Envelope) : Prop :=
  Underway p c address inboxes history history hands

section Present

variable {c c' : Cluster} {p : Nat} {address : String} {inboxes after : Inboxes Envelope}

theorem service_eq_some : c.service p = some (address, inboxes) ↔
    ∃ running, c.participants.get? p = some running ∧ running.address = address ∧
      running.inboxes = inboxes := by
  simp [service]

theorem service_setInboxes (serves : c.service p = some (address, inboxes)) :
    (c.setInboxes p after).service p = some (address, after) := by
  obtain ⟨running, there, rfl, rfl⟩ := service_eq_some.mp serves
  exact service_eq_some.mpr ⟨{ running with inboxes := after }, by simp [setInboxes, there], rfl, rfl⟩

theorem isSome_atParticipant (serves : c.service p = some (address, inboxes))
    (node : (c.nodes.get? address).isSome) {α : Type}
    (action : Participant Participant.Storage → α × Participant Participant.Storage) :
    (c.atParticipant p action).isSome := by
  obtain ⟨running, there, rfl, rfl⟩ := service_eq_some.mp serves
  obtain ⟨found, known⟩ := Option.isSome_iff_exists.mp node
  simp [atParticipant, there, known]

theorem queueAt_eq (serves : c.service p = some (address, inboxes)) (inbox : Nat) :
    c.queueAt p inbox = inboxes.queue inbox := by
  rw [queueAt, serves]
  rfl

theorem isSome_stepJob (serves : c.service p = some (address, inboxes))
    (node : (c.nodes.get? address).isSome) {task number : Nat} {stage : WorkerStage}
    (job : c.job? task = some (.worker p number stage)) {txn : String} {queue : List Envelope}
    (there : inboxes.inboxes.get? number = some ⟨txn, queue⟩) (can : stage.CanStep queue) :
    (c.stepJob task).isSome := by
  obtain ⟨running, found, rfl, rfl⟩ := service_eq_some.mp serves
  rw [stepJob_of_worker job]
  cases stage with
  | receiving retireAt =>
    cases queue with
    | nil => exact absurd rfl can
    | cons envelope rest =>
      have serves : (c.setInboxes p (running.inboxes.withQueue number txn rest)).service p =
          some (running.address, _) := service_setInboxes serves
      have handled := isSome_atParticipant serves node (Participant.react envelope.message)
      obtain ⟨⟨reaction, reacted⟩, done⟩ := Option.isSome_iff_exists.mp handled
      simp [stepWorker, found, Inboxes.receive_eq there, done]
  | asking sender request question answer =>
    cases answer with
    | held => exact absurd can id
    | ready approved =>
      have handled := isSome_atParticipant serves node (Participant.answerVote request approved)
      obtain ⟨⟨result, answered⟩, done⟩ := Option.isSome_iff_exists.mp handled
      simp [stepWorker, found, done]

end Present

section Kept

variable {c c' : Cluster} {p task number : Nat} {address txn : String}
  {inboxes : Inboxes Envelope} {history shown told : List Event}
  {hands queue : List Envelope} {stage stage' : WorkerStage}

theorem Manned.leaves (manned : Manned p c inboxes) (leaves : Leaves p c c') :
    Manned p c' inboxes := by
  refine ⟨leaves.numbered manned.numbered, manned.paired, fun number inbox found => ?_,
    fun task number stage job => ?_, fun task other number stage stage' job job' => ?_⟩
  · obtain ⟨task, stage, job⟩ := manned.worker number inbox found
    exact ⟨task, stage, (leaves.workers _ _ _).mpr job⟩
  · exact manned.inbox task number stage ((leaves.workers _ _ _).mp job)
  · exact manned.once task other number stage stage' ((leaves.workers _ _ _).mp job)
      ((leaves.workers _ _ _).mp job')

theorem Awake.leaves (awake : Awake p c inboxes) (leaves : Leaves p c c') : Awake p c' inboxes := by
  intro task number stage job can
  have before := (leaves.workers _ _ _).mp job
  exact leaves.ready task number stage before (awake task number stage before can)

theorem Busy.leaves (busy : Busy p c inboxes history) (leaves : Leaves p c c') :
    Busy p c' inboxes history :=
  ⟨busy.idle, fun task number stage txn queue job =>
    busy.worker task number stage txn queue ((leaves.workers _ _ _).mp job)⟩

theorem Underway.leaves (underway : Underway p c address inboxes shown told hands)
    (leaves : Leaves p c c') : Underway p c' address inboxes shown told hands :=
  ⟨leaves.service.trans underway.service, leaves.nodes _ underway.node, underway.manned.leaves leaves,
    underway.awake.leaves leaves, underway.accounted, underway.busy.leaves leaves⟩

theorem Manned.setJob (manned : Manned p c inboxes)
    (job : c.job? task = some (.worker p number stage)) (stage' : WorkerStage) :
    Manned p (c.setJob task (.worker p number stage')) inboxes := by
  have same : ∀ other place later, (c.setJob task (.worker p number stage')).job? other =
      some (.worker p place later) → ∃ former, c.job? other = some (.worker p place former) := by
    intro other place later found
    rw [job?_setJob] at found
    split at found
    next here =>
      cases found
      exact ⟨stage, here ▸ job⟩
    next => exact ⟨later, found⟩
  refine ⟨fun other found => ?_, manned.paired, fun place inbox found => ?_,
    fun other place later found => ?_, fun first second place later later' one two => ?_⟩
  · rw [job?_setJob] at found
    split at found
    next here => exact manned.numbered other (by simp [here, job])
    next => exact manned.numbered other found
  · obtain ⟨other, former, there⟩ := manned.worker place inbox found
    by_cases here : other = task
    · subst here
      cases job.symm.trans there
      exact ⟨other, stage', by simp⟩
    · exact ⟨other, former, by simp [here, there]⟩
  · obtain ⟨former, before⟩ := same other place later found
    exact manned.inbox other place former before
  · obtain ⟨_, before⟩ := same first place later one
    obtain ⟨_, before'⟩ := same second place later' two
    exact manned.once first second place _ _ before before'

theorem Awake.setJob (awake : Awake p c inboxes)
    (goesOn : stage'.CanStep (inboxes.queue number) → .job task ∈ c.ready) :
    Awake p (c.setJob task (.worker p number stage')) inboxes := by
  intro other place later found can
  rw [job?_setJob] at found
  split at found
  next here =>
    cases found
    exact here ▸ goesOn can
  next => exact awake other place later found can

theorem Busy.setJob (busy : Busy p c inboxes shown) (manned : Manned p c inboxes)
    (job : c.job? task = some (.worker p number stage))
    (there : inboxes.inboxes.get? number = some ⟨txn, queue⟩)
    (others : ∀ other, other ≠ txn → (storyOf other told).handling = (storyOf other shown).handling)
    (handles : stage'.Handles (storyOf txn told).handling) :
    Busy p (c.setJob task (.worker p number stage')) inboxes told := by
  have route := (manned.paired.route_iff txn number).mpr ⟨queue, there⟩
  constructor
  · intro name unrouted
    rw [others name fun same => by simp [same, route] at unrouted]
    exact busy.idle name unrouted
  · intro other place later name messages found inbox
    rw [job?_setJob] at found
    split at found
    next here =>
      cases found
      cases there.symm.trans inbox
      exact handles
    next elsewhere =>
      have distinct : name ≠ txn := by
        rintro rfl
        have routeToo := (manned.paired.route_iff name place).mpr ⟨messages, inbox⟩
        cases route.symm.trans routeToo
        exact elsewhere (manned.once other task number later stage found job)
      rw [others name distinct]
      exact busy.worker other place later name messages found inbox

theorem Underway.setJob (underway : Underway p c address inboxes shown told hands)
    (job : c.job? task = some (.worker p number stage))
    (there : inboxes.inboxes.get? number = some ⟨txn, queue⟩)
    (others : ∀ other, other ≠ txn → (storyOf other told).handling = (storyOf other shown).handling)
    (handles : stage'.Handles (storyOf txn told).handling)
    (ready : stage'.CanStep queue → .job task ∈ c.ready) :
    Serving p (c.setJob task (.worker p number stage')) address inboxes told hands := by
  rw [← Inboxes.queue_of_inbox there] at ready
  exact ⟨underway.service, underway.node, underway.manned.setJob job stage',
    underway.awake.setJob ready, underway.accounted,
    underway.busy.setJob underway.manned job there others handles⟩

section Queues

variable (there : inboxes.inboxes.get? number = some ⟨txn, queue⟩) (messages : List Envelope)

include there

theorem Manned.withQueue (manned : Manned p c inboxes) :
    Manned p c (inboxes.withQueue number txn messages) := by
  refine ⟨manned.numbered, manned.paired.withQueue there messages, fun place inbox found => ?_,
    fun task place stage job => ?_, manned.once⟩
  · simp only [Inboxes.withQueue, Table.get?_insert] at found
    split at found
    next here => exact here ▸ manned.worker number _ there
    next => exact manned.worker place inbox found
  · by_cases here : place = number
    · exact ⟨txn, messages, by simp [Inboxes.withQueue, here]⟩
    · obtain ⟨name, queue, found⟩ := manned.inbox task place stage job
      exact ⟨name, queue, by simp [Inboxes.withQueue, here, found]⟩

theorem Busy.withQueue (busy : Busy p c inboxes shown) :
    Busy p c (inboxes.withQueue number txn messages) shown := by
  refine ⟨busy.idle, fun task place stage name queue job found => ?_⟩
  simp only [Inboxes.withQueue, Table.get?_insert] at found
  split at found
  next here =>
    cases found
    exact busy.worker task number stage txn _ (here ▸ job) there
  next => exact busy.worker task place stage name queue job found

omit there in
theorem queue_withQueue (place : Nat) : (inboxes.withQueue number txn messages).queue place =
    if place = number then messages else inboxes.queue place := by
  by_cases here : place = number <;> simp [Inboxes.queue, Inboxes.withQueue, here]

end Queues

theorem Underway.kept (underway : Underway p c address inboxes shown told hands)
    (after : Inboxes Envelope) : Manned p (c.setInboxes p after) inboxes ∧
      Awake p (c.setInboxes p after) inboxes ∧ Busy p (c.setInboxes p after) inboxes shown := by
  obtain ⟨numbered, paired, worker, inbox, once⟩ := underway.manned
  exact ⟨⟨numbered, paired, worker, inbox, once⟩, underway.awake, underway.busy.idle,
    underway.busy.worker⟩

theorem Accounted.own (accounted : Accounted history hands inboxes) {envelope : Envelope}
    (queued : envelope ∈ inboxes.queued txn) : envelope.message.txn = txn := by
  refine arrived_own txn history envelope ?_
  rw [accounted txn]
  simp [queued]

theorem Underway.ended (underway : Underway p c address inboxes shown told hands) (name : String) :
    Underway p c address inboxes shown (told ++ [.ended name]) hands := by
  refine ⟨underway.service, underway.node, underway.manned, underway.awake, fun txn => ?_,
    underway.busy⟩
  have before := underway.accounted txn
  rw [storyOf_snoc, Story.note]
  split
  · simpa using before
  · exact before

theorem Underway.take (serving : Serving p c address inboxes history hands) {retireAt : Nat}
    (job : c.job? task = some (.worker p number (.receiving retireAt))) {envelope : Envelope}
    {rest : List Envelope} (there : inboxes.inboxes.get? number = some ⟨txn, envelope :: rest⟩) :
    Underway p (c.setInboxes p (inboxes.withQueue number txn rest)) address
      (inboxes.withQueue number txn rest) history (history ++ [.began envelope]) hands := by
  have paired := serving.manned.paired
  have own : envelope.message.txn = txn :=
    serving.accounted.own (by simp [paired.queued_of_inbox there])
  obtain ⟨manned, awake, busy⟩ := serving.kept (inboxes.withQueue number txn rest)
  refine ⟨service_setInboxes serving.service, serving.node, manned.withQueue there rest, ?_,
    fun name => ?_, busy.withQueue there rest⟩
  · intro other place stage found can
    refine awake other place stage found ?_
    rw [queue_withQueue] at can
    split at can
    next here =>
      subst here
      rw [Inboxes.queue_of_inbox there]
      cases stage with
      | receiving => exact List.cons_ne_nil _ _
      | asking _ _ _ answer => cases answer <;> exact can
    next => exact can
  · have before := serving.accounted name
    rw [storyOf_snoc, Story.note, paired.queued_withQueue there]
    by_cases same : name = txn
    · subst same
      rw [paired.queued_of_inbox there] at before
      simpa [own] using before
    · simpa [own, same, Ne.symm same] using before

theorem Underway.goOn (underway : Underway p c address inboxes shown told hands)
    (job : c.job? task = some (.worker p number stage))
    (there : inboxes.inboxes.get? number = some ⟨txn, queue⟩)
    (others : ∀ other, other ≠ txn → (storyOf other told).handling = (storyOf other shown).handling)
    (ready : .job task ∈ c.ready) :
    Serving p (c.goOn task p number address) address inboxes (told ++ [.ended txn]) hands := by
  refine (underway.ended txn).setJob job there (fun other distinct => ?_) ?_ fun _ => ready
  · rw [handling_ended told other distinct]
    exact others other distinct
  · rw [storyOf_snoc, Story.note, if_pos rfl]
    rfl

def endings (txn : String) : Reaction → List Event
  | .ask _ => []
  | .silent | .reply _ => [.ended txn]

theorem any_isAsking_concluded (sender : String) (reaction : Reaction) :
    (if ((c.concluded task p number address sender reaction).job? task).any Job.isAsking then []
      else [.ended txn]) = endings txn reaction := by
  cases reaction <;> simp [concluded, goOn, Job.isAsking, WorkerStage.isAsking, endings]

theorem Underway.concluded (underway : Underway p c address inboxes shown told hands)
    (job : c.job? task = some (.worker p number stage))
    (there : inboxes.inboxes.get? number = some ⟨txn, queue⟩)
    (others : ∀ other, other ≠ txn → (storyOf other told).handling = (storyOf other shown).handling)
    (ready : .job task ∈ c.ready) (sender : String) {reaction : Reaction}
    (asks : ∀ request, reaction = .ask request → ∃ envelope,
      (storyOf txn told).handling = [envelope] ∧ envelope.sender = sender ∧
        envelope.message.phase = .prepare ∧ request = requestOf envelope.message) :
    Serving p (c.concluded task p number address sender reaction) address inboxes
      (told ++ endings txn reaction) hands := by
  cases reaction with
  | silent => exact underway.goOn job there others ready
  | reply message =>
    have sent := Leaves.send (p := p) c address sender message
    exact (underway.leaves sent).goOn ((sent.workers _ _ _).mpr job) there others
      (sent.ready _ _ _ job ready)
  | ask request =>
    have asked := Leaves.ask (p := p) c address request
    rw [endings, List.append_nil]
    exact (underway.leaves asked).setJob ((asked.workers _ _ _).mpr job) there others
      (asks request rfl) fun _ => asked.ready _ _ _ job ready

theorem Serving.handle (serving : Serving p c address inboxes history hands) {retireAt : Nat}
    (job : c.job? task = some (.worker p number (.receiving retireAt))) (ready : .job task ∈ c.ready)
    {envelope : Envelope} {after : Inboxes Envelope}
    (received : inboxes.receive number = (some envelope, after)) {reaction : Reaction}
    {reacted : Cluster} (done : (c.setInboxes p after).atParticipant p
      (Participant.react envelope.message) = some (reaction, reacted)) :
    Serving p (reacted.concluded task p number address envelope.sender reaction) address after
      (history ++ workerEvents (c.queueAt p number) (.receiving retireAt)
        ((reacted.concluded task p number address envelope.sender reaction).job? task)) hands := by
  obtain ⟨txn, queue, there⟩ := serving.manned.inbox task number _ job
  obtain ⟨rest, rfl, rfl⟩ := Inboxes.of_receive_some there received
  have own : envelope.message.txn = txn :=
    serving.accounted.own (by simp [serving.manned.paired.queued_of_inbox there])
  rw [queueAt_eq serving.service, Inboxes.queue_of_inbox there]
  have taken := (serving.take job there).leaves (.atParticipant done)
  have kept := Leaves.atParticipant (p := p) done
  have place : (inboxes.withQueue number txn rest).inboxes.get? number = some ⟨txn, rest⟩ := by
    simp [Inboxes.withQueue]
  have idle : (storyOf txn history).handling = [] :=
    serving.busy.worker task number _ txn _ job there
  have others : ∀ other, other ≠ txn →
      (storyOf other (history ++ [.began envelope])).handling = (storyOf other history).handling := by
    intro other distinct
    rw [handling_began, if_neg (by simpa [own] using Ne.symm distinct), List.append_nil]
  have asks : ∀ request, reaction = .ask request → ∃ asking,
      (storyOf txn (history ++ [.began envelope])).handling = [asking] ∧
        asking.sender = envelope.sender ∧ asking.message.phase = .prepare ∧
          request = requestOf asking.message := by
    intro request asks
    obtain ⟨before, same⟩ := result_atParticipant done
    refine ⟨envelope, ?_, rfl, react_asks (same.trans asks)⟩
    rw [handling_began, idle, if_pos own, List.nil_append]
  have concluded := taken.concluded ((kept.workers _ _ _).mpr job) place others
    (kept.ready _ _ _ job ready) envelope.sender asks
  simpa [workerEvents, own, any_isAsking_concluded] using concluded

theorem Serving.answer (serving : Serving p c address inboxes history hands) {sender : String}
    {request : VoteRequest} {question : Nat} {approved : Bool}
    (job : c.job? task = some (.worker p number (.asking sender request question (.ready approved))))
    (ready : .job task ∈ c.ready) {result : Except ParticipantError Vote} {answered : Cluster}
    (done : c.atParticipant p (Participant.answerVote request approved) = some (result, answered)) :
    Serving p (answered.concluded task p number address sender
      (Participant.voteReply request.txn result)) address inboxes
        (history ++ [.ended request.txn]) hands := by
  obtain ⟨txn, queue, there⟩ := serving.manned.inbox task number _ job
  obtain ⟨envelope, handling, _, _, rfl⟩ := serving.busy.worker task number _ txn _ job there
  have own : envelope.message.txn = txn := by
    refine arrived_own txn history envelope ?_
    rw [serving.accounted txn, handling]
    simp
  have kept := Leaves.atParticipant (p := p) done
  have ends : endings txn (Participant.voteReply txn result) = [.ended txn] := by
    cases result <;> rfl
  rw [show (requestOf envelope.message).txn = txn from own, ← ends]
  refine (serving.leaves kept).concluded ((kept.workers _ _ _).mpr job) there (fun _ _ => rfl)
    (kept.ready _ _ _ job ready) sender fun other asks => ?_
  cases result <;> cases asks

end Kept

end AtomicCommit.Cluster
