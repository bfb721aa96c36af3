import AtomicCommit.Proofs.Cluster.Turns

/-! The messages of a transaction are handled one after the other, in the order of their arrival, and
none is lost. Transactions do not wait for each other. -/

namespace AtomicCommit.Cluster

structure Starts (p : Nat) (c : Cluster) : Prop where
  numbered : c.Numbered
  serves : ∃ address, c.service p = some (address, {}) ∧ (c.nodes.get? address).isSome
  idle : ∀ task, IsIdle p c task

/-- A step in which a worker handles a message: the participant reacts to it, and the worker does what
the reaction says. -/
def Reacts (p : Nat) (c : Cluster) (task : Nat) (envelope : Envelope) (c' : Cluster) : Prop :=
  ∃ number address inboxes reaction reacted, (c.setInboxes p inboxes).atParticipant p
      (Participant.react envelope.message) = some (reaction, reacted) ∧
    c' = reacted.concluded task p number address envelope.sender reaction

/-- Where the messages of a participant are. -/
structure Serialized (p : Nat) (c : Cluster) (inboxes : Inboxes Envelope) (history : List Event) :
    Prop where
  /-- A message that has arrived is handled, being handled, or queued, once, and in this order. -/
  in_order : ∀ txn, (storyOf txn history).arrived = (storyOf txn history).handled ++
    (storyOf txn history).handling ++ inboxes.queued txn
  one_handler : ∀ txn, (storyOf txn history).handling.length ≤ 1
  one_worker : ∀ txn number, inboxes.routes.get? txn = some number → ∃ task stage,
    c.job? task = some (.worker p number stage) ∧ stage.Handles (storyOf txn history).handling ∧
      ∀ other later, c.job? other = some (.worker p number later) → other = task
  own_inbox : ∀ task number stage, c.job? task = some (.worker p number stage) →
    ∃ txn, inboxes.routes.get? txn = some number
  at_rest : ∀ txn, inboxes.routes.get? txn = none →
    (storyOf txn history).handled = (storyOf txn history).arrived
  reacts : ∀ task number stage c' envelope, c.job? task = some (.worker p number stage) →
    c.stepJob task = some c' →
    .began envelope ∈ workerEvents (c.queueAt p number) stage (c'.job? task) →
    Reacts p c task envelope c'
  /-- A queued message is handled next when nothing else of its transaction is, whatever the workers of
  other transactions wait for. -/
  goes_on : ∀ txn envelope rest, inboxes.queued txn = envelope :: rest →
    (storyOf txn history).handling = [] → ∃ task c' events, .job task ∈ c.ready ∧
      c.stepJob task = some c' ∧ Step p c (.began envelope :: events) c'

section Started

variable {c c' : Cluster} {p : Nat} {address : String}

theorem Starts.leaves (starts : Starts p c) (leaves : Leaves p c c') : Starts p c' := by
  obtain ⟨address, serves, node⟩ := starts.serves
  exact ⟨leaves.numbered starts.numbered, ⟨address, leaves.service.trans serves,
    leaves.nodes address node⟩, fun task => leaves.idle (starts.idle task)⟩

theorem starts_of_startParticipant (numbered : c.Numbered) (unused : ∀ task, IsIdle c.next c task)
    (known : (c.nodes.get? address).isSome)
    (started : c.startParticipant address = (.ok (), c')) : Starts c.next c' := by
  obtain ⟨node, found⟩ := Option.isSome_iff_exists.mp known
  simp only [startParticipant, found] at started
  split at started
  next => cases started
  next handle opened =>
    let named := (c.updateNode address ({ · with log := (node.log.openLog Participant.Entry).2 })).fresh.2
    have opens : Leaves c.next c named := (Leaves.updateNode ..).trans (.fresh _)
    have starts : Starts c.next { named with
        participants := named.participants.insert c.next ⟨address, {}, handle, {}⟩ } := by
      refine ⟨opens.numbered numbered, ⟨address, ?_, opens.nodes address known⟩,
        fun task => opens.idle (unused task)⟩
      exact service_eq_some.mpr ⟨⟨address, {}, handle, {}⟩, by simp, rfl, rfl⟩
    split at started
    next =>
      cases started
      exact starts
    next => cases started
    next report recovered done =>
      split at started
      next => cases started
      next transport _ =>
        cases started
        have recovers := starts.leaves (.atParticipant done)
        have registers : Leaves c.next recovered { recovered with transport := transport } :=
          .elsewhere rfl rfl rfl (Nat.le_refl _) fun _ => id
        exact recovers.leaves (registers.trans (.updateNode ..))

theorem Starts.serving (starts : Starts p c) : ∃ address, Serving p c address {} [] [] := by
  obtain ⟨address, serves, node⟩ := starts.serves
  have idle := starts.idle
  refine ⟨address, serves, node,
    ⟨starts.numbered, Inboxes.paired_empty, by simp, fun task number stage job => ?_,
      fun task other number stage stage' job _ => ?_⟩,
    fun task number stage job => ?_, fun txn => by simp [storyOf, Inboxes.queued], fun txn _ => rfl,
    fun task number stage txn queue job => ?_⟩
  all_goals exact absurd job (idle task number stage)

end Started

section Told

variable {c : Cluster} {p : Nat} {address : String} {inboxes : Inboxes Envelope}
  {history : List Event}

theorem Serving.worker_of_route (serving : Serving p c address inboxes history []) {txn : String}
    {number : Nat} (route : inboxes.routes.get? txn = some number) : ∃ queue task stage,
      inboxes.inboxes.get? number = some ⟨txn, queue⟩ ∧
      c.job? task = some (.worker p number stage) ∧ stage.Handles (storyOf txn history).handling := by
  obtain ⟨queue, there⟩ := serving.manned.paired.named txn number route
  obtain ⟨task, stage, job⟩ := serving.manned.worker number _ there
  exact ⟨queue, task, stage, there, job, serving.busy.worker task number stage txn queue job there⟩

theorem WorkerStage.Handles.length {handling : List Envelope} {stage : WorkerStage}
    (handles : stage.Handles handling) : handling.length ≤ 1 := by
  cases stage with
  | receiving =>
    obtain rfl : handling = [] := handles
    exact Nat.zero_le 1
  | asking =>
    obtain ⟨envelope, rfl, _⟩ := handles
    exact Nat.le_refl 1

theorem Serving.handling_length (serving : Serving p c address inboxes history []) (txn : String) :
    (storyOf txn history).handling.length ≤ 1 := by
  cases route : inboxes.routes.get? txn with
  | none => simp [serving.busy.idle txn route]
  | some number =>
    obtain ⟨_, _, _, _, _, handles⟩ := serving.worker_of_route route
    exact handles.length

theorem Serving.reacts (serving : Serving p c address inboxes history []) {task number : Nat}
    {stage : WorkerStage} {c' : Cluster} {envelope : Envelope}
    (job : c.job? task = some (.worker p number stage)) (stepped : c.stepJob task = some c')
    (began : .began envelope ∈ workerEvents (c.queueAt p number) stage (c'.job? task)) :
    Reacts p c task envelope c' := by
  obtain ⟨running, found, rfl, rfl⟩ := service_eq_some.mp serving.service
  obtain ⟨txn, queue, there⟩ := serving.manned.inbox task number stage job
  rw [queueAt_eq serving.service, Inboxes.queue_of_inbox there] at began
  rw [stepJob_of_worker job] at stepped
  cases workerMove_of_step stepped with
  | handle other retireAt first after reaction reacted same received done =>
    cases found.symm.trans same
    obtain ⟨rest, rfl, rfl⟩ := Inboxes.of_receive_some there received
    obtain rfl : envelope = first := by
      simp only [workerEvents, List.mem_cons, Event.began.injEq] at began
      refine began.resolve_right fun later => ?_
      split at later <;> simp at later
    exact ⟨number, running.address, _, reaction, reacted, done, rfl⟩
  | retire other retireAt after _ same received =>
    cases found.symm.trans same
    rw [Inboxes.of_receive_none there received] at began
    cases began
  | answer =>
    simp only [workerEvents, List.mem_singleton] at began
    cases began

theorem Serving.goes_on (serving : Serving p c address inboxes history []) {txn : String}
    {envelope : Envelope} {rest : List Envelope} (queued : inboxes.queued txn = envelope :: rest)
    (idle : (storyOf txn history).handling = []) : ∃ task c' events, .job task ∈ c.ready ∧
      c.stepJob task = some c' ∧ Step p c (.began envelope :: events) c' := by
  cases route : inboxes.routes.get? txn with
  | none => simp [Inboxes.queued, route] at queued
  | some number =>
    obtain ⟨queue, task, stage, there, job, handles⟩ := serving.worker_of_route route
    rw [serving.manned.paired.queued_of_inbox there] at queued
    subst queued
    rw [idle] at handles
    cases stage with
    | asking =>
      obtain ⟨_, nothing, _⟩ := handles
      cases nothing
    | receiving retireAt =>
      have can : (WorkerStage.receiving retireAt).CanStep (envelope :: rest) := List.cons_ne_nil _ _
      have ready := serving.awake task number _ job (by rwa [Inboxes.queue_of_inbox there])
      obtain ⟨c', stepped⟩ := Option.isSome_iff_exists.mp
        (isSome_stepJob serving.service serving.node job there can)
      have step := Step.work task number _ job ready stepped
      rw [queueAt_eq serving.service, Inboxes.queue_of_inbox there] at step
      exact ⟨task, c', _, ready, stepped, step⟩

theorem Serving.serialized (serving : Serving p c address inboxes history []) :
    Serialized p c inboxes history where
  in_order txn := by simpa using serving.accounted txn
  one_handler := serving.handling_length
  one_worker txn number route := by
    obtain ⟨_, task, stage, _, job, handles⟩ := serving.worker_of_route route
    exact ⟨task, stage, job, handles, fun other later found =>
      serving.manned.once other task number later stage found job⟩
  own_inbox task number stage job := by
    obtain ⟨txn, queue, there⟩ := serving.manned.inbox task number stage job
    exact ⟨txn, (serving.manned.paired.route_iff txn number).mpr ⟨queue, there⟩⟩
  at_rest txn unrouted := by
    have accounted := serving.accounted txn
    simpa [serving.busy.idle txn unrouted, Inboxes.queued, unrouted] using accounted.symm
  reacts _ _ _ _ _ job stepped began := serving.reacts job stepped began
  goes_on _ _ _ queued idle := serving.goes_on queued idle

end Told

/-- Whatever comes in, and in whichever order workers step, wait and retire: each message of a running
participant is handled once and in the order of its arrival, one of a transaction at a time, and no
transaction waits for the oracle of another. -/
theorem workers_serialize {p : Nat} {first c : Cluster} {history : List Event}
    (starts : Starts p first) (run : Run p first history c) :
    ∃ address inboxes, c.service p = some (address, inboxes) ∧ Serialized p c inboxes history := by
  obtain ⟨address, serving⟩ := starts.serving
  obtain ⟨inboxes, later⟩ := serving.later run
  exact ⟨address, inboxes, later.service, Serving.serialized later⟩

def vacant : Cluster := { nodes := Table.ofList [("p", { oracle := .byPayload })] }

def called : Cluster :=
  let started := (vacant.startParticipant "p").2
  let asked := started.send "c" "p" (.prepare "a" [] (Utf8.encode "slow"))
  (asked.send "c" "p" (.decision "a" .commit)).send "c" "p" (.prepare "b" [] [])

/-- While `a` waits for the oracle, with a message in its inbox, `b` gets its vote. -/
theorem vote_beside_a_held_oracle :
    Starts 0 (vacant.startParticipant "p").2 ∧ ∃ history,
      Run 0 (vacant.startParticipant "p").2 history (called.settleWithin 30) ∧
      ∃ address inboxes, (called.settleWithin 30).service 0 = some (address, inboxes) ∧
        Serialized 0 (called.settleWithin 30) inboxes history ∧
        storyOf "a" history = {
          arrived := [⟨"c", .prepare "a" [] (Utf8.encode "slow")⟩, ⟨"c", .decision "a" .commit⟩]
          handling := [⟨"c", .prepare "a" [] (Utf8.encode "slow")⟩] } ∧
        storyOf "b" history = {
          arrived := [⟨"c", .prepare "b" [] []⟩]
          handled := [⟨"c", .prepare "b" [] []⟩] } := by
  have started : vacant.startParticipant "p" = (.ok (), (vacant.startParticipant "p").2) :=
    Prod.ext rfl rfl
  have nobody : ∀ task, vacant.job? task = none := fun _ => rfl
  have starts : Starts 0 (vacant.startParticipant "p").2 :=
    starts_of_startParticipant (fun task there => by simp [nobody] at there)
      (fun task _ _ there => by simp [nobody] at there) rfl started
  have sends : Leaves 0 (vacant.startParticipant "p").2 called :=
    (Leaves.send ..).trans ((Leaves.send ..).trans (.send ..))
  obtain ⟨_, serving⟩ := (starts.leaves sends).serving
  have run := (Step.others sends).run.trans (serving.settle 30)
  obtain ⟨address, inboxes, serves, serialized⟩ := workers_serialize starts run
  exact ⟨starts, _, run, address, inboxes, serves, serialized, by decide +kernel, by decide +kernel⟩

end AtomicCommit.Cluster
