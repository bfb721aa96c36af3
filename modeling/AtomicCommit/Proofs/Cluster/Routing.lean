import AtomicCommit.Proofs.Cluster.Serving
import AtomicCommit.Proofs.Tables

/-! Messages on their way to the workers of a participant, which are made for them and retire. -/

namespace AtomicCommit.Cluster

section Spawned

variable {c : Cluster} {p task number retireAt : Nat} {address txn : String}
  {inboxes : Inboxes Envelope} {history shown told : List Event} {hands : List Envelope}
  {stage stage' : WorkerStage}

theorem job?_spawn_old (numbered : c.Numbered) {job : Job} (there : c.job? task = some job)
    (new : Job) : (c.spawn new).2.job? task = some job := by
  have known := numbered task (by simp [there])
  rw [job?_spawn, if_neg (Nat.ne_of_lt known), there]

theorem worker_of_spawn
    (there : (c.spawn (.worker p number stage)).2.job? task = some (.worker p inbox stage')) :
    (task = c.next ∧ inbox = number ∧ stage' = stage) ∨
      c.job? task = some (.worker p inbox stage') := by
  rw [job?_spawn] at there
  split at there
  next here =>
    cases there
    exact .inl ⟨here, rfl, rfl⟩
  next => exact .inr there

theorem inbox_created {inbox : Inbox Envelope}
    (there : (inboxes.created txn).inboxes.get? number = some inbox) :
    (number = inboxes.next ∧ inbox = ⟨txn, []⟩) ∨ inboxes.inboxes.get? number = some inbox := by
  simp only [Inboxes.created, Table.get?_insert] at there
  split at there
  next here =>
    cases there
    exact .inl ⟨here, rfl⟩
  next => exact .inr there

theorem Manned.number_lt (manned : Manned p c inboxes)
    (job : c.job? task = some (.worker p number stage)) : number < inboxes.next := by
  obtain ⟨txn, queue, there⟩ := manned.inbox task number stage job
  exact manned.paired.known number _ there

theorem Manned.spawn (manned : Manned p c inboxes) (unrouted : inboxes.routes.get? txn = none)
    (stage : WorkerStage) :
    Manned p (c.spawn (.worker p inboxes.next stage)).2 (inboxes.created txn) := by
  refine ⟨fun other found => ?_, manned.paired.created unrouted, fun place inbox found => ?_,
    fun other place later job => ?_, fun first second place later later' one two => ?_⟩
  · rw [job?_spawn] at found
    split at found
    next here => exact here ▸ Nat.lt_succ_self _
    next => exact Nat.lt_succ_of_lt (manned.numbered other found)
  · rcases inbox_created found with ⟨rfl, rfl⟩ | former
    · exact ⟨c.next, stage, by simp [job?_spawn]⟩
    · obtain ⟨task, former, job⟩ := manned.worker place inbox former
      exact ⟨task, former, job?_spawn_old manned.numbered job _⟩
  · rcases worker_of_spawn job with ⟨rfl, rfl, rfl⟩ | job
    · exact ⟨txn, [], by simp [Inboxes.created]⟩
    · obtain ⟨name, queue, there⟩ := manned.inbox other place later job
      refine ⟨name, queue, ?_⟩
      simp [Inboxes.created, Nat.ne_of_lt (manned.number_lt job), there]
  · rcases worker_of_spawn one with ⟨new, here, _⟩ | old <;>
      rcases worker_of_spawn two with ⟨newToo, hereToo, _⟩ | oldToo
    · exact new.trans newToo.symm
    · exact absurd (manned.number_lt oldToo) (by omega)
    · exact absurd (manned.number_lt old) (by omega)
    · exact manned.once first second place later later' old oldToo

theorem Awake.spawn (awake : Awake p c inboxes) (manned : Manned p c inboxes)
    (stage : WorkerStage) :
    Awake p (c.spawn (.worker p inboxes.next stage)).2 (inboxes.created txn) := by
  intro other place later job can
  rcases worker_of_spawn job with ⟨rfl, rfl, rfl⟩ | job
  · exact List.mem_append_right _ (List.mem_singleton_self _)
  · refine List.mem_append_left _ (awake other place later job ?_)
    have distinct := Nat.ne_of_lt (manned.number_lt job)
    simpa [Inboxes.queue, Inboxes.created, distinct] using can

theorem Busy.spawn (busy : Busy p c inboxes history) (manned : Manned p c inboxes)
    (unrouted : inboxes.routes.get? txn = none) (retireAt : Nat) :
    Busy p (c.spawn (.worker p inboxes.next (.receiving retireAt))).2 (inboxes.created txn)
      history := by
  refine ⟨fun name unrouted => busy.idle name ?_, fun other place later name queue job found => ?_⟩
  · simp only [Inboxes.created, Table.get?_insert] at unrouted
    split at unrouted
    · cases unrouted
    · exact unrouted
  · rcases worker_of_spawn job with ⟨rfl, rfl, rfl⟩ | job
    · rcases inbox_created found with ⟨_, same⟩ | known
      · cases same
        exact busy.idle txn unrouted
      · exact absurd (manned.paired.known _ _ known) (Nat.lt_irrefl _)
    · rcases inbox_created found with ⟨rfl, _⟩ | found
      · exact absurd (manned.number_lt job) (Nat.lt_irrefl _)
      · exact busy.worker other place later name queue job found

theorem Accounted.created (accounted : Accounted history hands inboxes) (paired : inboxes.Paired)
    (unrouted : inboxes.routes.get? txn = none) :
    Accounted history hands (inboxes.created txn) := by
  intro name
  rw [paired.queued_created unrouted]
  exact accounted name

theorem Serving.withWorker (serving : Serving p c address inboxes history hands)
    {running : RunningParticipant} (there : c.participants.get? p = some running) (txn : String) :
    ∃ after, Serving p (c.withWorker p running txn) address after history hands ∧
      (after.routes.get? txn).isSome := by
  obtain ⟨_, same, rfl, rfl⟩ := service_eq_some.mp serving.service
  cases there.symm.trans same
  rw [Cluster.withWorker]
  cases route : running.inboxes.routes.get? txn with
  | some number =>
    rw [Inboxes.create_of_routed route]
    exact ⟨running.inboxes, serving, by simp [route]⟩
  | none =>
    rw [Inboxes.create_of_unrouted route]
    obtain ⟨manned, awake, busy⟩ := serving.kept (running.inboxes.created txn)
    refine ⟨running.inboxes.created txn, ⟨service_setInboxes serving.service, serving.node,
      manned.spawn route _, awake.spawn manned _, serving.accounted.created manned.paired route,
      busy.spawn manned route _⟩, ?_⟩
    · simp [Inboxes.created]

end Spawned

section Routed

variable {c c' : Cluster} {p task number : Nat} {address txn : String}
  {inboxes : Inboxes Envelope} {history : List Event} {envelope : Envelope}
  {hands queue : List Envelope}

theorem mem_ready_wake (c : Cluster) (task : Nat) : .job task ∈ (c.wake task).ready := by
  simp only [wake]
  split
  next already => simpa using already
  next => simp

theorem mem_ready_foldl_wake {tasks : List Nat} {turn : Turn}
    (there : turn ∈ c.ready ∨ ∃ task ∈ tasks, turn = .job task) :
    turn ∈ (tasks.foldl wake c).ready := by
  induction tasks generalizing c with
  | nil => simpa using there
  | cons task rest ih =>
    refine ih ?_
    rcases there with before | ⟨other, member, rfl⟩
    · refine .inl ?_
      simp only [wake]
      split
      · exact before
      · exact List.mem_append_left _ before
    · rcases List.mem_cons.mp member with rfl | later
      · exact .inl (mem_ready_wake c other)
      · exact .inr ⟨other, later, rfl⟩

theorem mem_ready_wakeListeners {owner : Hook} {inbox : Nat} {job : Job}
    (there : c.job? task = some job) (listens : job.listensTo owner inbox) :
    .job task ∈ (c.wakeListeners owner inbox).ready := by
  obtain ⟨record, found, rfl⟩ := Option.map_eq_some_iff.mp there
  refine mem_ready_foldl_wake (.inr ⟨task, List.mem_map.mpr ⟨(task, record), ?_, rfl⟩, rfl⟩)
  exact List.mem_filter.mpr ⟨Table.mem_of_get? found, listens⟩

theorem Awake.put (awake : Awake p c inboxes) (manned : Manned p c inboxes)
    (queue : List Envelope) :
    Awake p (c.wakeListeners (.participant p) number) (inboxes.withQueue number txn queue) := by
  intro other place stage job can
  have woken := Leaves.wakeListeners (p := p) manned.numbered (.participant p) number
  have before := (woken.workers _ _ _).mp job
  by_cases own : place = number ∧ ¬ stage.isAsking
  · obtain ⟨rfl, listening⟩ := own
    refine mem_ready_wakeListeners before ?_
    cases stage with
    | receiving => simp [Job.listensTo]
    | asking => exact absurd rfl listening
  · refine woken.ready other place stage before (awake other place stage before ?_)
    rw [queue_withQueue] at can
    split at can
    next here =>
      cases stage with
      | receiving => exact absurd ⟨here, by simp [WorkerStage.isAsking]⟩ own
      | asking _ _ _ answer => cases answer <;> exact can
    next => exact can

theorem Accounted.put (accounted : Accounted history (envelope :: hands) inboxes)
    (paired : inboxes.Paired)
    (there : inboxes.inboxes.get? number = some ⟨envelope.message.txn, queue⟩) :
    Accounted history hands
      (inboxes.withQueue number envelope.message.txn (queue ++ [envelope])) := by
  intro txn
  rw [accounted txn, paired.queued_withQueue there]
  by_cases own : txn = envelope.message.txn
  · subst own
    simp [paired.queued_of_inbox there]
  · simp [own, Ne.symm own]

theorem Serving.putIntoInbox (serving : Serving p c address inboxes history (envelope :: hands))
    (routed : (inboxes.routes.get? envelope.message.txn).isSome) :
    ∃ after, Serving p (c.putIntoInbox p envelope) address after history hands := by
  obtain ⟨running, there, rfl, rfl⟩ := service_eq_some.mp serving.service
  obtain ⟨number, route⟩ := Option.isSome_iff_exists.mp routed
  have paired := serving.manned.paired
  obtain ⟨queue, inbox⟩ := paired.named _ _ route
  rw [Cluster.putIntoInbox, there]
  simp only [paired.deliver_eq inbox]
  obtain ⟨manned, awake, busy⟩ := serving.kept (running.inboxes.withQueue number
    envelope.message.txn (queue ++ [envelope]))
  have woken := Leaves.wakeListeners (p := p) manned.numbered (.participant p) number
  exact ⟨_, woken.service.trans (service_setInboxes serving.service), woken.nodes _ serving.node,
    (manned.withQueue inbox _).leaves woken, awake.put manned _,
    serving.accounted.put paired inbox, (busy.withQueue inbox _).leaves woken⟩

theorem Serving.route (serving : Serving p c address inboxes history (envelope :: hands)) :
    ∃ after, Serving p (c.routeToWorker p envelope) address after history hands := by
  obtain ⟨running, there, _⟩ := service_eq_some.mp serving.service
  rw [routeToWorker_eq there]
  obtain ⟨after, manned, routed⟩ := serving.withWorker there envelope.message.txn
  exact manned.putIntoInbox routed

theorem Serving.routes {inboxes : Inboxes Envelope} {envelopes : List Envelope}
    (serving : Serving p c address inboxes history envelopes) :
    ∃ after, Serving p (envelopes.foldl (fun c envelope => c.routeToWorker p envelope) c) address
      after history [] := by
  induction envelopes generalizing c inboxes with
  | nil => exact ⟨inboxes, serving⟩
  | cons envelope rest ih =>
    obtain ⟨after, routed⟩ := serving.route
    exact ih routed

end Routed

section Retired

variable {c c' : Cluster} {p task number : Nat} {address txn : String}
  {inboxes : Inboxes Envelope} {history : List Event} {queue : List Envelope} {stage : WorkerStage}

theorem inbox_without {place : Nat} {inbox : Inbox Envelope} :
    (inboxes.without number txn).inboxes.get? place = some inbox ↔
      place ≠ number ∧ inboxes.inboxes.get? place = some inbox := by
  simp [Inboxes.without, Table.get?_erase]

theorem worker_of_removeJob {other : Nat} {job : Job} :
    (c.removeJob task).job? other = some job ↔ other ≠ task ∧ c.job? other = some job := by
  simp

section

variable (job : c.job? task = some (.worker p number stage))
  (there : inboxes.inboxes.get? number = some ⟨txn, queue⟩)

include job

theorem Manned.elsewhere (manned : Manned p c inboxes) {other place : Nat} {later : WorkerStage}
    (distinct : other ≠ task) (found : c.job? other = some (.worker p place later)) :
    place ≠ number := by
  rintro rfl
  exact distinct (manned.once other task place later stage found job)

include there

theorem Manned.retire (manned : Manned p c inboxes) :
    Manned p (c.removeJob task) (inboxes.without number txn) := by
  refine ⟨fun other found => ?_, manned.paired.without there, fun place inbox found => ?_,
    fun other place later found => ?_, fun first second place later later' one two => ?_⟩
  · obtain ⟨left, found⟩ := Option.isSome_iff_exists.mp found
    exact manned.numbered other (by simp [(worker_of_removeJob.mp found).2])
  · obtain ⟨distinct, found⟩ := inbox_without.mp found
    obtain ⟨other, later, worker⟩ := manned.worker place inbox found
    refine ⟨other, later, worker_of_removeJob.mpr ⟨?_, worker⟩⟩
    rintro rfl
    cases job.symm.trans worker
    exact distinct rfl
  · obtain ⟨distinct, found⟩ := worker_of_removeJob.mp found
    obtain ⟨name, messages, inbox⟩ := manned.inbox other place later found
    exact ⟨name, messages, inbox_without.mpr ⟨manned.elsewhere job distinct found, inbox⟩⟩
  · exact manned.once first second place later later' (worker_of_removeJob.mp one).2
      (worker_of_removeJob.mp two).2

omit there in
theorem Awake.retire (awake : Awake p c inboxes) (manned : Manned p c inboxes) :
    Awake p (c.removeJob task) (inboxes.without number txn) := by
  intro other place later found can
  obtain ⟨distinct, found⟩ := worker_of_removeJob.mp found
  have elsewhere := manned.elsewhere job distinct found
  have ready := awake other place later found
    (by simpa [Inboxes.queue, Inboxes.without, elsewhere] using can)
  exact List.mem_filter.mpr ⟨ready, by simpa using distinct⟩

end

theorem Busy.retire (busy : Busy p c inboxes history)
    (idle : (storyOf txn history).handling = []) :
    Busy p (c.removeJob task) (inboxes.without number txn) history := by
  refine ⟨fun name unrouted => ?_, fun other place later name messages found inbox => ?_⟩
  · by_cases same : name = txn
    · exact same ▸ idle
    · exact busy.idle name (by simpa [Inboxes.without, same] using unrouted)
  · exact busy.worker other place later name messages (worker_of_removeJob.mp found).2
      (inbox_without.mp inbox).2

theorem Accounted.retire (accounted : Accounted history [] inboxes) (paired : inboxes.Paired)
    (there : inboxes.inboxes.get? number = some ⟨txn, queue⟩) :
    Accounted history queue (inboxes.without number txn) := by
  have own : ∀ envelope ∈ queue, envelope.message.txn = txn := fun envelope member =>
    accounted.own (by rwa [paired.queued_of_inbox there])
  intro name
  rw [accounted name, paired.queued_without there]
  by_cases same : name = txn
  · subst same
    have all : (queue.filter fun envelope => envelope.message.txn = name) = queue :=
      List.filter_eq_self.mpr fun envelope member => by simpa using own envelope member
    simp [paired.queued_of_inbox there, all]
  · have nothing : (queue.filter fun envelope => envelope.message.txn = name) = [] :=
      List.filter_eq_nil_iff.mpr fun envelope member => by
        simpa [own envelope member] using Ne.symm same
    simp [same, nothing]

theorem Serving.retire (serving : Serving p c address inboxes history []) {retireAt : Nat}
    (job : c.job? task = some (.worker p number (.receiving retireAt)))
    (retired : c.retireWorker task p number = some c') :
    ∃ after, Serving p c' address after history [] := by
  obtain ⟨running, found, rfl, rfl⟩ := service_eq_some.mp serving.service
  obtain ⟨txn, queue, there⟩ := serving.manned.inbox task number _ job
  have paired := serving.manned.paired
  simp only [retireWorker, found, Option.bind_eq_bind, Option.bind_some, paired.close_eq there,
    Option.pure_def, Option.some.injEq] at retired
  rw [← retired]
  obtain ⟨manned, awake, busy⟩ := serving.kept (running.inboxes.without number txn)
  have idle : (storyOf txn history).handling = [] :=
    serving.busy.worker task number _ txn queue job there
  have left : Serving p ((c.setInboxes p (running.inboxes.without number txn)).removeJob task)
      running.address (running.inboxes.without number txn) history queue :=
    ⟨service_setInboxes serving.service, serving.node, manned.retire job there,
      awake.retire job manned, serving.accounted.retire paired there,
      busy.retire idle⟩
  exact left.routes

end Retired

end AtomicCommit.Cluster
