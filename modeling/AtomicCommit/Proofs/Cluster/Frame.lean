import AtomicCommit.Proofs.Cluster.Moves

/-! What leaves the workers of a participant alone: everything that happens in a cluster but the
deliveries to that participant and the steps of those workers. -/

namespace AtomicCommit.Cluster

section Jobs

variable (c : Cluster) (task other : Nat) (job : Job)

@[simp] theorem job?_setJob :
    (c.setJob task job).job? other = if other = task then some job else c.job? other := by
  simp only [job?, setJob, Table.get?_insert]
  split <;> rfl

@[simp] theorem job?_removeJob :
    (c.removeJob task).job? other = if other = task then none else c.job? other := by
  simp only [job?, removeJob, Table.get?_erase]
  split <;> rfl

theorem job?_spawn :
    (c.spawn job).2.job? other = if other = c.next then some job else c.job? other :=
  job?_setJob { c with next := c.next + 1 } c.next other job

theorem job?_beginWait : (c.beginWait task).job? other = c.job? other := by
  simp only [beginWait]
  split
  next job there =>
    simp only [job?, fresh, Table.get?_insert]
    split
    next same =>
      rw [same, there]
      rfl
    next => rfl
  next => rfl

end Jobs

def Numbered (c : Cluster) : Prop := ∀ task, (c.job? task).isSome → task < c.next

def service (c : Cluster) (p : Nat) : Option (String × Inboxes Envelope) :=
  (c.participants.get? p).map fun running => (running.address, running.inboxes)

/-- The workers of a participant and its inboxes stay as they are, and a worker that can run still
can. -/
structure Leaves (p : Nat) (c c' : Cluster) : Prop where
  service : c'.service p = c.service p
  nodes : ∀ address, (c.nodes.get? address).isSome → (c'.nodes.get? address).isSome
  workers : ∀ task inbox stage, c'.job? task = some (.worker p inbox stage) ↔
    c.job? task = some (.worker p inbox stage)
  ready : ∀ task inbox stage, c.job? task = some (.worker p inbox stage) → .job task ∈ c.ready →
    .job task ∈ c'.ready
  numbered : c.Numbered → c'.Numbered

def IsIdle (p : Nat) (c : Cluster) (task : Nat) : Prop :=
  ∀ inbox stage, c.job? task ≠ some (.worker p inbox stage)

def Job.IsForeign (p : Nat) (job : Job) : Prop := ∀ inbox stage, job ≠ .worker p inbox stage

variable {p q : Nat} {c c' c'' : Cluster} {task : Nat} {job : Job}

theorem Job.IsForeign.idle (foreign : job.IsForeign p) (there : c.job? task = some job) :
    IsIdle p c task := by
  intro inbox stage same
  exact foreign inbox stage (Option.some.inj (there.symm.trans same))

namespace Leaves

theorem refl (p : Nat) (c : Cluster) : Leaves p c c :=
  ⟨rfl, fun _ => id, fun _ _ _ => Iff.rfl, fun _ _ _ _ => id, id⟩

theorem trans (first : Leaves p c c') (second : Leaves p c' c'') : Leaves p c c'' := by
  refine ⟨second.service.trans first.service, fun address => second.nodes address ∘ first.nodes address,
    fun task inbox stage => (second.workers task inbox stage).trans (first.workers task inbox stage),
    fun task inbox stage there ready => ?_, second.numbered ∘ first.numbered⟩
  exact second.ready task inbox stage ((first.workers task inbox stage).mpr there)
    (first.ready task inbox stage there ready)

theorem idle (leaves : Leaves p c c') (idle : IsIdle p c task) : IsIdle p c' task :=
  fun inbox stage there => idle inbox stage ((leaves.workers task inbox stage).mp there)

theorem elsewhere (participants : c'.participants = c.participants) (nodes : c'.nodes = c.nodes)
    (tasks : c'.tasks = c.tasks) (next : c.next ≤ c'.next)
    (ready : ∀ turn ∈ c.ready, turn ∈ c'.ready) : Leaves p c c' := by
  have jobs : ∀ task, c'.job? task = c.job? task := fun task => by rw [job?, tasks, job?]
  refine ⟨by rw [Cluster.service, participants, Cluster.service], by simp [nodes], by simp [jobs],
    fun task _ _ _ => ready _, fun numbered task there => ?_⟩
  rw [jobs] at there
  exact Nat.lt_of_lt_of_le (numbered task there) next

theorem foldl {α : Type} {f : Cluster → α → Cluster}
    (each : ∀ c x, c.Numbered → Leaves p c (f c x)) (items : List α) (numbered : c.Numbered) :
    Leaves p c (items.foldl f c) := by
  induction items generalizing c with
  | nil => exact .refl p c
  | cons item rest ih =>
    have first := each c item numbered
    exact first.trans (ih (first.numbered numbered))

theorem wake (c : Cluster) (task : Nat) : Leaves p c (c.wake task) := by
  simp only [Cluster.wake]
  split
  · exact .refl p c
  · exact .elsewhere rfl rfl rfl (Nat.le_refl _) fun turn there => List.mem_append_left _ there

theorem wakeListeners (numbered : c.Numbered) (owner : Hook) (inbox : Nat) :
    Leaves p c (c.wakeListeners owner inbox) :=
  .foldl (fun c task _ => .wake c task) _ numbered

theorem fresh (c : Cluster) : Leaves p c c.fresh.2 :=
  .elsewhere rfl rfl rfl (Nat.le_succ _) fun _ => id

theorem finishCall (c : Cluster) (call : Nat) (result : CallResult) :
    Leaves p c (c.finishCall call result) :=
  .elsewhere rfl rfl rfl (Nat.le_refl _) fun _ => id

theorem send (c : Cluster) (sender recipient : String) (message : Message) :
    Leaves p c (c.send sender recipient message) :=
  .elsewhere rfl rfl rfl (Nat.le_refl _) fun _ there => List.mem_append_left _ there

theorem updateNode (c : Cluster) (address : String) (change : Node → Node) :
    Leaves p c (c.updateNode address change) := by
  refine ⟨rfl, fun other there => ?_, fun _ _ _ => Iff.rfl, fun _ _ _ _ => id, id⟩
  simp only [Cluster.updateNode, Table.get?_adjust]
  split <;> simpa using there

theorem setJob (idle : IsIdle p c task) (there : (c.job? task).isSome) (foreign : job.IsForeign p) :
    Leaves p c (c.setJob task job) := by
  refine ⟨rfl, fun _ => id, fun other inbox stage => ?_, fun _ _ _ _ => id,
    fun numbered other found => ?_⟩
  · rw [job?_setJob]
    split
    next same =>
      subst same
      exact iff_of_false (by simpa using foreign inbox stage) (idle inbox stage)
    next => exact Iff.rfl
  · rw [job?_setJob] at found
    split at found
    next same => exact same ▸ numbered task there
    next => exact numbered other found

theorem removeJob (idle : IsIdle p c task) : Leaves p c (c.removeJob task) := by
  have distinct : ∀ other inbox stage, c.job? other = some (.worker p inbox stage) →
      other ≠ task := by
    rintro other inbox stage there rfl
    exact idle inbox stage there
  refine ⟨rfl, fun _ => id, fun other inbox stage => ?_, fun other inbox stage there ready => ?_,
    fun numbered other found => ?_⟩
  · rw [job?_removeJob]
    split
    next same => exact iff_of_false (by simp) (same ▸ idle inbox stage)
    next => exact Iff.rfl
  · exact List.mem_filter.mpr ⟨ready, by simpa using distinct other inbox stage there⟩
  · rw [job?_removeJob] at found
    split at found
    · cases found
    · exact numbered other found

theorem spawn (numbered : c.Numbered) (foreign : job.IsForeign p) : Leaves p c (c.spawn job).2 := by
  have unused : c.job? c.next = none := by
    cases found : c.job? c.next with
    | none => rfl
    | some job => exact absurd (numbered c.next (by simp [found])) (Nat.lt_irrefl _)
  refine ⟨rfl, fun _ => id, fun other inbox stage => ?_,
    fun _ _ _ _ ready => List.mem_append_left _ ready, fun _ other found => ?_⟩
  · rw [job?_spawn]
    split
    next same =>
      subst same
      exact iff_of_false (by simpa using foreign inbox stage) (by simp [unused])
    next => exact Iff.rfl
  · rw [job?_spawn] at found
    split at found
    next same => exact same ▸ Nat.lt_succ_self _
    next => exact Nat.lt_succ_of_lt (numbered other found)

theorem beginWait (c : Cluster) (task : Nat) : Leaves p c (c.beginWait task) := by
  have next : c.next ≤ (c.beginWait task).next := by
    simp only [Cluster.beginWait]
    split
    · exact Nat.le_succ _
    · exact Nat.le_refl _
  have rest : (c.beginWait task).participants = c.participants ∧
      (c.beginWait task).nodes = c.nodes ∧ (c.beginWait task).ready = c.ready := by
    simp only [Cluster.beginWait]
    split <;> exact ⟨rfl, rfl, rfl⟩
  refine ⟨by rw [Cluster.service, rest.1, Cluster.service], by simp [rest.2.1],
    by simp [job?_beginWait], fun _ _ _ _ => by rw [rest.2.2]; exact id, fun numbered other found => ?_⟩
  rw [job?_beginWait] at found
  exact Nat.lt_of_lt_of_le (numbered other found) next

theorem setInboxes (distinct : q ≠ p) (c : Cluster) (inboxes : Inboxes Envelope) :
    Leaves p c (c.setInboxes q inboxes) := by
  refine ⟨?_, fun _ => id, fun _ _ _ => Iff.rfl, fun _ _ _ _ => id, id⟩
  simp [Cluster.service, Cluster.setInboxes, distinct.symm]

theorem atParticipant {α : Type}
    {action : Participant Participant.Storage → α × Participant Participant.Storage} {result : α}
    (done : c.atParticipant q action = some (result, c')) : Leaves p c c' := by
  simp only [Cluster.atParticipant, Option.bind_eq_bind, Option.bind_eq_some_iff] at done
  obtain ⟨running, there, node, found, rfl, rfl⟩ := done
  refine ⟨?_, fun address known => ?_, fun _ _ _ => Iff.rfl, fun _ _ _ _ => id, id⟩
  · simp only [Cluster.service, Table.get?_insert]
    split
    next same => simp [same, there]
    next => rfl
  · rw [Table.get?_insert]
    split
    · rfl
    · exact known

theorem ask (c : Cluster) (address : String) (request : Participant.VoteRequest) :
    Leaves p c (c.ask address request).2 :=
  (fresh c).trans (updateNode ..)

end Leaves

section Foreign

theorem Job.foreign_worker (distinct : q ≠ p) (inbox : Nat) (stage : WorkerStage) :
    (Job.worker q inbox stage).IsForeign p := by
  rintro _ _ ⟨⟩
  exact distinct rfl

theorem withWorker_leaves (distinct : q ≠ p) (numbered : c.Numbered) (running : RunningParticipant)
    (txn : String) : Leaves p c (c.withWorker q running txn) := by
  simp only [withWorker]
  split
  · exact .refl p c
  next inbox inboxes _ =>
    have set := Leaves.setInboxes distinct c inboxes
    exact set.trans (.spawn (set.numbered numbered) (Job.foreign_worker distinct _ _))

theorem putIntoInbox_leaves (distinct : q ≠ p) (numbered : c.Numbered) (envelope : Envelope) :
    Leaves p c (c.putIntoInbox q envelope) := by
  simp only [putIntoInbox]
  split
  · exact .refl p c
  next running _ =>
    split
    · exact .refl p c
    next inbox inboxes _ =>
      have set := Leaves.setInboxes distinct c inboxes
      exact set.trans (.wakeListeners (set.numbered numbered) _ _)

theorem routeToWorker_leaves (distinct : q ≠ p) (numbered : c.Numbered) (envelope : Envelope) :
    Leaves p c (c.routeToWorker q envelope) := by
  cases there : c.participants.get? q with
  | none =>
    rw [routeToWorker_absent there]
    exact .refl p c
  | some running =>
    rw [routeToWorker_eq there]
    have made := withWorker_leaves distinct numbered running envelope.message.txn
    exact made.trans (putIntoInbox_leaves distinct (made.numbered numbered) envelope)

theorem receiveAtParticipant_leaves (distinct : q ≠ p) (numbered : c.Numbered) (packet : Packet) :
    Leaves p c (c.receiveAtParticipant q packet) := by
  simp only [receiveAtParticipant]
  split
  · exact .refl p c
  · exact routeToWorker_leaves distinct numbered _

theorem retireWorker_leaves (distinct : q ≠ p) (numbered : c.Numbered) {inbox : Nat}
    (idle : IsIdle p c task) (retired : c.retireWorker task q inbox = some c') : Leaves p c c' := by
  simp only [retireWorker, Option.bind_eq_bind, Option.bind_eq_some_iff, Option.pure_def,
    Option.some.injEq] at retired
  obtain ⟨running, there, rfl⟩ := retired
  have closed := Leaves.setInboxes distinct c (running.inboxes.close inbox).2
  have gone := closed.trans (.removeJob (closed.idle idle))
  exact gone.trans (.foldl (fun _ envelope numbered => routeToWorker_leaves distinct numbered envelope)
    _ (gone.numbered numbered))

theorem concluded_leaves (distinct : q ≠ p) (there : (c.job? task).isSome) (idle : IsIdle p c task)
    (inbox : Nat) (address recipient : String) (reaction : Participant.Reaction) :
    Leaves p c (c.concluded task q inbox address recipient reaction) := by
  cases reaction with
  | silent => exact .setJob idle there (Job.foreign_worker distinct _ _)
  | reply message =>
    have sent := Leaves.send (p := p) c address recipient message
    exact sent.trans (.setJob (sent.idle idle) there (Job.foreign_worker distinct _ _))
  | ask request =>
    have asked := Leaves.ask (p := p) c address request
    exact asked.trans (.setJob (asked.idle idle) there (Job.foreign_worker distinct _ _))

theorem job?_atParticipant {α : Type}
    {action : Participant Participant.Storage → α × Participant Participant.Storage} {result : α}
    (done : c.atParticipant q action = some (result, c')) : c'.job? task = c.job? task := by
  simp only [atParticipant, Option.bind_eq_bind, Option.bind_eq_some_iff] at done
  obtain ⟨running, _, node, _, done⟩ := done
  cases done
  rfl

theorem result_atParticipant {α : Type}
    {action : Participant Participant.Storage → α × Participant Participant.Storage} {result : α}
    (done : c.atParticipant p action = some (result, c')) : ∃ before, (action before).1 = result := by
  simp only [atParticipant, Option.bind_eq_bind, Option.bind_eq_some_iff] at done
  obtain ⟨_, _, _, _, done⟩ := done
  cases done
  exact ⟨_, rfl⟩

theorem stepWorker_leaves (distinct : q ≠ p) (numbered : c.Numbered) {inbox : Nat}
    {stage : WorkerStage} (there : c.job? task = some (.worker q inbox stage))
    (stepped : c.stepWorker task q inbox stage = some c') : Leaves p c c' := by
  have idle : IsIdle p c task := (Job.foreign_worker distinct inbox stage).idle there
  cases workerMove_of_step stepped with
  | handle running retireAt envelope inboxes reaction reacted _ _ done =>
    have handled := (Leaves.setInboxes distinct c inboxes).trans (.atParticipant done)
    have known : (reacted.job? task).isSome := by
      rw [job?_atParticipant done]
      exact Option.isSome_iff_exists.mpr ⟨_, there⟩
    exact handled.trans (concluded_leaves distinct known (handled.idle idle) _ _ _ _)
  | retire running retireAt inboxes _ _ _ _ retired =>
    exact retireWorker_leaves distinct numbered idle retired
  | answer running sender request question approved result answered _ done =>
    have handled : Leaves p c answered := .atParticipant done
    have known : (answered.job? task).isSome := by
      rw [job?_atParticipant done]
      exact Option.isSome_iff_exists.mpr ⟨_, there⟩
    exact handled.trans (concluded_leaves distinct known (handled.idle idle) _ _ _ _)

end Foreign

end AtomicCommit.Cluster
