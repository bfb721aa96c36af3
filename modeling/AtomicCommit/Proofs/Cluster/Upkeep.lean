import AtomicCommit.Proofs.Cluster.Tending
import AtomicCommit.Proofs.Cluster.Turns
import AtomicCommit.Proofs.Coordinator.Consistent

/-! A coordinator keeps its place on the transport, and its engines their inboxes, whatever takes a turn
and however long it takes. -/

namespace AtomicCommit.Cluster

open Coordinator (Transaction Stage Storage)

structure Working (c : Cluster) (i : Nat) (hook : Option Hook) : Prop where
  current : c.office.current = some i
  hook : c.transport.hooks.get? coordinatorAddress = hook
  tended : ∃ inboxes, c.inboxes? i = some inboxes ∧ Tended c i inboxes
  orderly : c.Orderly

def sendAll (c : Cluster) (sent : List (String × Message)) : Cluster :=
  sent.foldl (fun c packet => c.send coordinatorAddress packet.1 packet.2) c

/-- Something goes on that concerns neither the coordinator's place nor its engines and inboxes. -/
structure Spares (i : Nat) (c c' : Cluster) : Prop where
  current : c'.office.current = c.office.current
  hooks : c'.transport.hooks = c.transport.hooks
  inboxes : c'.inboxes? i = c.inboxes? i
  engines : ∀ task, c'.engine? i task = c.engine? i task
  orderly : c.Orderly → c'.Orderly

variable {c c' c'' : Cluster} {i j p task number : Nat} {t : Transaction} {stage : Stage}
  {inboxes : Inboxes Envelope} {hook : Option Hook} {job : Job}

namespace Spares

theorem refl (i : Nat) (c : Cluster) : Spares i c c := ⟨rfl, rfl, rfl, fun _ => rfl, id⟩

theorem trans (first : Spares i c c') (second : Spares i c' c'') : Spares i c c'' :=
  ⟨second.current.trans first.current, second.hooks.trans first.hooks,
    second.inboxes.trans first.inboxes, fun task => (second.engines task).trans (first.engines task),
    second.orderly ∘ first.orderly⟩

theorem foldl {α : Type} {f : Cluster → α → Cluster} (each : ∀ c x, Spares i c (f c x))
    (items : List α) (c : Cluster) : Spares i c (items.foldl f c) := by
  induction items generalizing c with
  | nil => exact .refl i c
  | cons item rest ih => exact (each c item).trans (ih _)

theorem foldl_of_orderly {α : Type} {f : Cluster → α → Cluster}
    (each : ∀ c x, c.Orderly → Spares i c (f c x)) (items : List α) (orderly : c.Orderly) :
    Spares i c (items.foldl f c) := by
  induction items generalizing c with
  | nil => exact .refl i c
  | cons item rest ih =>
    have first := each c item orderly
    exact first.trans (ih (first.orderly orderly))

theorem elsewhere (current : c'.office.current = c.office.current)
    (hooks : c'.transport.hooks = c.transport.hooks) (inboxes : c'.inboxes? i = c.inboxes? i)
    (tasks : c'.tasks = c.tasks) (next : c.next ≤ c'.next) : Spares i c c' :=
  ⟨current, hooks, inboxes, fun task => by rw [engine?, job?, tasks, engine?, job?],
    fun orderly => orderly.elsewhere tasks next⟩

theorem clock (c : Cluster) (time : Nat) : Spares i c { c with clock := time } :=
  .elsewhere rfl rfl rfl rfl (Nat.le_refl _)

theorem wake (c : Cluster) (task : Nat) : Spares i c (c.wake task) := by
  simp only [Cluster.wake]
  split
  · exact .refl i c
  · exact .elsewhere rfl rfl rfl rfl (Nat.le_refl _)

theorem send (c : Cluster) (sender recipient : String) (message : Message) :
    Spares i c (c.send sender recipient message) := by
  refine .elsewhere rfl ?_ rfl rfl (Nat.le_refl _)
  simp only [Cluster.send, sendPacket, Transport.send]
  split <;> rfl

theorem wakeListeners (c : Cluster) (owner : Hook) (inbox : Nat) :
    Spares i c (c.wakeListeners owner inbox) := .foldl .wake _ _

theorem sendAll (c : Cluster) (sent : List (String × Message)) : Spares i c (c.sendAll sent) :=
  .foldl (fun c _ => .send c _ _ _) _ _

theorem finishCall (c : Cluster) (call : Nat) (result : CallResult) :
    Spares i c (c.finishCall call result) := .elsewhere rfl rfl rfl rfl (Nat.le_refl _)

theorem keepStorage (c : Cluster) (j : Nat) (storage : Storage) :
    Spares i c (c.keepStorage j storage) := by
  refine .elsewhere rfl rfl ?_ rfl (Nat.le_refl _)
  simp only [inboxes?, Cluster.keepStorage, Table.get?_adjust]
  split
  · rw [Option.map_map]
    rfl
  · rfl

theorem setCoordinatorInboxes (distinct : j ≠ i) (c : Cluster) (inboxes : Inboxes Envelope) :
    Spares i c (c.setCoordinatorInboxes j inboxes) := by
  refine .elsewhere rfl rfl ?_ rfl (Nat.le_refl _)
  simp [inboxes?, Cluster.setCoordinatorInboxes, distinct.symm]

theorem setJob (idle : c.engine? i task = none) (there : (c.job? task).isSome)
    (foreign : job.engineOf? i = none) : Spares i c (c.setJob task job) := by
  refine ⟨rfl, rfl, rfl, fun other => ?_, fun orderly => orderly.setJob there job⟩
  rw [engine?_setJob]
  split
  next same => rw [same, idle, foreign]
  next => rfl

theorem spawn (orderly : c.Orderly) (foreign : job.engineOf? i = none) :
    Spares i c (c.spawn job).2 := by
  refine ⟨rfl, rfl, rfl, fun other => ?_, fun _ => orderly.spawn job⟩
  rw [engine?_spawn]
  split
  next same => rw [same, foreign, engine?, orderly.unused, Option.bind_none]
  next => rfl

theorem beginWait (c : Cluster) (task : Nat) : Spares i c (c.beginWait task) := by
  have rest : (c.beginWait task).office = c.office ∧ (c.beginWait task).transport = c.transport ∧
      (c.beginWait task).coordinators = c.coordinators ∧ c.next ≤ (c.beginWait task).next := by
    simp only [Cluster.beginWait]
    split
    · exact ⟨rfl, rfl, rfl, Nat.le_succ _⟩
    · exact ⟨rfl, rfl, rfl, Nat.le_refl _⟩
  refine ⟨by rw [rest.1], by rw [rest.2.1], by rw [inboxes?, rest.2.2.1, inboxes?],
    fun other => by rw [engine?, job?_beginWait, engine?], fun orderly => ⟨fun other found => ?_, ?_⟩⟩
  · rw [job?_beginWait] at found
    exact Nat.lt_of_lt_of_le (orderly.numbered other found) rest.2.2.2
  · simp only [Cluster.beginWait]
    split
    · exact Table.sorted_insert orderly.sorted _ _
    · exact orderly.sorted

theorem atParticipant {α : Type}
    {action : Participant Participant.Storage → α × Participant Participant.Storage} {result : α}
    (done : c.atParticipant p action = some (result, c')) : Spares i c c' := by
  simp only [Cluster.atParticipant, Option.bind_eq_bind, Option.bind_eq_some_iff] at done
  obtain ⟨running, _, node, _, done⟩ := done
  cases done
  exact .elsewhere rfl rfl rfl rfl (Nat.le_refl _)

theorem ask (c : Cluster) (address : String) (request : Participant.VoteRequest) :
    Spares i c (c.ask address request).2 := .elsewhere rfl rfl rfl rfl (Nat.le_succ _)

theorem setInboxes (c : Cluster) (p : Nat) (inboxes : Inboxes Envelope) :
    Spares i c (c.setInboxes p inboxes) := .elsewhere rfl rfl rfl rfl (Nat.le_refl _)

theorem removeJob (idle : c.engine? i task = none) : Spares i c (c.removeJob task) := by
  refine ⟨rfl, rfl, rfl, fun other => ?_, fun orderly => orderly.removeJob task⟩
  rw [engine?_removeJob]
  split
  next same => rw [same, idle]
  next => rfl

theorem finishCommits (c : Cluster) (engine : Nat) (result : CallResult) :
    Spares i c (c.finishCommits engine result) := by
  refine .foldl (fun c task => ?_) _ c
  split
  next there =>
    have idle : c.engine? i task = none := engine?_of_job there
    exact (removeJob idle).trans (.finishCall ..)
  next => exact .refl i c

end Spares

section Participants

theorem withWorker_spares (orderly : c.Orderly) (running : RunningParticipant) (txn : String) :
    Spares i c (c.withWorker p running txn) := by
  simp only [withWorker]
  split
  · exact .refl i c
  next inbox inboxes _ =>
    have set := Spares.setInboxes (i := i) c p inboxes
    exact set.trans (.spawn (set.orderly orderly) rfl)

theorem putIntoInbox_spares (c : Cluster) (p : Nat) (envelope : Envelope) :
    Spares i c (c.putIntoInbox p envelope) := by
  simp only [putIntoInbox]
  split
  · exact .refl i c
  split
  · exact .refl i c
  · exact (Spares.setInboxes ..).trans (.wakeListeners ..)

theorem routeToWorker_spares (orderly : c.Orderly) (p : Nat) (envelope : Envelope) :
    Spares i c (c.routeToWorker p envelope) := by
  cases there : c.participants.get? p with
  | none =>
    rw [routeToWorker_absent there]
    exact .refl i c
  | some running =>
    rw [routeToWorker_eq there]
    exact (withWorker_spares orderly running _).trans (putIntoInbox_spares ..)

theorem receiveAtParticipant_spares (orderly : c.Orderly) (p : Nat) (packet : Packet) :
    Spares i c (c.receiveAtParticipant p packet) := by
  simp only [receiveAtParticipant]
  split
  · exact .refl i c
  · exact routeToWorker_spares orderly p _

theorem retireWorker_spares (orderly : c.Orderly) {inbox : Nat} (idle : c.engine? i task = none)
    (retired : c.retireWorker task p inbox = some c') : Spares i c c' := by
  simp only [retireWorker, Option.bind_eq_bind, Option.bind_eq_some_iff, Option.pure_def,
    Option.some.injEq] at retired
  obtain ⟨running, there, rfl⟩ := retired
  have set := Spares.setInboxes (i := i) c p (running.inboxes.close inbox).2
  have gone := set.trans (.removeJob ((set.engines task).trans idle))
  exact gone.trans (.foldl_of_orderly (fun _ envelope orderly => routeToWorker_spares orderly p envelope)
    _ (gone.orderly orderly))

theorem concluded_spares (there : (c.job? task).isSome) (idle : c.engine? i task = none)
    (inbox : Nat) (address recipient : String) (reaction : Participant.Reaction) :
    Spares i c (c.concluded task p inbox address recipient reaction) := by
  cases reaction with
  | silent => exact .setJob idle there rfl
  | reply message =>
    have sent := Spares.send (i := i) c address recipient message
    exact sent.trans (.setJob ((sent.engines task).trans idle) there rfl)
  | ask request =>
    have asked := Spares.ask (i := i) c address request
    exact asked.trans (.setJob ((asked.engines task).trans idle) there rfl)

theorem stepWorker_spares (orderly : c.Orderly) {inbox : Nat} {stage : WorkerStage}
    (there : c.job? task = some (.worker p inbox stage))
    (stepped : c.stepWorker task p inbox stage = some c') : Spares i c c' := by
  have idle : c.engine? i task = none := engine?_of_job there
  cases workerMove_of_step stepped with
  | handle running retireAt envelope inboxes reaction reacted _ _ done =>
    have handled := (Spares.setInboxes (i := i) c p inboxes).trans (.atParticipant done)
    have known : (reacted.job? task).isSome := by
      rw [job?_atParticipant done]
      exact Option.isSome_iff_exists.mpr ⟨_, there⟩
    exact handled.trans (concluded_spares known ((handled.engines task).trans idle) _ _ _ _)
  | retire running retireAt inboxes _ _ _ _ retired => exact retireWorker_spares orderly idle retired
  | answer running sender request question approved result answered _ done =>
    have handled : Spares i c answered := .atParticipant done
    have known : (answered.job? task).isSome := by
      rw [job?_atParticipant done]
      exact Option.isSome_iff_exists.mpr ⟨_, there⟩
    exact handled.trans (concluded_spares known ((handled.engines task).trans idle) _ _ _ _)

theorem stepVoteCall_spares {call : Nat} {request : Participant.VoteRequest}
    {asked : Option (Nat × Answer)} (there : c.job? task = some (.voteCall call p request asked))
    (stepped : c.stepVoteCall task call p request asked = some c') : Spares i c c' := by
  have idle : c.engine? i task = none := engine?_of_job there
  have finish : ∀ {between : Cluster}, Spares i c between → ∀ result,
      Spares i c ((between.removeJob task).finishCall call result) := fun spares result =>
    (spares.trans (.removeJob ((spares.engines task).trans idle))).trans (.finishCall ..)
  simp only [stepVoteCall, Option.bind_eq_bind, Option.bind_eq_some_iff] at stepped
  obtain ⟨running, _, stepped⟩ := stepped
  split at stepped
  · cases stepped
  next question approved =>
    obtain ⟨⟨result, answered⟩, done, stepped⟩ := Option.bind_eq_some_iff.mp stepped
    cases stepped
    exact finish (.atParticipant done) _
  next =>
    obtain ⟨⟨opening, opened⟩, done, stepped⟩ := Option.bind_eq_some_iff.mp stepped
    have opens := Spares.atParticipant (i := i) done
    split at stepped
    next vote later same =>
      cases same
      cases stepped
      exact finish opens _
    next later same =>
      cases same
      obtain ⟨⟨result, answered⟩, cast, stepped⟩ := Option.bind_eq_some_iff.mp stepped
      cases stepped
      exact finish (opens.trans (.atParticipant cast)) _
    next later same =>
      cases same
      cases stepped
      have asks := opens.trans (.ask opened running.address request)
      have known : ((opened.ask running.address request).2.job? task).isSome := by
        have same : opened.job? task = c.job? task := job?_atParticipant done
        rw [show (opened.ask running.address request).2.job? task = opened.job? task from rfl, same,
          there]
        rfl
      exact asks.trans (.setJob ((asks.engines task).trans idle) known rfl)

end Participants

section Others

theorem removeEngine_spares (distinct : j ≠ i) (idle : c.engine? i task = none) (inbox : Nat) :
    Spares i c (c.removeEngine task j inbox) := by
  simp only [removeEngine]
  split
  next running _ =>
    have set := Spares.setCoordinatorInboxes distinct c (running.inboxes.drop inbox)
    exact set.trans (.removeJob ((set.engines task).trans idle))
  next => exact .removeJob idle

theorem stepEngine_spares (distinct : j ≠ i) (there : c.engine? j task = some (number, t, stage))
    (stepped : c.stepEngine task j number t stage = some c') : Spares i c c' := by
  have foreign : ∀ stage, (Job.engine j number t stage).engineOf? i = none := fun _ => if_neg distinct
  have idle : c.engine? i task = none := by
    rw [engine?_of_job (engine?_eq_some.mp there), foreign]
  simp only [stepEngine, Option.bind_eq_bind, Option.bind_eq_some_iff] at stepped
  obtain ⟨running, _, progress, _, stepped⟩ := stepped
  let kept := (c.keepStorage j progress.storage).setCoordinatorInboxes j
    (running.inboxes.setQueue number progress.queue)
  let sent := kept.sendAll progress.sent
  have spares : Spares i c sent :=
    ((Spares.keepStorage c j _).trans (.setCoordinatorInboxes distinct _ _)).trans (.sendAll ..)
  have still : sent.engine? j task = some (number, t, stage) :=
    ((Spares.sendAll (i := j) kept progress.sent).engines task).trans there
  have gone := (spares.engines task).trans idle
  split at stepped
  next later _ =>
    cases stepped
    exact spares.trans (.setJob gone (by simp [engine?_eq_some.mp still]) (foreign later))
  next result _ =>
    cases stepped
    exact (spares.trans (removeEngine_spares distinct gone number)).trans (.finishCommits ..)

theorem stepCommitCall_spares (distinct : j ≠ i) (orderly : c.Orderly) {call : Nat} {name : String}
    {payload : Bytes} {sources : List String} {engine : Option Nat}
    (there : c.job? task = some (.commitCall call j name payload sources engine))
    (stepped : c.stepCommitCall task call j name payload sources engine = some c') : Spares i c c' := by
  have idle : c.engine? i task = none := engine?_of_job there
  simp only [stepCommitCall] at stepped
  split at stepped
  · cases stepped
  obtain ⟨running, _, stepped⟩ := Option.bind_eq_some_iff.mp stepped
  split at stepped
  next =>
    cases stepped
    exact (Spares.removeJob idle).trans (.finishCall ..)
  next => cases stepped
  next inbox inboxes parsed _ =>
    cases stepped
    have set := Spares.setCoordinatorInboxes distinct c inboxes
    have admits : Spares i c ((c.setCoordinatorInboxes j inboxes).spawn
        (.engine j inbox ⟨name, payload, parsed⟩ .starting)).2 :=
      set.trans (.spawn (set.orderly orderly) (if_neg distinct))
    refine admits.trans (.setJob ((admits.engines task).trans idle) ?_ rfl)
    rw [job?_spawn_old (set.orderly orderly).numbered there]
    rfl

theorem receiveAtCoordinator_spares (distinct : j ≠ i) (packet : Packet) :
    Spares i c (c.receiveAtCoordinator j packet) := by
  simp only [receiveAtCoordinator]
  split
  next message running _ _ =>
    split
    next inbox inboxes _ =>
      exact (Spares.setCoordinatorInboxes distinct c inboxes).trans (.wakeListeners ..)
    next => exact .refl i c
  next => exact .refl i c

end Others

theorem inboxes?_setCoordinatorInboxes (there : (c.inboxes? i).isSome) (inboxes : Inboxes Envelope) :
    (c.setCoordinatorInboxes i inboxes).inboxes? i = some inboxes := by
  obtain ⟨former, found⟩ := Option.isSome_iff_exists.mp there
  obtain ⟨running, known, rfl⟩ := Option.map_eq_some_iff.mp found
  simp [inboxes?, setCoordinatorInboxes, known]

namespace Working

theorem spares (working : Working c i hook) (spares : Spares i c c') : Working c' i hook := by
  obtain ⟨inboxes, found, tended⟩ := working.tended
  exact ⟨spares.current.trans working.current, by rw [spares.hooks, working.hook],
    ⟨inboxes, spares.inboxes.trans found, tended.congr spares.engines⟩, spares.orderly working.orderly⟩

theorem setInboxes (working : Working c i hook) (tended : Tended c i inboxes) :
    Working (c.setCoordinatorInboxes i inboxes) i hook := by
  obtain ⟨former, found, _⟩ := working.tended
  exact ⟨working.current, working.hook, ⟨inboxes, inboxes?_setCoordinatorInboxes (by simp [found]) _,
    tended.congr fun _ => rfl⟩, working.orderly.elsewhere rfl (Nat.le_refl _)⟩

theorem removeEngine (working : Working c i hook) (there : c.engine? i task = some (number, t, stage)) :
    Working (c.removeEngine task i number) i hook := by
  obtain ⟨inboxes, found, tended⟩ := working.tended
  obtain ⟨running, known, rfl⟩ := Option.map_eq_some_iff.mp found
  simp only [Cluster.removeEngine, known]
  have orderly : (c.setCoordinatorInboxes i (running.inboxes.drop number)).Orderly :=
    working.orderly.elsewhere rfl (Nat.le_refl _)
  exact ⟨working.current, working.hook, ⟨_, inboxes?_setCoordinatorInboxes (by simp [found]) _,
    tended.leave there fun other => engine?_removeJob _ task other⟩, orderly.removeJob task⟩

theorem stepEngine (working : Working c i hook) (there : c.engine? i task = some (number, t, stage))
    (stepped : c.stepEngine task i number t stage = some c') : Working c' i hook := by
  simp only [Cluster.stepEngine, Option.bind_eq_bind, Option.bind_eq_some_iff] at stepped
  obtain ⟨running, known, progress, _, stepped⟩ := stepped
  have kept := working.spares (.keepStorage c i progress.storage)
  obtain ⟨inboxes, found, tended⟩ := kept.tended
  have same : inboxes = running.inboxes := by
    have before : c.inboxes? i = some running.inboxes := by simp [inboxes?, known]
    have after := (Spares.keepStorage (i := i) c i progress.storage).inboxes
    rw [found, before] at after
    exact Option.some.inj after
  subst same
  let set := (c.keepStorage i progress.storage).setCoordinatorInboxes i
    (running.inboxes.setQueue number progress.queue)
  let sent := set.sendAll progress.sent
  have sends : Spares i set sent := .sendAll ..
  have ready := (kept.setInboxes (tended.setQueue number progress.queue)).spares sends
  have still : sent.engine? i task = some (number, t, stage) := (sends.engines task).trans there
  split at stepped
  next later _ =>
    cases stepped
    obtain ⟨now, foundNow, tendedNow⟩ := ready.tended
    have job : sent.job? task = some (.engine i number t stage) := engine?_eq_some.mp still
    have goesOn : ∀ other, (sent.setJob task (.engine i number t later)).engine? i other =
        if other = task then some (number, t, later) else sent.engine? i other := by
      intro other
      rw [engine?_setJob, Job.engineOf?, if_pos rfl]
    exact ⟨ready.current, ready.hook, ⟨now, foundNow, tendedNow.goOn later still goesOn⟩,
      ready.orderly.setJob (by simp [job]) _⟩
  next result _ =>
    cases stepped
    exact (ready.removeEngine still).spares (.finishCommits _ _ _)

theorem receive (working : Working c i hook) (packet : Packet) :
    Working (c.receiveAtCoordinator i packet) i hook := by
  obtain ⟨inboxes, found, tended⟩ := working.tended
  obtain ⟨running, known, rfl⟩ := Option.map_eq_some_iff.mp found
  rcases decoded : Message.decode packet.body with e | message
  · simpa only [receiveAtCoordinator, decoded] using working
  simp only [receiveAtCoordinator, decoded, known]
  have delivered := tended.deliver message.txn ⟨packet.sender, message⟩
  split
  next number inboxes result =>
    rw [result] at delivered
    exact (working.setInboxes delivered).spares (.foldl .wake _ _)
  next => exact working

theorem stepCommitCall (working : Working c i hook) {call : Nat} {name : String} {payload : Bytes}
    {sources : List String} {engine : Option Nat}
    (there : c.job? task = some (.commitCall call i name payload sources engine))
    (stepped : c.stepCommitCall task call i name payload sources engine = some c') : Working c' i hook := by
  obtain ⟨inboxes, found, tended⟩ := working.tended
  obtain ⟨running, known, rfl⟩ := Option.map_eq_some_iff.mp found
  have idle : c.engine? i task = none := engine?_of_job there
  simp only [Cluster.stepCommitCall, known, Option.bind_eq_bind, Option.bind_some] at stepped
  split at stepped
  · cases stepped
  split at stepped
  next =>
    cases stepped
    exact working.spares ((Spares.removeJob idle).trans (.finishCall ..))
  next => cases stepped
  next number inboxes parsed admitted =>
    cases stepped
    let set := c.setCoordinatorInboxes i inboxes
    have orderly : set.Orderly := working.orderly.elsewhere rfl (Nat.le_refl _)
    have unused : c.engine? i c.next = none := by
      rw [engine?, working.orderly.unused, Option.bind_none]
    have old : task ≠ c.next := by
      rintro rfl
      cases working.orderly.unused.symm.trans there
    have known : ((set.spawn (.engine i number ⟨name, payload, parsed⟩ .starting)).2.job? task).isSome := by
      rw [job?_spawn, if_neg (show task ≠ set.next from old)]
      exact Option.isSome_iff_exists.mpr ⟨_, there⟩
    refine ⟨working.current, working.hook, ⟨inboxes, inboxes?_setCoordinatorInboxes (by simp [found]) _, ?_⟩,
      (orderly.spawn _).setJob known _⟩
    refine tended.launch (t := ⟨name, payload, parsed⟩) .starting unused
      (Coordinator.admission_created admitted) fun other => ?_
    rw [engine?_setJob, engine?_spawn]
    split
    next same =>
      rw [same, if_neg old, idle]
      rfl
    next =>
      rw [Job.engineOf?, if_pos rfl]
      rfl

theorem stepJob (working : Working c i hook) (stepped : c.stepJob task = some c') :
    Working c' i hook := by
  obtain ⟨job, there, stepped⟩ := Option.bind_eq_some_iff.mp stepped
  cases job with
  | worker p inbox stage => exact working.spares (stepWorker_spares working.orderly there stepped)
  | voteCall call p request asked => exact working.spares (stepVoteCall_spares there stepped)
  | engine j inbox t stage =>
    have engine : c.engine? j task = some (inbox, t, stage) := engine?_eq_some.mpr there
    by_cases own : j = i
    · exact working.stepEngine (own ▸ engine) (own ▸ stepped)
    · exact working.spares (stepEngine_spares own engine stepped)
  | commitCall call j name payload sources engine =>
    by_cases own : j = i
    · subst own
      exact working.stepCommitCall there stepped
    · exact working.spares (stepCommitCall_spares own working.orderly there stepped)

theorem arrive (working : Working c i hook) (packet : Packet) : Working (c.arrive packet) i hook := by
  let carried : Cluster :=
    { c with transport := (c.transport.arrive (c.accepts packet) packet).2 }
  have carries : Working carried i hook := by
    refine working.spares (.elsewhere rfl ?_ rfl rfl (Nat.le_refl _))
    simp only [carried, Transport.arrive]
    split
    · rfl
    split <;> rfl
  simp only [Cluster.arrive]
  split
  next p _ => exact carries.spares (receiveAtParticipant_spares carries.orderly p packet)
  next j _ =>
    by_cases own : j = i
    · exact own ▸ (own ▸ carries).receive packet
    · exact carries.spares (receiveAtCoordinator_spares own packet)
  · exact carries
  · exact carries

theorem turn (working : Working c i hook) : Working c.turn i hook := by
  have waiting : ∀ rest, Working { c with ready := rest } i hook := fun rest =>
    working.spares (.elsewhere rfl rfl rfl rfl (Nat.le_refl _))
  simp only [Cluster.turn]
  split
  · exact working
  next packet rest _ => exact (waiting rest).arrive packet
  next task rest _ =>
    split
    next c' stepped => exact working.stepJob stepped
    next => exact (waiting rest).spares (.beginWait _ task)

theorem settle (working : Working c i hook) (turns : Nat) : Working (settleWithin turns c) i hook := by
  induction turns generalizing c with
  | zero => exact working
  | succ turns ih =>
    simp only [settleWithin]
    split
    · exact working
    · exact ih working.turn

theorem advance (working : Working c i hook) (duration : Nat) :
    Working (c.advance duration) i hook := by
  suffices ∀ bound target, Working (advanceWithin bound target c) i hook from this _ _
  intro bound target
  induction bound generalizing c with
  | zero => exact working.spares (.clock c target)
  | succ bound ih =>
    simp only [advanceWithin]
    split
    · exact working.spares (.clock c target)
    next deadline _ =>
      have expired : Working (c.expire (max c.clock deadline)) i hook :=
        working.spares ((Spares.clock c _).trans (.foldl (fun c _ => .wake c _) _ _))
      exact ih (expired.settle turnLimit)

theorem requestCommit (working : Working c i hook) {call : Nat} {name : String} {payload : Bytes}
    {sources : List String} (requested : c.requestCommit call name payload sources = some c') :
    Working c' i hook := by
  simp only [Cluster.requestCommit, working.current, Option.bind_eq_bind, Option.bind_some,
    Option.pure_def, Option.some.injEq] at requested
  subst requested
  exact working.spares (.spawn working.orderly rfl)

end Working

end AtomicCommit.Cluster
