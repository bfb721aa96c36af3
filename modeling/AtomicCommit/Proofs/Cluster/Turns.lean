import AtomicCommit.Proofs.Cluster.Workers

/-! Turns of a cluster, and time that passes, as steps of a participant's workers among other things
that leave these workers alone. -/

namespace AtomicCommit.Cluster

open Participant (VoteRequest)

section Elsewhere

variable {c c' : Cluster} {p task : Nat}

theorem removeJob_finishCall_leaves (idle : IsIdle p c task) (call : Nat) (result : CallResult) :
    Leaves p c ((c.removeJob task).finishCall call result) :=
  (Leaves.removeJob idle).trans (.finishCall ..)

theorem stepVoteCall_leaves {call q : Nat} {request : VoteRequest} {asked : Option (Nat × Answer)}
    (there : c.job? task = some (.voteCall call q request asked))
    (stepped : c.stepVoteCall task call q request asked = some c') : Leaves p c c' := by
  have idle : IsIdle p c task := Job.IsForeign.idle (by rintro _ _ ⟨⟩) there
  simp only [stepVoteCall, Option.bind_eq_bind, Option.bind_eq_some_iff] at stepped
  obtain ⟨running, _, stepped⟩ := stepped
  split at stepped
  · cases stepped
  next question approved =>
    obtain ⟨⟨result, answered⟩, done, stepped⟩ := Option.bind_eq_some_iff.mp stepped
    cases stepped
    have answers := Leaves.atParticipant (p := p) done
    exact answers.trans (removeJob_finishCall_leaves (answers.idle idle) _ _)
  next =>
    obtain ⟨⟨opening, opened⟩, done, stepped⟩ := Option.bind_eq_some_iff.mp stepped
    have opens := Leaves.atParticipant (p := p) done
    split at stepped
    next vote later same =>
      cases same
      cases stepped
      exact opens.trans (removeJob_finishCall_leaves (opens.idle idle) _ _)
    next later same =>
      cases same
      obtain ⟨⟨result, answered⟩, cast, stepped⟩ := Option.bind_eq_some_iff.mp stepped
      cases stepped
      have answers := opens.trans (.atParticipant cast)
      exact answers.trans (removeJob_finishCall_leaves (answers.idle idle) _ _)
    next later same =>
      cases same
      cases stepped
      have asks := opens.trans (.ask opened running.address request)
      have known : ((opened.ask running.address request).2.job? task).isSome := by
        have same : opened.job? task = c.job? task := job?_atParticipant done
        rw [show (opened.ask running.address request).2.job? task = opened.job? task from rfl, same,
          there]
        rfl
      exact asks.trans (.setJob (asks.idle idle) known (by rintro _ _ ⟨⟩))

theorem finishCommits_leaves (numbered : c.Numbered) (engine : Nat) (result : CallResult) :
    Leaves p c (c.finishCommits engine result) := by
  refine .foldl (fun c task _ => ?_) _ numbered
  split
  next there =>
    exact removeJob_finishCall_leaves (Job.IsForeign.idle (by rintro _ _ ⟨⟩) there) _ _
  next => exact .refl p c

theorem setCoordinatorInboxes_leaves (c : Cluster) (incarnation : Nat) (inboxes : Inboxes Envelope) :
    Leaves p c (c.setCoordinatorInboxes incarnation inboxes) :=
  .elsewhere rfl rfl rfl (Nat.le_refl _) fun _ => id

theorem removeEngine_leaves (idle : IsIdle p c task) (incarnation inbox : Nat) :
    Leaves p c (c.removeEngine task incarnation inbox) := by
  simp only [removeEngine]
  split
  next running _ =>
    have set := setCoordinatorInboxes_leaves (p := p) c incarnation (running.inboxes.drop inbox)
    exact set.trans (.removeJob (set.idle idle))
  next => exact .removeJob idle

theorem job?_foldl_send (messages : List (String × Message)) :
    (messages.foldl (fun c (recipient, message) => c.send coordinatorAddress recipient message)
      c).job? task = c.job? task := by
  induction messages generalizing c with
  | nil => rfl
  | cons _ _ ih => exact ih

theorem stepEngine_leaves (numbered : c.Numbered) {incarnation inbox : Nat}
    {t : Coordinator.Transaction} {stage : Coordinator.Stage}
    (there : c.job? task = some (.engine incarnation inbox t stage))
    (stepped : c.stepEngine task incarnation inbox t stage = some c') : Leaves p c c' := by
  have idle : IsIdle p c task := Job.IsForeign.idle (by rintro _ _ ⟨⟩) there
  simp only [stepEngine, Option.bind_eq_bind, Option.bind_eq_some_iff] at stepped
  obtain ⟨running, _, progress, _, stepped⟩ := stepped
  let kept := (c.keepStorage incarnation progress.storage).setCoordinatorInboxes incarnation
    (running.inboxes.setQueue inbox progress.queue)
  have keeps : Leaves p c kept := .elsewhere rfl rfl rfl (Nat.le_refl _) fun _ => id
  have sends : Leaves p c (progress.sent.foldl (fun c (recipient, message) =>
      c.send coordinatorAddress recipient message) kept) :=
    keeps.trans (.foldl (fun c _ _ => .send c _ _ _) _ (keeps.numbered numbered))
  split at stepped
  next stage _ =>
    cases stepped
    refine sends.trans (.setJob (sends.idle idle) ?_ (by rintro _ _ ⟨⟩))
    rw [job?_foldl_send, show kept.job? task = c.job? task from rfl, there]
    rfl
  next result _ =>
    cases stepped
    have removes := sends.trans (removeEngine_leaves (sends.idle idle) incarnation inbox)
    exact removes.trans (finishCommits_leaves (removes.numbered numbered) _ _)

theorem stepCommitCall_leaves (numbered : c.Numbered) {call incarnation : Nat} {name : String}
    {payload : Bytes} {sources : List String} {engine : Option Nat}
    (there : c.job? task = some (.commitCall call incarnation name payload sources engine))
    (stepped : c.stepCommitCall task call incarnation name payload sources engine = some c') :
    Leaves p c c' := by
  have idle : IsIdle p c task := Job.IsForeign.idle (by rintro _ _ ⟨⟩) there
  simp only [stepCommitCall] at stepped
  split at stepped
  · cases stepped
  obtain ⟨running, _, stepped⟩ := Option.bind_eq_some_iff.mp stepped
  split at stepped
  next =>
    cases stepped
    exact removeJob_finishCall_leaves idle _ _
  next => cases stepped
  next inbox inboxes parsed _ =>
    cases stepped
    have set := setCoordinatorInboxes_leaves (p := p) c incarnation inboxes
    have admits : Leaves p c ((c.setCoordinatorInboxes incarnation inboxes).spawn
        (.engine incarnation inbox ⟨name, payload, parsed⟩ .starting)).2 :=
      set.trans (.spawn (set.numbered numbered) (by rintro _ _ ⟨⟩))
    refine admits.trans (.setJob (admits.idle idle) ?_ (by rintro _ _ ⟨⟩))
    rw [job?_spawn_old (set.numbered numbered) there]
    rfl

theorem stepJob_leaves (numbered : c.Numbered) (idle : IsIdle p c task)
    (stepped : c.stepJob task = some c') : Leaves p c c' := by
  obtain ⟨job, there, stepped⟩ := Option.bind_eq_some_iff.mp stepped
  cases job with
  | worker q inbox stage =>
    have distinct : q ≠ p := by
      rintro rfl
      exact idle inbox stage there
    exact stepWorker_leaves distinct numbered there stepped
  | voteCall call q request asked => exact stepVoteCall_leaves there stepped
  | engine incarnation inbox t stage => exact stepEngine_leaves numbered there stepped
  | commitCall call incarnation name payload sources engine =>
    exact stepCommitCall_leaves numbered there stepped

theorem receiveAtCoordinator_leaves (numbered : c.Numbered) (incarnation : Nat) (packet : Packet) :
    Leaves p c (c.receiveAtCoordinator incarnation packet) := by
  simp only [receiveAtCoordinator]
  split
  next message running _ _ =>
    split
    next inbox inboxes _ =>
      have set := setCoordinatorInboxes_leaves (p := p) c incarnation inboxes
      exact set.trans (.wakeListeners (set.numbered numbered) _ _)
    next => exact .refl p c
  next => exact .refl p c

end Elsewhere

theorem Run.trans {p : Nat} {first c c' : Cluster} {history later : List Event}
    (run : Run p first history c) (more : Run p c later c') : Run p first (history ++ later) c' := by
  induction more with
  | nothing => simpa using run
  | step _ stepped ih => simpa using ih.step stepped

theorem Step.run {p : Nat} {c c' : Cluster} {events : List Event} (stepped : Step p c events c') :
    Run p c events c' :=
  Run.nothing.step stepped

section Turned

variable {c : Cluster} {p : Nat} {address : String} {inboxes : Inboxes Envelope}
  {history : List Event}

def arrivalEvents (p : Nat) (c : Cluster) (packet : Packet) : List Event :=
  if (c.transport.arrive (c.accepts packet) packet).1 = .consumed (.participant p) then
    arrivals packet
  else []

def jobEvents (p : Nat) (c : Cluster) (task : Nat) (c' : Cluster) : List Event :=
  match c.job? task with
  | some (.worker q inbox stage) =>
    if q = p then workerEvents (c.queueAt p inbox) stage (c'.job? task) else []
  | _ => []

def turnEvents (p : Nat) (c : Cluster) : List Event :=
  match c.ready with
  | [] => []
  | .arrival packet :: rest => arrivalEvents p { c with ready := rest } packet
  | .job task :: _ =>
    match c.stepJob task with
    | some c' => jobEvents p c task c'
    | none => []

theorem arrive_run (numbered : c.Numbered) (p : Nat) (packet : Packet) :
    Run p c (arrivalEvents p c packet) (c.arrive packet) := by
  let carried : Cluster :=
    { c with transport := (c.transport.arrive (c.accepts packet) packet).2 }
  have carries : Leaves p c carried := .elsewhere rfl rfl rfl (Nat.le_refl _) fun _ => id
  have others : ∀ c', Leaves p carried c' → Run p c [] c' := fun c' leaves =>
    (Step.others (carries.trans leaves)).run
  simp only [arrive, arrivalEvents]
  cases arrival : (c.transport.arrive (c.accepts packet) packet).1 with
  | consumed hook =>
    cases hook with
    | participant q =>
      by_cases own : q = p
      · subst own
        rw [if_pos rfl]
        exact (Step.others carries).run.trans (Step.arrive packet).run
      · rw [if_neg (by simpa using own)]
        exact others _ (receiveAtParticipant_leaves own (carries.numbered numbered) packet)
    | coordinator incarnation =>
      rw [if_neg (by simp)]
      exact others _ (receiveAtCoordinator_leaves (carries.numbered numbered) incarnation packet)
  | retained | lost =>
    rw [if_neg (by simp)]
    exact others _ (.refl p carried)

theorem stepJob_run (numbered : c.Numbered) {task : Nat} (ready : .job task ∈ c.ready)
    {c' : Cluster} (stepped : c.stepJob task = some c') : Run p c (jobEvents p c task c') c' := by
  by_cases worker : ∃ inbox stage, c.job? task = some (.worker p inbox stage)
  · obtain ⟨inbox, stage, job⟩ := worker
    simp only [jobEvents, job, if_pos]
    exact (Step.work task inbox stage job ready stepped).run
  · have idle : IsIdle p c task := fun inbox stage job => worker ⟨inbox, stage, job⟩
    have nothing : jobEvents p c task c' = [] := by
      simp only [jobEvents]
      split
      next q inbox stage job =>
        refine if_neg fun own => idle inbox stage ?_
        rw [job, own]
      next => rfl
    rw [nothing]
    exact (Step.others (stepJob_leaves numbered idle stepped)).run

theorem turn_run (numbered : c.Numbered) (p : Nat) : Run p c (turnEvents p c) c.turn := by
  simp only [turn, turnEvents]
  cases ready : c.ready with
  | nil => exact .nothing
  | cons turn rest =>
    cases turn with
    | arrival packet =>
      have taken : Leaves p c { c with ready := rest } := by
        refine ⟨rfl, fun _ => id, fun _ _ _ => Iff.rfl, fun task _ _ _ there => ?_, id⟩
        rw [ready] at there
        simpa using there
      exact (Step.others taken).run.trans (arrive_run (taken.numbered numbered) p packet)
    | job task =>
      cases stepped : c.stepJob task with
      | none =>
        simp only [stepped]
        exact (Step.rest task rest stepped (by simp [ready])).run
      | some c' =>
        simp only [stepped]
        exact stepJob_run numbered (by simp [ready]) stepped

def settlingEvents (p : Nat) : Nat → Cluster → List Event
  | 0, _ => []
  | turns + 1, c =>
    if c.ready.isEmpty then [] else turnEvents p c ++ settlingEvents p turns c.turn

theorem Serving.settle (serving : Serving p c address inboxes history []) (turns : Nat) :
    Run p c (settlingEvents p turns c) (settleWithin turns c) := by
  induction turns generalizing c inboxes history with
  | zero => exact .nothing
  | succ turns ih =>
    simp only [settlingEvents, settleWithin]
    split
    · exact .nothing
    · have turned := turn_run serving.manned.numbered p
      obtain ⟨_, later⟩ := serving.later turned
      exact turned.trans (ih later)

theorem clock_leaves (c : Cluster) (p time : Nat) : Leaves p c { c with clock := time } :=
  .elsewhere rfl rfl rfl (Nat.le_refl _) fun _ => id

theorem expire_leaves (numbered : c.Numbered) (p time : Nat) : Leaves p c (c.expire time) := by
  have moved := clock_leaves c p time
  exact moved.trans (.foldl (fun c _ _ => .wake c _) _ (moved.numbered numbered))

theorem Serving.advance (serving : Serving p c address inboxes history []) (duration : Nat) :
    ∃ events, Run p c events (c.advance duration) := by
  suffices ∀ bound target, ∃ events, Run p c events (advanceWithin bound target c) from this _ _
  intro bound target
  induction bound generalizing c inboxes history with
  | zero => exact ⟨[], (Step.others (clock_leaves c p target)).run⟩
  | succ bound ih =>
    simp only [advanceWithin]
    split
    · exact ⟨[], (Step.others (clock_leaves c p target)).run⟩
    next deadline _ =>
      have expires := expire_leaves serving.manned.numbered p (max c.clock deadline)
      have waited : Serving p (c.expire (max c.clock deadline)) address inboxes history [] :=
        serving.leaves expires
      have run := (Step.others expires).run.trans (waited.settle turnLimit)
      obtain ⟨_, later⟩ := serving.later run
      obtain ⟨events, more⟩ := ih later
      exact ⟨_, run.trans more⟩

theorem Job.isForeign_releaseAnswer {job : Job} (foreign : job.IsForeign p) :
    job.releaseAnswer.IsForeign p := by
  intro inbox stage same
  cases job with
  | worker q place former =>
    have own : q = p := by cases former <;> cases same <;> rfl
    subst own
    exact foreign place former rfl
  | voteCall call q request asked => cases asked <;> cases same
  | engine | commitCall => cases same

theorem release_run (p : Nat) (c : Cluster) (address : String) :
    Run p c [] (c.release address).2 := by
  simp only [release]
  split
  · exact .nothing
  split
  next job there =>
    by_cases foreign : job.IsForeign p
    · have set := Leaves.setJob (foreign.idle there) (by simp [there])
        (Job.isForeign_releaseAnswer foreign)
      exact (Step.others (set.trans (.wake _ _))).run
    · simp only [Job.IsForeign, not_forall, not_not] at foreign
      obtain ⟨inbox, stage, rfl⟩ := foreign
      exact (Step.release _ inbox stage there).run
  next => exact .nothing

end Turned

end AtomicCommit.Cluster
