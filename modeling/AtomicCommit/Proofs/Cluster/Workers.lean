import AtomicCommit.Proofs.Cluster.Routing

/-! The workers of a participant: each message that is routed waits in the inbox of its transaction's
worker, is being handled by that worker, or has been handled, and a worker waits for nobody else's
oracle. -/

namespace AtomicCommit.Cluster

section Stepped

variable {c c' : Cluster} {p task number : Nat} {address : String} {inboxes : Inboxes Envelope}
  {history : List Event} {stage : WorkerStage}

theorem Serving.work (serving : Serving p c address inboxes history [])
    (job : c.job? task = some (.worker p number stage)) (ready : .job task ∈ c.ready)
    (stepped : c.stepJob task = some c') :
    ∃ after, Serving p c' address after
      (history ++ workerEvents (c.queueAt p number) stage (c'.job? task)) [] := by
  obtain ⟨running, found, rfl, rfl⟩ := service_eq_some.mp serving.service
  rw [stepJob_of_worker job] at stepped
  cases workerMove_of_step stepped with
  | handle other retireAt envelope after reaction reacted there received done =>
    cases found.symm.trans there
    exact ⟨after, serving.handle job ready received done⟩
  | retire other retireAt after _ there received _ retired =>
    cases found.symm.trans there
    obtain ⟨txn, queue, inbox⟩ := serving.manned.inbox task number _ job
    have nothing : c.queueAt p number = [] := by
      rw [queueAt_eq serving.service, Inboxes.queue_of_inbox inbox]
      exact Inboxes.of_receive_none inbox received
    rw [nothing, workerEvents, List.append_nil]
    exact serving.retire job retired
  | answer other sender request question approved result answered there done =>
    cases found.symm.trans there
    rw [workerEvents]
    exact ⟨_, serving.answer job ready done⟩

theorem Serving.arrive (serving : Serving p c address inboxes history []) (packet : Packet) :
    ∃ after, Serving p (c.receiveAtParticipant p packet) address after
      (history ++ arrivals packet) [] := by
  rw [receiveAtParticipant, arrivals]
  cases decoded : Message.decode packet.body with
  | error e => exact ⟨inboxes, by simpa using serving⟩
  | ok message =>
    have handling : ∀ txn, (storyOf txn (history ++ [.arrived ⟨packet.sender, message⟩])).handling =
        (storyOf txn history).handling := by
      intro txn
      rw [storyOf_snoc, Story.note]
      split <;> rfl
    have arrived : Serving p c address inboxes (history ++ [.arrived ⟨packet.sender, message⟩])
        [⟨packet.sender, message⟩] := by
      refine ⟨serving.service, serving.node, serving.manned, serving.awake, fun txn => ?_, ?_, ?_⟩
      · have before := serving.accounted txn
        rw [storyOf_snoc, Story.note]
        split
        next own => simp [before, show message.txn = txn from own]
        next other => simpa [show ¬ message.txn = txn from other] using before
      · simpa only [handling] using serving.busy.idle
      · simpa only [handling] using serving.busy.worker
    exact arrived.route

theorem Serving.release (serving : Serving p c address inboxes history [])
    (job : c.job? task = some (.worker p number stage)) :
    Serving p ((c.setJob task (Job.worker p number stage).releaseAnswer).wake task) address inboxes
      history [] := by
  obtain ⟨txn, queue, there⟩ := serving.manned.inbox task number stage job
  have handles := serving.busy.worker task number stage txn queue job there
  have ready := mem_ready_wake c task
  have woken := serving.leaves (Leaves.wake c task)
  have same : ∀ later, (c.setJob task later).wake task = (c.wake task).setJob task later := by
    intro later
    by_cases already : c.ready.contains (.job task) <;> simp only [wake, setJob, already] <;> rfl
  rw [same]
  have still := ((Leaves.wake c task).workers _ _ _).mpr job
  cases stage with
  | receiving retireAt => exact woken.setJob still there (fun _ _ => rfl) handles fun _ => ready
  | asking sender request question answer =>
    exact woken.setJob still there (fun _ _ => rfl) handles fun _ => ready

theorem Serving.rest (serving : Serving p c address inboxes history [])
    (stuck : c.stepJob task = none) {ready : List Turn}
    (rest : ∀ turn ∈ c.ready, turn = .job task ∨ turn ∈ ready) :
    Serving p ({ c with ready := ready }.beginWait task) address inboxes history [] := by
  obtain ⟨numbered, paired, worker, inbox, once⟩ := serving.manned
  have awake : Awake p { c with ready := ready } inboxes := by
    intro other place later found can
    rcases rest _ (serving.awake other place later found can) with same | kept
    · cases same
      obtain ⟨txn, queue, there⟩ := inbox task place later found
      rw [Inboxes.queue_of_inbox there] at can
      have steps := isSome_stepJob serving.service serving.node found there can
      rw [stuck] at steps
      cases steps
    · exact kept
  have waits : Serving p { c with ready := ready } address inboxes history [] :=
    ⟨serving.service, serving.node, ⟨numbered, paired, worker, inbox, once⟩, awake,
      serving.accounted, serving.busy.idle, serving.busy.worker⟩
  exact waits.leaves (.beginWait _ task)

theorem Serving.step (serving : Serving p c address inboxes history []) {events : List Event}
    (stepped : Step p c events c') : ∃ after, Serving p c' address after (history ++ events) [] := by
  cases stepped with
  | arrive packet => exact serving.arrive packet
  | work task inbox stage job ready stepped => exact serving.work job ready stepped
  | retire task inbox retireAt job retired =>
    rw [List.append_nil]
    exact serving.retire job retired
  | release task inbox stage job =>
    rw [List.append_nil]
    exact ⟨inboxes, serving.release job⟩
  | rest task ready stuck rest =>
    rw [List.append_nil]
    exact ⟨inboxes, serving.rest stuck rest⟩
  | others leaves =>
    rw [List.append_nil]
    exact ⟨inboxes, serving.leaves leaves⟩

theorem Serving.later (serving : Serving p c address inboxes history []) {events : List Event}
    (run : Run p c events c') : ∃ after, Serving p c' address after (history ++ events) [] := by
  induction run with
  | nothing =>
    rw [List.append_nil]
    exact ⟨inboxes, serving⟩
  | step _ stepped ih =>
    obtain ⟨_, serving⟩ := ih
    rw [← List.append_assoc]
    exact serving.step stepped

end Stepped

end AtomicCommit.Cluster
