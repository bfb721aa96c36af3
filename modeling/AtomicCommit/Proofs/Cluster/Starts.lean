import AtomicCommit.Proofs.Cluster.Upkeep
import AtomicCommit.Proofs.Coordinator.InFlight
import AtomicCommit.Proofs.Coordinator.Repeated

/-! Starts of a coordinator that fail on the way, and what has to happen before the next one. -/

namespace AtomicCommit.Cluster

open Coordinator (Transaction Stage Storage Recovering Resumed Staffed)

/-- A coordinator without engines and with nothing in flight, and nobody at its address. -/
structure Down (c : Cluster) (i : Nat) : Prop where
  current : c.office.current = some i
  free : c.transport.hooks.get? coordinatorAddress = none
  empty : ∃ inboxes, c.inboxes? i = some inboxes ∧ inboxes.transactions = []
  idle : ∀ task, c.engine? i task = none
  orderly : c.Orderly

def storage? (c : Cluster) (i : Nat) : Option Storage :=
  (c.coordinators.get? i).map c.coordinatorStorage

variable {c c' c'' : Cluster} {i task number : Nat} {t : Transaction} {stage : Stage}
  {inboxes : Inboxes Envelope} {hook : Option Hook}

section Stops

def dismiss (i : Nat) (c : Cluster) (task : Nat) : Cluster :=
  match c.job? task with
  | some (.engine _ inbox _ _) =>
    (c.removeEngine task i inbox).finishCommits task .engineCancelled
  | _ => c

structure Fewer (i : Nat) (c c' : Cluster) : Prop where
  office : c'.office = c.office
  storage : c'.storage? i = c.storage? i
  jobs : ∀ task job, c'.job? task = some job → c.job? task = some job

theorem Fewer.trans (first : Fewer i c c') (second : Fewer i c' c'') : Fewer i c c'' :=
  ⟨second.office.trans first.office, second.storage.trans first.storage,
    fun task job there => first.jobs task job (second.jobs task job there)⟩

theorem removeJob_fewer (c : Cluster) (task : Nat) : Fewer i c (c.removeJob task) := by
  refine ⟨rfl, rfl, fun other job found => ?_⟩
  rw [job?_removeJob, Option.ite_none_left_eq_some] at found
  exact found.2

theorem finishCommits_fewer (c : Cluster) (engine : Nat) (result : CallResult) :
    Fewer i c (c.finishCommits engine result) := by
  rw [finishCommits]
  generalize c.tasksWith _ = tasks
  induction tasks generalizing c with
  | nil => exact ⟨rfl, rfl, fun _ _ => id⟩
  | cons task rest ih =>
    rw [List.foldl_cons]
    split
    next call _ _ _ _ _ _ =>
      have finished : Fewer i (c.removeJob task) ((c.removeJob task).finishCall call result) :=
        ⟨rfl, rfl, fun _ _ => id⟩
      exact ((removeJob_fewer c task).trans finished).trans (ih _)
    next => exact ih c

theorem removeEngine_fewer (c : Cluster) (task inbox : Nat) :
    Fewer i c (c.removeEngine task i inbox) := by
  rw [removeEngine]
  split
  next running known =>
    have set : Fewer i c (c.setCoordinatorInboxes i (running.inboxes.drop inbox)) := by
      refine ⟨rfl, ?_, fun _ _ => id⟩
      simp [storage?, setCoordinatorInboxes, known, coordinatorStorage]
    exact set.trans (removeJob_fewer _ task)
  next => exact removeJob_fewer c task

theorem dismiss_fewer (i : Nat) (c : Cluster) (task : Nat) : Fewer i c (c.dismiss i task) := by
  rw [dismiss]
  split
  next => exact (removeEngine_fewer c task _).trans (finishCommits_fewer _ task _)
  next => exact ⟨rfl, rfl, fun _ _ => id⟩

theorem Working.dismiss (working : Working c i hook)
    (own : ∀ j number t stage, c.job? task = some (.engine j number t stage) → j = i) :
    Working (c.dismiss i task) i hook ∧ (c.dismiss i task).engine? i task = none := by
  rw [Cluster.dismiss]
  split
  next j number t stage there =>
    obtain rfl := own j number t stage there
    have gone := working.removeEngine (engine?_eq_some.mpr there)
    have ended := Spares.finishCommits (i := j) (c.removeEngine task j number) task .engineCancelled
    refine ⟨gone.spares ended, (ended.engines task).trans ?_⟩
    rw [Cluster.removeEngine]
    split <;> rw [engine?_removeJob, if_pos rfl]
  next other =>
    refine ⟨working, ?_⟩
    cases found : c.engine? i task with
    | none => rfl
    | some engine => exact absurd (engine?_eq_some.mp found) (other _ _ _ _)

theorem Working.dismissAll (working : Working c i hook) (tasks : List Nat)
    (all : ∀ task, task ∉ tasks → c.engine? i task = none)
    (own : ∀ task ∈ tasks, ∀ j number t stage, c.job? task = some (.engine j number t stage) → j = i) :
    Working (tasks.foldl (Cluster.dismiss i) c) i hook ∧
      (∀ task, (tasks.foldl (Cluster.dismiss i) c).engine? i task = none) ∧
      Fewer i c (tasks.foldl (Cluster.dismiss i) c) := by
  induction tasks generalizing c with
  | nil => exact ⟨working, fun task => all task (by simp), rfl, rfl, fun _ _ => id⟩
  | cons task rest ih =>
    have fewer := dismiss_fewer i c task
    obtain ⟨still, gone⟩ := working.dismiss (own task List.mem_cons_self)
    obtain ⟨last, none, same⟩ := ih still
      (fun other absent => by
        cases found : (c.dismiss i task).engine? i other with
        | none => rfl
        | some engine =>
          have before := engine?_eq_some.mpr (fewer.jobs _ _ (engine?_eq_some.mp found))
          by_cases here : other = task
          · rw [here, gone] at found
            cases found
          · cases before.symm.trans (all other (by simp [here, absent])))
      (fun other member j number t stage found =>
        own other (List.mem_cons_of_mem _ member) j number t stage (fewer.jobs _ _ found))
    exact ⟨last, none, fewer.trans same⟩

theorem Working.stop (working : Working c i (some (.coordinator i))) : ∃ stopped,
    c.stopCoordinator = some stopped ∧ Down stopped i ∧ stopped.office = c.office ∧
      stopped.storage? i = c.storage? i := by
  let closed : Cluster := { c with
    coordinators := c.coordinators.adjust ({ · with gateOpen := false }) i }
  have shut : Spares i c closed := by
    refine .elsewhere rfl rfl ?_ rfl (Nat.le_refl _)
    simp [inboxes?, closed, Option.map_map, Function.comp_def]
  let transport : Transport Hook :=
    { c.transport with hooks := c.transport.hooks.erase coordinatorAddress }
  have unregistered : c.transport.unregister coordinatorAddress = .ok transport := by
    simp [Transport.unregister, Transport.isRegistered, Table.contains, working.hook, transport]
  let alone : Cluster := { closed with transport := transport }
  have silent : Working alone i none := by
    obtain ⟨current, _, ⟨inboxes, found, tended⟩, orderly⟩ := working.spares shut
    exact ⟨current, by simp [alone, transport], ⟨inboxes, found, tended.congr fun _ => rfl⟩,
      orderly.elsewhere rfl (Nat.le_refl _)⟩
  have listed : ∀ task, task ∈ alone.tasksWith (Job.isEngineOf i) ↔
      ∃ job, alone.job? task = some job ∧ job.isEngineOf i :=
    fun task => mem_tasksWith silent.orderly (Job.isEngineOf i)
  obtain ⟨last, idle, fewer⟩ := silent.dismissAll (alone.tasksWith (Job.isEngineOf i))
    (fun task absent => by
      cases found : alone.engine? i task with
      | none => rfl
      | some engine =>
        exact absurd ((listed task).mpr ⟨_, engine?_eq_some.mp found, by simp [Job.isEngineOf]⟩) absent)
    (fun task member j number t stage found => by
      obtain ⟨job, there, test⟩ := (listed task).mp member
      cases there.symm.trans found
      simpa [Job.isEngineOf] using test)
  refine ⟨(alone.tasksWith (Job.isEngineOf i)).foldl (Cluster.dismiss i) alone, ?_, ?_, fewer.office, ?_⟩
  · simp only [stopCoordinator, working.current, Option.bind_eq_bind, Option.bind_some, unregistered]
    rfl
  · obtain ⟨inboxes, found, tended⟩ := last.tended
    refine ⟨last.current, last.hook, ⟨inboxes, found, ?_⟩, idle, last.orderly⟩
    refine List.eq_nil_iff_forall_not_mem.mpr fun txn flying => ?_
    rw [Inboxes.transactions, ← Table.contains_iff, Table.contains, Option.isSome_iff_exists] at flying
    obtain ⟨number, route⟩ := flying
    obtain ⟨task, t, stage, there, _⟩ := tended.routed txn number route
    cases (idle task).symm.trans there
  · refine fewer.storage.trans ?_
    simp only [storage?, alone, closed, Table.get?_adjust, if_true, Option.map_map]
    rfl

end Stops

section Starts

def launched (resumed : Resumed) : Nat × Transaction × Stage :=
  (resumed.inbox, resumed.transaction, .announcing resumed.outcome resumed.transaction.participants)

def launchAll (c : Cluster) (i : Nat) (engines : List Resumed) : Cluster :=
  engines.foldl (fun c resumed => c.launch i resumed) c

theorem launchAll_spec (orderly : c.Orderly) (i : Nat) (engines : List Resumed) :
    (c.launchAll i engines).Orderly ∧ (c.launchAll i engines).office = c.office ∧
      (c.launchAll i engines).transport = c.transport ∧
      (c.launchAll i engines).coordinators = c.coordinators ∧
      ∀ task, (c.launchAll i engines).engine? i task =
        if task < c.next then c.engine? i task else (engines[task - c.next]?).map launched := by
  induction engines generalizing c with
  | nil =>
    refine ⟨orderly, rfl, rfl, rfl, fun task => ?_⟩
    by_cases old : task < c.next
    · rw [if_pos old]
      rfl
    · cases found : c.job? task with
      | none => simp [launchAll, engine?, found, old]
      | some job => exact absurd (orderly.numbered task (by simp [found])) old
  | cons resumed rest ih =>
    obtain ⟨later, office, transport, coordinators, jobs⟩ :=
      ih (c := c.launch i resumed) (orderly.spawn _)
    refine ⟨later, office, transport, coordinators, fun task => (jobs task).trans ?_⟩
    have next : (c.launch i resumed).next = c.next + 1 := rfl
    have first : (c.launch i resumed).engine? i task =
        if task = c.next then some (launched resumed) else c.engine? i task := by
      rw [launch, engine?_spawn, Job.engineOf?, if_pos rfl]
      rfl
    rw [next, first]
    rcases Nat.lt_trichotomy task c.next with before | rfl | after
    · rw [if_pos (by omega), if_neg (by omega), if_pos before]
    · rw [if_pos (by omega), if_pos rfl, if_neg (by omega), Nat.sub_self]
      rfl
    · obtain ⟨further, rfl⟩ : ∃ further, task = c.next + 1 + further :=
        ⟨task - (c.next + 1), by omega⟩
      rw [if_neg (by omega), if_neg (by omega), Nat.add_sub_cancel_left,
        show c.next + 1 + further - c.next = further + 1 by omega, List.getElem?_cons_succ]

def recovered (c : Cluster) (i : Nat) (transport : Transport Hook) (r : Recovering Storage) : Cluster :=
  ((({ c with transport := transport } : Cluster).keepStorage i r.storage).setCoordinatorInboxes i
    r.inboxes).launchAll i r.engines

theorem tended_of_staffed {engines : List Resumed} {start : Nat}
    (staffed : Staffed inboxes (engines.map Resumed.engine))
    (jobs : ∀ task, c.engine? i task =
      if task < start then none else (engines[task - start]?).map launched) : Tended c i inboxes := by
  have job : ∀ {task number t stage}, c.engine? i task = some (number, t, stage) ↔
      start ≤ task ∧ ∃ resumed, engines[task - start]? = some resumed ∧
        launched resumed = (number, t, stage) := by
    intro task number t stage
    rw [jobs]
    by_cases old : task < start
    · simp [old, Nat.not_le.mpr old]
    · simp [old, Nat.not_lt.mp old]
  have reaches : ∀ resumed ∈ engines, inboxes.Reaches resumed.transaction.name resumed.inbox :=
    fun resumed member => staffed.reaches resumed.engine (List.mem_map_of_mem member)
  constructor
  · intro txn number route
    have flying : txn ∈ inboxes.transactions := by
      rw [Inboxes.transactions, ← Table.contains_iff, Table.contains, route]
      rfl
    obtain ⟨engine, member, rfl⟩ := (staffed.listed txn).mp flying
    obtain ⟨resumed, taken, rfl⟩ := List.mem_map.mp member
    obtain ⟨place, found⟩ := List.getElem?_of_mem taken
    obtain rfl : resumed.inbox = number :=
      Option.some.inj ((reaches resumed taken).route.symm.trans route)
    exact ⟨start + place, resumed.transaction,
      .announcing resumed.outcome resumed.transaction.participants,
      job.mpr ⟨by omega, resumed, by rw [Nat.add_sub_cancel_left, found], rfl⟩, rfl⟩
  · intro task number t stage there
    obtain ⟨_, resumed, found, same⟩ := job.mp there
    cases same
    exact reaches resumed (List.mem_of_getElem? found)
  · intro one two number t u stage later there thereToo
    obtain ⟨begun, resumed, found, same⟩ := job.mp there
    obtain ⟨begunToo, other, foundToo, sameToo⟩ := job.mp thereToo
    cases same
    have inbox : other.inbox = resumed.inbox := congrArg Prod.fst sameToo
    have named : other.transaction.name = resumed.transaction.name := by
      obtain ⟨queue, box⟩ := (reaches resumed (List.mem_of_getElem? found)).inbox
      obtain ⟨queueToo, boxToo⟩ := (reaches other (List.mem_of_getElem? foundToo)).inbox
      rw [inbox] at boxToo
      exact congrArg Inbox.txn (Option.some.inj (boxToo.symm.trans box))
    have names : (engines.map fun resumed => resumed.transaction.name).Nodup := by
      simpa [Function.comp_def, Coordinator.Engine.name, Resumed.engine] using staffed.names
    have apart : one - start = two - start := by
      obtain ⟨inside, _⟩ := List.getElem?_eq_some_iff.mp found
      refine (List.getElem?_inj (by simpa using inside) names).mp ?_
      simp [found, foundToo, named]
    omega

theorem place_pervasive : Coordinator.Pervasive (σ := Storage) fun s s' =>
    s'.publisher.directory = s.publisher.directory ∧ s'.publisher.token = s.publisher.token where
  refl _ := ⟨rfl, rfl⟩
  trans first second := ⟨second.1.trans first.1, second.2.trans first.2⟩
  append _ _ := ⟨rfl, rfl⟩
  compact _ _ := ⟨rfl, rfl⟩
  publish name payload s := by
    obtain ⟨directory, token, -⟩ := s.publisher.place_unmoved name payload
    rw [← Publisher.publish_snd] at directory token
    exact ⟨directory, token⟩
  retract name s := by
    simp only [Publishing.retract, Storage.retract, Publisher.retract]
    split
    · exact ⟨rfl, rfl⟩
    split <;> exact ⟨rfl, rfl⟩

def opened (c : Cluster) (i : Nat) : Cluster :=
  (({ c with coordinators := c.coordinators.adjust ({ · with gateOpen := true }) i } : Cluster).tasksWith
      (Job.isCommitAt i)).foldl wake
    { c with coordinators := c.coordinators.adjust ({ · with gateOpen := true }) i }

theorem opened_spares (c : Cluster) (i : Nat) :
    Spares i c (c.opened i) ∧ (c.opened i).storage? i = c.storage? i := by
  have set : Spares i c
      { c with coordinators := c.coordinators.adjust ({ · with gateOpen := true }) i } := by
    refine .elsewhere rfl rfl ?_ rfl (Nat.le_refl _)
    simp [inboxes?, Option.map_map, Function.comp_def]
  have woken : ∀ (tasks : List Nat) (c : Cluster), (tasks.foldl wake c).storage? i = c.storage? i := by
    intro tasks
    induction tasks with
    | nil => exact fun _ => rfl
    | cons task rest ih =>
      intro c
      refine (ih _).trans ?_
      simp only [wake]
      split <;> rfl
  refine ⟨set.trans (.foldl .wake _ _), (woken _ _).trans ?_⟩
  simp only [storage?, Table.get?_adjust, if_true, Option.map_map]
  rfl

theorem startCoordinator_eq {running : RunningCoordinator} {transport : Transport Hook}
    {result : Except CoordinatorError Unit} {r : Recovering Storage}
    (current : c.office.current = some i) (known : c.coordinators.get? i = some running)
    (registered : c.transport.register coordinatorAddress (.coordinator i) = .ok transport)
    (recovers : Coordinator.recover c.office.config running.inboxes (c.coordinatorStorage running) =
      (result, r)) :
    c.startCoordinator = some (result.map fun () => r.report, match result with
      | .error _ => c.recovered i transport r
      | .ok () => (c.recovered i transport r).opened i) := by
  have same : coordinatorStorage { c with transport := transport } running =
      c.coordinatorStorage running := rfl
  simp only [startCoordinator, current, known, registered, Option.bind_eq_bind, Option.bind_some, same,
    recovers]
  rcases result with e | ⟨⟨⟩⟩ <;> rfl

/-- In flight are just these transactions, each with an engine that announces its outcome. -/
structure Resumes (c : Cluster) (i : Nat) (taken : List (Transaction × Outcome)) : Prop where
  engines : ∀ t stage, (∃ task number, c.engine? i task = some (number, t, stage)) ↔
    ∃ outcome, (t, outcome) ∈ taken ∧ stage = .announcing outcome t.participants
  flight : ∃ names, c.inFlight? = some names ∧
    ∀ name, name ∈ names ↔ ∃ t outcome, (t, outcome) ∈ taken ∧ t.name = name

theorem mem_launched {engines : List Resumed} {start : Nat} (jobs : ∀ task, c.engine? i task =
      if task < start then none else (engines[task - start]?).map launched) :
    (∃ task number, c.engine? i task = some (number, t, stage)) ↔ ∃ outcome, (t, outcome) ∈
      (engines.map fun engine => (engine.transaction, engine.outcome)) ∧
        stage = .announcing outcome t.participants := by
  simp only [jobs, List.mem_map, Prod.mk.injEq]
  constructor
  · rintro ⟨task, number, there⟩
    rw [Option.ite_none_left_eq_some, Option.map_eq_some_iff] at there
    obtain ⟨_, resumed, found, same⟩ := there
    cases same
    exact ⟨resumed.outcome, ⟨resumed, List.mem_of_getElem? found, rfl, rfl⟩, rfl⟩
  · rintro ⟨outcome, ⟨resumed, member, rfl, rfl⟩, rfl⟩
    obtain ⟨place, found⟩ := List.getElem?_of_mem member
    refine ⟨start + place, resumed.inbox, ?_⟩
    rw [if_neg (by omega), Nat.add_sub_cancel_left, found]
    rfl

theorem Resumes.spares {taken : List (Transaction × Outcome)} (resumes : Resumes c i taken)
    (current : c.office.current = some i) (spares : Spares i c c') : Resumes c' i taken := by
  obtain ⟨engines, names, flying, listed⟩ := resumes
  have flight : ∀ {c : Cluster}, c.office.current = some i →
      c.inFlight? = (c.inboxes? i).map (·.transactions) := by
    intro c current
    simp only [inFlight?, current, inboxes?, Option.bind_eq_bind, Option.bind_some]
    cases c.coordinators.get? i <;> rfl
  refine ⟨fun t stage => ?_, names, ?_, listed⟩
  · simpa only [spares.engines] using engines t stage
  · rw [flight (spares.current.trans current), spares.inboxes, ← flight current, flying]

theorem Down.recovered (down : Down c i) {transport : Transport Hook} {r : Recovering Storage}
    (registered : transport.hooks.get? coordinatorAddress = hook)
    (staffed : Staffed r.inboxes (r.engines.map Resumed.engine))
    (place : r.storage.publisher = { directory := publishDirectory, disk := r.storage.publisher.disk }) :
    Working (c.recovered i transport r) i hook ∧
      (c.recovered i transport r).storage? i = some r.storage ∧
      Resumes (c.recovered i transport r) i
        (r.engines.map fun engine => (engine.transaction, engine.outcome)) := by
  obtain ⟨current, free, ⟨inboxes, found, empty⟩, idle, orderly⟩ := down
  obtain ⟨running, known, rfl⟩ := Option.map_eq_some_iff.mp found
  let begun := ((({ c with transport := transport } : Cluster).keepStorage i
    r.storage).setCoordinatorInboxes i r.inboxes)
  obtain ⟨later, office, sameTransport, coordinators, jobs⟩ :=
    launchAll_spec (c := begun) (orderly.elsewhere rfl (Nat.le_refl _)) i r.engines
  have engines : ∀ task, (c.recovered i transport r).engine? i task =
      if task < c.next then none else (r.engines[task - c.next]?).map launched := by
    intro task
    refine (jobs task).trans ?_
    rw [show begun.engine? i task = none from idle task]
    rfl
  have runs : (c.recovered i transport r).coordinators.get? i =
      some ⟨r.storage.log.handle, r.inboxes, running.gateOpen⟩ := by
    rw [Cluster.recovered, coordinators]
    simp [begun, setCoordinatorInboxes, keepStorage, known]
  have sameCurrent : (c.recovered i transport r).office.current = some i :=
    (congrArg Office.current office).trans current
  refine ⟨⟨sameCurrent, ?_, ⟨r.inboxes, ?_, tended_of_staffed staffed engines⟩, later⟩, ?_,
    fun t stage => mem_launched engines, r.inboxes.transactions, ?_, fun name => ?_⟩
  · exact (congrArg (fun t : Transport Hook => t.hooks.get? coordinatorAddress) sameTransport).trans
      registered
  · rw [inboxes?, runs]
    rfl
  · rw [storage?, runs, Option.map_some, coordinatorStorage, Cluster.recovered, office]
    simp only [begun, setCoordinatorInboxes, keepStorage, ← place]
  · simp [inFlight?, sameCurrent, runs]
  · refine (staffed.listed name).trans ?_
    simp [Resumed.engine, Coordinator.Engine.name]

theorem Down.start (down : Down c i) : ∃ storage result r after, c.storage? i = some storage ∧
    Coordinator.recover c.office.config {} storage = (result, r) ∧
    c.startCoordinator = some (result.map fun () => r.report, after) ∧
    Working after i (some (.coordinator i)) ∧ after.storage? i = some r.storage ∧
    Resumes after i (r.engines.map fun engine => (engine.transaction, engine.outcome)) := by
  obtain ⟨inboxes, found, empty⟩ := down.empty
  obtain ⟨running, known, rfl⟩ := Option.map_eq_some_iff.mp found
  let transport : Transport Hook :=
    { c.transport with hooks := c.transport.hooks.insert coordinatorAddress (.coordinator i) }
  have registered : c.transport.register coordinatorAddress (.coordinator i) = .ok transport := by
    simp [Transport.register, Transport.isRegistered, Table.contains, down.free, transport]
  have staffed := (Staffed.of_empty empty).recover c.office.config (c.coordinatorStorage running)
  have place := place_pervasive.recover c.office.config running.inboxes
    (c.coordinatorStorage running)
  have names : ∀ txn, running.inboxes.has txn = Inboxes.has ({} : Inboxes Envelope) txn :=
    Inboxes.has_of_empty empty
  have same := Coordinator.recover_renumbered c.office.config names (c.coordinatorStorage running)
  rcases recovers : Coordinator.recover c.office.config running.inboxes
    (c.coordinatorStorage running) with ⟨result, r⟩
  rcases recoversToo : Coordinator.recover c.office.config {}
    (c.coordinatorStorage running) with ⟨resultToo, other⟩
  rw [recovers] at staffed place
  rw [recovers, recoversToo] at same
  obtain ⟨rfl, renumbered⟩ := same
  have published : r.storage.publisher =
      { directory := publishDirectory, disk := r.storage.publisher.disk } := by
    obtain ⟨directory, token⟩ := place
    rcases publisher : r.storage.publisher with ⟨_, _, _⟩
    rw [publisher] at directory token
    cases directory
    cases token
    rfl
  have taken : transport.hooks.get? coordinatorAddress = some (.coordinator i) := by
    simp [transport]
  obtain ⟨working, stored, resumes⟩ := down.recovered taken staffed published
  rw [renumbered.engines] at resumes
  rw [renumbered.storage] at stored
  have started := startCoordinator_eq down.current known registered recovers
  rw [renumbered.report] at started
  have before : c.storage? i = some (c.coordinatorStorage running) := by
    rw [storage?, known, Option.map_some]
  refine ⟨_, result, other, _, before, recoversToo, started, ?_⟩
  rcases result with e | ⟨⟨⟩⟩
  · exact ⟨working, stored, resumes⟩
  · obtain ⟨spares, kept⟩ := opened_spares (c.recovered i transport r) i
    exact ⟨working.spares spares, kept.trans stored, resumes.spares working.current spares⟩

theorem Working.start_refused (working : Working c i (some (.coordinator i))) :
    c.startCoordinator = some (.error (.transport (.addressInUse coordinatorAddress)), c) := by
  obtain ⟨inboxes, found, _⟩ := working.tended
  obtain ⟨running, known, rfl⟩ := Option.map_eq_some_iff.mp found
  have taken : c.transport.register coordinatorAddress (.coordinator i) =
      .error (.addressInUse coordinatorAddress) := by
    simp [Transport.register, Transport.isRegistered, Table.contains, working.hook]
  simp [startCoordinator, working.current, known, taken]

end Starts

section Later

/-- What goes on in a cluster while its coordinator is not stopped: something has its turn, time passes,
somebody wants to commit or to start it again, or something else happens, also to its storage. -/
inductive Proceeds (i : Nat) : Cluster → Cluster → Prop where
  | turn (c : Cluster) : Proceeds i c c.turn
  | pass (c : Cluster) (duration : Nat) : Proceeds i c (c.advance duration)
  | commit {c c' : Cluster} (call : Nat) (name : String) (payload : Bytes) (sources : List String) :
      c.requestCommit call name payload sources = some c' → Proceeds i c c'
  | start {c c' : Cluster} (result : Except CoordinatorError Coordinator.RecoveryReport) :
      c.startCoordinator = some (result, c') → Proceeds i c c'
  | others {c c' : Cluster} : Spares i c c' → Proceeds i c c'

theorem Working.proceeds (working : Working c i (some (.coordinator i))) (proceeds : Proceeds i c c') :
    Working c' i (some (.coordinator i)) := by
  cases proceeds with
  | turn => exact working.turn
  | pass duration => exact working.advance duration
  | commit call name payload sources requested => exact working.requestCommit requested
  | start result started =>
    cases working.start_refused.symm.trans started
    exact working
  | others spares => exact working.spares spares

theorem Working.later (working : Working c i (some (.coordinator i)))
    (later : Relation.ReflTransGen (Proceeds i) c c') : Working c' i (some (.coordinator i)) := by
  induction later with
  | refl => exact working
  | tail _ proceeds ih => exact ih.proceeds proceeds

theorem Down.inFlight (down : Down c i) : c.inFlight? = some [] := by
  obtain ⟨inboxes, found, empty⟩ := down.empty
  obtain ⟨running, known, rfl⟩ := Option.map_eq_some_iff.mp found
  simp [inFlight?, down.current, known, empty]

theorem Down.repair (down : Down c i) {office : Office} (current : office.current = some i) :
    Down { c with office := office } i :=
  ⟨current, down.free, down.empty, down.idle, down.orderly.elsewhere rfl (Nat.le_refl _)⟩

/-- A start whose recovery has failed leaves the address taken and in flight what the recovery had taken
up by then. Whatever happens next, no start succeeds until the coordinator has been stopped and its engines
have gone, which is one step here. Then a start recovers what is in the storage now, and when nothing fails
any more it takes up all that was unfinished before the first one. -/
theorem failed_start_holds_the_address {failed : Cluster} {e : CoordinatorError} (down : Down c i)
    (failure : c.startCoordinator = some (.error e, failed)) :
    (∃ storage r, c.storage? i = some storage ∧
      Coordinator.recover c.office.config {} storage = (.error e, r) ∧
      failed.storage? i = some r.storage ∧
      Resumes failed i (r.engines.map fun engine => (engine.transaction, engine.outcome))) ∧
    (∀ later, Relation.ReflTransGen (Proceeds i) failed later →
      later.transport.hooks.get? coordinatorAddress = some (.coordinator i) ∧
      later.startCoordinator = some (.error (.transport (.addressInUse coordinatorAddress)), later) ∧
      ∃ stopped, later.stopCoordinator = some stopped ∧ Down stopped i ∧
        stopped.inFlight? = some [] ∧ stopped.storage? i = later.storage? i ∧
        ∀ office, office.current = some i → ∃ storage result r again,
          storage? { stopped with office := office } i = some storage ∧
          Coordinator.recover office.config {} storage = (result, r) ∧
          startCoordinator { stopped with office := office } =
            some (result.map fun () => r.report, again) ∧
          Resumes again i (r.engines.map fun engine => (engine.transaction, engine.outcome))) ∧
    ∀ {σ : Type} [Journal σ Coordinator.Entry] [LawfulJournal σ Coordinator.Entry] [Publishing σ]
      [LawfulPublishing σ Coordinator.Entry] (config later : Coordinator.Config)
      (inboxes : Inboxes Envelope) (storage again : σ) (fine : σ → Prop),
      held again = held (Coordinator.recover config inboxes storage).2.storage →
      Coordinator.Unfailing (Coordinator.Undecided (held again)) fine → fine again →
      ∃ r, Coordinator.recover later {} again = (.ok (), r) ∧
        (r.engines.map fun engine => (engine.transaction, engine.outcome)) =
          Coordinator.engines (Coordinator.traces (held storage)) := by
  obtain ⟨storage, result, r, after, before, recovers, started, working, stored, resumes⟩ := down.start
  rw [failure] at started
  obtain ⟨failing, rfl⟩ := Prod.mk.inj (Option.some.inj started)
  obtain rfl : result = .error e := by
    rcases result with cause | ⟨⟨⟩⟩ <;> cases failing
    rfl
  refine ⟨⟨storage, r, before, recovers, stored, resumes⟩, fun later proceeded => ?_,
    fun config later inboxes storage again fine left unfailing start =>
      Coordinator.recover_again config later inboxes left unfailing start⟩
  have still := working.later proceeded
  obtain ⟨stopped, stops, down, _, kept⟩ := still.stop
  refine ⟨still.hook, still.start_refused, stopped, stops, down, down.inFlight, kept,
    fun office current => ?_⟩
  obtain ⟨storage, result, r, again, now, recovers, started, _, _, resumes⟩ :=
    (down.repair current).start
  exact ⟨storage, result, r, again, now, recovers, started, resumes⟩

def unstarted : Cluster :=
  (newCoordinator { office := { log := { memory := {
    lines := [Log.line (.prepare "a" [⟨"p", "x"⟩] : Coordinator.Entry),
      Log.line (.decision "a" .commit : Coordinator.Entry),
      Log.line (.prepare "b" [⟨"p", "y"⟩] : Coordinator.Entry)]
    refusing := true } } } }).2

theorem unstarted_down : Down unstarted 0 := by
  have jobless : ∀ task, unstarted.job? task = none := fun _ => rfl
  refine ⟨rfl, rfl, ⟨{}, rfl, rfl⟩, fun _ => rfl, fun task there => ?_, .nil⟩
  rw [jobless] at there
  cases there

theorem unstarted_refused_until_stopped : ∃ failed stopped,
    unstarted.startCoordinator = some (.error (.log .appendRefused), failed) ∧
    failed.inFlight? = some ["a"] ∧
    failed.startCoordinator = some (.error (.transport (.addressInUse coordinatorAddress)), failed) ∧
    failed.stopCoordinator = some stopped ∧ stopped.inFlight? = some [] := by
  have fails : (unstarted.startCoordinator.map fun started => (started.1, started.2.inFlight?)) =
      some (.error (.log .appendRefused), some ["a"]) := by
    decide +kernel
  obtain ⟨⟨result, failed⟩, started, same⟩ := Option.map_eq_some_iff.mp fails
  obtain ⟨refused, flight⟩ := Prod.mk.inj same
  dsimp only at refused flight
  rw [refused] at started
  obtain ⟨_, later, _⟩ := failed_start_holds_the_address unstarted_down started
  obtain ⟨_, again, stopped, stops, _, idle, _⟩ := later failed .refl
  exact ⟨failed, stopped, started, flight, again, stops, idle⟩

end Later

end AtomicCommit.Cluster
