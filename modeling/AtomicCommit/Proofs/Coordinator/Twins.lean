import AtomicCommit.Proofs.Coordinator.Completion
import AtomicCommit.Proofs.Coordinator.InFlight
import AtomicCommit.Proofs.Sources

/-! What a coordinator is at, whatever numbers its inboxes have. Two of them can go on in the same way
when one has an engine more, as long as that engine has not done anything. -/

namespace AtomicCommit.Coordinator

structure Work where
  transaction : Transaction
  stage : Stage
  queue : List Envelope
  deriving DecidableEq, Repr

def Work.name (work : Work) : String := work.transaction.name

def Work.receive (envelope : Envelope) (work : Work) : Work :=
  if work.name = envelope.message.txn then { work with queue := work.queue ++ [envelope] } else work

def Next.works (t : Transaction) (queue : List Envelope) : Next → List Work
  | .stage later => [⟨t, later, queue⟩]
  | .finished _ => []

def Engine.work (inboxes : Inboxes Envelope) (engine : Engine) : Work :=
  ⟨engine.transaction, engine.stage, inboxes.queue engine.inbox⟩

def Incarnation.works (now : Incarnation) : List Work := now.engines.map (Engine.work now.inboxes)

theorem Work.receive_name (envelope : Envelope) (work : Work) :
    (work.receive envelope).name = work.name := by
  simp only [Work.receive]
  split <;> rfl

theorem Work.receive_stage (envelope : Envelope) (work : Work) :
    (work.receive envelope).stage = work.stage := by
  simp only [Work.receive]
  split <;> rfl

theorem Engine.name_work (inboxes : Inboxes Envelope) (engine : Engine) :
    (engine.work inboxes).name = engine.name := rfl

theorem Incarnation.names_works (now : Incarnation) :
    now.works.map Work.name = now.engines.map Engine.name := by
  simp only [works, List.map_map]
  rfl

namespace Staffed

variable {inboxes : Inboxes Envelope} {engines : List Engine} {now : Incarnation}

theorem owned (staffed : Staffed inboxes engines) {txn : String} {number : Nat}
    (route : inboxes.routes.get? txn = some number) : inboxes.Reaches txn number := by
  have known : txn ∈ inboxes.transactions := by
    rw [Inboxes.transactions, ← Table.contains_iff, Table.contains, route]
    rfl
  obtain ⟨engine, member, rfl⟩ := (staffed.listed txn).mp known
  have reaches := staffed.reaches engine member
  rwa [Option.some.inj (route.symm.trans reaches.route)]

theorem mem_transactions (staffed : Staffed now.inboxes now.engines) (name : String) :
    name ∈ now.inboxes.transactions ↔ name ∈ now.works.map Work.name := by
  rw [staffed.listed, now.names_works, List.mem_map]

theorem transactions_eq {other : Incarnation} (staffed : Staffed now.inboxes now.engines)
    (staffedToo : Staffed other.inboxes other.engines) (same : now.works = other.works) :
    now.inboxes.transactions = other.inboxes.transactions := by
  refine Source.eq_of_mem_iff id staffed.sorted staffedToo.sorted fun name => ?_
  rw [staffed.mem_transactions, same, ← staffedToo.mem_transactions]

theorem works_receive (staffed : Staffed now.inboxes now.engines) (envelope : Envelope) :
    (now.receive envelope).works = now.works.map (Work.receive envelope) := by
  simp only [Incarnation.works, List.map_map]
  refine List.map_congr_left fun engine member => ?_
  have owned : ∀ number, now.inboxes.routes.get? envelope.message.txn = some number →
      now.inboxes.Reaches envelope.message.txn number := fun _ => staffed.owned
  have queue := (staffed.reaches engine member).queue_deliver owned envelope
  rw [Function.comp_apply, Work.receive, engine.name_work, Engine.work, Incarnation.receive, queue]
  by_cases same : engine.name = envelope.message.txn
  · rw [if_pos same, if_pos same]
    rfl
  · rw [if_neg same, if_neg same]
    rfl

theorem works_commit (staffed : Staffed now.inboxes now.engines) {t : Transaction} {inbox : Nat}
    (created : now.inboxes.create t.name = some (inbox, inboxes)) :
    ({ now with
      inboxes := inboxes
      engines := now.engines ++ [⟨inbox, t, .starting⟩] } : Incarnation).works =
        now.works ++ [⟨t, .starting, []⟩] := by
  have kept : now.engines.map (Engine.work inboxes) = now.works := by
    refine List.map_congr_left fun engine member => ?_
    rw [Engine.work, (staffed.reaches engine member).queue_create created, Engine.work]
  simp only [Incarnation.works, List.map_append, List.map_singleton, Engine.work,
    Inboxes.queue_created created] at kept ⊢
  rw [kept]

theorem works_replace {before after : List Engine} {engine : Engine}
    (staffed : Staffed now.inboxes now.engines) (engines : now.engines = before ++ engine :: after)
    (queue : List Envelope) (next : Next) :
    (now.replace before engine after queue next).works =
      before.map (Engine.work now.inboxes) ++ next.works engine.transaction queue ++
        after.map (Engine.work now.inboxes) := by
  rw [engines] at staffed
  have own := staffed.reaches engine (by simp)
  have apart : ∀ other ∈ before ++ after, other.name ≠ engine.name := staffed.distinct.1
  have kept : ∀ other ∈ before ++ after,
      (now.inboxes.setQueue engine.inbox queue).queue other.inbox = now.inboxes.queue other.inbox := by
    intro other member
    have reaches := staffed.reaches other (by grind)
    rw [reaches.queue_setQueue, if_neg (reaches.apart own (apart other member))]
  have set : ∀ part, part ⊆ before ++ after →
      part.map (Engine.work (now.inboxes.setQueue engine.inbox queue)) =
        part.map (Engine.work now.inboxes) := by
    intro part within
    refine List.map_congr_left fun other member => ?_
    rw [Engine.work, kept other (within member), Engine.work]
  have dropped : ∀ part, part ⊆ before ++ after →
      part.map (Engine.work ((now.inboxes.setQueue engine.inbox queue).drop engine.inbox)) =
        part.map (Engine.work now.inboxes) := by
    intro part within
    refine List.map_congr_left fun other member => ?_
    have reaches := staffed.reaches other (by grind)
    rw [Engine.work, (reaches.setQueue _ _).queue_drop (own.setQueue _ _) (apart other (within member)),
      kept other (within member), Engine.work]
  cases next with
  | stage stage =>
    have mine : (now.inboxes.setQueue engine.inbox queue).queue engine.inbox = queue := by
      rw [own.queue_setQueue, if_pos rfl]
    simp [Incarnation.works, Incarnation.replace, Next.works, set, Engine.work, mine]
  | finished result => simp [Incarnation.works, Incarnation.replace, Next.works, dropped]

end Staffed

section Lodging

inductive Inserted (name : String) : List Work → List Work → Prop where
  | intro (before : List Work) (lodger : Work) (after : List Work) : lodger.name = name →
      lodger.stage = .starting → Inserted name (before ++ lodger :: after) (before ++ after)

/-- Two coordinators are at the same, but the first has an engine more. It is that of a transaction with
this name, which has not begun. -/
structure Lodging (name : String) (now other : Incarnation) : Prop where
  staffed : Staffed now.inboxes now.engines
  others : Staffed other.inboxes other.engines
  config : other.config = now.config
  opened : now.gateOpen = true
  gate : other.gateOpen = now.gateOpen
  works : Inserted name now.works other.works

variable {name : String} {now other : Incarnation} {works others more : List Work}

namespace Inserted

theorem subset (inserted : Inserted name works others) : others ⊆ works := by
  obtain ⟨before, lodger, after, _, _⟩ := inserted
  exact List.append_subset.mpr ⟨by simp, fun work member => by simp [member]⟩

theorem receive (inserted : Inserted name works others) (envelope : Envelope) :
    Inserted name (works.map (Work.receive envelope)) (others.map (Work.receive envelope)) := by
  obtain ⟨before, lodger, after, named, starting⟩ := inserted
  simp only [List.map_append, List.map_cons]
  exact .intro _ _ _ ((lodger.receive_name envelope).trans named)
    ((lodger.receive_stage envelope).trans starting)

theorem append (inserted : Inserted name works others) (more : List Work) :
    Inserted name (works ++ more) (others ++ more) := by
  obtain ⟨before, lodger, after, named, starting⟩ := inserted
  simp only [List.append_assoc, List.cons_append]
  exact .intro _ _ _ named starting

theorem split {work : Work} {before after : List Work}
    (inserted : Inserted name (before ++ work :: after) others) (distinct : work.name ≠ name) :
    ∃ front back, others = front ++ work :: back ∧
      ∀ more, Inserted name (before ++ more ++ after) (front ++ more ++ back) := by
  generalize whole : before ++ work :: after = works at inserted
  obtain ⟨front, lodger, back, named, starting⟩ := inserted
  rcases split_append whole.symm with ⟨rest, rfl, rfl⟩ | ⟨rest, rfl, split⟩
  · refine ⟨before, rest ++ back, by simp, fun more => ?_⟩
    have inserted := Inserted.intro (before ++ more ++ rest) lodger back named starting
    simpa using inserted
  · cases rest with
    | nil =>
      cases split
      exact absurd named distinct
    | cons first rest =>
      cases split
      refine ⟨front ++ rest, after, by simp, fun more => ?_⟩
      have inserted := Inserted.intro front lodger (rest ++ more ++ after) named starting
      simpa using inserted

theorem own {work : Work} {before after : List Work}
    (inserted : Inserted name (before ++ work :: after) others) (named : work.name = name)
    (unique : ((before ++ work :: after).map Work.name).Nodup) :
    others = before ++ after ∧ work.stage = .starting := by
  rw [List.map_append, List.map_cons, List.nodup_middle, ← List.map_append] at unique
  have absent : ∀ part, part ⊆ before ++ after → ∀ lodger, lodger.name = name → lodger ∉ part := by
    intro part within lodger same there
    have member := List.mem_map_of_mem (f := Work.name) (within there)
    rw [same, ← named] at member
    exact (List.nodup_cons.mp unique).1 member
  generalize whole : before ++ work :: after = works at inserted
  obtain ⟨front, lodger, back, same, starting⟩ := inserted
  obtain ⟨rfl, rfl, rfl⟩ := (List.append_cons_inj_of_notMem (absent before (by simp) lodger same)
    (absent after (by simp) lodger same)).mp whole
  exact ⟨rfl, starting⟩

end Inserted

namespace Lodging

theorem begin {t : Transaction} {inbox : Nat} {inboxes : Inboxes Envelope}
    (staffed : Staffed now.inboxes now.engines) (opened : now.gateOpen = true)
    (created : now.inboxes.create t.name = some (inbox, inboxes)) :
    Lodging t.name { now with
      inboxes := inboxes
      engines := now.engines ++ [⟨inbox, t, .starting⟩] } now := by
  refine ⟨staffed.add created, staffed, rfl, opened, rfl, ?_⟩
  rw [staffed.works_commit created]
  have inserted := Inserted.intro now.works ⟨t, .starting, []⟩ [] rfl rfl
  rwa [List.append_nil] at inserted

theorem receive (lodging : Lodging name now other) (envelope : Envelope) :
    Lodging name (now.receive envelope) (other.receive envelope) := by
  refine ⟨lodging.staffed.deliver _ envelope, lodging.others.deliver _ envelope, lodging.config,
    lodging.opened, lodging.gate, ?_⟩
  rw [lodging.staffed.works_receive, lodging.others.works_receive]
  exact lodging.works.receive envelope

theorem commit (lodging : Lodging name now other) {txn : String} (payload : Bytes)
    {sources : List String} {inbox : Nat} {inboxes : Inboxes Envelope} {parsed : List Source}
    (admitted : admission txn sources now.gateOpen now.inboxes = .admitted inbox inboxes parsed) :
    ∃ place after, admission txn sources other.gateOpen other.inboxes = .admitted place after parsed ∧
      Lodging name
        { now with
          inboxes := inboxes
          engines := now.engines ++ [⟨inbox, ⟨txn, payload, parsed⟩, .starting⟩] }
        { other with
          inboxes := after
          engines := other.engines ++ [⟨place, ⟨txn, payload, parsed⟩, .starting⟩] } := by
  obtain ⟨readable, opened, created⟩ := admitted_iff.mp admitted
  have absent : txn ∉ other.inboxes.transactions := by
    have free : txn ∉ now.inboxes.transactions := by
      rw [← Inboxes.create_eq_none, created]
      simp
    rw [lodging.staffed.mem_transactions] at free
    rw [lodging.others.mem_transactions]
    exact fun there => free (List.map_subset _ lodging.works.subset there)
  obtain ⟨place, after, createdToo⟩ := Inboxes.create_of_absent absent
  refine ⟨place, after, admitted_iff.mpr ⟨readable, lodging.gate.trans opened, createdToo⟩,
    lodging.staffed.add created, lodging.others.add createdToo, lodging.config, lodging.opened,
    lodging.gate, ?_⟩
  rw [lodging.staffed.works_commit (t := ⟨txn, payload, parsed⟩) created,
    lodging.others.works_commit (t := ⟨txn, payload, parsed⟩) createdToo]
  exact lodging.works.append _

theorem advance (lodging : Lodging name now other) {before after : List Engine} {engine : Engine}
    (engines : now.engines = before ++ engine :: after) (distinct : engine.name ≠ name) :
    ∃ front twin back, other.engines = front ++ twin :: back ∧
      twin.work other.inboxes = engine.work now.inboxes ∧
      ∀ queue next, Lodging name (now.replace before engine after queue next)
        (other.replace front twin back queue next) := by
  have works : now.works = before.map (Engine.work now.inboxes) ++ engine.work now.inboxes ::
      after.map (Engine.work now.inboxes) := by
    simp [Incarnation.works, engines]
  have inserted := lodging.works
  rw [works] at inserted
  obtain ⟨worksBefore, worksAfter, split, changed⟩ := inserted.split distinct
  obtain ⟨front, rest, enginesToo, rfl, atLast⟩ := List.map_eq_append_iff.mp split
  obtain ⟨twin, back, rfl, same, rfl⟩ := List.map_eq_cons_iff.mp atLast
  refine ⟨front, twin, back, enginesToo, same, fun queue next => ?_⟩
  have transaction : twin.transaction = engine.transaction := congrArg Work.transaction same
  refine ⟨lodging.staffed.replace engines queue next,
    lodging.others.replace enginesToo queue next, ?_, ?_, ?_, ?_⟩
  · simpa using lodging.config
  · simpa using lodging.opened
  · simpa using lodging.gate
  · rw [lodging.staffed.works_replace engines, lodging.others.works_replace enginesToo, transaction]
    exact changed _

end Lodging

end Lodging

section Stations

variable {σ : Type} [Journal σ Entry] [LawfulJournal σ Entry] [Publishing σ]
  [LawfulPublishing σ Entry] {name : String} {s s' twin : Station σ} {events : List Event}

structure Twins (name : String) (s twin : Station σ) : Prop where
  clock : twin.clock = s.clock
  storage : twin.storage = s.storage
  running : ∃ now other, s.running = some now ∧ twin.running = some other ∧ Lodging name now other

def Underway (name : String) (s : Station σ) : Prop :=
  ∃ now, s.running = some now ∧ Staffed now.inboxes now.engines ∧
    ∃ engine ∈ now.engines, engine.name = name ∧ engine.stage ≠ .starting

theorem Move.begun {t : Transaction} {stage later : Stage} {queue rest : List Envelope}
    {sent : List (String × Message)} {deeds : List (Deed Entry)}
    (move : Move t stage queue (.stage later) sent rest deeds) : later ≠ .starting := by
  generalize next : Next.stage later = result at move
  cases move with
  | notRequested | closed => cases next
  | counted queue deadline ballot outcome =>
    cases next
    cases outcome <;> simp [decided]
  | _ =>
    cases next
    simp

theorem Underway.of_step {now : Incarnation} {before after : List Engine} {engine : Engine}
    {progress : Progress (Recorded σ Entry)}
    (staffed : Staffed now.inboxes now.engines) (engines : now.engines = before ++ engine :: after)
    (moved : Coordinator.step now.config s.clock engine.transaction engine.stage
      (now.inboxes.queue engine.inbox) (⟨s.storage, []⟩ : Recorded σ Entry) = some progress)
    (unfinished : ∀ result, .finished engine.name result ∉ progress.events engine.name) :
    Underway engine.name { s with
      running := some (now.replace before engine after progress.queue progress.next)
      storage := progress.storage.storage } := by
  cases next : progress.next with
  | finished result =>
    refine absurd ?_ (unfinished result)
    simp [Progress.events, Next.events, next]
  | stage stage =>
    obtain ⟨move, _⟩ := step_follows moved
    have staffedAfter := staffed.replace engines progress.queue progress.next
    rw [next] at move staffedAfter
    exact ⟨_, rfl, staffedAfter, { engine with stage := stage }, by simp [Incarnation.replace], rfl,
      move.begun⟩

omit [LawfulPublishing σ Entry] in
theorem Station.Step.admitted {t : Transaction} (stepped : s.Step [.admitted t] s') :
    ∃ now sources inbox inboxes, s.running = some now ∧
      admission t.name sources now.gateOpen now.inboxes = .admitted inbox inboxes t.sources ∧
      s' = { s with running := some { now with
        inboxes := inboxes
        engines := now.engines ++ [⟨inbox, t, .starting⟩] } } := by
  generalize told : [Event.admitted t] = events at stepped
  have there : .admitted t ∈ events := by simp [← told]
  cases stepped with
  | wait | disturb | stop | receive => simp at there
  | start => simp [startEvents] at there
  | commit now name payload sources inbox inboxes parsed running admitted =>
    cases told
    exact ⟨now, sources, inbox, inboxes, running, admitted, rfl⟩
  | advance now before engine after progress =>
    cases next : progress.next <;> simp [Progress.events, Next.events, next] at there

theorem Twins.begin {history : List Event} {t : Transaction} (run : Station.Run history s)
    (stepped : s.Step [.admitted t] s') : Twins t.name s' s ∧ t.name ∉ s.inFlight := by
  obtain ⟨now, sources, inbox, inboxes, running, admitted, rfl⟩ := stepped.admitted
  obtain ⟨_, _, _, lives⟩ := lives_run run now running
  obtain ⟨_, opened, created⟩ := admitted_iff.mp admitted
  refine ⟨⟨rfl, rfl, _, now, rfl, running, .begin lives.staffed opened created⟩, ?_⟩
  rw [Station.inFlight, running]
  exact fun there => by simp [Inboxes.create_eq_none.mpr there] at created

/-- As long as the engine that only the first one has does nothing, the other one can do the same as
the first. -/
theorem Twins.step (twins : Twins name s twin) (stepped : s.Step events s')
    (unstopped : .stopped ∉ events) (unfinished : ∀ result, .finished name result ∉ events) :
    (∃ twin', twin.Step events twin' ∧ Twins name s' twin') ∨ Underway name s' := by
  obtain ⟨clock, storage, now, other, running, runningToo, lodging⟩ := twins
  cases stepped with
  | wait duration =>
    exact .inl ⟨_, .wait twin duration, congrArg (· + duration) clock, storage, now, other, running,
      runningToo, lodging⟩
  | disturb after same =>
    exact .inl ⟨_, .disturb twin after (by rw [same, storage]), clock, rfl, now, other, running,
      runningToo, lodging⟩
  | start config down => cases down.symm.trans running
  | stop => simp at unstopped
  | commit current txn payload sources inbox inboxes parsed running' admitted =>
    obtain rfl := Option.some.inj (running.symm.trans running')
    obtain ⟨place, after, admittedToo, lodgingAfter⟩ := lodging.commit payload admitted
    exact .inl ⟨_, .commit twin other txn payload sources place after parsed runningToo admittedToo,
      clock, storage, _, _, rfl, rfl, lodgingAfter⟩
  | receive current envelope running' =>
    obtain rfl := Option.some.inj (running.symm.trans running')
    exact .inl ⟨_, .receive twin other envelope runningToo, clock, storage, _, _, rfl, rfl,
      lodging.receive envelope⟩
  | advance current before engine after progress running' engines moved =>
    obtain rfl := Option.some.inj (running.symm.trans running')
    by_cases own : engine.name = name
    · -- The lodger itself has made its first step.
      subst own
      exact .inr (.of_step lodging.staffed engines moved unfinished)
    · obtain ⟨front, engineToo, back, enginesToo, same, changed⟩ := lodging.advance engines own
      have transaction : engineToo.transaction = engine.transaction := congrArg Work.transaction same
      have stage : engineToo.stage = engine.stage := congrArg Work.stage same
      have queue : other.inboxes.queue engineToo.inbox = now.inboxes.queue engine.inbox :=
        congrArg Work.queue same
      have movedToo : Coordinator.step other.config twin.clock engineToo.transaction engineToo.stage
          (other.inboxes.queue engineToo.inbox) (⟨twin.storage, []⟩ : Recorded σ Entry) =
            some progress := by
        rw [lodging.config, clock, transaction, stage, queue, storage, moved]
      have stepped := Station.Step.advance twin other front engineToo back progress runningToo enginesToo
        movedToo
      rw [Engine.name, transaction] at stepped
      exact .inl ⟨_, stepped, clock, rfl, _, _, rfl, rfl, changed progress.queue progress.next⟩

theorem Underway.step (underway : Underway name s) (stepped : s.Step events s')
    (unstopped : .stopped ∉ events) (unfinished : ∀ result, .finished name result ∉ events) :
    Underway name s' := by
  obtain ⟨now, running, staffed, engine, member, named, begun⟩ := underway
  cases stepped with
  | wait | disturb => exact ⟨now, running, staffed, engine, member, named, begun⟩
  | start config down => cases down.symm.trans running
  | stop => simp at unstopped
  | commit current txn payload sources inbox inboxes parsed running' admitted =>
    obtain rfl := Option.some.inj (running.symm.trans running')
    exact ⟨_, rfl, staffed.add (admission_created admitted), engine, List.mem_append_left _ member, named,
      begun⟩
  | receive current envelope running' =>
    obtain rfl := Option.some.inj (running.symm.trans running')
    exact ⟨_, rfl, staffed.deliver _ envelope, engine, member, named, begun⟩
  | advance current before mover after progress running' engines moved =>
    obtain rfl := Option.some.inj (running.symm.trans running')
    by_cases own : mover.name = name
    · subst own
      exact .of_step staffed engines moved unfinished
    · rw [engines, List.mem_append, List.mem_cons] at member
      have distinct : engine ≠ mover := by
        rintro rfl
        exact own named
      refine ⟨_, rfl, staffed.replace engines _ _, engine, ?_, named, begun⟩
      cases progress.next <;> simp [Incarnation.replace] <;> tauto

theorem Station.Step.failed (stepped : s.Step events s') {e : CoordinatorError}
    (failed : .finished name (.error e) ∈ events) :
    ∃ now before engine after cause storage, s.running = some now ∧
      now.engines = before ++ engine :: after ∧ engine.name = name ∧ engine.stage = .starting ∧
      Journal.append (Entry.prepare engine.name engine.transaction.sources) s.storage =
        (.error cause, storage) ∧ e = .log cause ∧ events = [.finished name (.error e)] ∧
      s' = { s with
        running := some (now.replace before engine after (now.inboxes.queue engine.inbox)
          (.finished (.error e)))
        storage := storage } := by
  cases stepped with
  | wait | disturb | stop | commit | receive => simp at failed
  | start => simp [Station.startEvents] at failed
  | advance now before engine after progress running engines moved =>
    obtain ⟨own, next⟩ : engine.name = name ∧ progress.next = .finished (.error e) := by
      cases next : progress.next <;> simp [Progress.events, Next.events, next] at failed
      simp [failed]
    obtain ⟨starting, cause, storage, appended, rfl⟩ := (gives_up_iff moved e).mp next
    have noted : Journal.append (Entry.prepare engine.transaction.name engine.transaction.sources)
        (⟨s.storage, []⟩ : Recorded σ Entry) = (.error cause, ⟨storage, []⟩) := by
      simp [Journal.append, Recorded.note, appended]
    rw [starting] at moved
    simp only [Coordinator.step, noted, Option.some.injEq] at moved
    subst moved
    refine ⟨now, before, engine, after, cause, storage, running, engines, own, starting, appended, rfl,
      ?_, rfl⟩
    simp [Progress.events, Next.events, own]

theorem Underway.not_failed (underway : Underway name s) (stepped : s.Step events s')
    (e : CoordinatorError) : .finished name (.error e) ∉ events := by
  obtain ⟨now, running, staffed, engine, member, named, begun⟩ := underway
  intro failed
  obtain ⟨current, before, other, after, _, _, running', engines, namedToo, starting, _⟩ :=
    stepped.failed failed
  obtain rfl := Option.some.inj (running.symm.trans running')
  have same : engine = other := List.inj_on_of_nodup_map staffed.names member (by simp [engines])
    (named.trans namedToo.symm)
  exact begun (same ▸ starting)

theorem Twins.steps {begun between : Station σ} {meanwhile : List Event} (twins : Twins name begun s)
    (steps : begun.Steps meanwhile between) (unstopped : .stopped ∉ meanwhile)
    (unfinished : ∀ result, .finished name result ∉ meanwhile) :
    (∃ twin, s.Steps meanwhile twin ∧ Twins name between twin) ∨ Underway name between := by
  induction steps with
  | nothing => exact .inl ⟨s, .nothing, twins⟩
  | step earlier stepped ih =>
    simp only [List.mem_append, not_or, forall_and] at unstopped unfinished
    rcases ih unstopped.1 unfinished.1 with ⟨twin, steps, twins⟩ | underway
    · rcases twins.step stepped unstopped.2 unfinished.2 with ⟨twin', steppedToo, twins⟩ | underway
      · exact .inl ⟨twin', steps.step steppedToo, twins⟩
      · exact .inr underway
    · exact .inr (underway.step stepped unstopped.2 unfinished.2)

def Station.works (s : Station σ) : List Work := (s.running.map (·.works)).getD []

variable [HasPublisher σ Entry]

structure Station.Agrees (s other : Station σ) : Prop where
  clock : s.clock = other.clock
  log : held s.storage = held other.storage
  published : publisher s.storage = publisher other.storage
  config : s.running.map (·.config) = other.running.map (·.config)
  gate : s.running.map (·.gateOpen) = other.running.map (·.gateOpen)
  flight : s.inFlight = other.inFlight
  works : s.works = other.works

omit [LawfulPublishing σ Entry] in
theorem Station.Agrees.refl (s : Station σ) : s.Agrees s := ⟨rfl, rfl, rfl, rfl, rfl, rfl, rfl⟩

theorem Twins.gives_up (twins : Twins name s twin) (stepped : s.Step events s') {e : CoordinatorError}
    (failed : .finished name (.error e) ∈ events) :
    events = [.finished name (.error e)] ∧ (∃ cause, e = .log cause) ∧ s'.Agrees twin ∧
      name ∉ s'.inFlight ∧ ∃ now, s'.running = some now ∧ now.gateOpen = true := by
  obtain ⟨clock, storage, now, other, running, runningToo, lodging⟩ := twins
  obtain ⟨current, before, engine, after, cause, left, running', engines, named, starting, appended,
    rfl, told, rfl⟩ := stepped.failed failed
  obtain rfl := Option.some.inj (running.symm.trans running')
  let later := now.replace before engine after (now.inboxes.queue engine.inbox)
    (.finished (.error (.log cause)))
  have staffed : Staffed later.inboxes later.engines := lodging.staffed.replace engines _ _
  have inserted := lodging.works
  have names := now.names_works ▸ lodging.staffed.names
  have split : now.works = before.map (Engine.work now.inboxes) ++ engine.work now.inboxes ::
      after.map (Engine.work now.inboxes) := by
    simp [Incarnation.works, engines]
  rw [split] at inserted names
  have works : later.works = other.works := by
    rw [(inserted.own named names).1, lodging.staffed.works_replace engines]
    simp [Next.works]
  have gone : name ∉ later.inboxes.transactions := by
    have distinct := (engines ▸ lodging.staffed).distinct.1
    rw [staffed.listed]
    rintro ⟨mover, member, same⟩
    exact distinct mover member (same.trans named.symm)
  have published := HasPublisher.publisher_append (Entry.prepare engine.name engine.transaction.sources)
    s.storage
  rw [appended] at published
  refine ⟨told, ⟨cause, rfl⟩, ⟨clock.symm, ?_, ?_, ?_, ?_, ?_, ?_⟩, gone, later, rfl, lodging.opened⟩
  · rw [storage]
    exact LawfulJournal.append_error appended
  · rw [storage]
    exact published
  · simp [runningToo, lodging.config, Incarnation.replace]
  · simp [runningToo, lodging.gate, Incarnation.replace]
  · simpa [Station.inFlight, runningToo] using staffed.transactions_eq lodging.others works
  · simpa [Station.works, runningToo] using works

end Stations

end AtomicCommit.Coordinator
