import AtomicCommit.Log.Ledger
import AtomicCommit.Proofs.Coordinator.Consistent
import AtomicCommit.Proofs.Coordinator.Play

/-! Which transactions are in flight: those with an engine, and each has one. A name is in flight from
its recovery or its admission until its end is logged or its request cannot be. Names may be used
again. -/

namespace AtomicCommit.Coordinator

structure Staffed (inboxes : Inboxes Envelope) (engines : List Engine) : Prop extends
    Seated inboxes engines where
  listed : ∀ name, name ∈ inboxes.transactions ↔ ∃ engine ∈ engines, engine.name = name
  sorted : inboxes.routes.Sorted

namespace Staffed

variable {inboxes after : Inboxes Envelope} {engines before others : List Engine} {engine : Engine}

theorem of_empty (empty : inboxes.transactions = []) : Staffed inboxes [] := by
  have keys : inboxes.routes.keys = [] := empty
  refine ⟨.nobody, by simp [empty], ?_⟩
  rw [Table.Sorted, keys]
  exact .nil

theorem nobody : Staffed {} [] := .of_empty rfl

theorem add (staffed : Staffed inboxes engines)
    (created : inboxes.create engine.name = some (engine.inbox, after)) :
    Staffed after (engines ++ [engine]) := by
  refine ⟨staffed.toSeated.add created, fun name => ?_, ?_⟩
  · rw [Inboxes.transactions, Inboxes.routes_create created, Table.mem_keys_insert, or_comm]
    simp only [List.mem_append, List.mem_singleton, or_and_right, exists_or, exists_eq_left]
    exact or_congr (staffed.listed name) eq_comm
  · rw [Inboxes.routes_create created]
    exact Table.sorted_insert staffed.sorted _ _

theorem deliver (staffed : Staffed inboxes engines) (txn : String) (envelope : Envelope) :
    Staffed (inboxes.deliver txn envelope).2 engines := by
  refine ⟨staffed.toSeated.deliver txn envelope, ?_, ?_⟩ <;>
    simp only [Inboxes.transactions, Inboxes.routes_deliver]
  · exact staffed.listed
  · exact staffed.sorted

theorem advance (staffed : Staffed inboxes (before ++ engine :: others)) (stage : Stage)
    (queue : List Envelope) : Staffed (inboxes.setQueue engine.inbox queue)
      (before ++ { engine with stage := stage } :: others) := by
  refine ⟨staffed.toSeated.advance stage queue, fun name => ?_, staffed.sorted⟩
  refine (staffed.listed name).trans ?_
  simp [or_and_right, exists_or, Engine.name]

theorem leave (staffed : Staffed inboxes (before ++ engine :: others)) (queue : List Envelope) :
    Staffed ((inboxes.setQueue engine.inbox queue).drop engine.inbox) (before ++ others) := by
  have owned := (staffed.reaches engine (by simp)).setQueue engine.inbox queue
  have routes := owned.routes_drop
  refine ⟨staffed.toSeated.leave queue, fun name => ?_, ?_⟩
  · rw [Inboxes.transactions, routes, Table.mem_keys_erase]
    have distinct := staffed.toSeated.distinct.1
    constructor
    · rintro ⟨other, there⟩
      obtain ⟨holder, member, rfl⟩ := (staffed.listed name).mp there
      exact ⟨holder, by grind, rfl⟩
    · rintro ⟨holder, member, rfl⟩
      exact ⟨distinct holder member, (staffed.listed _).mpr ⟨holder, by grind, rfl⟩⟩
  · rw [routes]
    exact Table.sorted_erase staffed.sorted _

theorem replace {now : Incarnation} (staffed : Staffed now.inboxes now.engines)
    (engines : now.engines = before ++ engine :: others) (queue : List Envelope) (next : Next) :
    Staffed (now.replace before engine others queue next).inboxes
      (now.replace before engine others queue next).engines := by
  rw [engines] at staffed
  cases next with
  | stage stage => exact staffed.advance stage queue
  | finished result => exact staffed.leave queue

end Staffed

def Event.Ends (name : String) : Event → Prop
  | .did (.appended (.done txn)) => txn = name
  | .finished txn (.error _) => txn = name
  | _ => False

def Event.ActsFor (name : String) : Event → Prop
  | .did (.appended entry) => entry.txn = name
  | .did (.published txn _) => txn = name
  | .sent _ message => message.txn = name
  | _ => False

/-- The name was taken up by the recovery or admitted later, and the transaction is not over since. -/
def InFlight (taken : List String) (later : List Event) (name : String) : Prop :=
  (name ∈ taken ∧ ∀ event ∈ later, ¬ event.Ends name) ∨
    ∃ before t after, later = before ++ .admitted t :: after ∧ t.name = name ∧
      ∀ event ∈ after, ¬ event.Ends name

section InFlight

variable {taken : List String} {later events : List Event} {name : String}

theorem inFlight_append (unadmitted : ∀ t, .admitted t ∉ events) :
    InFlight taken (later ++ events) name ↔
      InFlight taken later name ∧ ∀ event ∈ events, ¬ event.Ends name := by
  constructor
  · rintro (⟨member, unended⟩ | ⟨before, t, after, split, named, unended⟩)
    · exact ⟨.inl ⟨member, fun event old => unended event (by simp [old])⟩,
        fun event new => unended event (by simp [new])⟩
    · rcases split_append split with ⟨more, old, rfl⟩ | ⟨more, _, new⟩
      · exact ⟨.inr ⟨before, t, more, old, named, fun event there => unended event (by simp [there])⟩,
          fun event new => unended event (by simp [new])⟩
      · exact absurd (by simp [new]) (unadmitted t)
  · rintro ⟨⟨member, unended⟩ | ⟨before, t, after, rfl, named, unended⟩, still⟩
    · exact .inl ⟨member, fun event there => (List.mem_append.mp there).elim (unended event)
        (still event)⟩
    · exact .inr ⟨before, t, after ++ events, by simp, named, fun event there =>
        (List.mem_append.mp there).elim (unended event) (still event)⟩

theorem inFlight_admitted (t : Transaction) :
    InFlight taken (later ++ [.admitted t]) name ↔ InFlight taken later name ∨ t.name = name := by
  constructor
  · rintro (⟨member, unended⟩ | ⟨before, other, after, split, named, unended⟩)
    · exact .inl (.inl ⟨member, fun event old => unended event (by simp [old])⟩)
    · rcases split_append split with ⟨more, old, rfl⟩ | ⟨more, _, new⟩
      · exact .inl (.inr ⟨before, other, more, old, named, fun event there =>
          unended event (by simp [there])⟩)
      · obtain rfl : t = other := by
          have there : Event.admitted other ∈ [Event.admitted t] := by simp [new]
          simpa [eq_comm] using there
        exact .inr named
  · rintro ((⟨member, unended⟩ | ⟨before, other, after, rfl, named, unended⟩) | named)
    · refine .inl ⟨member, fun event there => (List.mem_append.mp there).elim (unended event) ?_⟩
      rintro new
      cases List.mem_singleton.mp new
      exact id
    · refine .inr ⟨before, other, after ++ [.admitted t], by simp, named, fun event there =>
        (List.mem_append.mp there).elim (unended event) ?_⟩
      rintro new
      cases List.mem_singleton.mp new
      exact id
    · exact .inr ⟨later, t, [], rfl, named, by simp⟩

end InFlight

namespace Move

variable {t : Transaction} {stage : Stage} {queue rest : List Envelope} {next : Next}
  {sent : List (String × Message)} {deeds : List (Deed Entry)}

def events (t : Transaction) (next : Next) (sent : List (String × Message))
    (deeds : List (Deed Entry)) : List Event :=
  deeds.map .did ++ sent.map (fun (recipient, message) => .sent recipient message) ++
    next.events t.name

theorem ends_iff (move : Move t stage queue next sent rest deeds) (name : String) :
    (∃ event ∈ events t next sent deeds, event.Ends name) ↔
      t.name = name ∧ ∃ result, next = .finished result := by
  cases move <;> simp [events, Next.events, Event.Ends]

theorem unadmitted (other : Transaction) : .admitted other ∉ events t next sent deeds := by
  cases next <;> simp [events, Next.events]

theorem acts_own (move : Move t stage queue next sent rest deeds) (name : String) :
    ∀ event ∈ events t next sent deeds, event.ActsFor name → t.name = name := by
  cases move with
  | requested queue deadline =>
    intro event there acts
    simp only [events, Next.events, Transaction.requests, List.map_cons, List.map_nil, List.map_map,
      List.append_nil, List.singleton_append, List.mem_cons, List.mem_map] at there
    rcases there with rfl | ⟨_, _, rfl⟩ <;> exact acts
  | _ => simp [events, Next.events, Event.ActsFor, Entry.txn, Message.decision, Message.bare]

theorem acts (move : Move t stage queue next sent rest deeds) {before after : List Event}
    {event : Event} {name : String} (split : events t next sent deeds = before ++ event :: after)
    (acts : event.ActsFor name) : t.name = name ∧ ∀ other ∈ before, ¬ other.Ends name := by
  have there : event ∈ events t next sent deeds := by simp [split]
  refine ⟨move.acts_own name event there acts, fun other earlier ends => ?_⟩
  have ended := (move.ends_iff name).mp ⟨other, by simp [split, earlier], ends⟩
  obtain ⟨_, result, rfl⟩ := ended
  cases move with
  | notRequested queue e =>
    cases List.mem_singleton.mp there
    exact acts
  | closed queue outcome due =>
    have pair : [.did (.appended (.done t.name)), .finished t.name (.ok outcome)] =
      before ++ event :: after := split
    rcases before with _ | ⟨first, _ | ⟨second, before⟩⟩
    · cases earlier
    · cases pair
      exact acts
    · simp at pair

theorem gives_up (move : Move t stage queue next sent rest deeds) {e : CoordinatorError}
    (ended : next = .finished (.error e)) : stage = .starting := by
  cases move <;> cases ended
  rfl

end Move

structure Lives (taken : List String) (recovered : Bool) (later : List Event) (now : Incarnation) :
    Prop where
  staffed : Staffed now.inboxes now.engines
  gate : now.gateOpen = recovered
  flight : ∀ name, name ∈ now.inboxes.transactions ↔ InFlight taken later name
  admits : ∀ t, .admitted t ∈ later → recovered
  acts : ∀ name, Ordered (fun before event => event.ActsFor name → InFlight taken before name) later

namespace Lives

variable {taken : List String} {recovered : Bool} {later events : List Event} {now : Incarnation}

theorem quiet (lives : Lives taken recovered later now) (event : Event)
    (unadmitted : ∀ t, event ≠ .admitted t) (idle : ∀ name, ¬ event.ActsFor name)
    (unended : ∀ name, ¬ event.Ends name) : Lives taken recovered (later ++ [event]) now := by
  refine ⟨lives.staffed, lives.gate, fun name => ?_, fun t there => ?_, fun name => ?_⟩
  · rw [inFlight_append (by simpa [eq_comm] using unadmitted), lives.flight]
    simp [unended]
  · rcases List.mem_append.mp there with old | new
    · exact lives.admits t old
    · exact absurd (List.mem_singleton.mp new).symm (unadmitted t)
  · exact (lives.acts name).snoc fun acts => absurd acts (idle name)

theorem receive (lives : Lives taken recovered later now) (envelope : Envelope) :
    Lives taken recovered (later ++ [.received envelope]) (now.receive envelope) := by
  obtain ⟨_, _, flight, admits, acts⟩ :=
    lives.quiet (.received envelope) (by simp) (fun _ => id) (fun _ => id)
  refine ⟨lives.staffed.deliver _ envelope, lives.gate, fun name => ?_, admits, acts⟩
  rw [← flight, Incarnation.receive, Inboxes.transactions, Inboxes.routes_deliver]
  rfl

theorem commit (lives : Lives taken recovered later now) {name : String} {payload : Bytes}
    {sources : List String} {inbox : Nat} {inboxes : Inboxes Envelope} {parsed : List Source}
    (admitted : admission name sources now.gateOpen now.inboxes = .admitted inbox inboxes parsed) :
    Lives taken recovered (later ++ [.admitted ⟨name, payload, parsed⟩]) { now with
      inboxes := inboxes
      engines := now.engines ++ [⟨inbox, ⟨name, payload, parsed⟩, .starting⟩] } := by
  have created := admission_created admitted
  have opened : now.gateOpen = true := (admitted_iff.mp admitted).2.1
  refine ⟨lives.staffed.add created, lives.gate, fun other => ?_, fun t there => ?_, fun other => ?_⟩
  · rw [inFlight_admitted, ← lives.flight, Inboxes.transactions, Inboxes.routes_create created,
      Table.mem_keys_insert, or_comm]
    exact or_congr Iff.rfl eq_comm
  · exact lives.gate ▸ opened
  · exact (lives.acts other).snoc False.elim

variable {before after : List Engine} {engine : Engine} {rest : List Envelope} {next : Next}
  {sent : List (String × Message)} {deeds : List (Deed Entry)}

theorem replaced (lives : Lives taken recovered later now)
    (engines : now.engines = before ++ engine :: after) (queue : List Envelope) (next : Next) :
    Staffed (now.replace before engine after queue next).inboxes
        (now.replace before engine after queue next).engines ∧
      ∀ name, name ∈ (now.replace before engine after queue next).inboxes.transactions ↔
        name ∈ now.inboxes.transactions ∧ ¬ (engine.name = name ∧ ∃ result, next = .finished result) := by
  refine ⟨lives.staffed.replace engines queue next, fun name => ?_⟩
  cases next with
  | stage stage => simp [Incarnation.replace, Inboxes.transactions, Inboxes.setQueue]
  | finished result =>
    have reaches := lives.staffed.reaches engine (by simp [engines])
    have routes := (reaches.setQueue engine.inbox queue).routes_drop
    rw [Incarnation.replace, Inboxes.transactions, routes, Table.mem_keys_erase, and_comm]
    simp [Inboxes.transactions, Inboxes.setQueue, eq_comm]

theorem advance (lives : Lives taken recovered later now)
    (engines : now.engines = before ++ engine :: after)
    (move : Move engine.transaction engine.stage (now.inboxes.queue engine.inbox) next sent rest
      deeds) :
    Lives taken recovered (later ++ Move.events engine.transaction next sent deeds)
      (now.replace before engine after rest next) := by
  obtain ⟨staffed, listed⟩ := lives.replaced engines rest next
  have unadmitted : ∀ t, .admitted t ∉ Move.events engine.transaction next sent deeds :=
    fun t => Move.unadmitted t
  refine ⟨staffed, ?_, fun name => ?_, fun t there => ?_, fun name => ?_⟩
  · simpa using lives.gate
  · rw [inFlight_append unadmitted, ← lives.flight, listed]
    have unended := not_congr (move.ends_iff name)
    simp only [not_exists, not_and] at unended ⊢
    exact and_congr Iff.rfl unended.symm
  · rcases List.mem_append.mp there with old | new
    · exact lives.admits t old
    · exact absurd new (unadmitted t)
  · refine (lives.acts name).append fun earlier event more split acts => ?_
    obtain ⟨rfl, unended⟩ := move.acts split acts
    have flying : InFlight taken later engine.transaction.name :=
      (lives.flight _).mp ((lives.staffed.listed _).mpr ⟨engine, by simp [engines], rfl⟩)
    exact (inFlight_append fun t there => unadmitted t (by simp [split, there])).mpr
      ⟨flying, unended⟩

end Lives

namespace Staffed

variable {σ : Type} {r : Recovering σ}

theorem takeUp (staffed : Staffed r.inboxes (r.engines.map Resumed.engine)) (txn : String)
    (sources : List Source) (outcome : Outcome) :
    Staffed (r.takeUp txn sources outcome).2.inboxes
      ((r.takeUp txn sources outcome).2.engines.map Resumed.engine) := by
  simp only [Recovering.takeUp]
  split
  next => exact staffed
  next inbox inboxes created =>
    rw [List.map_append]
    exact staffed.add created

variable [Journal σ Entry] [Publishing σ]

theorem follow (staffed : Staffed r.inboxes (r.engines.map Resumed.engine)) (txn : String)
    (plan : Plan) : Staffed (r.follow txn plan).2.inboxes
      ((r.follow txn plan).2.engines.map Resumed.engine) := by
  cases plan with
  | completed => exact staffed
  | forgotten => exact staffed
  | resume sources outcome =>
    exact takeUp (r := { r with report.resumed := r.report.resumed ++ [txn] }) staffed _ _ _
  | forceAbort sources =>
    rw [Recovering.follow]
    split
    · exact staffed
    next s _ =>
      exact takeUp (r := { r with storage := s, report.aborted := r.report.aborted ++ [txn] }) staffed
        _ _ _

theorem followAll (staffed : Staffed r.inboxes (r.engines.map Resumed.engine))
    (found : List (String × Trace)) : Staffed (Coordinator.followAll found r).2.inboxes
      ((Coordinator.followAll found r).2.engines.map Resumed.engine) := by
  induction found generalizing r with
  | nil => exact staffed
  | cons entry rest ih =>
    obtain ⟨txn, trace⟩ := entry
    have followed := staffed.follow txn trace.plan
    rw [Coordinator.followAll]
    split
    next e after failed => rwa [failed] at followed
    next after done =>
      rw [done] at followed
      exact ih followed

theorem recover {inboxes : Inboxes Envelope} (nobody : Staffed inboxes []) (config : Config)
    (storage : σ) : Staffed (Coordinator.recover config inboxes storage).2.inboxes
      ((Coordinator.recover config inboxes storage).2.engines.map Resumed.engine) := by
  simp only [Coordinator.recover]
  split
  next => exact nobody
  next =>
    have followed := fun (s : σ) found => followAll (r := { storage := s, inboxes }) nobody found
    split
    next => exact nobody
    next => exact followed _ _

end Staffed

section Runs

variable {σ : Type} [Journal σ Entry] [LawfulJournal σ Entry] [Publishing σ]
  [LawfulPublishing σ Entry]

namespace Station

def engines (s : Station σ) : List Engine := (s.running.map (·.engines)).getD []

def inFlight (s : Station σ) : List String := (s.running.map (·.inboxes.transactions)).getD []

def recovery (s : Station σ) (config : Config) :
    Except CoordinatorError Unit × Recovering (Recorded σ Entry) :=
  recover config {} ⟨s.storage, []⟩

def takenUp (s : Station σ) (config : Config) : List String :=
  (s.recovery config).2.engines.map (·.transaction.name)

end Station

/-- What runs now was started over what the station had before, and these are the events since its
recovery has returned. -/
structure Began (history : List Event) (s : Station σ) (now : Incarnation) (before : Station σ)
    (later : List Event) : Prop where
  run : ∃ earlier, history = earlier ++ Station.startEvents (before.recovery now.config) ++ later ∧
    Station.Run earlier before ∧ before.running = none
  steps : (before.afterStart now.config (before.recovery now.config)).Steps later s
  same : .started ∉ later ∧ .stopped ∉ later

omit [LawfulPublishing σ Entry] in
theorem Began.step {history later events : List Event} {s s' before : Station σ}
    {now now' : Incarnation} (began : Began history s now before later) (stepped : s.Step events s')
    (same : .started ∉ events ∧ .stopped ∉ events) (configured : now'.config = now.config) :
    Began (history ++ events) s' now' before (later ++ events) := by
  obtain ⟨⟨earlier, rfl, run, down⟩, steps, unstarted, unstopped⟩ := began
  refine ⟨⟨earlier, by simp [configured], run, down⟩, ?_, ?_⟩
  · rw [configured]
    exact steps.step stepped
  · simp [unstarted, unstopped, same]

theorem lives_run {history : List Event} {s : Station σ} (run : Station.Run history s) :
    ∀ now, s.running = some now → ∃ before later, Began history s now before later ∧
      Lives (before.takenUp now.config) (before.recovery now.config).1.isOk later now := by
  induction run with
  | begin => simp
  | @step history events s s' run stepped ih =>
    intro now running
    have step := stepped
    cases stepped with
    | wait duration =>
      obtain ⟨before, later, began, lives⟩ := ih now running
      have further := began.step step (by simp) rfl
      rw [List.append_nil later] at further
      exact ⟨before, later, further, lives⟩
    | disturb storage same =>
      obtain ⟨before, later, began, lives⟩ := ih now running
      exact ⟨before, _, began.step step (by simp) rfl,
        lives.quiet _ (by simp) (fun _ => id) (fun _ => id)⟩
    | start config down =>
      cases running
      have staffed := Staffed.recover .nobody config (⟨s.storage, []⟩ : Recorded σ Entry)
      refine ⟨s, [], ⟨⟨history, by simp [Station.recovery], run, down⟩, .nothing, by simp⟩, staffed, rfl,
        fun name => ?_, by simp, fun name => Ordered.nil _⟩
      refine (staffed.listed name).trans ?_
      simp [InFlight, Station.takenUp, Station.recovery, Resumed.engine, Engine.name]
    | stop => cases running
    | commit now name payload sources inbox inboxes parsed former admitted =>
      cases running
      obtain ⟨before, later, began, lives⟩ := ih now former
      exact ⟨before, _, began.step step (by simp) rfl, lives.commit admitted⟩
    | receive now envelope former =>
      cases running
      obtain ⟨before, later, began, lives⟩ := ih now former
      exact ⟨before, _, began.step step (by simp) rfl, lives.receive envelope⟩
    | advance now earlier engine others progress former engines moved =>
      cases running
      obtain ⟨before, later, began, lives⟩ := ih now former
      obtain ⟨move, _⟩ := step_follows moved
      have configured : (now.replace earlier engine others progress.queue progress.next).config =
          now.config := now.config_replace ..
      exact ⟨before, _, began.step step (progress.unmarked _) configured,
        configured ▸ lives.advance engines move⟩

omit [LawfulPublishing σ Entry] in
theorem running_iff {history : List Event} {s : Station σ} (run : Station.Run history s) :
    s.running.isSome ↔ Since .stopped history .started := by
  induction run with
  | begin => simp [Since]
  | @step history events s s' run stepped ih =>
    have goesOn : .started ∉ events → .stopped ∉ events →
        (s.running.isSome ↔ Since .stopped (history ++ events) .started) := by
      intro unstarted unstopped
      rw [ih]
      refine ⟨fun since => since.later unstopped, fun since => ?_⟩
      exact (since.cases.resolve_left unstarted).1
    cases stepped with
    | wait | disturb => exact goesOn (by simp) (by simp)
    | start config down =>
      refine ⟨fun _ => ⟨history, _, rfl, ?_⟩, fun _ => rfl⟩
      simp
    | stop =>
      refine ⟨fun running => by simp at running, fun since => ?_⟩
      rcases since.cases with impossible | ⟨_, impossible⟩ <;> simp at impossible
    | commit now name payload sources inbox inboxes parsed running admitted =>
      rw [← goesOn (by simp) (by simp), running]
      rfl
    | receive now envelope running =>
      rw [← goesOn (by simp) (by simp), running]
      rfl
    | advance now before engine after progress running engines moved =>
      obtain ⟨unstarted, unstopped⟩ := progress.unmarked engine.name
      rw [← goesOn unstarted unstopped, running]
      rfl

theorem gives_up_iff {config : Config} {now : Nat} {t : Transaction} {stage : Stage}
    {queue : List Envelope} {storage : σ} {progress : Progress (Recorded σ Entry)}
    (stepped : step config now t stage queue ⟨storage, []⟩ = some progress) (e : CoordinatorError) :
    progress.next = .finished (.error e) ↔ stage = .starting ∧ ∃ cause after,
      Journal.append (Entry.prepare t.name t.sources) storage = (.error cause, after) ∧
        e = .log cause := by
  cases stage with
  | starting =>
    rcases result : Journal.append (Entry.prepare t.name t.sources) storage with
      ⟨cause | ⟨⟨⟩⟩, after⟩
    · have failed : Journal.append (Entry.prepare t.name t.sources)
          (⟨storage, []⟩ : Recorded σ Entry) = (.error cause, ⟨after, []⟩) := by
        simp [Journal.append, Recorded.note, result]
      simp only [step, failed, Option.some.injEq] at stepped
      subst stepped
      simp [eq_comm]
    · have logged : Journal.append (Entry.prepare t.name t.sources)
          (⟨storage, []⟩ : Recorded σ Entry) =
            (.ok (), ⟨after, [.appended (.prepare t.name t.sources)]⟩) := by
        simp [Journal.append, Recorded.note, result]
      simp only [step, logged, Option.some.injEq] at stepped
      subst stepped
      simp
  | _ =>
    obtain ⟨move, _⟩ := step_follows stepped
    exact ⟨fun ended => absurd (move.gives_up ended) (by simp), fun ended => by cases ended.1⟩

/-- Each name has one engine at most, and those in flight are the names that have one: each from the
recovery that takes it up, or from its admission, until its end is logged, its request cannot be logged,
or the coordinator stops. While the gate is open a commit is a duplicate just when its name is in
flight. Nothing is admitted while the gate is closed, which it is until a recovery has succeeded, and
nothing is done for a transaction that is not in flight. -/
theorem one_engine_for_each_name {history : List Event} {s : Station σ}
    (run : Station.Run history s) :
    ((s.engines.map Engine.name).Nodup ∧ s.inFlight.Pairwise (· < ·) ∧
      ∀ name, name ∈ s.inFlight ↔ ∃ engine ∈ s.engines, engine.name = name) ∧
    (s.running.isSome ↔ Since .stopped history .started) ∧
    (∀ now, s.running = some now → ∃ before later, Began history s now before later ∧
      (∀ name, name ∈ s.inFlight ↔ InFlight (before.takenUp now.config) later name) ∧
      (now.gateOpen ↔ (before.recovery now.config).1 = .ok ()) ∧
      (∀ t, .admitted t ∈ later → (before.recovery now.config).1 = .ok ()) ∧
      ∀ earlier event more name, later = earlier ++ event :: more → event.ActsFor name →
        InFlight (before.takenUp now.config) earlier name) ∧
    (∀ now, s.running = some now → ∀ name sources parsed, Source.parseAll sources = .ok parsed →
      (now.gateOpen → (admission name sources now.gateOpen now.inboxes =
        .refused (.duplicate name) ↔ name ∈ s.inFlight)) ∧
      (¬ now.gateOpen → admission name sources now.gateOpen now.inboxes = .stalled)) ∧
    ∀ now, s.running = some now → ∀ engine ∈ now.engines, ∀ progress,
      step now.config s.clock engine.transaction engine.stage (now.inboxes.queue engine.inbox)
        (⟨s.storage, []⟩ : Recorded σ Entry) = some progress →
      ∀ e, progress.next = .finished (.error e) ↔ engine.stage = .starting ∧ ∃ cause after,
        Journal.append (Entry.prepare engine.name engine.transaction.sources) s.storage =
          (.error cause, after) ∧ e = .log cause := by
  refine ⟨?_, running_iff run, fun now running => ?_, fun now running name sources parsed readable => ?_,
    fun now running engine _ progress stepped e => gives_up_iff stepped e⟩
  · cases running : s.running with
    | none => simp [Station.engines, Station.inFlight, running]
    | some now =>
      obtain ⟨_, _, _, lives⟩ := lives_run run now running
      simp only [Station.engines, Station.inFlight, running, Option.map_some, Option.getD_some]
      exact ⟨lives.staffed.names, lives.staffed.sorted, lives.staffed.listed⟩
  · obtain ⟨before, later, began, lives⟩ := lives_run run now running
    have recovered : (before.recovery now.config).1.isOk ↔ (before.recovery now.config).1 = .ok () := by
      rcases (before.recovery now.config).1 with e | ⟨⟨⟩⟩ <;> simp [Except.isOk, Except.toBool]
    simp only [Station.inFlight, running, Option.map_some, Option.getD_some]
    refine ⟨before, later, began, lives.flight, ?_, fun t there => recovered.mp (lives.admits t there),
      fun earlier event more name split => lives.acts name earlier event more split⟩
    rw [lives.gate, recovered]
  · simp only [Station.inFlight, running, Option.map_some, Option.getD_some, ← Inboxes.create_eq_none]
    constructor
    · intro opened
      simp only [admission, readable, opened]
      cases now.inboxes.create name <;> simp
    · intro closed
      simp [admission, readable, closed]

theorem duplicate_of_recovered :
    ∃ (history : List Event) (s : Station (Beside (Ledger Entry) Publisher)) (now : Incarnation),
    Station.Run history s ∧ s.running = some now ∧
    logged history = [.prepare "t" [⟨"p", "x"⟩], .decision "t" .abort] ∧ s.inFlight = ["t"] ∧
    admission "t" ["p:x"] now.gateOpen now.inboxes = .refused (.duplicate "t") := by
  let station : Station (Beside (Ledger Entry) Publisher) :=
    { storage := ⟨{ failures := [false, false, true] }, ⟨[], {}, "draft"⟩⟩ }
  let config : Config := { compactOnRecovery := false }
  let actions : List Action := [.start config, .commit "t" [] ["p:x"], .advance 0, .stop,
    .start config, .commit "u" [] ["p:x"], .advance 1]
  have played : (station.playAll actions).map
      (fun result => (logged result.1, result.2.inFlight, result.2.running.map (·.gateOpen))) =
      some ([.prepare "t" [⟨"p", "x"⟩], .decision "t" .abort], ["t"], some true) := by
    decide +kernel
  obtain ⟨⟨history, s⟩, played, same⟩ := Option.map_eq_some_iff.mp played
  obtain ⟨records, flying, gate⟩ : _ ∧ _ ∧ _ := by simpa only [Prod.mk.injEq] using same
  obtain ⟨now, running, opened⟩ := Option.map_eq_some_iff.mp gate
  have run := Station.playAll_run (.begin station.storage rfl) played
  have duplicate := ((one_engine_for_each_name run).2.2.2.1 now running "t" ["p:x"] _ rfl).1 opened
  refine ⟨history, s, now, run, running, records, flying, duplicate.mpr ?_⟩
  rw [flying]
  exact List.mem_singleton.mpr rfl

end Runs

end AtomicCommit.Coordinator
