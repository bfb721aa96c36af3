import AtomicCommit.Proofs.Coordinator.Compaction
import AtomicCommit.Proofs.Coordinator.Votes

/-! The form of a coordinator's log: what is ever appended to it of a transaction, what comes before a
commit is logged, and what a compaction takes out. -/

namespace AtomicCommit.Coordinator

theorem Past.form {txn : String} {records : List Entry} (past : Past txn records) :
    ∃ sources outcome,
      records <+: [.prepare txn sources, .decision txn outcome, .done txn] := by
  cases past with
  | nothing => exact ⟨[], .abort, List.nil_prefix⟩
  | requested sources => exact ⟨sources, .abort, ⟨_, rfl⟩⟩
  | decided sources outcome => exact ⟨sources, outcome, ⟨_, rfl⟩⟩
  | finished sources outcome => exact ⟨sources, outcome, List.prefix_rfl⟩

section Compacted

variable {σ : Type} [Journal σ Entry] [LawfulJournal σ Entry]

structure Rewrites (before rest : List Entry) (todo : List (String × Trace))
    (r : Recovering (Recorded σ Entry)) : Prop where
  start : rest = before ∨ rest = Log.unfinished before
  log : held r.storage.storage = rest ++ Deed.records r.storage.deeds
  open_ : ∀ entry ∈ Deed.records r.storage.deeds, .done entry.txn ∉ before
  todo : ∀ txn trace, (txn, trace) ∈ todo → trace = Log.traceOf Trace.note {} txn before

variable {before rest : List Entry} {todo : List (String × Trace)} {txn : String} {trace : Trace}
  {r after : Recovering (Recorded σ Entry)} {result : Except CoordinatorError Unit}

theorem Rewrites.abort (rewrites : Rewrites before rest todo r) {s : σ}
    (unended : .done txn ∉ before)
    (grown : held s = held r.storage.storage ++ [.decision txn .abort]) :
    Rewrites before rest todo { r with
      storage := ⟨s, r.storage.deeds ++ [.retracted txn, .appended (.decision txn .abort)]⟩ } := by
  obtain ⟨start, log, open_, todo⟩ := rewrites
  refine ⟨start, by simp [grown, log], fun entry member => ?_, todo⟩
  rw [Deed.records_append, List.mem_append] at member
  rcases member with old | new
  · exact open_ entry old
  · obtain rfl : entry = .decision txn .abort := by simpa using new
    exact unended

theorem Rewrites.turn (rewrites : Rewrites before rest ((txn, trace) :: todo) r)
    (followed : Follow txn trace.plan r result after) : Rewrites before rest todo after := by
  obtain ⟨start, log, open_, traced⟩ := rewrites
  have rewrites : Rewrites before rest todo r :=
    ⟨start, log, open_, fun txn trace member => traced _ _ (List.mem_cons_of_mem _ member)⟩
  have unended : ∀ sources, trace.plan = .forceAbort sources → .done txn ∉ before := by
    intro sources planned ended
    rw [← (told_trace before txn).1, ← traced txn trace List.mem_cons_self] at ended
    simp [Trace.plan, ended] at planned
  generalize trace.plan = plan at followed unended
  cases followed with
  | skip | resume | resumeTwice => exact ⟨start, log, open_, rewrites.todo⟩
  | notRetracted sources _ e s kept =>
    exact ⟨start, kept.trans log, open_, rewrites.todo⟩
  | notAborted sources _ e s kept =>
    exact ⟨start, by simpa [kept] using log, by simpa using open_, rewrites.todo⟩
  | abort sources _ s inbox inboxes report grown created =>
    obtain ⟨start, log, open_, todo⟩ := rewrites.abort (unended sources rfl) grown
    exact ⟨start, log, open_, todo⟩
  | abortTwice sources _ s report grown created =>
    obtain ⟨start, log, open_, todo⟩ := rewrites.abort (unended sources rfl) grown
    exact ⟨start, log, open_, todo⟩

variable [Publishing σ] [LawfulPublishing σ Entry]

theorem recover_rewrites (config : Config) (storage : σ) :
    ∃ rest todo, Rewrites (held storage) rest todo
      (recover config {} (⟨storage, []⟩ : Recorded σ Entry)).2 := by
  obtain ⟨todo, ⟨rest, rewrites⟩, _⟩ := recover_induction
    (P := fun _ todo r => ∃ rest, Rewrites (held storage) rest todo r) config {} storage
    (fun txn trace todo r result after ⟨rest, rewrites⟩ followed => ⟨rest, rewrites.turn followed⟩)
    (by
      intro _ s deeds now compacted none
      refine ⟨held s, now, by simp [none], by simp [none], ?_⟩
      intro txn trace found
      exact ((Log.mem_traces _ _).mp found).2)
  exact ⟨rest, todo, rewrites⟩

theorem Station.Step.keeps_or_drops {s s' : Station σ} {events : List Event}
    (stepped : s.Step events s') (txn : String) :
    Log.recordsOf txn (held s'.storage) =
        Log.recordsOf txn (held s.storage) ++ Log.recordsOf txn (logged events) ∨
      Log.recordsOf txn (held s'.storage) = [] ∧ .done txn ∈ held s.storage ∧
        Log.recordsOf txn (logged events) = [] := by
  have unchanged : ∀ storage : σ, held storage = held s.storage → ∀ quiet : List Event,
      logged quiet = [] → Log.recordsOf txn (held storage) =
        Log.recordsOf txn (held s.storage) ++ Log.recordsOf txn (logged quiet) := by
    intro storage same quiet none
    simp [same, none, Log.recordsOf]
  cases stepped with
  | wait | stop | commit | receive => exact .inl (unchanged _ rfl _ rfl)
  | disturb storage same => exact .inl (unchanged _ same _ rfl)
  | advance now before engine after progress running engines stepped =>
    obtain ⟨_, grown⟩ := step_follows stepped
    exact .inl (by rw [logged_events, grown, Log.recordsOf_append])
  | start config down =>
    obtain ⟨rest, _, rewrites⟩ := recover_rewrites config s.storage
    simp only [logged_startEvents, Station.afterStart, rewrites.log, Log.recordsOf_append]
    rcases rewrites.start with whole | unfinished
    · exact .inl (by rw [whole])
    · rw [unfinished, Log.recordsOf_unfinished]
      by_cases finished : Log.isFinished (held s.storage) txn
      · have ended := isFinished_iff_done.mp finished
        have none : Log.recordsOf txn (Deed.records
            (recover config {} (⟨s.storage, []⟩ : Recorded σ Entry)).2.storage.deeds) = [] := by
          refine List.filter_eq_nil_iff.mpr fun entry member own => ?_
          obtain rfl : entry.txn = txn := of_decide_eq_true own
          exact rewrites.open_ entry member ended
        exact .inr ⟨by simp [finished, none], ended, none⟩
      · exact .inl (by simp [finished])

end Compacted

namespace Station

variable {σ : Type} [Journal σ Entry] [LawfulJournal σ Entry] [Publishing σ]

def Accepted (t : Transaction) (s : Station σ) : Prop :=
  ∃ now engine deadline ballot, s.running = some now ∧ engine ∈ now.engines ∧
    engine.transaction = t ∧ engine.stage = .voting deadline ballot ∧
    ballot.outcome? t.participants = some .commit

end Station

section Commits

variable {σ : Type} [Journal σ Entry] [LawfulJournal σ Entry] [Publishing σ]

structure SinceVote (t : Transaction) (history later : List Event) (s : Station σ) : Prop where
  vote : ∃ earlier voted, history = earlier ++ later ∧ Station.Run earlier voted ∧
    voted.Accepted t ∧ voted.Steps later s
  same : .started ∉ later ∧ .stopped ∉ later

theorem SinceVote.step {t : Transaction} {history later events : List Event} {s s' : Station σ}
    (since : SinceVote t history later s) (stepped : s.Step events s')
    (same : .started ∉ events ∧ .stopped ∉ events) :
    SinceVote t (history ++ events) (later ++ events) s' := by
  obtain ⟨⟨earlier, voted, rfl, run, accepted, steps⟩, unstarted, unstopped⟩ := since
  exact ⟨⟨earlier, voted, by simp, run, accepted, steps.step stepped⟩,
    by simp [unstarted, same.1], by simp [unstopped, same.2]⟩

def Stage.Backing (t : Transaction) (history : List Event) (s : Station σ) : Stage → Prop
  | .publishing => ∃ later, SinceVote t history later s
  | .deciding .commit _ => ∃ later, SinceVote t history later s ∧
    .did (.published t.name t.payload) ∈ later
  | _ => True

theorem Stage.Backing.step {t : Transaction} {history events : List Event} {s s' : Station σ}
    {stage : Stage} (backing : stage.Backing t history s) (stepped : s.Step events s')
    (same : .started ∉ events ∧ .stopped ∉ events) : stage.Backing t (history ++ events) s' := by
  cases stage with
  | publishing =>
    obtain ⟨later, since⟩ := backing
    exact ⟨_, since.step stepped same⟩
  | deciding outcome due =>
    cases outcome with
    | abort => trivial
    | commit =>
      obtain ⟨later, since, published⟩ := backing
      exact ⟨_, since.step stepped same, List.mem_append_left _ published⟩
  | _ => trivial

section Lawful

variable [LawfulPublishing σ Entry] {history : List Event} {s : Station σ}

omit [LawfulPublishing σ Entry] in
theorem Move.backs {t : Transaction} {stage later : Stage} {queue rest : List Envelope}
    {next : Next} {sent : List (String × Message)} {deeds : List (Deed Entry)}
    (move : Move t stage queue next sent rest deeds) (staged : next = .stage later)
    {events : List Event} {s' : Station σ} (run : Station.Run history s)
    (backing : stage.Backing t history s) (stepped : s.Step events s')
    (same : .started ∉ events ∧ .stopped ∉ events) (did : ∀ deed ∈ deeds, .did deed ∈ events)
    (accepted : ∀ deadline ballot, stage = .voting deadline ballot →
      ballot.outcome? t.participants = some .commit → s.Accepted t) :
    later.Backing t (history ++ events) s' := by
  have kept := backing.step stepped same
  cases move with
  | counted queue deadline ballot outcome now counted =>
    cases staged
    cases outcome with
    | abort => trivial
    | commit =>
      have voted : SinceVote t history [] s :=
        ⟨⟨history, s, by simp, run, accepted _ _ rfl counted, .nothing⟩, by simp⟩
      exact ⟨_, voted.step stepped same⟩
  | published queue now =>
    cases staged
    obtain ⟨later, since⟩ := backing
    exact ⟨_, since.step stepped same, List.mem_append_right _ (did _ List.mem_cons_self)⟩
  | notRecorded queue outcome due later =>
    cases staged
    cases outcome <;> exact kept
  | notRequested | closed => cases staged
  | _ => cases staged; trivial

theorem backing_run (run : Station.Run history s) : ∀ now, s.running = some now →
    ∀ engine ∈ now.engines, engine.stage.Backing engine.transaction history s := by
  induction run with
  | begin => simp
  | @step history events s s' run stepped ih =>
    have goesOn : .started ∉ events ∧ .stopped ∉ events → ∀ now, s.running = some now →
        ∀ engine ∈ now.engines, engine.stage.Backing engine.transaction (history ++ events) s' :=
      fun same now running engine member => (ih now running engine member).step stepped same
    cases stepped with
    | wait | disturb => exact goesOn (by simp)
    | start config down =>
      rintro now ⟨⟩ engine member
      obtain ⟨resumed, _, rfl⟩ := List.mem_map.mp member
      trivial
    | stop => simp
    | commit now name payload sources inbox inboxes parsed running admitted =>
      rintro later ⟨⟩ engine member
      rcases List.mem_append.mp member with old | new
      · exact goesOn (by simp) now running engine old
      · obtain rfl := List.mem_singleton.mp new
        trivial
    | receive now envelope running =>
      rintro later ⟨⟩
      exact goesOn (by simp) now running
    | advance now before engine after progress running engines moved =>
      obtain ⟨move, _⟩ := step_follows moved
      have working : engine ∈ now.engines := by simp [engines]
      have stepped := Station.Step.advance s now before engine after progress running engines moved
      have same := progress.unmarked engine.name
      rintro later ⟨⟩ other member
      rcases Incarnation.mem_replace member with old | ⟨stage, staged, rfl⟩
      · exact goesOn same now running other (engines ▸ by grind)
      · exact move.backs staged run (ih now running engine working) stepped same
          (fun deed done => by simp [Progress.events, done])
          fun deadline ballot voting counted =>
            ⟨now, engine, deadline, ballot, running, working, rfl, voting, counted⟩

/-- What comes before a commit is logged, all of it in the incarnation that logs it: the vote ends with
everyone's acceptance, and after that the transaction is published. -/
def CommitFollows (txn : String) (before after : List Event) (s : Station σ) : Prop :=
  ∃ t earlier later voted, t.name = txn ∧ before = earlier ++ later ∧
    Station.Run earlier voted ∧ voted.Accepted t ∧ Unanimous earlier txn t.participants ∧
    .did (.published txn t.payload) ∈ later ∧ .started ∉ later ∧ .stopped ∉ later ∧
    voted.Steps (later ++ .did (.appended (.decision txn .commit)) :: after) s

omit [LawfulPublishing σ Entry] in
theorem CommitFollows.step {txn : String} {before after events : List Event} {s' : Station σ}
    (follows : CommitFollows txn before after s) (stepped : s.Step events s') :
    CommitFollows txn before (after ++ events) s' := by
  obtain ⟨t, earlier, later, voted, named, split, run, accepted, unanimous, published, unstarted,
    unstopped, steps⟩ := follows
  refine ⟨t, earlier, later, voted, named, split, run, accepted, unanimous, published, unstarted,
    unstopped, ?_⟩
  simpa using steps.step stepped

theorem accepted_unanimous (run : Station.Run history s) (unique : UniqueNames history)
    {t : Transaction} (accepted : s.Accepted t) : Unanimous history t.name t.participants := by
  obtain ⟨now, engine, deadline, ballot, running, working, rfl, voting, counted⟩ := accepted
  have collected := staged_run collected_carried run unique now running engine working
  rw [voting] at collected
  exact Ballot.Fair.unanimous collected counted

theorem commit_follows_run (run : Station.Run history s) (unique : UniqueNames history)
    (txn : String) : ∀ before after,
      history = before ++ .did (.appended (.decision txn .commit)) :: after →
      CommitFollows txn before after s := by
  induction run with
  | begin => simp
  | @step history events s s' run stepped ih =>
    have earlier := unique.of_append
    intro before after split
    rcases split_append split with ⟨more, old, rfl⟩ | ⟨more, rfl, new⟩
    · exact (ih earlier before more old).step stepped
    have decided : .decision txn .commit ∈ logged events := mem_logged.mpr (by simp [new])
    cases stepped with
    | wait | disturb | stop | commit | receive => cases decided
    | start config down =>
      rw [logged_startEvents] at decided
      obtain ⟨_, aborted, _⟩ :=
        (recover_retracts config (consistent_run run earlier).kept).aborts _ decided
      cases aborted
    | advance now others engine rest progress running engines moved =>
      have stepped := Station.Step.advance s now others engine rest progress running engines moved
      obtain ⟨move, _⟩ := step_follows moved
      have working : engine ∈ now.engines := by simp [engines]
      have backing := backing_run run now running engine working
      rw [logged_events] at decided
      have logs := (move.logs decided).1
      generalize engine.stage = stage at backing logs
      cases logs with
      | outcome outcome due =>
        obtain ⟨later, ⟨⟨first, voted, rfl, run, accepted, steps⟩, same⟩, published⟩ := backing
        have unmarked : .started ∉ more ∧ .stopped ∉ more := by
          have none := progress.unmarked engine.name
          simp_all
        refine ⟨engine.transaction, first, later ++ more, voted, rfl, by simp, run, accepted,
          accepted_unanimous run earlier.of_append accepted, List.mem_append_left _ published,
          by simp [same.1, unmarked.1], by simp [same.2, unmarked.2], ?_⟩
        rw [List.append_assoc, ← new]
        exact steps.step stepped

end Lawful

end Commits

/-- Of each transaction no more is ever logged than its request, its outcome and its end, once each and
in this order. A commit is logged after a vote that everyone has accepted and after its publication,
and no start or stop comes in between. The log holds all of that or, when the end was there, nothing:
each step leaves of a transaction what there was and what it appends, or drops all of it at once. -/
theorem log_well_formed {σ : Type} [Journal σ Entry] [LawfulJournal σ Entry] [Publishing σ]
    [LawfulPublishing σ Entry] {history : List Event} {s : Station σ} (run : Station.Run history s)
    (unique : UniqueNames history) :
    (∀ txn, ∃ sources outcome, Log.recordsOf txn (logged history) <+:
      [.prepare txn sources, .decision txn outcome, .done txn]) ∧
    (∀ txn before after, history = before ++ .did (.appended (.decision txn .commit)) :: after →
      CommitFollows txn before after s) ∧
    (∀ txn, Log.recordsOf txn (held s.storage) = Log.recordsOf txn (logged history) ∨
      Log.recordsOf txn (held s.storage) = [] ∧ .done txn ∈ logged history) ∧
    ∀ events s', s.Step events s' → ∀ txn,
      Log.recordsOf txn (held s'.storage) =
          Log.recordsOf txn (held s.storage) ++ Log.recordsOf txn (logged events) ∨
        Log.recordsOf txn (held s'.storage) = [] ∧ .done txn ∈ held s.storage ∧
          Log.recordsOf txn (logged events) = [] := by
  have kept := (consistent_run run unique).kept
  refine ⟨fun txn => (kept.past txn).form, commit_follows_run run unique, fun txn => ?_,
    fun events s' stepped txn => stepped.keeps_or_drops txn⟩
  exact (kept.log txn).imp_right fun ⟨gone, ended⟩ => ⟨gone, (Log.mem_recordsOf.mp ended).1⟩

def faltering : Station (Beside (Ledger Entry) Publisher) :=
  { storage := ⟨{ failures := [false, false, true] }, ⟨["out"], {}, "draft"⟩⟩ }

theorem gone_after_commit :
    ∃ (before after : List Event) (s : Station (Beside (Ledger Entry) Publisher)),
    Station.Run (before ++ .did (.appended (.decision "t" .commit)) :: after) s ∧
    CommitFollows "t" before after s ∧ held s.storage = [] := by
  let actions : List Action := [.start {}, .commit "t" [7] ["p:x"], .advance 0,
    .receive ⟨"p", .vote "t" .accept⟩, .advance 0, .advance 0, .advance 0, .advance 0, .wait 6000,
    .advance 0, .advance 0, .receive ⟨"p", .ack "t"⟩, .advance 0, .advance 0, .advance 0, .stop,
    .start {}]
  let before : List Event := [.started, .did (.compacted []), .recovered (.ok {}),
    .admitted ⟨"t", [7], [⟨"p", "x"⟩]⟩, .did (.appended (.prepare "t" [⟨"p", "x"⟩])),
    .sent "p" (.prepare "t" ["x"] [7]), .received ⟨"p", .vote "t" .accept⟩,
    .did (.published "t" [7])]
  let after : List Event := [.sent "p" (.decision "t" .commit), .received ⟨"p", .ack "t"⟩,
    .did (.appended (.done "t")), .finished "t" (.ok .commit), .stopped, .started,
    .did (.compacted []), .recovered (.ok { completed := 1 })]
  have played : (faltering.playAll actions).map (fun result => (result.1, held result.2.storage)) =
      some (before ++ .did (.appended (.decision "t" .commit)) :: after, []) := by rfl
  obtain ⟨⟨events, s⟩, played, same⟩ := Option.map_eq_some_iff.mp played
  obtain ⟨rfl, empty⟩ := Prod.mk.inj same
  have run := Station.playAll_run (.begin faltering.storage rfl) played
  have unique : UniqueNames (before ++ .did (.appended (.decision "t" .commit)) :: after) := by
    decide +kernel
  exact ⟨before, after, s, run, (log_well_formed run unique).2.1 "t" before after rfl, empty⟩

end AtomicCommit.Coordinator
