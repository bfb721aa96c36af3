import AtomicCommit.Log.Ledger
import AtomicCommit.Proofs.Coordinator.Play
import AtomicCommit.Proofs.Coordinator.Restart

/-! What the incarnations of a coordinator send: requests for what they have admitted themselves, and
nothing for what has ended. -/

namespace AtomicCommit.Coordinator

def timely (before : List Event) : Event → Prop
  | .did (.appended (.prepare txn sources)) =>
    ∃ payload, Since .started before (.admitted ⟨txn, payload, sources⟩)
  | .sent _ message => Entry.done message.txn ∉ logged before ∧
    (message.phase = .prepare → ∃ sources,
      Since .started before (.did (.appended (.prepare message.txn sources))))
  | _ => True

theorem Stage.past_open (t : Transaction) (stage : Stage) (txn : String) :
    .done txn ∉ stage.past t := by
  cases stage <;> simp [past]

theorem timely_sent {before : List Event} {packets : List (String × Message)}
    (each : ∀ recipient message, (recipient, message) ∈ packets →
      timely before (.sent recipient message)) :
    OrderedFrom timely before (packets.map fun (recipient, message) => .sent recipient message) := by
  induction packets generalizing before with
  | nil => trivial
  | cons first others ih =>
    refine ⟨each _ _ List.mem_cons_self, ih fun recipient message member => ?_⟩
    obtain ⟨open_, requests⟩ := each recipient message (List.mem_cons_of_mem _ member)
    refine ⟨by rwa [logged_quiet before rfl], fun phase => ?_⟩
    obtain ⟨sources, since⟩ := requests phase
    exact ⟨sources, since.later (by simp)⟩

namespace Move

variable {t : Transaction} {stage : Stage} {queue rest : List Envelope} {next : Next}
  {sent : List (String × Message)} {deeds : List (Deed Entry)}

theorem not_starting (move : Move t stage queue next sent rest deeds) {later : Stage}
    (staged : next = .stage later) : later ≠ .starting := by
  cases move with
  | counted queue deadline ballot outcome now _ => cases staged; cases outcome <;> simp [decided]
  | _ => cases staged <;> simp

theorem logs_timely (move : Move t stage queue next sent rest deeds) {before : List Event}
    (admitted : stage = .starting → Since .started before (.admitted t)) :
    OrderedFrom timely before (deeds.map .did) := by
  cases move with
  | requested => exact ⟨⟨t.payload, admitted rfl⟩, trivial⟩
  | published | recorded | closed => exact ⟨trivial, trivial⟩
  | _ => trivial

theorem sends_timely (move : Move t stage queue next sent rest deeds) {before : List Event}
    (open_ : .done t.name ∉ logged before) : OrderedFrom timely (before ++ deeds.map .did)
      (sent.map fun (recipient, message) => .sent recipient message) := by
  refine timely_sent fun recipient message member => ?_
  cases move with
  | requested =>
    simp only [Transaction.requests, List.mem_map, Prod.mk.injEq, Prod.exists] at member
    obtain ⟨_, resources, _, _, rfl⟩ := member
    refine ⟨?_, fun _ => ⟨t.sources, .now _ before _⟩⟩
    rw [logged_append, logged_did]
    simpa [Message.prepare] using open_
  | announced queue outcome waiting deadline _ =>
    simp only [List.mem_map, Prod.mk.injEq] at member
    obtain ⟨_, _, _, rfl⟩ := member
    refine ⟨by simpa [Message.decision, Message.bare] using open_, fun phase => ?_⟩
    cases outcome <;> cases phase
  | _ => simp at member

end Move

variable {σ : Type}

structure Timely (history : List Event) (s : Station σ) : Prop where
  starting : ∀ now, s.running = some now → ∀ engine ∈ now.engines, engine.stage = .starting →
    Since .started history (.admitted engine.transaction)
  ordered : Ordered timely history

namespace Timely

variable {history events : List Event} {s s' : Station σ}

theorem quiet (holds : Timely history s) (free : ∀ event ∈ events, ∀ before, timely before event)
    (unstarted : .started ∉ events)
    (engines : ∀ now, s'.running = some now → ∃ former, s.running = some former ∧
      now.engines = former.engines) : Timely (history ++ events) s' := by
  refine ⟨fun now running engine member starting => ?_, holds.ordered.append_free free⟩
  obtain ⟨former, before, kept⟩ := engines now running
  exact (holds.starting former before engine (kept ▸ member) starting).later unstarted

variable [Journal σ Entry] [LawfulJournal σ Entry]

theorem advance (holds : Timely history s) (consistent : Consistent history s) {now : Incarnation}
    {before after : List Engine} {engine : Engine} {progress : Progress (Recorded σ Entry)}
    (running : s.running = some now) (engines : now.engines = before ++ engine :: after)
    (follows : progress.Follows engine.transaction engine.stage (now.inboxes.queue engine.inbox)
      s.storage) :
    Timely (history ++ progress.events engine.name) { s with
      running := some (now.replace before engine after progress.queue progress.next)
      storage := progress.storage.storage } := by
  obtain ⟨move, _⟩ := follows
  have working : engine ∈ now.engines := by simp [engines]
  have past := (consistent.occupied now running).past engine working
  have open_ : .done engine.name ∉ logged history := by
    intro ended
    have mine : .done engine.name ∈ Log.recordsOf engine.name (logged history) :=
      Log.mem_recordsOf.mpr ⟨ended, rfl⟩
    rw [past] at mine
    exact engine.stage.past_open _ _ mine
  constructor
  · rintro later ⟨⟩ other member starting
    rcases Incarnation.mem_replace member with old | ⟨stage, staged, rfl⟩
    · refine (holds.starting now running other ?_ starting).later (progress.unmarked _).1
      rw [engines]
      grind
    · exact absurd starting (move.not_starting staged)
  · have ended : ∀ event ∈ progress.next.events engine.name, ∀ before, timely before event := by
      intro event member
      cases next : progress.next with
      | stage stage => simp [next, Next.events] at member
      | finished result =>
        obtain rfl : event = .finished engine.name result := by simpa [next, Next.events] using member
        exact fun _ => trivial
    rw [Progress.events, ordered_append, orderedFrom_append, orderedFrom_append]
    exact ⟨holds.ordered, ⟨move.logs_timely (holds.starting now running engine working),
      move.sends_timely open_⟩, orderedFrom_free ended _⟩

variable [Publishing σ] [LawfulPublishing σ Entry]

theorem start (holds : Timely history s) (consistent : Consistent history s) (config : Config) :
    Timely
      (history ++ Station.startEvents (recover config {} (⟨s.storage, []⟩ : Recorded σ Entry)))
      (s.afterStart config (recover config {} (⟨s.storage, []⟩ : Recorded σ Entry))) := by
  have aborts := (recover_retracts config consistent.kept).aborts
  constructor
  · rintro now ⟨⟩ engine member starting
    obtain ⟨resumed, _, rfl⟩ := List.mem_map.mp member
    cases starting
  · apply holds.ordered.append_free
    simp only [Station.startEvents, List.mem_append, List.mem_singleton, List.mem_map]
    rintro event ((rfl | ⟨deed, done, rfl⟩) | rfl) before
    · trivial
    · unfold timely
      split
      next txn sources same =>
        cases same
        obtain ⟨_, impossible, _⟩ := aborts (.prepare txn sources) (Deed.mem_records.mpr done)
        cases impossible
      next impossible => cases impossible
      next => trivial
    · trivial

theorem step (holds : Timely history s) (consistent : Consistent history s)
    (stepped : s.Step events s') : Timely (history ++ events) s' := by
  cases stepped with
  | wait duration => exact holds.quiet (by simp) (by simp) fun now running => ⟨now, running, rfl⟩
  | disturb storage kept =>
    exact holds.quiet (by simp [timely]) (by simp) fun now running => ⟨now, running, rfl⟩
  | start config down => exact holds.start consistent config
  | stop => exact holds.quiet (by simp [timely]) (by simp) (by simp)
  | commit now name payload sources inbox inboxes parsed running admitted =>
    constructor
    · rintro later ⟨⟩ engine member starting
      rcases List.mem_append.mp member with old | new
      · exact (holds.starting now running engine old starting).later (by simp)
      · cases List.mem_singleton.mp new
        exact .now _ history _
    · exact holds.ordered.append_free (by simp [timely])
  | receive now envelope running =>
    refine holds.quiet (by simp [timely]) (by simp) ?_
    rintro later ⟨⟩
    exact ⟨now, running, rfl⟩
  | advance now before engine after progress running engines stepped =>
    exact holds.advance consistent running engines (step_follows stepped)

end Timely

variable [Journal σ Entry] [LawfulJournal σ Entry] [Publishing σ] [LawfulPublishing σ Entry]

theorem timely_run {history : List Event} {s : Station σ}
    (run : Station.Run history s) (unique : UniqueNames history) : Timely history s := by
  induction run with
  | begin storage empty => exact ⟨by simp, Ordered.nil _⟩
  | step run stepped ih =>
    have before := unique.of_append
    exact (ih before).step (consistent_run run before) stepped

omit [Journal σ Entry] [LawfulJournal σ Entry] [Publishing σ] [LawfulPublishing σ Entry] in
theorem requested_anew {history events more : List Event}
    (ordered : Ordered timely (history ++ .started :: (events ++ more)))
    (unique : UniqueNames (history ++ .started :: (events ++ more)))
    (nobody : ∀ t, .admitted t ∉ events) (txn : String) (sources : List Source)
    (prepared : .did (.appended (.prepare txn sources)) ∈ events ++ more) :
    (∃ payload sources, .admitted ⟨txn, payload, sources⟩ ∈ more) ∧
      ∀ entry ∈ logged history, entry.txn ≠ txn := by
  obtain ⟨before, after, split⟩ := List.append_of_mem prepared
  obtain ⟨payload, since⟩ : timely (history ++ .started :: before) (.did (.appended
      (.prepare txn sources))) := ordered _ _ after (by simp [split])
  have member : .admitted ⟨txn, payload, sources⟩ ∈ before := since.mem (by simp)
  constructor
  · have there : .admitted ⟨txn, payload, sources⟩ ∈ events ++ more := by simp [split, member]
    exact ⟨payload, sources, (List.mem_append.mp there).resolve_left (nobody _)⟩
  · obtain ⟨earlier, later, rfl⟩ := List.append_of_mem member
    have fresh : freshName (history ++ .started :: earlier) (.admitted ⟨txn, payload, sources⟩) :=
      unique _ _ (later ++ .did (.appended (.prepare txn sources)) :: after) (by simp [split])
    intro entry logs
    exact fresh entry (by simp [logs])

theorem Past.prepared {txn : String} {records : List Entry} (past : Past txn records)
    (some : records ≠ []) : ∃ sources, .prepare txn sources ∈ records := by
  cases past with
  | nothing => exact absurd rfl some
  | requested sources | decided sources | finished sources => exact ⟨sources, by simp⟩

theorem Kept.prepared {entries log : List Entry} (kept : Kept entries log) {entry : Entry}
    (member : entry ∈ entries) : ∃ sources, .prepare entry.txn sources ∈ entries := by
  have mine : entry ∈ Log.recordsOf entry.txn entries := Log.mem_recordsOf.mpr ⟨member, rfl⟩
  obtain ⟨sources, prepared⟩ := (kept.past entry.txn).prepared (List.ne_nil_of_mem mine)
  exact ⟨sources, (Log.mem_recordsOf.mp prepared).1⟩

theorem Due.exists (entries : List Entry) (txn : String) : ∃ outcome, Due entries txn outcome := by
  by_cases decided : ∃ outcome, .decision txn outcome ∈ entries
  · obtain ⟨outcome, logged⟩ := decided
    exact ⟨outcome, .inl logged⟩
  · exact ⟨.abort, .inr ⟨rfl, not_exists.mp decided⟩⟩

omit [Journal σ Entry] [LawfulJournal σ Entry] [Publishing σ] [LawfulPublishing σ Entry] in
theorem Restarted.decided {entries later : List Entry} {inboxes : Inboxes Envelope}
    {engines : List Engine} (restarted : Restarted entries engines)
    (occupied : Occupied later inboxes engines) {txn : String} {sources : List Source}
    (prepared : .prepare txn sources ∈ entries) (open_ : .done txn ∉ entries) :
    ∃ outcome, Due entries txn outcome ∧ .decision txn outcome ∈ later := by
  obtain ⟨outcome, due⟩ := Due.exists entries txn
  obtain ⟨engine, member, rfl, _, announcing, _⟩ :=
    restarted.open_ txn sources outcome prepared open_ due
  have past := occupied.past engine member
  have mine : .decision engine.name outcome ∈ Log.recordsOf engine.name later := by
    rw [past, announcing]
    simp [Stage.past, Engine.name]
  exact ⟨outcome, due, (Log.mem_recordsOf.mp mine).1⟩

omit [Journal σ Entry] [LawfulJournal σ Entry] [Publishing σ] [LawfulPublishing σ Entry] in
theorem Backed.logged {before : List Event} {recipient : String} {message : Message}
    (backed : Backed before recipient message) :
    ∃ entry ∈ logged before, entry.txn = message.txn := by
  rcases backed.kind with phase | ⟨outcome, phase⟩
  · obtain ⟨sources, prepared, _⟩ := backed.request phase
    exact ⟨_, prepared, rfl⟩
  · exact ⟨_, backed.decision outcome phase, rfl⟩

/-- After a restart, wherever the coordinator went down and however many recoveries were cut short, a
transaction that was logged and has not ended goes on with the outcome that is due, and is not
requested again; of what has ended nothing is sent any more. What was not logged had not been sent
either, and only a new admission brings it up. -/
theorem restart_follows_log {history more : List Event} {s s' : Station σ} {config : Config}
    (run : Station.Run history s) (down : s.running = none)
    (recovered : (recover config {} (⟨s.storage, []⟩ : Recorded σ Entry)).1 = .ok ())
    (steps : (s.afterStart config (recover config {} (⟨s.storage, []⟩ : Recorded σ Entry))).Steps
      more s')
    (unique : UniqueNames (history ++ Station.startEvents (recover config {}
      (⟨s.storage, []⟩ : Recorded σ Entry)) ++ more)) :
    Restarted (logged history) ((recover config {} (⟨s.storage, []⟩ : Recorded σ Entry)).2.engines.map
      Resumed.engine) ∧
    (∀ recipient message, .sent recipient message ∈ history →
      ∃ entry ∈ logged history, entry.txn = message.txn) ∧
    ∀ recipient message, .sent recipient message ∈ more →
      .done message.txn ∉ logged history ∧
      ((∃ entry ∈ logged history, entry.txn = message.txn) →
        ∃ outcome, Due (logged history) message.txn outcome ∧ message.phase = outcome.phase) ∧
      ((∀ entry ∈ logged history, entry.txn ≠ message.txn) →
        ∃ payload sources, .admitted ⟨message.txn, payload, sources⟩ ∈ more) := by
  have kept := (consistent_run run unique.of_append.of_append).kept
  have started := run.step (.start s config down)
  have agreed := consistent_run started unique.of_append
  have restarted := recover_restarts config kept recovered
  have later := started.steps steps
  generalize recover config {} (⟨s.storage, []⟩ : Recorded σ Entry) = result at *
  have consistent := consistent_run later unique
  have ordered := (timely_run later unique).ordered
  have backs := (writeAhead_run later).backed
  obtain ⟨events, begun, nobody⟩ : ∃ events, Station.startEvents result = .started :: events ∧
      ∀ t, .admitted t ∉ events := ⟨_, rfl, by simp⟩
  have whole : history ++ Station.startEvents result ++ more =
      history ++ .started :: (events ++ more) := by simp [begun]
  have anew := fun txn sources => requested_anew (whole ▸ ordered) (whole ▸ unique) nobody txn sources
  refine ⟨restarted, fun recipient message sent => ?_, fun recipient message sent => ?_⟩
  · exact ((writeAhead_run run).backed.of_mem backing_lasting sent).logged
  · have backed : Backed _ recipient message :=
      backs.of_mem backing_lasting (List.mem_append_right _ sent)
    obtain ⟨before, after, split⟩ := List.append_of_mem sent
    obtain ⟨open_, requests⟩ : timely (history ++ Station.startEvents result ++ before)
      (.sent recipient message) := ordered _ _ after (by simp [split])
    refine ⟨fun ended => open_ (by simp [ended]), ?_, ?_⟩
    · rintro ⟨entry, logs, own⟩
      rcases backed.kind with phase | ⟨outcome, phase⟩
      · -- A request is logged after the start, and so under a name that had not been logged before it.
        obtain ⟨sources, since⟩ := requests phase
        rw [begun, List.append_assoc, List.cons_append] at since
        have again := since.mem (by simp)
        refine absurd own ((anew _ sources ?_).2 entry logs)
        rw [split]
        simpa [or_assoc] using (List.mem_append.mp again).imp_right .inl
      · -- The restart gave the transaction an engine, so what is due is logged by now.
        obtain ⟨sources, prepared⟩ := kept.prepared logs
        rw [own] at prepared
        obtain ⟨owed, due, decided⟩ := restarted.decided (agreed.occupied _ rfl) prepared
          fun ended => open_ (by simp [ended])
        obtain rfl : outcome = owed := decision_unique consistent (backed.decision outcome phase)
          (by rw [logged_append]; exact List.mem_append_left _ decided)
        exact ⟨outcome, due, phase⟩
    · intro none
      obtain ⟨entry, logs, own⟩ := backed.logged
      obtain ⟨sources, prepared⟩ := consistent.kept.prepared logs
      rw [own, whole] at prepared
      refine (anew _ sources ?_).1
      rcases List.mem_append.mp (mem_logged.mp prepared) with old | new
      · exact absurd rfl (none _ (mem_logged.mpr old))
      · simpa using new

def stumbling : Station (Beside (Ledger Entry) Publisher) :=
  { storage := ⟨{ failures := [false, false, false, true] }, ⟨["out"], {}, "draft"⟩⟩ }

def cutShort : List Action :=
  [.start {}, .commit "t" [7] ["p:x"], .advance 0, .receive ⟨"p", .vote "t" .accept⟩, .advance 0,
    .advance 0, .advance 0, .stop, .start {}, .stop]

/-- What is due after that is the abort, and it goes out. -/
theorem aborted_at_second_restart : ∃ history more s s',
    stumbling.playAll cutShort = some (history, s) ∧
    .retracted "t" ∈ history.filterMap Event.deed? ∧
    (∀ outcome, .decision "t" outcome ∉ logged history) ∧
    (s.afterStart {} (recover {} {} (⟨s.storage, []⟩ : Recorded _ Entry))).Steps more s' ∧
    .sent "p" (.decision "t" .abort) ∈ more ∧
    ∃ engine ∈ (recover {} {} (⟨s.storage, []⟩ : Recorded _ Entry)).2.engines.map Resumed.engine,
      engine.name = "t" ∧ engine.stage = .announcing .abort ["p"] := by
  have played : ((stumbling.playAll cutShort).bind fun before =>
      ((before.2.afterStart {} (recover {} {} (⟨before.2.storage, []⟩ : Recorded _ Entry))).playAll
        [.advance 0]).map fun after =>
      decide (UniqueNames (before.1 ++ Station.startEvents (recover {} {}
        (⟨before.2.storage, []⟩ : Recorded _ Entry)) ++ after.1)) &&
      decide (before.2.running = none) &&
      decide ((recover {} {} (⟨before.2.storage, []⟩ : Recorded _ Entry)).1 = .ok ()) &&
      decide (logged before.1 = [.prepare "t" [⟨"p", "x"⟩]]) &&
      decide (.retracted "t" ∈ before.1.filterMap Event.deed?) &&
      decide ((after.1.filterMap fun event => match event with
        | .sent recipient message => some (recipient, message)
        | _ => none) = [("p", .decision "t" .abort)])) = some true := by rfl
  obtain ⟨⟨history, s⟩, played, rest⟩ := Option.bind_eq_some_iff.mp played
  obtain ⟨⟨more, s'⟩, after, facts⟩ := Option.map_eq_some_iff.mp rest
  simp only [Bool.and_eq_true, decide_eq_true_eq] at facts
  obtain ⟨⟨⟨⟨⟨unique, down⟩, recovered⟩, requested⟩, retracted⟩, sends⟩ := facts
  have run : Station.Run history s := Station.playAll_run (.begin stumbling.storage rfl) played
  have steps : (s.afterStart {} (recover {} {} (⟨s.storage, []⟩ : Recorded _ Entry))).Steps more s' :=
    Station.playAll_steps .nothing after
  have follows := restart_follows_log run down recovered steps unique
  have undecided : ∀ outcome, .decision "t" outcome ∉ logged history := by simp [requested]
  obtain ⟨engine, member, named, asked, announcing, _⟩ := follows.1.open_ "t" [⟨"p", "x"⟩] .abort
    (by simp [requested]) (by simp [requested]) (.inr ⟨rfl, undecided⟩)
  have sent : .sent "p" (.decision "t" .abort) ∈ more := by
    have there := sends.symm ▸ List.mem_singleton.mpr (rfl : ("p", Message.decision "t" .abort) = _)
    obtain ⟨event, happened, read⟩ := List.mem_filterMap.mp there
    cases event <;> cases read
    exact happened
  refine ⟨history, more, s, s', played, retracted, undecided, steps, sent, engine, member, named, ?_⟩
  rw [announcing, Transaction.participants, Transaction.shares, asked]
  rfl

end AtomicCommit.Coordinator
