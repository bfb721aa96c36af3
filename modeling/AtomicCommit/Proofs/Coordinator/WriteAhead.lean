import AtomicCommit.Log.Ledger
import AtomicCommit.Proofs.Coordinator.Moves
import AtomicCommit.Proofs.Coordinator.Play
import AtomicCommit.Proofs.Coordinator.Recovering
import AtomicCommit.Proofs.Histories

/-! The write-ahead rule of the coordinator: what a message says is in the log before the message is
handed to the transport. It holds of every run, also when names are used again. -/

namespace AtomicCommit.Coordinator

structure Backed (before : List Event) (recipient : String) (message : Message) : Prop where
  kind : message.phase = .prepare ∨ ∃ outcome : Outcome, message.phase = outcome.phase
  request : message.phase = .prepare → ∃ sources, .prepare message.txn sources ∈ logged before ∧
    (recipient, message.resources) ∈ Source.shares sources
  decision : ∀ outcome : Outcome, message.phase = outcome.phase →
    .decision message.txn outcome ∈ logged before

def backing (before : List Event) : Event → Prop
  | .sent recipient message => Backed before recipient message
  | .finished name (.ok outcome) => .decision name outcome ∈ logged before
  | _ => True

theorem backing_lasting : Lasting backing := by
  intro before more event backed
  cases event with
  | sent recipient message =>
    refine ⟨backed.kind, ?_, ?_⟩
    · intro request
      obtain ⟨sources, prepared, share⟩ := backed.request request
      exact ⟨sources, by simp [prepared], share⟩
    · intro outcome phase
      simp [backed.decision outcome phase]
  | finished name result =>
    cases result with
    | error e => trivial
    | ok outcome =>
      have decided : .decision name outcome ∈ logged before := backed
      simp [backing, decided]
  | _ => trivial

def Stage.settled? : Stage → Option Outcome
  | .announcing outcome _ => some outcome
  | .awaiting outcome _ _ => some outcome
  | .closing outcome _ => some outcome
  | _ => none

namespace Move

variable {t : Transaction} {stage : Stage} {queue rest : List Envelope} {next : Next}
  {sent : List (String × Message)} {deeds : List (Deed Entry)}

theorem settled (move : Move t stage queue next sent rest deeds) {later : Stage}
    (staged : next = .stage later) {outcome : Outcome} (fixed : later.settled? = some outcome) :
    stage.settled? = some outcome ∨
      .decision t.name outcome ∈ Deed.records deeds := by
  cases move with
  | counted queue deadline ballot decision now _ =>
    cases staged
    cases decision <;> cases fixed
  | recorded =>
    cases staged
    cases fixed
    exact .inr (List.mem_singleton.mpr rfl)
  | _ =>
    cases staged <;> exact .inl fixed

theorem finished_settled (move : Move t stage queue next sent rest deeds) {outcome : Outcome}
    (ended : next = .finished (.ok outcome)) : stage.settled? = some outcome := by
  cases move <;> cases ended
  rfl

theorem sent_cases (move : Move t stage queue next sent rest deeds) {recipient : String}
    {message : Message} (member : (recipient, message) ∈ sent) :
    (∃ resources, (recipient, resources) ∈ t.shares ∧
        message = .prepare t.name resources t.payload ∧
        .prepare t.name t.sources ∈ Deed.records deeds) ∨
      ∃ outcome, stage.settled? = some outcome ∧ message = .decision t.name outcome := by
  cases move with
  | requested =>
    simp only [Transaction.requests, List.mem_map, Prod.mk.injEq, Prod.exists] at member
    obtain ⟨participant, resources, share, rfl, rfl⟩ := member
    exact .inl ⟨resources, share, rfl, by simp⟩
  | announced queue outcome waiting deadline _ =>
    simp only [List.mem_map, Prod.mk.injEq] at member
    obtain ⟨participant, _, rfl, rfl⟩ := member
    exact .inr ⟨outcome, rfl, rfl⟩
  | _ => simp at member

end Move

theorem phase_injective {first second : Outcome} (same : first.phase = second.phase) :
    first = second := by
  cases first <;> cases second <;> first | rfl | cases same

theorem backed_prepare {before : List Event} {t : Transaction} {recipient : String}
    {resources : List String} (share : (recipient, resources) ∈ t.shares)
    (prepared : .prepare t.name t.sources ∈ logged before) :
    Backed before recipient (.prepare t.name resources t.payload) := by
  refine ⟨.inl rfl, ?_, ?_⟩
  · intro _
    exact ⟨t.sources, prepared, share⟩
  · intro outcome phase
    cases outcome <;> cases phase

theorem backed_decision {before : List Event} {txn : String} {outcome : Outcome}
    (decided : .decision txn outcome ∈ logged before) (recipient : String) :
    Backed before recipient (.decision txn outcome) := by
  refine ⟨.inr ⟨outcome, rfl⟩, ?_, ?_⟩
  · intro phase
    cases outcome <;> cases phase
  · intro other phase
    obtain rfl : outcome = other := phase_injective phase
    exact decided

theorem backed_quiet {history events : List Event} (ordered : Ordered backing history)
    (quiet : ∀ event ∈ events, backing [] event) : Ordered backing (history ++ events) :=
  ordered.append_all backing_lasting fun event member =>
    backing_lasting [] history event (quiet event member)

theorem quiet_deeds (deeds : List (Deed Entry)) : ∀ event ∈ deeds.map .did, backing [] event := by
  intro event member
  obtain ⟨deed, _, rfl⟩ := List.mem_map.mp member
  trivial

variable {σ : Type} [Journal σ Entry] [LawfulJournal σ Entry] [Publishing σ]

structure WriteAhead (history : List Event) (s : Station σ) : Prop where
  log : ∀ entry ∈ held s.storage, entry ∈ logged history
  engines : ∀ now, s.running = some now → ∀ engine ∈ now.engines, ∀ outcome,
    engine.stage.settled? = some outcome → .decision engine.name outcome ∈ logged history
  backed : Ordered backing history

theorem mem_of_decision {txn : String} {entries : List Entry} {start : Trace} {outcome : Outcome}
    (own : ∀ entry ∈ entries, entry.txn = txn)
    (decided : (entries.foldl Trace.note start).decision = some outcome) :
    start.decision = some outcome ∨ .decision txn outcome ∈ entries := by
  induction entries generalizing start with
  | nil => exact .inl decided
  | cons entry rest ih =>
    obtain ⟨rfl, ownRest⟩ := List.forall_mem_cons.mp own
    rcases ih ownRest decided with earlier | later
    · cases entry with
      | decision txn other =>
        cases earlier
        exact .inr List.mem_cons_self
      | _ => exact .inl earlier
    · exact .inr (List.mem_cons_of_mem _ later)

theorem decision_logged {entries : List Entry} {txn : String} {trace : Trace} {outcome : Outcome}
    (found : (txn, trace) ∈ traces entries) (decided : trace.decision = some outcome) :
    .decision txn outcome ∈ entries := by
  obtain ⟨_, rfl⟩ := (Log.mem_traces _ _).mp found
  have own : ∀ entry ∈ Log.recordsOf txn entries, entry.txn = txn := by
    intro entry member
    exact of_decide_eq_true (List.mem_filter.mp member).2
  rcases mem_of_decision own decided with none | member
  · cases none
  · exact List.mem_filter.mp member |>.1

structure Grounded (entries : List Entry) (rest : List (String × Trace))
    (r : Recovering (Recorded σ Entry)) : Prop where
  rest : ∀ txn trace, (txn, trace) ∈ rest → ∀ outcome, trace.decision = some outcome →
    .decision txn outcome ∈ entries
  log : ∀ entry ∈ held r.storage.storage,
    entry ∈ entries ++ Deed.records r.storage.deeds
  engines : ∀ resumed ∈ r.engines, .decision resumed.transaction.name resumed.outcome ∈
    entries ++ Deed.records r.storage.deeds

theorem Trace.plan_resume {trace : Trace} {sources : List Source} {outcome : Outcome}
    (planned : trace.plan = .resume sources outcome) : trace.decision = some outcome := by
  grind [Trace.plan]

omit [Publishing σ] in
theorem Grounded.turn {entries : List Entry} {txn : String} {trace : Trace}
    {rest : List (String × Trace)} {r after : Recovering (Recorded σ Entry)}
    {result : Except CoordinatorError Unit} (grounded : Grounded entries ((txn, trace) :: rest) r)
    (followed : Follow txn trace.plan r result after) : Grounded entries rest after := by
  obtain ⟨known, log, engines⟩ := grounded
  have later : ∀ txn trace, (txn, trace) ∈ rest → ∀ outcome, trace.decision = some outcome →
      .decision txn outcome ∈ entries :=
    fun txn trace member => known txn trace (List.mem_cons_of_mem _ member)
  generalize planned : trace.plan = plan at followed
  cases followed with
  | skip | resumeTwice => exact ⟨later, log, engines⟩
  | resume sources outcome _ inbox inboxes report created =>
    have decided := known txn trace List.mem_cons_self outcome (Trace.plan_resume planned)
    refine ⟨later, log, ?_⟩
    intro resumed member
    rcases List.mem_append.mp member with old | new
    · exact engines resumed old
    · obtain rfl := List.mem_singleton.mp new
      exact List.mem_append_left _ decided
  | notRetracted sources _ e s kept => exact ⟨later, by simpa [kept] using log, engines⟩
  | notAborted sources _ e s kept =>
    exact ⟨later, by simpa [kept] using log, by simpa using engines⟩
  | abort sources _ s inbox inboxes report grown created =>
    refine ⟨later, ?_, ?_⟩
    · intro entry member
      rw [grown] at member
      rcases List.mem_append.mp member with old | new
      · simpa using Or.imp_right Or.inl (List.mem_append.mp (log entry old))
      · simp_all
    · intro resumed member
      rcases List.mem_append.mp member with old | new
      · simpa using Or.imp_right Or.inl (List.mem_append.mp (engines resumed old))
      · obtain rfl := List.mem_singleton.mp new
        simp
  | abortTwice sources _ s report grown created =>
    refine ⟨later, ?_, ?_⟩
    · intro entry member
      rw [grown] at member
      rcases List.mem_append.mp member with old | new
      · simpa using Or.imp_right Or.inl (List.mem_append.mp (log entry old))
      · simp_all
    · intro resumed member
      simpa using Or.imp_right Or.inl (List.mem_append.mp (engines resumed member))

theorem recover_grounded [LawfulPublishing σ Entry] (config : Config) (storage : σ)
    {entries : List Entry} (known : ∀ entry ∈ held storage, entry ∈ entries) :
    ∃ rest, Grounded entries rest
      (recover config {} (⟨storage, []⟩ : Recorded σ Entry)).2 := by
  obtain ⟨rest, grounded, _⟩ := recover_induction (P := fun _ => Grounded entries) config {}
    storage
    (fun txn trace rest r result after => Grounded.turn) (by
      intro _ s deeds compacted _ none
      constructor
      · intro txn trace found outcome decided
        exact known _ (decision_logged found decided)
      · intro entry member
        rcases compacted with same | fewer
        · exact List.mem_append_left _ (known entry (same ▸ member))
        · rw [fewer] at member
          exact List.mem_append_left _ (known entry (List.mem_filter.mp member).1)
      · simp)
  exact ⟨rest, grounded⟩

namespace WriteAhead

variable {history : List Event} {s : Station σ}

theorem start [LawfulPublishing σ Entry] (holds : WriteAhead history s) (config : Config) :
    WriteAhead
      (history ++ Station.startEvents (recover config {} (⟨s.storage, []⟩ : Recorded σ Entry)))
      (s.afterStart config (recover config {} (⟨s.storage, []⟩ : Recorded σ Entry))) := by
  obtain ⟨rest, grounded⟩ := recover_grounded config s.storage holds.log
  constructor
  · simpa [Station.afterStart] using grounded.log
  · rintro now running engine member outcome fixed
    cases running
    obtain ⟨resumed, taken, rfl⟩ := List.mem_map.mp member
    cases fixed
    simpa [Engine.name, Resumed.engine] using grounded.engines resumed taken
  · apply backed_quiet holds.backed
    simp only [Station.startEvents, List.mem_append, List.mem_singleton]
    rintro event ((rfl | noted) | rfl)
    · trivial
    · exact quiet_deeds _ event noted
    · trivial

theorem advance [LawfulPublishing σ Entry] (holds : WriteAhead history s) {now : Incarnation}
    {before after : List Engine} {engine : Engine} {progress : Progress (Recorded σ Entry)}
    (running : s.running = some now) (engines : now.engines = before ++ engine :: after)
    (follows : progress.Follows engine.transaction engine.stage (now.inboxes.queue engine.inbox)
      s.storage) :
    WriteAhead (history ++ progress.events engine.name) { s with
      running := some (now.replace before engine after progress.queue progress.next)
      storage := progress.storage.storage } := by
  obtain ⟨move, grown⟩ := follows
  have kept := holds.engines now running
  rw [engines] at kept
  constructor
  · intro entry member
    rw [grown] at member
    rcases List.mem_append.mp member with old | new
    · simp [holds.log entry old]
    · simp [new]
  · rintro later ⟨⟩ other member outcome fixed
    rw [logged_append, logged_events, List.mem_append]
    rcases Incarnation.mem_replace member with old | ⟨stage, staged, rfl⟩
    · exact .inl (kept other (by grind) outcome fixed)
    · exact (move.settled staged fixed).imp_left (kept engine (by simp) outcome)
  · have noted : Ordered backing (history ++ progress.storage.deeds.map .did) :=
      backed_quiet holds.backed (quiet_deeds _)
    have handed : Ordered backing (history ++ progress.storage.deeds.map .did ++
        progress.sent.map fun packet => .sent packet.1 packet.2) := by
      apply noted.append_all backing_lasting
      intro event member
      obtain ⟨⟨recipient, message⟩, sent, rfl⟩ := List.mem_map.mp member
      rcases move.sent_cases sent with ⟨resources, share, rfl, prepared⟩ | ⟨outcome, fixed, rfl⟩
      · exact backed_prepare share (by simp [logged_did, prepared])
      · have decided := kept engine (by simp) outcome fixed
        exact backed_decision (by rw [logged_append]; exact List.mem_append_left _ decided) recipient
    have ended : ∀ event ∈ progress.next.events engine.name, backing history event := by
      intro event member
      cases finished : progress.next with
      | stage stage => simp [finished, Next.events] at member
      | finished result =>
        obtain rfl : event = .finished engine.name result := by
          simpa [finished, Next.events] using member
        cases result with
        | error e => trivial
        | ok outcome => exact kept engine (by simp) outcome (move.finished_settled finished)
    rw [Progress.events, ← List.append_assoc, ← List.append_assoc]
    apply handed.append_all backing_lasting
    intro event member
    simpa using backing_lasting _ _ event (ended event member)

theorem step [LawfulPublishing σ Entry] (holds : WriteAhead history s) {events : List Event}
    {s' : Station σ} (stepped : s.Step events s') : WriteAhead (history ++ events) s' := by
  cases stepped with
  | wait duration =>
    rw [List.append_nil]
    exact ⟨holds.log, holds.engines, holds.backed⟩
  | disturb storage kept =>
    refine ⟨?_, ?_, backed_quiet holds.backed (by simp [backing])⟩ <;>
      rw [logged_quiet history rfl]
    · exact kept.symm ▸ holds.log
    · exact holds.engines
  | start config down => exact holds.start config
  | stop =>
    refine ⟨?_, by simp, backed_quiet holds.backed (by simp [backing])⟩
    rw [logged_quiet history rfl]
    exact holds.log
  | commit now name payload sources inbox inboxes parsed running admitted =>
    refine ⟨?_, ?_, backed_quiet holds.backed (by simp [backing])⟩ <;>
      rw [logged_quiet history rfl]
    · exact holds.log
    · rintro later ⟨⟩ engine member outcome fixed
      rcases List.mem_append.mp member with old | new
      · exact holds.engines now running engine old outcome fixed
      · obtain rfl := List.mem_singleton.mp new
        cases fixed
  | receive now envelope running =>
    refine ⟨?_, ?_, backed_quiet holds.backed (by simp [backing])⟩ <;>
      rw [logged_quiet history rfl]
    · exact holds.log
    · rintro later ⟨⟩ engine member outcome fixed
      exact holds.engines now running engine member outcome fixed
  | advance now before engine after progress running engines stepped =>
    exact holds.advance running engines (step_follows stepped)

end WriteAhead

theorem writeAhead_run [LawfulPublishing σ Entry] {history : List Event} {s : Station σ}
    (run : Station.Run history s) : WriteAhead history s := by
  induction run with
  | begin storage empty => exact ⟨by simp [empty], by simp, Ordered.nil _⟩
  | step run stepped ih => exact ih.step stepped

/-- A request for a vote goes out after the request was logged, an outcome after just this outcome was
logged; and so neither goes out at all as long as it could not be logged. -/
theorem messages_follow_records [LawfulPublishing σ Entry] {history : List Event} {s : Station σ}
    (run : Station.Run history s) :
    (∀ before recipient message after, history = before ++ .sent recipient message :: after →
      (message.phase = .prepare → ∃ sources,
        .did (.appended (.prepare message.txn sources)) ∈ before ∧
          (recipient, message.resources) ∈ Source.shares sources) ∧
      ∀ outcome : Outcome, message.phase = outcome.phase →
        .did (.appended (.decision message.txn outcome)) ∈ before) ∧
    ∀ recipient message, .sent recipient message ∈ history →
      ((∀ sources, .did (.appended (.prepare message.txn sources)) ∉ history) →
        message.phase ≠ .prepare) ∧
      ∀ outcome : Outcome, .did (.appended (.decision message.txn outcome)) ∉ history →
        message.phase ≠ outcome.phase := by
  have sent := (writeAhead_run run).backed
  constructor
  · intro before recipient message after split
    have backed : Backed before recipient message := sent _ _ _ split
    simpa only [mem_logged] using And.intro backed.request backed.decision
  · intro recipient message member
    obtain ⟨before, after, split⟩ := List.append_of_mem member
    have backed : Backed before recipient message := sent _ _ _ split
    constructor
    · intro absent phase
      obtain ⟨sources, prepared, _⟩ := backed.request phase
      exact absent sources (by simp [split, mem_logged.mp prepared])
    · intro outcome absent phase
      exact absent (by simp [split, mem_logged.mp (backed.decision outcome phase)])

theorem announced_after_second_attempt :
    ∃ (before : List Event) (s : Station (Beside (Ledger Entry) Publisher)),
      Station.Run (before ++ [.sent "p" (.decision "t" .abort)]) s ∧
        .did (.appended (.decision "t" .abort)) ∈ before := by
  let station : Station (Beside (Ledger Entry) Publisher) :=
    { storage := ⟨{ failures := [false, true] }, ⟨[], {}, "draft"⟩⟩ }
  let config : Config := { voteTimeout := 1, retryInterval := 1, compactOnRecovery := false }
  let actions : List Action := [.start config, .commit "t" [] ["p:x"], .advance 0, .wait 1,
    .advance 0, .advance 0, .wait 1, .advance 0, .advance 0]
  let before : List Event := [.started, .recovered (.ok {}), .admitted ⟨"t", [], [⟨"p", "x"⟩]⟩,
    .did (.appended (.prepare "t" [⟨"p", "x"⟩])), .sent "p" (.prepare "t" ["x"] []),
    .did (.appended (.decision "t" .abort))]
  have played : (station.playAll actions).map (·.1) =
      some (before ++ [.sent "p" (.decision "t" .abort)]) := by rfl
  obtain ⟨⟨events, s⟩, played, rfl⟩ := Option.map_eq_some_iff.mp played
  have run := Station.playAll_run (.begin station.storage rfl) played
  exact ⟨before, s, run, ((messages_follow_records run).1 before _ _ [] rfl).2 .abort rfl⟩

end AtomicCommit.Coordinator
