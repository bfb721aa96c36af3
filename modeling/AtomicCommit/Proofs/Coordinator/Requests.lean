import AtomicCommit.Proofs.Coordinator.InFlight
import AtomicCommit.Proofs.Sources

/-! The requests for votes: who is asked for what, how often, and that a recovery finds in the log the
participants that were asked. Names may be used again. -/

namespace AtomicCommit.Coordinator

/-- The requests of a transaction, seen from the texts of its sources. -/
structure FanOut (texts : List String) (t : Transaction) : Prop where
  once : (t.requests.map (·.1)).Pairwise (· < ·)
  recipients : ∀ participant, participant ∈ t.requests.map (·.1) ↔
    ∃ resource, Source.Named texts participant resource
  contents : ∀ participant message, (participant, message) ∈ t.requests →
    ∃ resources, message = .prepare t.name resources t.payload ∧ resources.Pairwise (· < ·) ∧
      ∀ resource, resource ∈ resources ↔ Source.Named texts participant resource
  rearranged : ∀ others, (∀ text, text ∈ others ↔ text ∈ texts) →
    ∃ sources, Source.parseAll others = .ok sources ∧
      Transaction.requests { t with sources := sources } = t.requests

namespace Transaction

theorem recipients (t : Transaction) : t.requests.map (·.1) = t.participants := by
  simp [requests, participants, Function.comp_def]

theorem requests_fan_out {t : Transaction} {texts : List String}
    (parsed : Source.parseAll texts = .ok t.sources) : FanOut texts t := by
  constructor
  · rw [recipients]
    exact Source.sorted_shares t.sources
  · intro participant
    simp only [recipients, participants, shares, Source.mem_participants,
      Source.named_iff parsed]
  · intro participant message member
    obtain ⟨⟨_, resources⟩, share, rfl, rfl⟩ :
        ∃ own ∈ t.shares, own.1 = participant ∧ .prepare t.name own.2 t.payload = message := by
      simpa [requests] using member
    obtain ⟨sorted, members⟩ := Source.mem_shares share
    exact ⟨resources, rfl, sorted, fun resource => by rw [members, Source.named_iff parsed]⟩
  · intro others same
    obtain ⟨sources, read⟩ := Source.parseAll_of_subset parsed fun text => (same text).mp
    have alike : Source.shares sources = Source.shares t.sources := by
      refine Source.shares_congr fun s => ?_
      simp only [Source.mem_parseAll read, Source.mem_parseAll parsed, same]
    exact ⟨sources, read, by simp only [requests, shares, alike]⟩

end Transaction

def Event.admitted? : Event → Option Transaction
  | .admitted t => some t
  | _ => none

def Event.request? : Event → Option (String × Message)
  | .sent recipient message =>
    if message.phase = .prepare then some (recipient, message) else none
  | .started | .recovered _ | .stopped | .disturbed | .admitted _ | .received _ | .did _
  | .finished _ _ => none

def Entry.prepared? : Entry → Option (String × List Source)
  | .prepare txn sources => some (txn, sources)
  | _ => none

def admissions (history : List Event) : List Transaction := history.filterMap Event.admitted?

def requested (history : List Event) : List (String × Message) := history.filterMap Event.request?

def prepared (entries : List Entry) : List (String × List Source) := entries.filterMap Entry.prepared?

def latest? (asked : List Transaction) (name : String) : Option Transaction :=
  (asked.filter (·.name = name)).getLast?

namespace Move

variable {t : Transaction} {stage : Stage} {queue rest : List Envelope} {next : Next}
  {sent : List (String × Message)} {deeds : List (Deed Entry)}

theorem asks (move : Move t stage queue next sent rest deeds) :
    (stage = .starting ∧ sent = t.requests ∧ Deed.records deeds = [.prepare t.name t.sources] ∧
        ∃ later, next = .stage later ∧ later ≠ .starting) ∨
      ((∀ packet ∈ sent, packet.2.phase ≠ .prepare) ∧ prepared (Deed.records deeds) = [] ∧
        ∀ later, next = .stage later → stage ≠ .starting ∧ later ≠ .starting) := by
  cases move with
  | requested => exact .inl ⟨rfl, rfl, rfl, _, rfl, by simp⟩
  | notRequested => exact .inr ⟨by simp, rfl, by simp⟩
  | counted queue deadline ballot outcome now _ =>
    exact .inr ⟨by simp, rfl, by cases outcome <;> simp [decided]⟩
  | announced queue outcome waiting deadline _ =>
    refine .inr ⟨?_, rfl, by simp⟩
    rintro packet member
    obtain ⟨participant, _, rfl⟩ := List.mem_map.mp member
    cases outcome <;> simp [Message.decision, Message.bare, Outcome.phase]
  | _ => exact .inr ⟨by simp, rfl, by simp⟩

end Move

section Records

variable {entries others : List Entry} {txn : String} {sources : List Source}

@[simp] theorem prepared_nil : prepared [] = [] := rfl

@[simp] theorem prepared_append (entries others : List Entry) :
    prepared (entries ++ others) = prepared entries ++ prepared others :=
  List.filterMap_append ..

@[simp] theorem prepared_prepare (txn : String) (sources : List Source) (entries : List Entry) :
    prepared (.prepare txn sources :: entries) = (txn, sources) :: prepared entries := rfl

@[simp] theorem prepared_decision (txn : String) (outcome : Outcome) (entries : List Entry) :
    prepared (.decision txn outcome :: entries) = prepared entries := rfl

@[simp] theorem prepared_done (txn : String) (entries : List Entry) :
    prepared (.done txn :: entries) = prepared entries := rfl

theorem prepared_recordsOf (txn : String) (entries : List Entry) :
    prepared (Log.recordsOf txn entries) = (prepared entries).filter (·.1 = txn) := by
  induction entries using List.reverseRecOn with
  | nil => rfl
  | append_singleton entries entry ih =>
    rw [Log.recordsOf_snoc, prepared_append, List.filter_append, ← ih]
    by_cases own : Record.txn entry = txn
    · rw [if_pos own, prepared_append, List.append_cancel_left_eq]
      cases own
      cases entry <;> simp [Record.txn, Entry.txn]
    · rw [if_neg own]
      cases entry with
      | prepare name sources => simp [show name ≠ txn from own]
      | decision | done => simp

def Last (entries : List Entry) (txn : String) (sources : List Source) : Prop :=
  (prepared (Log.recordsOf txn entries)).getLast? = some (txn, sources)

theorem Last.of_suffix (last : Last entries txn sources)
    (later : Log.recordsOf txn entries <:+ Log.recordsOf txn others) : Last others txn sources := by
  obtain ⟨front, whole⟩ := later
  rw [Last, ← whole, prepared_append, List.getLast?_append]
  simp [show _ = some (txn, sources) from last]

theorem Last.append (last : Last entries txn sources)
    (unasked : prepared (Log.recordsOf txn others) = []) : Last (entries ++ others) txn sources := by
  rw [Last, Log.recordsOf_append, prepared_append, unasked, List.append_nil]
  exact last

theorem Last.prepare (entries : List Entry) (txn : String) (sources : List Source) :
    Last (entries ++ [.prepare txn sources]) txn sources := by
  simp [Last, prepared_recordsOf]

theorem foldl_sources (entries : List Entry) (start : Trace) :
    (entries.foldl Trace.note start).sources =
      ((prepared entries).getLast?.map (·.2)).or start.sources := by
  induction entries using List.reverseRecOn with
  | nil => rfl
  | append_singleton entries entry ih =>
    rw [List.foldl_append, prepared_append, List.getLast?_append]
    cases entry with
    | prepare => rfl
    | decision | done => simpa [Trace.note] using ih

theorem last_of_trace {trace : Trace} (found : (txn, trace) ∈ traces entries)
    (known : trace.sources = some sources) : Last entries txn sources := by
  obtain ⟨_, rfl⟩ := (Log.mem_traces _ _).mp found
  rw [Log.traceOf, foldl_sources, Option.or_none, Option.map_eq_some_iff] at known
  obtain ⟨⟨name, _⟩, last, rfl⟩ := known
  have own := List.mem_of_getLast? last
  rw [prepared_recordsOf, List.mem_filter] at own
  obtain rfl : name = txn := by simpa using own.2
  exact last

theorem latest_iff {asked : List Transaction}
    (same : prepared entries = asked.map fun t => (t.name, t.sources)) :
    (∃ t, latest? asked txn = some t ∧ t.sources = sources) ↔ Last entries txn sources := by
  rw [Last, latest?, prepared_recordsOf, same, List.filter_map, List.getLast?_map,
    Option.map_eq_some_iff]
  refine exists_congr fun t => and_congr_right fun last => ?_
  have own := (List.mem_filter.mp (List.mem_of_getLast? last)).2
  simp_all

end Records

section Recovery

variable {σ : Type} [Journal σ Entry] [LawfulJournal σ Entry] {entries : List Entry} {txn : String}
  {trace : Trace} {rest : List (String × Trace)} {r after : Recovering (Recorded σ Entry)}
  {result : Except CoordinatorError Unit}

structure Rebuilt (entries : List Entry) (rest : List (String × Trace))
    (r : Recovering (Recorded σ Entry)) : Prop where
  rest : ∀ found ∈ rest, found ∈ traces entries
  log : ∀ txn, Log.recordsOf txn (held r.storage.storage) <:+
    Log.recordsOf txn (entries ++ Deed.records r.storage.deeds)
  unasked : prepared (Deed.records r.storage.deeds) = []
  engines : ∀ resumed ∈ r.engines,
    Last entries resumed.transaction.name resumed.transaction.sources

theorem Trace.plan_sources {trace : Trace} {sources : List Source}
    (planned : trace.plan = .forceAbort sources ∨ ∃ outcome, trace.plan = .resume sources outcome) :
    trace.sources = some sources := by
  grind [Trace.plan]

theorem Rebuilt.turn (rebuilt : Rebuilt entries ((txn, trace) :: rest) r)
    (followed : Follow txn trace.plan r result after) : Rebuilt entries rest after := by
  obtain ⟨known, log, unasked, engines⟩ := rebuilt
  obtain ⟨here, later⟩ := List.forall_mem_cons.mp known
  have aborted : ∀ s : σ, held s = held r.storage.storage ++ [.decision txn .abort] → ∀ name,
      Log.recordsOf name (held s) <:+ Log.recordsOf name (entries ++ (Deed.records r.storage.deeds ++
        [.decision txn .abort])) := by
    intro s grown name
    rw [grown, ← List.append_assoc, Log.recordsOf_append, Log.recordsOf_append name (entries ++ _),
      List.suffix_append_self_iff]
    exact log name
  have more : ∀ (inbox : Nat) (sources : List Source) (outcome : Outcome),
      trace.sources = some sources →
      ∀ resumed ∈ r.engines ++ [⟨inbox, ⟨txn, [], sources⟩, outcome⟩],
        Last entries resumed.transaction.name resumed.transaction.sources := by
    intro inbox sources outcome noted resumed member
    rcases List.mem_append.mp member with old | new
    · exact engines resumed old
    · obtain rfl := List.mem_singleton.mp new
      exact last_of_trace here noted
  generalize planned : trace.plan = plan at followed
  cases followed with
  | skip | resumeTwice => exact ⟨later, log, unasked, engines⟩
  | resume sources outcome =>
    exact ⟨later, log, unasked, more _ _ _ (Trace.plan_sources (.inr ⟨outcome, planned⟩))⟩
  | notRetracted sources _ e s kept => exact ⟨later, kept ▸ log, unasked, engines⟩
  | notAborted sources _ e s kept =>
    exact ⟨later, by simpa [kept] using log, by simpa using unasked, engines⟩
  | abort sources _ s inbox inboxes report grown created =>
    exact ⟨later, by simpa using aborted s grown, by simpa using unasked,
      more _ _ _ (Trace.plan_sources (.inl planned))⟩
  | abortTwice sources _ s report grown created =>
    exact ⟨later, by simpa using aborted s grown, by simpa using unasked,
      engines⟩

theorem recover_rebuilt [Publishing σ] [LawfulPublishing σ Entry] (config : Config)
    (s : Station σ) : ∃ rest, Rebuilt (held s.storage) rest (s.recovery config).2 := by
  obtain ⟨rest, rebuilt, _⟩ := recover_induction (P := fun _ => Rebuilt (held s.storage)) config {}
    s.storage (fun txn trace rest r result after => Rebuilt.turn) (by
      intro _ s deeds compacted _ none
      refine ⟨fun _ => id, fun txn => ?_, by rw [none]; rfl, by simp⟩
      rw [none, List.append_nil]
      rcases compacted with same | fewer
      · exact same ▸ List.suffix_rfl
      · rw [fewer, Log.recordsOf_unfinished]
        split
        · exact List.nil_suffix
        · exact List.suffix_rfl)
  exact ⟨rest, rebuilt⟩

end Recovery

section Events

@[simp] theorem requested_append (history events : List Event) :
    requested (history ++ events) = requested history ++ requested events :=
  List.filterMap_append ..

@[simp] theorem admissions_append (history events : List Event) :
    admissions (history ++ events) = admissions history ++ admissions events :=
  List.filterMap_append ..

theorem requested_quiet {events : List Event}
    (quiet : ∀ event ∈ events, event.request? = none) : requested events = [] :=
  List.filterMap_eq_nil_iff.mpr quiet

theorem admissions_quiet {events : List Event}
    (quiet : ∀ event ∈ events, event.admitted? = none) : admissions events = [] :=
  List.filterMap_eq_nil_iff.mpr quiet

variable {σ : Type}

theorem requested_events (name : String) (progress : Progress (Recorded σ Entry)) :
    requested (progress.events name) =
      progress.sent.filter fun packet => packet.2.phase = .prepare := by
  have noted : requested (progress.storage.deeds.map .did) = [] :=
    requested_quiet (by simp [Event.request?])
  have ended : requested (progress.next.events name) = [] :=
    requested_quiet (by cases progress.next <;> simp [Next.events, Event.request?])
  have handed : requested (progress.sent.map fun packet => .sent packet.1 packet.2) =
      progress.sent.filter fun packet => packet.2.phase = .prepare := by
    rw [requested, List.filterMap_map, ← List.filterMap_eq_filter]
    exact List.filterMap_congr fun packet _ => by simp [Event.request?, Option.guard]
  rw [Progress.events, requested_append, requested_append, noted, ended, List.nil_append,
    List.append_nil]
  exact handed

theorem admissions_events (name : String) (progress : Progress (Recorded σ Entry)) :
    admissions (progress.events name) = [] :=
  admissions_quiet fun event member => by
    cases event with
    | admitted => cases next : progress.next <;> simp [Progress.events, Next.events, next] at member
    | _ => rfl

theorem startEvents_quiet
    (result : Except CoordinatorError Unit × Recovering (Recorded σ Entry)) :
    requested (Station.startEvents result) = [] ∧ admissions (Station.startEvents result) = [] :=
  ⟨requested_quiet (by simp [Station.startEvents, Event.request?, or_imp, forall_and]),
    admissions_quiet (by simp [Station.startEvents, Event.admitted?, or_imp, forall_and])⟩

end Events

section Runs

variable {σ : Type} [Journal σ Entry] [LawfulJournal σ Entry]

def unasked (engines : List Engine) : List Transaction :=
  (engines.filter (·.stage = .starting)).map (·.transaction)

omit [Journal σ Entry] [LawfulJournal σ Entry] in
theorem Station.engines_of {s : Station σ} {now : Incarnation} (running : s.running = some now) :
    s.engines = now.engines := by
  simp [engines, running]

theorem unasked_sublist {engines others : List Engine} (fewer : engines.Sublist others) :
    (unasked engines).Sublist (unasked others) :=
  (fewer.filter _).map _

theorem unasked_append (engines others : List Engine) :
    unasked (engines ++ others) = unasked engines ++ unasked others := by
  simp [unasked]

theorem unasked_starting {engine : Engine} (starting : engine.stage = .starting)
    (engines : List Engine) :
    unasked (engine :: engines) = engine.transaction :: unasked engines := by
  simp [unasked, starting]

theorem unasked_begun {engine : Engine} (begun : engine.stage ≠ .starting) (engines : List Engine) :
    unasked (engine :: engines) = unasked engines := by
  simp [unasked, begun]

structure Asking (history : List Event) (s : Station σ) (asked : List Transaction) : Prop where
  sent : requested history = asked.flatMap Transaction.requests
  noted : prepared (logged history) = asked.map fun t => (t.name, t.sources)
  admitted : ∀ t, asked.count t + (unasked s.engines).count t ≤ (admissions history).count t
  log : ∀ txn, Log.recordsOf txn (held s.storage) <:+ Log.recordsOf txn (logged history)
  engines : ∀ engine ∈ s.engines, engine.stage ≠ .starting →
    Last (logged history) engine.name engine.transaction.sources

namespace Asking

variable {history events : List Event} {s s' : Station σ} {asked : List Transaction}

theorem quiet (asking : Asking history s asked) (unsent : requested events = [])
    (unlogged : logged events = []) (kept : held s'.storage = held s.storage)
    (fewer : s'.engines ⊆ s.engines)
    (bounded : ∀ t, (unasked s'.engines).count t ≤
      (unasked s.engines).count t + (admissions events).count t) :
    Asking (history ++ events) s' asked := by
  constructor
  · simp [asking.sent, unsent]
  · simp [asking.noted, unlogged]
  · intro t
    have before := asking.admitted t
    have now := bounded t
    simp only [admissions_append, List.count_append]
    omega
  · intro txn
    simpa [kept, unlogged] using asking.log txn
  · intro engine member asked
    simpa [unlogged] using asking.engines engine (fewer member) asked

theorem commit (asking : Asking history s asked) {now : Incarnation} (running : s.running = some now)
    (t : Transaction) (inbox : Nat) (inboxes : Inboxes Envelope) :
    Asking (history ++ [.admitted t]) { s with running := some { now with
      inboxes := inboxes
      engines := now.engines ++ [⟨inbox, t, .starting⟩] } } asked := by
  have former := Station.engines_of running
  have unsent : requested [.admitted t] = [] := rfl
  constructor
  · simp [asking.sent, unsent]
  · rw [logged_quiet history rfl]
    exact asking.noted
  · intro other
    have before := asking.admitted other
    have one : admissions [.admitted t] = [t] := rfl
    rw [Station.engines_of rfl, unasked_append, unasked_starting rfl, admissions_append, one]
    rw [former] at before
    simp only [List.count_append, List.count_cons, unasked, List.filter_nil, List.map_nil,
      List.count_nil] at before ⊢
    omega
  · rw [logged_quiet history rfl]
    exact asking.log
  · intro engine member begun
    rw [logged_quiet history rfl]
    rcases List.mem_append.mp member with old | new
    · exact asking.engines engine (former ▸ old) begun
    · obtain rfl := List.mem_singleton.mp new
      exact absurd rfl begun

theorem advance (asking : Asking history s asked) {now : Incarnation} {before after : List Engine}
    {engine : Engine} {progress : Progress (Recorded σ Entry)} (running : s.running = some now)
    (engines : now.engines = before ++ engine :: after)
    (distinct : ∀ other ∈ before ++ after, other.name ≠ engine.name)
    (follows : progress.Follows engine.transaction engine.stage (now.inboxes.queue engine.inbox)
      s.storage) :
    ∃ asked, Asking (history ++ progress.events engine.name) { s with
      running := some (now.replace before engine after progress.queue progress.next)
      storage := progress.storage.storage } asked := by
  obtain ⟨move, grown⟩ := follows
  have log : ∀ txn, Log.recordsOf txn (held progress.storage.storage) <:+
      Log.recordsOf txn (logged (history ++ progress.events engine.name)) := by
    intro txn
    rw [grown, logged_append, logged_events, Log.recordsOf_append, Log.recordsOf_append,
      List.suffix_append_self_iff]
    exact asking.log txn
  have bound := asking.admitted
  have known := asking.engines
  rw [Station.engines_of running, engines] at bound known
  rcases move.asks with ⟨starting, sent, noted, later, staged, begun⟩ | ⟨silent, unnoted, later⟩
  · -- The transaction joins those that have asked.
    refine ⟨asked ++ [engine.transaction], ?_, ?_, fun t => ?_, log, ?_⟩
    · have requests : ∀ packet ∈ engine.transaction.requests, packet.2.phase = .prepare := by
        intro packet member
        obtain ⟨_, _, rfl⟩ := List.mem_map.mp member
        rfl
      rw [requested_append, requested_events, asking.sent, sent, List.flatMap_append,
        List.filter_eq_self.mpr (by simpa using requests), List.flatMap_singleton]
    · simp [asking.noted, noted]
    · have counted := bound t
      rw [Station.engines_of rfl, staged, Incarnation.replace, unasked_append, unasked_begun begun,
        admissions_append, admissions_events]
      rw [unasked_append, unasked_starting starting] at counted
      simp only [List.count_append, List.count_cons, List.count_nil] at counted ⊢
      omega
    · intro other member begun
      rw [logged_append, logged_events, noted]
      rcases Incarnation.mem_replace member with there | ⟨stage, _, rfl⟩
      · refine (known other (by grind) begun).append ?_
        have apart : engine.transaction.name ≠ other.name := (distinct other there).symm
        simp [prepared_recordsOf, apart]
      · exact .prepare _ _ _
  · refine ⟨asked, ?_, ?_, fun t => ?_, log, ?_⟩
    · rw [requested_append, requested_events, asking.sent,
        List.filter_eq_nil_iff.mpr (by simpa using silent), List.append_nil]
    · simp [asking.noted, unnoted]
    · have counted := bound t
      rw [Station.engines_of rfl, admissions_append, admissions_events, List.append_nil]
      cases next : progress.next with
      | stage stage =>
        obtain ⟨begun, begunToo⟩ := later stage next
        rw [Incarnation.replace, unasked_append, unasked_begun begunToo]
        rw [unasked_append, unasked_begun begun] at counted
        exact counted
      | finished result =>
        have fewer : (unasked (before ++ after)).Sublist (unasked (before ++ engine :: after)) :=
          unasked_sublist (by simp)
        exact Nat.le_trans (Nat.add_le_add_left (fewer.count_le t) _) counted
    · intro other member begun
      rw [logged_append, logged_events]
      have unasked : prepared (Log.recordsOf other.name
          (Deed.records progress.storage.deeds)) = [] := by
        rw [prepared_recordsOf, unnoted, List.filter_nil]
      rcases Incarnation.mem_replace member with old | ⟨stage, staged, rfl⟩
      · exact (known other (by grind) begun).append unasked
      · exact (known engine (by simp) (later stage staged).1).append unasked

variable [Publishing σ] [LawfulPublishing σ Entry]

theorem start (asking : Asking history s asked) (config : Config) :
    Asking (history ++ Station.startEvents (s.recovery config))
      (s.afterStart config (s.recovery config)) asked := by
  obtain ⟨rest, rebuilt⟩ := recover_rebuilt config s
  obtain ⟨unsent, unadmitted⟩ := startEvents_quiet (s.recovery config)
  have idle : unasked (s.afterStart config (s.recovery config)).engines = [] := by
    simp [unasked, Station.engines, Station.afterStart, Resumed.engine]
  constructor
  · simp [asking.sent, unsent]
  · simp [asking.noted, rebuilt.unasked]
  · intro t
    have before := asking.admitted t
    simp only [idle, admissions_append, unadmitted, List.count_append, List.count_nil]
    omega
  · intro txn
    rw [logged_append, logged_startEvents]
    refine (rebuilt.log txn).trans ?_
    rw [Log.recordsOf_append, Log.recordsOf_append, List.suffix_append_self_iff]
    exact asking.log txn
  · intro engine member _
    obtain ⟨resumed, taken, rfl⟩ := List.mem_map.mp member
    rw [logged_append, logged_startEvents]
    refine ((rebuilt.engines resumed taken).of_suffix (asking.log _)).append ?_
    rw [prepared_recordsOf, rebuilt.unasked, List.filter_nil]

end Asking

variable [Publishing σ] [LawfulPublishing σ Entry] {history : List Event} {s : Station σ}

theorem asking_run (run : Station.Run history s) : ∃ asked, Asking history s asked := by
  induction run with
  | begin storage empty =>
    exact ⟨[], rfl, rfl, by simp [Station.engines, unasked], by simp [empty, Log.recordsOf],
      by simp [Station.engines]⟩
  | @step history events s s' run stepped ih =>
    obtain ⟨asked, asking⟩ := ih
    cases stepped with
    | wait duration =>
      exact ⟨asked, asking.quiet rfl rfl rfl (fun _ => id) (by simp [Station.engines])⟩
    | disturb storage same =>
      exact ⟨asked, asking.quiet rfl rfl same (fun _ => id) (by simp [Station.engines])⟩
    | start config down => exact ⟨asked, asking.start config⟩
    | stop =>
      exact ⟨asked, asking.quiet rfl rfl rfl (by simp [Station.engines])
        (by simp [Station.engines, unasked])⟩
    | commit now name payload sources inbox inboxes parsed running admitted =>
      exact ⟨asked, asking.commit running _ inbox inboxes⟩
    | receive now envelope running =>
      have same :
          ({ s with running := some (now.receive envelope) } : Station σ).engines = s.engines := by
        simp [Station.engines, running, Incarnation.receive]
      exact ⟨asked, asking.quiet rfl rfl rfl (by simp [same]) (by simp [same])⟩
    | advance now before engine after progress running engines stepped =>
      obtain ⟨_, _, _, lives⟩ := lives_run run now running
      have seated := lives.staffed.toSeated
      rw [engines] at seated
      exact asking.advance running engines seated.distinct.1 (step_follows stepped)

omit [LawfulPublishing σ Entry] in
theorem admitted_parsed (run : Station.Run history s) {t : Transaction}
    (admitted : t ∈ admissions history) : ∃ texts, Source.parseAll texts = .ok t.sources := by
  induction run with
  | begin => cases admitted
  | @step history events s s' run stepped ih =>
    rw [admissions_append, List.mem_append] at admitted
    rcases admitted with old | new
    · exact ih old
    · cases stepped with
      | start config =>
        rw [(startEvents_quiet _).2] at new
        cases new
      | commit now name payload sources inbox inboxes parsed running admitted =>
        obtain rfl := List.mem_singleton.mp new
        exact ⟨sources, by grind [admission]⟩
      | advance => simp [admissions_events] at new
      | _ => cases new

/-- The requests that were ever sent are those of the transactions that have asked: each was admitted,
and asks once. -/
theorem requests_partition_sources (run : Station.Run history s) :
    (∀ name payload texts gateOpen inboxes inbox after sources,
      admission name texts gateOpen inboxes = .admitted inbox after sources →
        FanOut texts ⟨name, payload, sources⟩) ∧
    ∃ asked, requested history = asked.flatMap Transaction.requests ∧
      prepared (logged history) = asked.map (fun t => (t.name, t.sources)) ∧
      (∀ t, asked.count t + (unasked s.engines).count t ≤ (admissions history).count t) ∧
      (∀ t ∈ asked, ∃ texts, Source.parseAll texts = .ok t.sources ∧ FanOut texts t) ∧
      (∀ engine ∈ s.engines, engine.stage ≠ .starting → ∃ t, latest? asked engine.name = some t ∧
        engine.transaction.shares = t.shares) ∧
      ∀ config, ∀ resumed ∈ (s.recovery config).2.engines, ∃ t,
        latest? asked resumed.transaction.name = some t ∧ resumed.transaction.shares = t.shares ∧
          resumed.engine.stage = .announcing resumed.outcome (t.requests.map (·.1)) := by
  obtain ⟨asked, asking⟩ := asking_run run
  have sources : ∀ {txn sources}, Last (logged history) txn sources →
      ∃ t, latest? asked txn = some t ∧ t.sources = sources :=
    fun last => (latest_iff asking.noted).mpr last
  constructor
  · intro name payload texts gateOpen inboxes inbox after sources accepted
    exact Transaction.requests_fan_out (by grind [admission])
  refine ⟨asked, asking.sent, asking.noted, asking.admitted, fun t member => ?_,
    fun engine member begun => ?_, fun config resumed member => ?_⟩
  · have counted := asking.admitted t
    have some := List.count_pos_iff.mpr member
    obtain ⟨texts, parsed⟩ := admitted_parsed run (t := t) (List.count_pos_iff.mp (by omega))
    exact ⟨texts, parsed, Transaction.requests_fan_out parsed⟩
  · obtain ⟨t, found, same⟩ := sources (asking.engines engine member begun)
    exact ⟨t, found, by rw [Transaction.shares, Transaction.shares, same]⟩
  · obtain ⟨_, rebuilt⟩ := recover_rebuilt config s
    obtain ⟨t, found, same⟩ := sources ((rebuilt.engines resumed member).of_suffix (asking.log _))
    have shares : resumed.transaction.shares = t.shares := by
      rw [Transaction.shares, Transaction.shares, same]
    refine ⟨t, found, shares, ?_⟩
    rw [Transaction.recipients, Transaction.participants, ← shares]
    rfl

theorem asked_before_crash : ∃ (history : List Event) (s : Station (Beside (Ledger Entry) Publisher))
    (asked : List Transaction), Station.Run history s ∧
      requested history = asked.flatMap Transaction.requests ∧
      requested history = [("p", .prepare "t" ["a", "b:c"] [7]), ("q", .prepare "t" ["z"] [7])] ∧
      ∃ engine ∈ s.engines, engine.stage = .announcing .abort ["p", "q"] ∧
        ∃ t, latest? asked engine.name = some t ∧ engine.transaction.shares = t.shares := by
  let station : Station (Beside (Ledger Entry) Publisher) := { storage := ⟨{}, ⟨[], {}, "draft"⟩⟩ }
  let actions : List Action := [.start {}, .commit "t" [7] ["q:z", "p:b:c", "p:a", "q:z"],
    .advance 0, .stop, .start {}]
  let resumed : Transaction := ⟨"t", [], [⟨"q", "z"⟩, ⟨"p", "b:c"⟩, ⟨"p", "a"⟩, ⟨"q", "z"⟩]⟩
  have played : (station.playAll actions).map (fun after => (requested after.1, after.2.engines)) =
      some ([("p", .prepare "t" ["a", "b:c"] [7]), ("q", .prepare "t" ["z"] [7])],
        [⟨0, resumed, .announcing .abort ["p", "q"]⟩]) := by decide +kernel
  obtain ⟨⟨events, s⟩, played, shown⟩ := Option.map_eq_some_iff.mp played
  obtain ⟨sent, engines⟩ := Prod.mk.inj shown
  have run := Station.playAll_run (.begin station.storage rfl) played
  obtain ⟨_, asked, requests, _, _, _, known, _⟩ := requests_partition_sources run
  have member : (⟨0, resumed, .announcing .abort ["p", "q"]⟩ : Engine) ∈ s.engines := by
    simp [show s.engines = _ from engines]
  exact ⟨[] ++ events, s, asked, run, requests, sent, _, member, rfl, known _ member (by simp)⟩

end Runs

end AtomicCommit.Coordinator
