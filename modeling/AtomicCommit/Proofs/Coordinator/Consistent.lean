import AtomicCommit.Proofs.Coordinator.Moves
import AtomicCommit.Proofs.Coordinator.Recovering
import AtomicCommit.Proofs.Histories
import AtomicCommit.Proofs.Inboxes
import Mathlib.Data.List.Nodup

/-! What a coordinator has logged of each transaction, and how the log and the engines agree with
that. The names of transactions are not used again. -/

namespace AtomicCommit.Coordinator

inductive Past (txn : String) : List Entry → Prop where
  | nothing : Past txn []
  | requested (sources : List Source) : Past txn [.prepare txn sources]
  | decided (sources : List Source) (outcome : Outcome) :
      Past txn [.prepare txn sources, .decision txn outcome]
  | finished (sources : List Source) (outcome : Outcome) :
      Past txn [.prepare txn sources, .decision txn outcome, .done txn]

namespace Past

variable {txn : String} {records : List Entry}

theorem outcome_unique (past : Past txn records) {first second : Outcome}
    (one : .decision txn first ∈ records) (other : .decision txn second ∈ records) :
    first = second := by
  cases past <;> simp_all

theorem sources_unique (past : Past txn records) {first second : List Source}
    (one : .prepare txn first ∈ records) (other : .prepare txn second ∈ records) :
    first = second := by
  cases past <;> simp_all

theorem resumes (past : Past txn records) {sources : List Source} {outcome : Outcome}
    (planned : (records.foldl Trace.note {}).plan = .resume sources outcome) :
    records = [.prepare txn sources, .decision txn outcome] := by
  cases past <;> cases planned
  rfl

theorem forcesAbort (past : Past txn records) {sources : List Source}
    (planned : (records.foldl Trace.note {}).plan = .forceAbort sources) :
    records = [.prepare txn sources] := by
  cases past <;> cases planned
  rfl

theorem ends {others : List Entry} (past : Past txn (records ++ others))
    (ended : .done txn ∈ records) : others = [] := by
  generalize all : records ++ others = whole at past
  cases past <;> rcases records with _ | ⟨a, _ | ⟨b, _ | ⟨c, more⟩⟩⟩ <;> simp_all

end Past

def Stage.past (t : Transaction) : Stage → List Entry
  | .starting => []
  | .voting _ _ => [.prepare t.name t.sources]
  | .publishing => [.prepare t.name t.sources]
  | .deciding _ _ => [.prepare t.name t.sources]
  | .announcing outcome _ => [.prepare t.name t.sources, .decision t.name outcome]
  | .awaiting outcome _ _ => [.prepare t.name t.sources, .decision t.name outcome]
  | .closing outcome _ => [.prepare t.name t.sources, .decision t.name outcome]

theorem Stage.past_past (t : Transaction) (stage : Stage) : Past t.name (stage.past t) := by
  cases stage <;> constructor

def Next.Fits (t : Transaction) (past records : List Entry) : Next → Prop
  | .stage later => later.past t = past ++ records
  | .finished (.ok outcome) => records = [.done t.name] ∧
      past = [.prepare t.name t.sources, .decision t.name outcome]
  | .finished (.error _) => records = [] ∧ past = []

theorem Next.Fits.past {t : Transaction} {past records : List Entry} {next : Next}
    (fits : next.Fits t past records) : Past t.name (past ++ records) := by
  cases next with
  | stage later => exact (show later.past t = _ from fits) ▸ later.past_past t
  | finished result =>
    cases result with
    | error e =>
      obtain ⟨rfl, rfl⟩ := fits
      exact .nothing
    | ok outcome =>
      obtain ⟨rfl, rfl⟩ := fits
      exact .finished _ outcome

namespace Move

variable {t : Transaction} {stage : Stage} {queue rest : List Envelope} {next : Next}
  {sent : List (String × Message)} {deeds : List (Deed Entry)}

theorem fits (move : Move t stage queue next sent rest deeds) :
    next.Fits t (stage.past t) (Deed.records deeds) := by
  cases move with
  | counted queue deadline ballot outcome now counted => cases outcome <;> rfl
  | closed => exact ⟨rfl, rfl⟩
  | notRequested => exact ⟨rfl, rfl⟩
  | _ => rfl

theorem logs_own (move : Move t stage queue next sent rest deeds) :
    ∀ entry ∈ Deed.records deeds, entry.txn = t.name := by
  intro entry logged
  cases (move.logs logged).1 <;> rfl

end Move

/-- The log holds all that was ever logged of a transaction, or nothing once it has ended. -/
structure Kept (entries log : List Entry) : Prop where
  past : ∀ txn, Past txn (Log.recordsOf txn entries)
  log : ∀ txn, Log.recordsOf txn log = Log.recordsOf txn entries ∨
    Log.recordsOf txn log = [] ∧ .done txn ∈ Log.recordsOf txn entries

namespace Kept

variable {entries log : List Entry}

theorem append (kept : Kept entries log) {name : String} {records : List Entry}
    (own : ∀ entry ∈ records, entry.txn = name)
    (past : Past name (Log.recordsOf name entries ++ records)) :
    Kept (entries ++ records) (log ++ records) := by
  constructor
  · intro txn
    by_cases same : txn = name
    · rwa [same, Log.recordsOf_append, Log.recordsOf_own own]
    · simpa [Log.recordsOf_append, Log.recordsOf_other own same] using kept.past txn
  · intro txn
    by_cases same : txn = name
    · subst same
      rw [Log.recordsOf_append, Log.recordsOf_append, Log.recordsOf_own own]
      rcases kept.log txn with whole | ⟨gone, ended⟩
      · exact .inl (by rw [whole])
      · exact .inr ⟨by simp [gone, past.ends ended], List.mem_append_left _ ended⟩
    · simpa [Log.recordsOf_append, Log.recordsOf_other own same] using kept.log txn

theorem unfinished (kept : Kept entries log) : Kept entries (Log.unfinished log) := by
  refine ⟨kept.past, fun txn => ?_⟩
  rw [Log.recordsOf_unfinished]
  by_cases finished : Log.isFinished log txn
  · obtain ⟨entry, member, ended⟩ := Log.isFinished_iff.mp finished
    obtain ⟨_, own⟩ := Log.mem_recordsOf.mp member
    obtain rfl : entry = .done txn := by
      cases entry <;> cases own <;> cases ended
      rfl
    rcases kept.log txn with whole | ⟨gone, ended⟩
    · exact .inr ⟨by simp [finished], whole ▸ member⟩
    · exact .inr ⟨by simp [finished], ended⟩
  · simpa [finished] using kept.log txn

end Kept

structure Seated (inboxes : Inboxes Envelope) (engines : List Engine) : Prop where
  reaches : ∀ engine ∈ engines, inboxes.Reaches engine.name engine.inbox
  names : (engines.map Engine.name).Nodup

namespace Seated

variable {inboxes after : Inboxes Envelope} {engines before others : List Engine} {engine : Engine}

theorem nobody : Seated inboxes [] := ⟨by simp, by simp⟩

theorem add (seated : Seated inboxes engines)
    (created : inboxes.create engine.name = some (engine.inbox, after)) :
    Seated after (engines ++ [engine]) := by
  constructor
  · intro other member
    rcases List.mem_append.mp member with old | new
    · exact (seated.reaches other old).create created
    · obtain rfl := List.mem_singleton.mp new
      exact Inboxes.reaches_created created
  · rw [List.map_append, List.map_singleton]
    refine List.nodup_append.mpr ⟨seated.names, by simp, ?_⟩
    intro name member other new
    obtain ⟨engine, engaged, rfl⟩ := List.mem_map.mp member
    obtain rfl := List.mem_singleton.mp new
    exact (seated.reaches engine engaged).ne_of_create created

theorem deliver (seated : Seated inboxes engines) (txn : String) (envelope : Envelope) :
    Seated (inboxes.deliver txn envelope).2 engines :=
  ⟨fun engine member => (seated.reaches engine member).deliver _ _, seated.names⟩

theorem distinct (seated : Seated inboxes (before ++ engine :: others)) :
    (∀ other ∈ before ++ others, other.name ≠ engine.name) ∧
      ((before ++ others).map Engine.name).Nodup := by
  have names := seated.names
  rw [List.map_append, List.map_cons, List.nodup_middle, ← List.map_append] at names
  obtain ⟨absent, unique⟩ := List.nodup_cons.mp names
  refine ⟨fun other member same => ?_, unique⟩
  exact absent (same ▸ List.mem_map_of_mem member)

theorem advance (seated : Seated inboxes (before ++ engine :: others)) (stage : Stage)
    (queue : List Envelope) : Seated (inboxes.setQueue engine.inbox queue)
      (before ++ { engine with stage := stage } :: others) := by
  constructor
  · intro other member
    by_cases same : other = { engine with stage := stage }
    · subst same
      exact (seated.reaches engine (by simp)).setQueue _ _
    · exact (seated.reaches other (by grind)).setQueue _ _
  · simpa [Engine.name] using seated.names

theorem leave (seated : Seated inboxes (before ++ engine :: others)) (queue : List Envelope) :
    Seated ((inboxes.setQueue engine.inbox queue).drop engine.inbox) (before ++ others) := by
  obtain ⟨distinct, unique⟩ := seated.distinct
  refine ⟨fun other member => ?_, unique⟩
  have owned := (seated.reaches engine (by simp)).setQueue engine.inbox queue
  have reaches := (seated.reaches other (by grind)).setQueue engine.inbox queue
  exact reaches.drop owned (distinct other member)

end Seated

structure Occupied (entries : List Entry) (inboxes : Inboxes Envelope) (engines : List Engine) :
    Prop where
  past : ∀ engine ∈ engines,
    Log.recordsOf engine.name entries = engine.stage.past engine.transaction
  reaches : ∀ engine ∈ engines, inboxes.Reaches engine.name engine.inbox
  names : (engines.map Engine.name).Nodup

namespace Occupied

variable {entries : List Entry} {inboxes after : Inboxes Envelope} {engines : List Engine}

theorem seated (occupied : Occupied entries inboxes engines) : Seated inboxes engines :=
  ⟨occupied.reaches, occupied.names⟩

theorem of_seated (seated : Seated inboxes engines) (past : ∀ engine ∈ engines,
    Log.recordsOf engine.name entries = engine.stage.past engine.transaction) :
    Occupied entries inboxes engines :=
  ⟨past, seated.reaches, seated.names⟩

theorem nobody : Occupied entries inboxes [] := of_seated .nobody (by simp)

theorem add (occupied : Occupied entries inboxes engines) {engine : Engine}
    (created : inboxes.create engine.name = some (engine.inbox, after))
    (past : Log.recordsOf engine.name entries = engine.stage.past engine.transaction) :
    Occupied entries after (engines ++ [engine]) := by
  refine of_seated (occupied.seated.add created) fun other member => ?_
  rcases List.mem_append.mp member with old | new
  · exact occupied.past other old
  · obtain rfl := List.mem_singleton.mp new
    exact past

theorem log (occupied : Occupied entries inboxes engines) {name : String} {records : List Entry}
    (own : ∀ entry ∈ records, entry.txn = name) (idle : ∀ engine ∈ engines, engine.name ≠ name) :
    Occupied (entries ++ records) inboxes engines := by
  refine of_seated occupied.seated fun engine member => ?_
  simpa [Log.recordsOf_append, Log.recordsOf_other own (idle engine member)] using
    occupied.past engine member

theorem deliver (occupied : Occupied entries inboxes engines) (envelope : Envelope) :
    Occupied entries (inboxes.deliver envelope.message.txn envelope).2 engines :=
  of_seated (occupied.seated.deliver _ envelope) occupied.past

variable {before others : List Engine} {engine : Engine}

theorem distinct (occupied : Occupied entries inboxes (before ++ engine :: others)) :
    ∀ other ∈ before ++ others, other.name ≠ engine.name :=
  occupied.seated.distinct.1

theorem advance (occupied : Occupied entries inboxes (before ++ engine :: others)) {stage : Stage}
    {queue : List Envelope} {records : List Entry}
    (own : ∀ entry ∈ records, entry.txn = engine.name)
    (logs : stage.past engine.transaction = engine.stage.past engine.transaction ++ records) :
    Occupied (entries ++ records) (inboxes.setQueue engine.inbox queue)
      (before ++ { engine with stage := stage } :: others) := by
  refine of_seated (occupied.seated.advance stage queue) fun other member => ?_
  by_cases same : other = { engine with stage := stage }
  · subst same
    have ownRecords : Log.recordsOf engine.name records = records := Log.recordsOf_own own
    have past := occupied.past engine (by simp)
    simp only [Engine.name] at past ownRecords ⊢
    rw [Log.recordsOf_append, past, ownRecords, logs]
  · have there : other ∈ before ++ others := by grind
    have past := occupied.past other (by grind)
    simpa [Log.recordsOf_append, Log.recordsOf_other own (occupied.distinct other there)] using past

theorem leave (occupied : Occupied entries inboxes (before ++ engine :: others))
    {queue : List Envelope} {records : List Entry}
    (own : ∀ entry ∈ records, entry.txn = engine.name) :
    Occupied (entries ++ records) ((inboxes.setQueue engine.inbox queue).drop engine.inbox)
      (before ++ others) := by
  refine of_seated (occupied.seated.leave queue) fun other member => ?_
  have past := occupied.past other (by grind)
  simpa [Log.recordsOf_append, Log.recordsOf_other own (occupied.distinct other member)] using past

end Occupied

section Recovery

variable {σ : Type} [Journal σ Entry] [LawfulJournal σ Entry]

/-- The state of a recovery that has still to go through the rest of the traces. -/
structure Recovers (entries : List Entry) (rest : List (String × Trace))
    (r : Recovering (Recorded σ Entry)) : Prop where
  kept : Kept (entries ++ Deed.records r.storage.deeds) (held r.storage.storage)
  occupied : Occupied (entries ++ Deed.records r.storage.deeds) r.inboxes
    (r.engines.map Resumed.engine)
  names : (rest.map (·.1)).Nodup
  rest : ∀ txn trace, (txn, trace) ∈ rest →
    (∀ engine ∈ r.engines.map Resumed.engine, engine.name ≠ txn) ∧
      trace = Log.traceOf Trace.note {} txn (entries ++ Deed.records r.storage.deeds)

variable {entries : List Entry} {txn : String} {trace : Trace} {rest : List (String × Trace)}
  {r after : Recovering (Recorded σ Entry)} {result : Except CoordinatorError Unit}

namespace Recovers

theorem records_aborted (entries : List Entry) (deeds : List (Deed Entry)) (txn : String) :
    entries ++ Deed.records (deeds ++ [.retracted txn, .appended (.decision txn .abort)]) =
      entries ++ Deed.records deeds ++ [.decision txn .abort] := by
  simp

theorem skip (recovers : Recovers entries ((txn, trace) :: rest) r) : Recovers entries rest r :=
  ⟨recovers.kept, recovers.occupied, (List.nodup_cons.mp recovers.names).2,
    fun other trace member => recovers.rest other trace (List.mem_cons_of_mem _ member)⟩

theorem abort (recovers : Recovers entries rest r) {sources : List Source} {s : σ}
    (idle : ∀ engine ∈ r.engines.map Resumed.engine, engine.name ≠ txn)
    (absent : ∀ trace, (txn, trace) ∉ rest)
    (requested : Log.recordsOf txn (entries ++ Deed.records r.storage.deeds) =
      [.prepare txn sources])
    (grown : held s = held r.storage.storage ++ [.decision txn .abort]) :
    Recovers entries rest { r with
      storage := ⟨s, r.storage.deeds ++ [.retracted txn, .appended (.decision txn .abort)]⟩ } := by
  have own : ∀ entry ∈ [Entry.decision txn .abort], entry.txn = txn := by simp [Entry.txn]
  constructor
  · rw [records_aborted, grown]
    exact recovers.kept.append own (requested ▸ .decided sources .abort)
  · rw [records_aborted]
    exact recovers.occupied.log own idle
  · exact recovers.names
  · intro other trace member
    obtain ⟨others, traced⟩ := recovers.rest other trace member
    have distinct : other ≠ txn := by
      rintro rfl
      exact absent trace member
    refine ⟨others, ?_⟩
    rw [records_aborted, Log.traceOf, Log.recordsOf_append, Log.recordsOf_other own distinct,
      List.append_nil]
    exact traced

theorem takeUp (recovers : Recovers entries rest r) {sources : List Source} {outcome : Outcome}
    {inbox : Nat} {inboxes : Inboxes Envelope} {report : RecoveryReport}
    (absent : ∀ trace, (txn, trace) ∉ rest)
    (decided : Log.recordsOf txn (entries ++ Deed.records r.storage.deeds) =
      [.prepare txn sources, .decision txn outcome])
    (created : r.inboxes.create txn = some (inbox, inboxes)) :
    Recovers entries rest { r with
      inboxes := inboxes
      engines := r.engines ++ [⟨inbox, ⟨txn, [], sources⟩, outcome⟩]
      report := report } := by
  refine ⟨recovers.kept, ?_, recovers.names, ?_⟩
  · rw [List.map_append]
    exact recovers.occupied.add created decided
  · intro other trace member
    obtain ⟨idle, traced⟩ := recovers.rest other trace member
    refine ⟨?_, traced⟩
    simp only [List.map_append, List.mem_append, List.map_singleton, List.mem_singleton]
    rintro engine (old | rfl)
    · exact idle engine old
    · rintro rfl
      exact absent trace member

theorem turn (recovers : Recovers entries ((txn, trace) :: rest) r)
    (followed : Follow txn trace.plan r result after) : Recovers entries rest after := by
  obtain ⟨idle, rfl⟩ := recovers.rest txn trace List.mem_cons_self
  have absent : ∀ trace, (txn, trace) ∉ rest := fun trace member =>
    (List.nodup_cons.mp recovers.names).1 (List.mem_map.mpr ⟨_, member, rfl⟩)
  have past := recovers.kept.past txn
  have skipped := recovers.skip
  generalize planned :
    (Log.traceOf Trace.note {} txn (entries ++ Deed.records r.storage.deeds)).plan = plan at followed
  cases followed with
  | skip | resumeTwice => exact ⟨skipped.kept, skipped.occupied, skipped.names, skipped.rest⟩
  | resume sources outcome _ inbox inboxes report created =>
    exact skipped.takeUp absent (past.resumes planned) created
  | notRetracted sources _ e s same =>
    exact ⟨by simpa [same] using skipped.kept, skipped.occupied, skipped.names, skipped.rest⟩
  | notAborted sources _ e s same =>
    exact ⟨by simpa [same] using skipped.kept, by simpa using skipped.occupied, skipped.names,
      by simpa using skipped.rest⟩
  | abort sources _ s inbox inboxes report grown created =>
    refine (skipped.abort idle absent (past.forcesAbort planned) grown).takeUp absent ?_ created
    have own : Log.recordsOf txn [Entry.decision txn .abort] = [.decision txn .abort] :=
      Log.recordsOf_own fun entry member => by simp_all [Record.txn, Entry.txn]
    rw [records_aborted, Log.recordsOf_append, past.forcesAbort planned, own]
    rfl
  | abortTwice sources _ s report grown created =>
    have aborted := skipped.abort idle absent (past.forcesAbort planned) grown
    exact ⟨aborted.kept, aborted.occupied, aborted.names, aborted.rest⟩

theorem planned (recovers : Recovers entries ((txn, trace) :: rest) r) :
    (∀ sources outcome, trace.plan = .resume sources outcome →
      Log.recordsOf txn (entries ++ Deed.records r.storage.deeds) =
        [.prepare txn sources, .decision txn outcome]) ∧
    ∀ sources, trace.plan = .forceAbort sources →
      Log.recordsOf txn (entries ++ Deed.records r.storage.deeds) = [.prepare txn sources] := by
  obtain ⟨_, rfl⟩ := recovers.rest txn trace List.mem_cons_self
  have past := recovers.kept.past txn
  exact ⟨fun _ _ => past.resumes, fun _ => past.forcesAbort⟩

end Recovers

variable [Publishing σ] [LawfulPublishing σ Entry]

/-- What each turn keeps, as long as the log and the engines agree, a recovery keeps. -/
theorem recovers_induction (config : Config) {storage : σ} (kept : Kept entries (held storage))
    {P : Except CoordinatorError Unit → List (String × Trace) →
      Recovering (Recorded σ Entry) → Prop}
    (turn : ∀ txn trace rest r result after, Recovers entries ((txn, trace) :: rest) r →
      P (.ok ()) ((txn, trace) :: rest) r → Follow txn trace.plan r result after →
      P result rest after)
    (start : ∀ result s deeds, (∀ deed ∈ deeds, ∃ records, deed = .compacted records) →
      Deed.records deeds = [] →
      P result (traces (held storage)) { storage := ⟨s, deeds⟩, inboxes := {} }) :
    ∃ rest, Recovers entries rest (recover config {} (⟨storage, []⟩ : Recorded σ Entry)).2 ∧
      P (recover config {} (⟨storage, []⟩ : Recorded σ Entry)).1 rest
        (recover config {} (⟨storage, []⟩ : Recorded σ Entry)).2 ∧
      ((recover config {} (⟨storage, []⟩ : Recorded σ Entry)).1 = .ok () → rest = []) := by
  obtain ⟨rest, ⟨recovers, holds⟩, finished⟩ := recover_induction
    (P := fun result rest r => Recovers entries rest r ∧ P result rest r) config {} storage
    (fun txn trace rest r result after ⟨recovers, holds⟩ followed =>
      ⟨recovers.turn followed, turn _ _ _ _ _ _ recovers holds followed⟩)
    (by
      intro result s deeds compacted quiet none
      refine ⟨⟨?_, .nobody, Log.nodup_traces _ _ _, ?_⟩, start result s deeds quiet none⟩
      · rw [none, List.append_nil]
        rcases compacted with same | fewer
        · exact same ▸ kept
        · exact fewer ▸ kept.unfinished
      · intro txn trace found
        obtain ⟨some, rfl⟩ := (Log.mem_traces _ _).mp found
        rcases kept.log txn with whole | ⟨gone, _⟩
        · exact ⟨by simp, by rw [none, List.append_nil, Log.traceOf, whole, Log.traceOf]⟩
        · exact absurd gone some)
  exact ⟨rest, recovers, holds, finished⟩

theorem recover_recovers (config : Config) {storage : σ} (kept : Kept entries (held storage)) :
    ∃ rest, Recovers entries rest (recover config {} (⟨storage, []⟩ : Recorded σ Entry)).2 ∧
      ((recover config {} (⟨storage, []⟩ : Recorded σ Entry)).1 = .ok () → rest = []) := by
  obtain ⟨rest, recovers, _, finished⟩ := recovers_induction config kept
    (P := fun _ _ _ => True) (fun _ _ _ _ _ _ _ _ _ => trivial) (fun _ _ _ _ _ => trivial)
  exact ⟨rest, recovers, finished⟩

end Recovery

structure Consistent {σ : Type} [Journal σ Entry] [LawfulJournal σ Entry] (history : List Event)
    (s : Station σ) : Prop where
  kept : Kept (logged history) (held s.storage)
  occupied : ∀ now, s.running = some now → Occupied (logged history) now.inboxes now.engines

def freshName (before : List Event) : Event → Prop
  | .admitted t => ∀ entry ∈ logged before, entry.txn ≠ t.name
  | _ => True

instance (before : List Event) : ∀ event, Decidable (freshName before event)
  | .admitted t => inferInstanceAs (Decidable (∀ entry ∈ logged before, entry.txn ≠ t.name))
  | .started | .recovered _ | .stopped | .disturbed | .received _ | .did _ | .sent _ _
  | .finished _ _ => .isTrue trivial

/-- No transaction is admitted under a name that the log has had. -/
def UniqueNames (history : List Event) : Prop := Ordered freshName history

instance (history : List Event) : Decidable (UniqueNames history) :=
  inferInstanceAs (Decidable (Ordered freshName history))

section Admitted

variable {name : String} {sources : List String} {gateOpen : Bool} {inboxes after : Inboxes Envelope}
  {inbox : Nat} {parsed : List Source}

theorem admitted_iff : admission name sources gateOpen inboxes = .admitted inbox after parsed ↔
    Source.parseAll sources = .ok parsed ∧ gateOpen = true ∧
      inboxes.create name = some (inbox, after) := by
  grind [admission]

theorem admission_created
    (admitted : admission name sources gateOpen inboxes = .admitted inbox after parsed) :
    inboxes.create name = some (inbox, after) := (admitted_iff.mp admitted).2.2

end Admitted

namespace Consistent

variable {σ : Type} [Journal σ Entry] [LawfulJournal σ Entry] {history : List Event}
  {s : Station σ}

theorem advance (consistent : Consistent history s) {now : Incarnation} {before after : List Engine}
    {engine : Engine} {progress : Progress (Recorded σ Entry)} (running : s.running = some now)
    (engines : now.engines = before ++ engine :: after)
    (follows : progress.Follows engine.transaction engine.stage (now.inboxes.queue engine.inbox)
      s.storage) :
    Consistent (history ++ progress.events engine.name) { s with
      running := some (now.replace before engine after progress.queue progress.next)
      storage := progress.storage.storage } := by
  obtain ⟨move, grown⟩ := follows
  have occupied := consistent.occupied now running
  rw [engines] at occupied
  have past := occupied.past engine (by simp)
  have own : ∀ entry ∈ Deed.records progress.storage.deeds, entry.txn = engine.name :=
    move.logs_own
  have fits := move.fits
  constructor
  · rw [logged_append, logged_events, grown]
    exact consistent.kept.append own (past ▸ fits.past)
  · rintro later ⟨⟩
    rw [logged_append, logged_events]
    cases staged : progress.next with
    | stage stage =>
      rw [staged] at fits
      exact occupied.advance own fits
    | finished result => exact occupied.leave own

variable [Publishing σ] [LawfulPublishing σ Entry]

theorem start (consistent : Consistent history s) (config : Config) :
    Consistent
      (history ++ Station.startEvents (recover config {} (⟨s.storage, []⟩ : Recorded σ Entry)))
      (s.afterStart config (recover config {} (⟨s.storage, []⟩ : Recorded σ Entry))) := by
  obtain ⟨rest, recovers, _⟩ := recover_recovers config consistent.kept
  constructor
  · simpa [Station.afterStart] using recovers.kept
  · rintro now running
    cases running
    simpa using recovers.occupied

theorem step (consistent : Consistent history s) {events : List Event} {s' : Station σ}
    (stepped : s.Step events s') (unique : UniqueNames (history ++ events)) :
    Consistent (history ++ events) s' := by
  cases stepped with
  | wait duration =>
    rw [List.append_nil]
    exact ⟨consistent.kept, consistent.occupied⟩
  | disturb storage same =>
    constructor
    · rw [logged_quiet history rfl, same]
      exact consistent.kept
    · rw [logged_quiet history rfl]
      exact consistent.occupied
  | start config down => exact consistent.start config
  | stop =>
    refine ⟨?_, by simp⟩
    rw [logged_quiet history rfl]
    exact consistent.kept
  | commit now name payload sources inbox inboxes parsed running admitted =>
    have fresh : freshName history (.admitted ⟨name, payload, parsed⟩) := unique _ _ [] (by simp)
    have absent : Log.recordsOf name (logged history) = [] :=
      List.filter_eq_nil_iff.mpr fun entry member => by simpa [Record.txn] using fresh entry member
    constructor
    · rw [logged_quiet history rfl]
      exact consistent.kept
    · rintro later ⟨⟩
      rw [logged_quiet history rfl]
      exact (consistent.occupied now running).add (admission_created admitted) absent
  | receive now envelope running =>
    constructor
    · rw [logged_quiet history rfl]
      exact consistent.kept
    · rintro later ⟨⟩
      rw [logged_quiet history rfl]
      exact (consistent.occupied now running).deliver envelope
  | advance now before engine after progress running engines stepped =>
    exact consistent.advance running engines (step_follows stepped)

end Consistent

theorem consistent_run {σ : Type} [Journal σ Entry] [LawfulJournal σ Entry] [Publishing σ]
    [LawfulPublishing σ Entry] {history : List Event} {s : Station σ} (run : Station.Run history s)
    (unique : UniqueNames history) : Consistent history s := by
  induction run with
  | begin storage empty =>
    exact ⟨⟨fun txn => .nothing, fun txn => .inl (by simp [empty])⟩, by simp⟩
  | step run stepped ih => exact (ih unique.of_append).step stepped unique

theorem decision_unique {σ : Type} [Journal σ Entry] [LawfulJournal σ Entry] {history : List Event}
    {s : Station σ} (consistent : Consistent history s) {txn : String} {first second : Outcome}
    (one : .decision txn first ∈ logged history) (other : .decision txn second ∈ logged history) :
    first = second :=
  (consistent.kept.past txn).outcome_unique (Log.mem_recordsOf.mpr ⟨one, rfl⟩)
    (Log.mem_recordsOf.mpr ⟨other, rfl⟩)

theorem request_unique {σ : Type} [Journal σ Entry] [LawfulJournal σ Entry] {history : List Event}
    {s : Station σ} (consistent : Consistent history s) {txn : String} {first second : List Source}
    (one : .prepare txn first ∈ logged history) (other : .prepare txn second ∈ logged history) :
    first = second :=
  (consistent.kept.past txn).sources_unique (Log.mem_recordsOf.mpr ⟨one, rfl⟩)
    (Log.mem_recordsOf.mpr ⟨other, rfl⟩)

end AtomicCommit.Coordinator
