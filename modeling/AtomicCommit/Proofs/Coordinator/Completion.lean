import AtomicCommit.Coordinator.Site
import AtomicCommit.Log.Ledger
import AtomicCommit.Proofs.Coordinator.Play
import AtomicCommit.Proofs.Coordinator.Storages
import AtomicCommit.Proofs.Inboxes
import AtomicCommit.Proofs.Publishing
import AtomicCommit.Proofs.Traces
import Mathlib.Logic.Relation

/-! When the recovery of a coordinator gets to its end: whenever what is undecided in its log can be
retracted. One transaction that cannot keeps back all the others. -/

namespace AtomicCommit.Coordinator

structure Undecided (entries : List Entry) (txn : String) : Prop where
  requested : ∃ sources, .prepare txn sources ∈ entries
  undecided : ∀ outcome, .decision txn outcome ∉ entries
  open_ : .done txn ∉ entries

section Traces

variable {txn : String} {records : List Entry}

theorem told_foldl (start : Trace) (own : ∀ entry ∈ records, entry.txn = txn) :
    ((records.foldl Trace.note start).isDone ↔ start.isDone ∨ .done txn ∈ records) ∧
    ((records.foldl Trace.note start).sources.isSome ↔
      start.sources.isSome ∨ ∃ sources, .prepare txn sources ∈ records) ∧
    ((records.foldl Trace.note start).decision.isSome ↔
      start.decision.isSome ∨ ∃ outcome, .decision txn outcome ∈ records) := by
  induction records generalizing start with
  | nil => simp
  | cons entry rest ih =>
    obtain ⟨rfl, ownRest⟩ := List.forall_mem_cons.mp own
    obtain ⟨ended, requested, decided⟩ := ih (start.note entry) ownRest
    rw [List.foldl_cons, ended, requested, decided]
    cases entry <;> simp [Trace.note, Entry.txn]

theorem plan_forceAbort_iff {trace : Trace} : (∃ sources, trace.plan = .forceAbort sources) ↔
    trace.isDone = false ∧ trace.sources.isSome ∧ trace.decision = none := by
  obtain ⟨_ | sources, _ | outcome, _ | _⟩ := trace <;> simp [Trace.plan]

theorem told_trace (entries : List Entry) (txn : String) :
    ((Log.traceOf Trace.note {} txn entries).isDone ↔ .done txn ∈ entries) ∧
    ((Log.traceOf Trace.note {} txn entries).sources.isSome ↔
      ∃ sources, .prepare txn sources ∈ entries) ∧
    ((Log.traceOf Trace.note {} txn entries).decision.isSome ↔
      ∃ outcome, .decision txn outcome ∈ entries) := by
  have own : ∀ entry ∈ Log.recordsOf txn entries, entry.txn = txn :=
    fun entry member => (Log.mem_recordsOf.mp member).2
  simpa [Log.traceOf, Log.mem_recordsOf, Record.txn, Entry.txn] using told_foldl {} own

theorem forceAbort_iff {entries : List Entry} : (∃ trace, (txn, trace) ∈ traces entries ∧
    ∃ sources, trace.plan = .forceAbort sources) ↔ Undecided entries txn := by
  obtain ⟨ended, requested, decided⟩ := told_trace entries txn
  constructor
  · rintro ⟨trace, found, planned⟩
    obtain ⟨_, rfl⟩ := (Log.mem_traces _ _).mp found
    obtain ⟨notDone, hasSources, noDecision⟩ := plan_forceAbort_iff.mp planned
    refine ⟨requested.mp hasSources, fun outcome logged => ?_, fun logged => ?_⟩
    · have impossible := decided.mpr ⟨outcome, logged⟩
      simp [noDecision] at impossible
    · simp [ended.mpr logged] at notDone
  · rintro ⟨⟨sources, prepared⟩, undecided, open_⟩
    refine ⟨_, (Log.mem_traces _ _).mpr ⟨?_, rfl⟩, plan_forceAbort_iff.mpr ⟨?_, ?_, ?_⟩⟩
    · exact List.ne_nil_of_mem (Log.mem_recordsOf.mpr ⟨prepared, rfl⟩)
    · exact Bool.eq_false_iff.mpr (ended.not.mpr open_)
    · exact requested.mpr ⟨sources, prepared⟩
    · rw [← Option.not_isSome_iff_eq_none, decided]
      rintro ⟨outcome, logged⟩
      exact undecided outcome logged

end Traces

namespace Station

variable {σ : Type} [Journal σ Entry] [Publishing σ] [LawfulJournal σ Entry]

def Undisturbed : Station σ → Station σ → Prop :=
  Relation.ReflTransGen fun s s' => ∃ events, s.Step events s' ∧ .disturbed ∉ events

theorem playAll_undisturbed {s s' : Station σ} {actions : List Action} {events : List Event}
    (played : s.playAll actions = some (events, s')) : Undisturbed s s' := by
  induction actions generalizing s events with
  | nil =>
    cases played
    exact .refl
  | cons action rest ih =>
    simp only [playAll, Option.bind_eq_bind, Option.bind_eq_some_iff, Option.some.injEq,
      Prod.mk.injEq] at played
    obtain ⟨⟨first, between⟩, one, ⟨later, last⟩, others, rfl, rfl⟩ := played
    exact .head ⟨first, play_step one, play_brings one _⟩ (ih others)

end Station

/-- A storage with a publish directory. It is assumed that the log lies elsewhere, or that no artifact has
its name. -/
class HasPublisher (σ : Type) (ρ : outParam Type) [Journal σ ρ] [Publishing σ] where
  publisher : σ → Publisher
  publisher_append (record : ρ) (s : σ) : publisher (Journal.append record s).2 = publisher s
  publisher_compact (records : List ρ) (s : σ) :
    publisher (Journal.compact records s).2 = publisher s
  artifact_eq (name : String) (s : σ) :
    Publishing.artifact? name s = (publisher s).artifact? name
  publish_eq (name : String) (payload : Bytes) (s : σ) : ((Publishing.publish name payload s).1,
    publisher (Publishing.publish name payload s).2) = (publisher s).publish name payload
  retract_eq (name : String) (s : σ) : ((Publishing.retract name s).1,
    publisher (Publishing.retract name s).2) = (publisher s).retract name

export HasPublisher (publisher)

instance : HasPublisher Storage Entry where
  publisher := Storage.publisher
  publisher_append _ _ := rfl
  publisher_compact _ _ := rfl
  artifact_eq _ _ := rfl
  publish_eq _ _ _ := rfl
  retract_eq _ _ := rfl

instance {σ ρ : Type} [Journal σ ρ] : HasPublisher (Beside σ Publisher) ρ where
  publisher := Beside.other
  publisher_append _ _ := rfl
  publisher_compact _ _ := rfl
  artifact_eq _ _ := rfl
  publish_eq _ _ _ := rfl
  retract_eq _ _ := rfl

instance {σ ρ : Type} [Journal σ ρ] [Publishing σ] [HasPublisher σ ρ] :
    HasPublisher (Recorded σ ρ) ρ where
  publisher r := publisher r.storage
  publisher_append record r := by
    rw [← HasPublisher.publisher_append record r.storage]
    simp only [Journal.append, Recorded.note]
    split <;> simp_all
  publisher_compact records r := by
    rw [← HasPublisher.publisher_compact records r.storage]
    simp only [Journal.compact, Recorded.note]
    split <;> simp_all
  artifact_eq name r := HasPublisher.artifact_eq name r.storage
  publish_eq name payload r := HasPublisher.publish_eq name payload r.storage
  retract_eq name r := HasPublisher.retract_eq name r.storage

theorem takeUp_spares {σ : Type} {r : Recovering σ} {txn : String}
    (free : r.inboxes.has txn = false) (sources : List Source) (outcome : Outcome) :
    ∃ after, r.takeUp txn sources outcome = (.ok (), after) ∧ after.storage = r.storage ∧
      ∀ other, other ≠ txn → after.inboxes.has other = r.inboxes.has other := by
  obtain ⟨inboxes, created, others⟩ := Inboxes.create_of_free free
  refine ⟨(r.takeUp txn sources outcome).2, ?_, takeUp_storage r txn sources outcome, ?_⟩ <;>
    simp only [Recovering.takeUp, created]
  exact others

section Completion

variable {σ : Type} [Journal σ Entry] [Publishing σ] [HasPublisher σ Entry]

structure Spares (txn : String) (r after : Recovering σ) : Prop where
  retractable : ∀ other, other ≠ txn →
    ((publisher after.storage).Retractable other ↔ (publisher r.storage).Retractable other)
  inboxes : ∀ other, other ≠ txn → after.inboxes.has other = r.inboxes.has other

theorem forceAbort_cases (txn : String) (s : σ) :
    (¬(publisher s).Retractable txn ∧ ∃ e s', forceAbort txn s = (.error (.publish txn e), s')) ∨
      (publisher s).Retractable txn ∧ ((∃ e s', forceAbort txn s = (.error (.log e), s')) ∨
        ∃ s', forceAbort txn s = (.ok (), s') ∧
          publisher s' = ((publisher s).retract txn).2) := by
  have same := HasPublisher.retract_eq txn s
  rw [← Publisher.retract_ok_iff, ← same]
  rcases retracted : Publishing.retract txn s with ⟨e | ⟨⟨⟩⟩, between⟩
  · exact .inl ⟨by simp, e, between, by simp only [forceAbort, retracted]⟩
  · refine .inr ⟨rfl, ?_⟩
    have kept := HasPublisher.publisher_append (Entry.decision txn .abort) between
    rcases appended : Journal.append (Entry.decision txn .abort) between with ⟨e | ⟨⟨⟩⟩, s'⟩
    · exact .inl ⟨e, s', by simp only [forceAbort, retracted, appended]⟩
    · rw [appended] at kept
      exact .inr ⟨s', by simp only [forceAbort, retracted, appended], kept⟩

theorem follow_cases {r : Recovering σ} {txn : String} (free : r.inboxes.has txn = false)
    (plan : Plan) :
    (∃ e after, r.follow txn plan = (.error (.log e), after)) ∨
      ((∃ sources, plan = .forceAbort sources) ∧ ¬(publisher r.storage).Retractable txn ∧
        ∃ e after, r.follow txn plan = (.error (.publish txn e), after)) ∨
      ((∃ sources, plan = .forceAbort sources) → (publisher r.storage).Retractable txn) ∧
        ∃ after, r.follow txn plan = (.ok (), after) ∧ Spares txn r after := by
  cases plan with
  | completed => exact .inr (.inr ⟨by simp, _, rfl, fun _ _ => Iff.rfl, fun _ _ => rfl⟩)
  | forgotten => exact .inr (.inr ⟨by simp, _, rfl, fun _ _ => Iff.rfl, fun _ _ => rfl⟩)
  | resume sources outcome =>
    obtain ⟨after, taken, kept, others⟩ := takeUp_spares
      (r := { r with report.resumed := r.report.resumed ++ [txn] }) free sources outcome
    exact .inr (.inr ⟨by simp, after, taken, by simp [kept], others⟩)
  | forceAbort sources =>
    rcases forceAbort_cases txn r.storage with ⟨stuck, e, s, failed⟩ |
      ⟨possible, ⟨e, s, failed⟩ | ⟨s, aborted, retracted⟩⟩
    · exact .inr (.inl ⟨⟨sources, rfl⟩, stuck, e, { r with storage := s },
        by simp only [Recovering.follow, failed]⟩)
    · exact .inl ⟨e, { r with storage := s }, by simp only [Recovering.follow, failed]⟩
    · obtain ⟨after, taken, kept, others⟩ := takeUp_spares
        (r := { r with storage := s, report.aborted := r.report.aborted ++ [txn] }) free sources
        .abort
      refine .inr (.inr ⟨fun _ => possible, after, ?_, ?_, others⟩)
      · simpa only [Recovering.follow, aborted] using taken
      · intro other distinct
        rw [kept, retracted]
        exact Publisher.retractable_retract distinct

theorem followAll_ok_iff (found : List (String × Trace)) (r : Recovering σ)
    (names : (found.map (·.1)).Nodup)
    (free : ∀ txn trace, (txn, trace) ∈ found → r.inboxes.has txn = false)
    (unfailing : ∀ e, (followAll found r).1 ≠ .error (.log e)) :
    (followAll found r).1 = .ok () ↔ ∀ txn trace, (txn, trace) ∈ found →
      (∃ sources, trace.plan = .forceAbort sources) → (publisher r.storage).Retractable txn := by
  induction found generalizing r with
  | nil => simp [followAll]
  | cons entry rest ih =>
    obtain ⟨name, trace⟩ := entry
    obtain ⟨absent, unique⟩ := List.nodup_cons.mp names
    rcases follow_cases (free name trace List.mem_cons_self) trace.plan with
      ⟨e, after, failed⟩ | ⟨forced, stuck, e, after, failed⟩ | ⟨possible, after, followed, spares⟩
    · exact absurd (by simp only [followAll, failed]) (unfailing e)
    · simp only [followAll, failed, reduceCtorEq, false_iff]
      exact fun all => stuck (all name trace List.mem_cons_self forced)
    · -- The turn leaves what comes later as retractable as it was, and its names free.
      have distinct : ∀ txn trace, (txn, trace) ∈ rest → txn ≠ name := by
        rintro txn trace member rfl
        exact absent (List.mem_map.mpr ⟨_, member, rfl⟩)
      simp only [followAll, followed] at unfailing ⊢
      rw [ih after unique
        (fun txn trace member => (spares.inboxes txn (distinct txn trace member)).trans
          (free txn trace (List.mem_cons_of_mem _ member))) unfailing]
      constructor
      · intro later txn trace member forced
        rcases List.mem_cons.mp member with ⟨⟨⟩⟩ | member
        · exact possible forced
        · exact (spares.retractable txn (distinct txn trace member)).mp
            (later txn trace member forced)
      · intro all txn trace member forced
        exact (spares.retractable txn (distinct txn trace member)).mpr
          (all txn trace (List.mem_cons_of_mem _ member) forced)

theorem recover_ok_iff (config : Config) {storage : σ} {entries : List Entry}
    (read : Journal.records storage = .ok entries)
    (unfailing : ∀ e, (recover config {} storage).1 ≠ .error (.log e)) :
    (recover config {} storage).1 = .ok () ↔
      ∀ txn, Undecided entries txn → (publisher storage).Retractable txn := by
  have names : ((traces entries).map (·.1)).Nodup := Log.nodup_traces _ _ _
  have compacted := HasPublisher.publisher_compact (Log.unfinished entries) storage
  have followed : ∀ between : σ, publisher between = publisher storage →
      (∀ e, (followAll (traces entries) { storage := between, inboxes := {} }).1 ≠
        .error (.log e)) →
      ((followAll (traces entries) { storage := between, inboxes := {} }).1 = .ok () ↔
        ∀ txn, Undecided entries txn → (publisher storage).Retractable txn) := by
    intro between same fine
    rw [followAll_ok_iff _ _ names (fun _ _ _ => rfl) fine]
    simp only [same]
    constructor
    · intro all txn undecided
      obtain ⟨trace, found, forced⟩ := forceAbort_iff.mpr undecided
      exact all txn trace found forced
    · intro all txn trace found forced
      exact all txn (forceAbort_iff.mp ⟨trace, found, forced⟩)
  simp only [recover, read] at unfailing ⊢
  by_cases compacting : config.compactOnRecovery
  · simp only [compacting, if_true] at unfailing ⊢
    rcases result : Journal.compact (Log.unfinished entries) storage with ⟨e | ⟨⟨⟩⟩, between⟩
    · simp only [result] at unfailing
      exact absurd rfl (unfailing e)
    · simp only [result] at unfailing compacted ⊢
      exact followed between compacted unfailing
  · simp only [compacting] at unfailing ⊢
    exact followed storage rfl unfailing

def StaysServed (s after : σ) : Prop :=
  (publisher s).Tidy → (publisher s).Serves (publisher after)

theorem staysServed_pervasive : Pervasive (StaysServed (σ := σ)) where
  refl _ _ := .refl _
  trans first second tidy := (first tidy).trans (second (tidy.kept (first tidy)))
  append entry s _ := by
    rw [HasPublisher.publisher_append]
    exact .refl _
  compact entries s _ := by
    rw [HasPublisher.publisher_compact]
    exact .refl _
  publish name payload s tidy := by
    have result : publisher (Publishing.publish name payload s).2 =
        ((publisher s).publish name payload).2 :=
      congrArg Prod.snd (HasPublisher.publish_eq name payload s)
    rw [result]
    exact tidy.publish_serves name payload
  retract name s _ := by
    have result : publisher (Publishing.retract name s).2 = ((publisher s).retract name).2 :=
      congrArg Prod.snd (HasPublisher.retract_eq name s)
    rw [result]
    exact Publisher.retract_serves name _

namespace Station

variable [LawfulJournal σ Entry]

theorem Undisturbed.tidy {first s : Station σ} (alone : Undisturbed first s)
    (tidy : (publisher first.storage).Tidy) : (publisher s.storage).Tidy := by
  induction alone with
  | refl => exact tidy
  | tail _ stepped ih =>
    obtain ⟨events, stepped, undisturbed⟩ := stepped
    cases stepped with
    | wait | stop | commit | receive => exact ih
    | disturb => simp at undisturbed
    | start config =>
      exact ih.kept (staysServed_pervasive.recover config {} (⟨_, []⟩ : Recorded σ Entry) ih)
    | advance _ _ _ _ progress _ _ stepped =>
      exact ih.kept (staysServed_pervasive.step (σ := Recorded σ Entry) stepped ih)

end Station

/-- Recovery after a crash at any point completes just when all that is undecided by then can be
retracted. In a publish directory of its own those are the names that artifacts can have; but any
name is admitted. -/
theorem recovery_completes_iff [LawfulJournal σ Entry] (config : Config) {first s : Station σ}
    (alone : Station.Undisturbed first s)
    (unfailing : ∀ e, (recover config {} s.storage).1 ≠ .error (.log e)) :
    ((recover config {} s.storage).1 = .ok () ↔
      ∀ txn, Undecided (held s.storage) txn → (publisher s.storage).Retractable txn) ∧
    ((publisher first.storage).Tidy → ((recover config {} s.storage).1 = .ok () ↔
      ∀ txn, Undecided (held s.storage) txn → Publisher.isArtifactName txn)) := by
  have completes : (recover config {} s.storage).1 = .ok () ↔
      ∀ txn, Undecided (held s.storage) txn → (publisher s.storage).Retractable txn := by
    rcases read : Journal.records s.storage with e | entries
    · exact absurd (by simp only [recover, read]) (unfailing e)
    · obtain rfl := LawfulJournal.records_ok read
      exact recover_ok_iff config read unfailing
  refine ⟨completes, fun tidy => completes.trans ?_⟩
  simp only [(alone.tidy tidy).retractable_iff]

end Completion

/-- A transaction whose name is no artifact's is admitted. After a crash it keeps back the
recovery. -/
theorem slash_keeps_back_recovery :
    ∃ first s : Station (Beside (Ledger Entry) Publisher), Station.Undisturbed first s ∧
      (publisher first.storage).Tidy ∧ Undecided (held s.storage) "a/b" ∧
      (recover {} {} s.storage).1 ≠ .ok () := by
  let disk : Disk := { nodes := (∅ : Table Path FileNode).insert ["out"] .directory }
  let first : Station (Beside (Ledger Entry) Publisher) := { storage := ⟨{}, ⟨["out"], disk, ""⟩⟩ }
  let actions : List Action := [.start {}, .commit "a/b" [] ["p:x"], .advance 0, .stop]
  let left : Beside (Ledger Entry) Publisher :=
    ⟨{ records := [.prepare "a/b" [⟨"p", "x"⟩]] }, ⟨["out"], disk, ""⟩⟩
  have played : (first.playAll actions).map (·.2.storage) = some left := by rfl
  obtain ⟨⟨events, s⟩, played, rest⟩ := Option.map_eq_some_iff.mp played
  have alone := Station.playAll_undisturbed played
  have tidy : (publisher first.storage).Tidy := by
    refine ⟨rfl, rfl, fun name => ?_⟩
    simp [publisher, first, disk, Disk.node?]
  have undecided : Undecided (held s.storage) "a/b" := by
    rw [rest]
    exact ⟨⟨_, List.mem_cons_self⟩, by simp [held, left], by simp [held, left]⟩
  have unfailing : ∀ e, (recover {} {} s.storage).1 ≠ .error (.log e) := by
    intro e
    rw [rest]
    have failed : (recover {} {} left).1 =
        .error (.publish "a/b" (.invalidName "artifact" "a/b")) := by rfl
    simp [failed]
  have completes := (recovery_completes_iff {} alone unfailing).2 tidy
  refine ⟨first, s, alone, tidy, undecided, fun done => ?_⟩
  exact absurd (completes.mp done "a/b" undecided) (by decide)

end AtomicCommit.Coordinator
