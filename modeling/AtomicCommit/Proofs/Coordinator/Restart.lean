import AtomicCommit.Log.Faulty
import AtomicCommit.Log.Ledger
import AtomicCommit.Proofs.Artifacts
import AtomicCommit.Proofs.Coordinator.Completion
import AtomicCommit.Proofs.Coordinator.Consistent
import AtomicCommit.Proofs.Coordinator.WriteAhead

/-! Where a coordinator goes on after a crash, wherever it went down: with what was logged of each
transaction, and with nothing else. A recovery that is cut short leaves what one leaves whose next
operation fails. -/

namespace AtomicCommit.Coordinator

namespace Stage

variable {t : Transaction} {stage : Stage} {outcome : Outcome}

theorem past_settled (settled : stage.settled? = some outcome) :
    stage.past t = [.prepare t.name t.sources, .decision t.name outcome] := by
  cases stage <;> cases settled <;> rfl

theorem settled_of_past {txn : String} (decided : .decision txn outcome ∈ stage.past t) :
    stage.settled? = some outcome := by
  cases stage <;> simp_all [past, settled?]

end Stage

/-- A recovery publishes nothing, and retracts what it is about to abort. -/
structure Retracts (entries : List Entry) (deeds : List (Deed Entry)) : Prop where
  only : ∀ deed ∈ deeds, ∀ name, deed.artifactName? = some name → deed = .retracted name
  undecided : ∀ name, .retracted name ∈ deeds → (∃ sources, .prepare name sources ∈ entries) ∧
    ∀ outcome, .decision name outcome ∉ entries
  aborts : ∀ entry ∈ Deed.records deeds, ∃ name, entry = .decision name .abort ∧
    .retracted name ∈ deeds

theorem Retracts.abort {entries : List Entry} {deeds : List (Deed Entry)}
    (retracts : Retracts entries deeds) {txn : String} {sources : List Source}
    (requested : Log.recordsOf txn (entries ++ Deed.records deeds) = [.prepare txn sources]) :
    Retracts entries (deeds ++ [.retracted txn]) ∧
      Retracts entries (deeds ++ [.retracted txn, .appended (.decision txn .abort)]) := by
  have logged : ∀ entry, entry.txn = txn → entry ∈ entries ++ Deed.records deeds →
      entry = .prepare txn sources := by
    intro entry own member
    have mine : entry ∈ Log.recordsOf txn (entries ++ Deed.records deeds) :=
      Log.mem_recordsOf.mpr ⟨member, own⟩
    simpa [requested] using mine
  have prepared : .prepare txn sources ∈ entries := by
    have mine : .prepare txn sources ∈ Log.recordsOf txn (entries ++ Deed.records deeds) := by
      simp [requested]
    rcases List.mem_append.mp (Log.mem_recordsOf.mp mine).1 with old | new
    · exact old
    · obtain ⟨name, impossible, _⟩ := retracts.aborts _ new
      cases impossible
  have undecided : ∀ name, .retracted name ∈ deeds ∨ name = txn →
      (∃ sources, .prepare name sources ∈ entries) ∧
        ∀ outcome, .decision name outcome ∉ entries := by
    rintro name (old | rfl)
    · exact retracts.undecided name old
    · refine ⟨⟨sources, prepared⟩, fun outcome decided => ?_⟩
      cases logged (.decision name outcome) rfl (List.mem_append_left _ decided)
  have aborts := retracts.aborts
  constructor
  · refine ⟨?_, by simpa using undecided, fun entry member => ?_⟩
    · simpa [or_imp, forall_and, Deed.artifactName?] using retracts.only
    obtain ⟨name, aborted, retracted⟩ := aborts entry (by simpa using member)
    exact ⟨name, aborted, List.mem_append_left _ retracted⟩
  · refine ⟨?_, by simpa using undecided, fun entry member => ?_⟩
    · simpa [or_imp, forall_and, Deed.artifactName?] using retracts.only
    rw [Deed.records_append, List.mem_append] at member
    rcases member with old | new
    · obtain ⟨name, aborted, retracted⟩ := aborts entry old
      exact ⟨name, aborted, List.mem_append_left _ retracted⟩
    · exact ⟨txn, by simpa using new, by simp⟩

section Recovery

variable {σ : Type} [Journal σ Entry] [LawfulJournal σ Entry] [Publishing σ]
  [LawfulPublishing σ Entry]

theorem recover_retracts (config : Config) {storage : σ} {entries : List Entry}
    (kept : Kept entries (held storage)) :
    Retracts entries (recover config {} (⟨storage, []⟩ : Recorded σ Entry)).2.storage.deeds := by
  obtain ⟨_, _, retracts, _⟩ := recovers_induction config kept
    (P := fun _ _ r => Retracts entries r.storage.deeds)
    (by
      intro txn trace rest r result after recovers retracts followed
      obtain ⟨_, undecided⟩ := recovers.planned
      generalize trace.plan = plan at followed undecided
      cases followed with
      | skip | resume | resumeTwice | notRetracted => exact retracts
      | notAborted sources => exact (retracts.abort (undecided sources rfl)).1
      | abort sources | abortTwice sources => exact (retracts.abort (undecided sources rfl)).2)
    (by
      intro _ s deeds quiet none
      have other : ∀ deed : Deed Entry, (∀ records, deed ≠ .compacted records) → deed ∉ deeds := by
        intro deed distinct member
        obtain ⟨records, same⟩ := quiet deed member
        exact distinct records same
      refine ⟨fun deed member name about => ?_, fun name member => ?_, by simp [none]⟩
      · obtain ⟨records, rfl⟩ := quiet deed member
        cases about
      exact absurd member (other _ (by simp)))
  exact retracts

/-- The outcome that a transaction without an end has after a crash. -/
def Due (entries : List Entry) (txn : String) (outcome : Outcome) : Prop :=
  .decision txn outcome ∈ entries ∨
    outcome = .abort ∧ ∀ other, .decision txn other ∉ entries

theorem Due.unique {entries : List Entry} {txn : String} {first second : Outcome}
    (one : Due entries txn first) (past : Past txn (Log.recordsOf txn entries))
    (other : Due entries txn second) : first = second := by
  rcases one with decided | ⟨rfl, undecided⟩
  · rcases other with decidedToo | ⟨_, undecided⟩
    · exact past.outcome_unique (Log.mem_recordsOf.mpr ⟨decided, rfl⟩)
        (Log.mem_recordsOf.mpr ⟨decidedToo, rfl⟩)
    · exact absurd decided (undecided first)
  · rcases other with decided | ⟨rfl, _⟩
    · exact absurd decided (undecided second)
    · rfl

omit [Publishing σ] [LawfulPublishing σ Entry] in
theorem Recovers.resumed_due {entries : List Entry} {rest : List (String × Trace)}
    {r : Recovering (Recorded σ Entry)} (recovers : Recovers entries rest r)
    (retracts : Retracts entries r.storage.deeds) {resumed : Resumed} (member : resumed ∈ r.engines) :
    .prepare resumed.transaction.name resumed.transaction.sources ∈ entries ∧
      .done resumed.transaction.name ∉ entries ∧
      Due entries resumed.transaction.name resumed.outcome := by
  have past : Log.recordsOf resumed.transaction.name (entries ++ Deed.records r.storage.deeds) =
      [.prepare resumed.transaction.name resumed.transaction.sources,
        .decision resumed.transaction.name resumed.outcome] :=
    recovers.occupied.past resumed.engine (List.mem_map_of_mem member)
  have logged : ∀ entry, entry ∈ entries ++ Deed.records r.storage.deeds ∧
      entry.txn = resumed.transaction.name ↔
        entry = .prepare resumed.transaction.name resumed.transaction.sources ∨
        entry = .decision resumed.transaction.name resumed.outcome := by
    intro entry
    refine Iff.trans Log.mem_recordsOf.symm ?_
    rw [past]
    simp
  refine ⟨?_, fun ended => ?_, ?_⟩
  · rcases List.mem_append.mp ((logged _).mpr (.inl rfl)).1 with old | new
    · exact old
    · obtain ⟨_, impossible, _⟩ := retracts.aborts _ new
      cases impossible
  · rcases (logged _).mp ⟨List.mem_append_left _ ended, rfl⟩ with impossible | impossible <;>
      cases impossible
  · rcases List.mem_append.mp ((logged _).mpr (.inr rfl)).1 with old | new
    · exact .inl old
    · obtain ⟨name, aborted, retracted⟩ := retracts.aborts _ new
      obtain ⟨rfl, outcome⟩ := Entry.decision.inj aborted
      exact .inr ⟨outcome, (retracts.undecided _ retracted).2⟩

theorem Trace.plan_completed {trace : Trace} (planned : trace.plan = .completed) :
    trace.isDone := by
  obtain ⟨_ | sources, _ | outcome, _ | _⟩ := trace <;> cases planned <;> rfl

theorem Trace.plan_forgotten {trace : Trace} (planned : trace.plan = .forgotten) :
    trace.sources = none := by
  obtain ⟨_ | sources, _ | outcome, _ | _⟩ := trace <;> cases planned <;> rfl

theorem recover_engages (config : Config) {storage : σ} {entries : List Entry}
    (kept : Kept entries (held storage))
    (recovered : (recover config {} (⟨storage, []⟩ : Recorded σ Entry)).1 = .ok ())
    {txn : String} {sources : List Source} (requested : .prepare txn sources ∈ entries)
    (open_ : .done txn ∉ entries) :
    ∃ resumed ∈ (recover config {} (⟨storage, []⟩ : Recorded σ Entry)).2.engines,
      resumed.transaction.name = txn := by
  have aborts := (recover_retracts config kept).aborts
  obtain ⟨rest, _, engaged, finished⟩ := recovers_induction config kept
    (P := fun result rest r => result = .ok () → .done txn ∉ Deed.records r.storage.deeds →
      txn ∈ rest.map (·.1) ∨ ∃ resumed ∈ r.engines, resumed.transaction.name = txn)
    (by
      intro name trace rest r result after recovers engaged followed succeeded unended
      obtain ⟨_, traced⟩ := recovers.rest name trace List.mem_cons_self
      obtain ⟨ended, prepared, _⟩ := told_trace (entries ++ Deed.records r.storage.deeds) name
      rw [← traced] at ended prepared
      generalize planned : trace.plan = plan at followed
      cases followed with
      | skip _ _ report idle =>
        have other : txn ≠ name := by
          rintro rfl
          rcases idle with rfl | rfl
          · exact (List.mem_append.mp (ended.mp (Trace.plan_completed planned))).elim open_ unended
          · have noted := prepared.mpr ⟨sources, List.mem_append_left _ requested⟩
            simp [Trace.plan_forgotten planned] at noted
        simpa [other] using engaged rfl unended
      | resume _ _ _ inbox inboxes report created =>
        by_cases same : name = txn
        · exact .inr ⟨_, List.mem_append_right _ (List.mem_singleton.mpr rfl), same⟩
        · simpa [Ne.symm same, or_and_right, exists_or, same] using engaged rfl unended
      | abort _ _ s inbox inboxes report grown created =>
        by_cases same : name = txn
        · exact .inr ⟨_, List.mem_append_right _ (List.mem_singleton.mpr rfl), same⟩
        · simpa [Ne.symm same, or_and_right, exists_or, same] using
            engaged rfl (by simpa using unended)
      | resumeTwice | notRetracted | notAborted | abortTwice => cases succeeded)
    (by
      intro result s deeds _ none _ _
      have there : Log.recordsOf txn (held storage) ≠ [] := by
        rcases kept.log txn with whole | ⟨_, ended⟩
        · rw [whole]
          exact List.ne_nil_of_mem (Log.mem_recordsOf.mpr ⟨requested, rfl⟩)
        · exact absurd (Log.mem_recordsOf.mp ended).1 open_
      exact .inl (List.mem_map.mpr ⟨_, (Log.mem_traces _ _).mpr ⟨there, rfl⟩, rfl⟩))
  have unended : .done txn ∉
      Deed.records (recover config {} (⟨storage, []⟩ : Recorded σ Entry)).2.storage.deeds := by
    intro member
    obtain ⟨name, impossible, _⟩ := aborts _ member
    cases impossible
  simpa [finished recovered] using engaged recovered unended

/-- The engines after a restart are those of the transactions that the log shows without an end, each
with the outcome that is due. -/
structure Restarted (entries : List Entry) (engines : List Engine) : Prop where
  open_ : ∀ txn sources outcome, .prepare txn sources ∈ entries → .done txn ∉ entries →
    Due entries txn outcome → ∃ engine ∈ engines, engine.name = txn ∧
      engine.transaction.sources = sources ∧
      engine.stage = .announcing outcome engine.transaction.participants ∧
      ∀ other ∈ engines, other.name = txn → other = engine
  others : ∀ engine ∈ engines, (∃ sources, .prepare engine.name sources ∈ entries) ∧
    .done engine.name ∉ entries

theorem recover_restarts (config : Config) {storage : σ} {entries : List Entry}
    (kept : Kept entries (held storage))
    (recovered : (recover config {} (⟨storage, []⟩ : Recorded σ Entry)).1 = .ok ()) :
    Restarted entries ((recover config {} (⟨storage, []⟩ : Recorded σ Entry)).2.engines.map
      Resumed.engine) := by
  have engages := fun txn sources => @recover_engages σ _ _ _ _ config _ _ kept recovered txn sources
  obtain ⟨_, recovers, _⟩ := recover_recovers config kept
  have retracts := recover_retracts config kept
  generalize (recover config {} (⟨storage, []⟩ : Recorded σ Entry)).2 = r at *
  have resumes : ∀ resumed ∈ r.engines, _ := fun resumed member =>
    recovers.resumed_due retracts member
  constructor
  · intro txn sources outcome requested open_ due
    obtain ⟨resumed, member, rfl⟩ := engages txn sources requested open_
    obtain ⟨prepared, _, owed⟩ := resumes resumed member
    have past := kept.past resumed.transaction.name
    have here : resumed.engine ∈ r.engines.map Resumed.engine := List.mem_map_of_mem member
    refine ⟨resumed.engine, here, rfl, ?_, ?_, fun other there same => ?_⟩
    · exact past.sources_unique (Log.mem_recordsOf.mpr ⟨prepared, rfl⟩)
        (Log.mem_recordsOf.mpr ⟨requested, rfl⟩)
    · rw [due.unique past owed]
      rfl
    · exact List.inj_on_of_nodup_map recovers.occupied.names there here same
  · intro engine there
    obtain ⟨resumed, member, rfl⟩ := List.mem_map.mp there
    obtain ⟨prepared, open_, _⟩ := resumes resumed member
    exact ⟨⟨_, prepared⟩, open_⟩

end Recovery

end AtomicCommit.Coordinator
