import AtomicCommit.Proofs.Coordinator.Orders

/-! Recoveries of the coordinator that are made again. However far a recovery has got, the next one takes
up the same transactions with the same outcomes. -/

namespace AtomicCommit.Coordinator

section Logs

variable {log : List Entry} {txn other : String}

theorem plan_of_finished {trace : Trace} (found : (txn, trace) ∈ traces log)
    (finished : Log.isFinished log txn) : trace.plan = .completed := by
  obtain ⟨_, rfl⟩ := (Log.mem_traces _ _).mp found
  obtain ⟨entry, member, terminal⟩ := Log.isFinished_iff.mp finished
  obtain ⟨logged, own⟩ := Log.mem_recordsOf.mp member
  have ended : .done txn ∈ log := by
    cases entry with
    | done name =>
      obtain rfl : name = txn := own
      exact logged
    | prepare | decision => cases terminal
  simp [Trace.plan, (told_trace log txn).1.mpr ended]

theorem engines_unfinished (log : List Entry) :
    engines (traces (Log.unfinished log)) = engines (traces log) := by
  have kept : traces (Log.unfinished log) =
      (traces log).filter fun entry => !Log.isFinished log entry.1 :=
    (Log.traces_filter Trace.note {} (fun txn => !Log.isFinished log txn) log).symm
  rw [kept, engines, engines, List.filterMap_filter]
  refine List.filterMap_congr fun entry member => ?_
  obtain ⟨txn, trace⟩ := entry
  by_cases finished : Log.isFinished log txn
  · simp [finished, plan_of_finished member finished, Plan.engine?]
  · simp [finished]

theorem Undecided.unfinished (undecided : Undecided log txn) : Undecided (Log.unfinished log) txn := by
  obtain ⟨⟨sources, requested⟩, noDecision, open_⟩ := undecided
  have fewer : ∀ entry, entry ∈ Log.unfinished log → entry ∈ log :=
    fun entry member => (List.mem_filter.mp member).1
  refine ⟨⟨sources, List.mem_filter.mpr ⟨requested, ?_⟩⟩,
    fun outcome logged => noDecision outcome (fewer _ logged), fun logged => open_ (fewer _ logged)⟩
  rw [Bool.not_eq_true', Bool.eq_false_iff]
  intro finished
  obtain ⟨entry, member, terminal⟩ := Log.isFinished_iff.mp finished
  obtain ⟨logged, own⟩ := Log.mem_recordsOf.mp member
  cases entry with
  | done name =>
    obtain rfl : name = txn := own
    exact open_ logged
  | prepare | decision => cases terminal

theorem Undecided.later (undecided : Undecided log txn) (distinct : txn ≠ other) :
    Undecided (log ++ [.decision other .abort]) txn := by
  obtain ⟨⟨sources, requested⟩, noDecision, open_⟩ := undecided
  exact ⟨⟨sources, by simp [requested]⟩, by simp [noDecision, distinct], by simp [open_]⟩

theorem engines_cons (txn : String) (trace : Trace) (rest : List (String × Trace)) :
    engines ((txn, trace) :: rest) = (trace.plan.engine? txn).toList ++ engines rest := by
  cases engine : trace.plan.engine? txn <;> simp [engines, engine]

theorem engines_noteIn {entry : Entry} {found : List (String × Trace)}
    (there : entry.txn ∈ found.map (·.1)) (same : ∀ trace, (entry.txn, trace) ∈ found →
      (trace.note entry).plan.engine? entry.txn = trace.plan.engine? entry.txn) :
    engines (Log.noteIn Trace.note {} entry found) = engines found := by
  induction found with
  | nil => simp at there
  | cons first rest ih =>
    obtain ⟨name, trace⟩ := first
    by_cases own : name = entry.txn
    · subst own
      simp only [Log.noteIn, Record.txn, if_true, engines_cons, same trace List.mem_cons_self]
    · have further := ih (by simpa [Ne.symm own] using there)
        fun trace member => same trace (List.mem_cons_of_mem _ member)
      simp only [Log.noteIn, Record.txn, own, if_false, engines_cons, further]

theorem engines_aborted (undecided : Undecided log txn) :
    engines (traces (log ++ [.decision txn .abort])) = engines (traces log) := by
  obtain ⟨first, found, planned⟩ := forceAbort_iff.mpr undecided
  rw [traces, Log.traces_snoc]
  refine engines_noteIn (List.mem_map.mpr ⟨_, found, rfl⟩) fun trace member => ?_
  obtain rfl : trace = first :=
    ((Log.mem_traces _ _).mp member).2.trans ((Log.mem_traces _ _).mp found).2.symm
  obtain ⟨notDone, hasSources, noDecision⟩ := plan_forceAbort_iff.mp planned
  obtain ⟨sources, requested⟩ := Option.isSome_iff_exists.mp hasSources
  simp [Trace.note, Trace.plan, Entry.txn, notDone, noDecision, requested, Plan.engine?]

end Logs

section Numbers

variable {σ : Type} {r other : Recovering σ}

structure Renumbered (r other : Recovering σ) : Prop where
  storage : other.storage = r.storage
  report : other.report = r.report
  names : ∀ txn, other.inboxes.has txn = r.inboxes.has txn
  engines : (other.engines.map fun engine => (engine.transaction, engine.outcome)) =
    r.engines.map fun engine => (engine.transaction, engine.outcome)

namespace Renumbered

theorem takeUp (same : Renumbered r other) (txn : String) (sources : List Source)
    (outcome : Outcome) : (other.takeUp txn sources outcome).1 = (r.takeUp txn sources outcome).1 ∧
      Renumbered (r.takeUp txn sources outcome).2 (other.takeUp txn sources outcome).2 := by
  obtain ⟨storage, report, names, engines⟩ := same
  by_cases free : r.inboxes.has txn
  · have taken : other.inboxes.has txn = true := (names txn).trans free
    have refused : r.inboxes.create txn = none := by simp [Inboxes.create, free]
    have refusedToo : other.inboxes.create txn = none := by simp [Inboxes.create, taken]
    simp only [Recovering.takeUp, refused, refusedToo]
    exact ⟨trivial, storage, report, names, engines⟩
  · have free := Bool.eq_false_iff.mpr free
    obtain ⟨after, created, others⟩ := Inboxes.create_of_free free
    obtain ⟨afterToo, createdToo, othersToo⟩ := Inboxes.create_of_free ((names txn).trans free)
    simp only [Recovering.takeUp, created, createdToo]
    refine ⟨trivial, storage, report, fun name => ?_, by simp [engines]⟩
    by_cases own : name = txn
    · have reaches := Inboxes.reaches_created created
      have reachesToo := Inboxes.reaches_created createdToo
      simp [Inboxes.has, Table.contains, own, reaches.route, reachesToo.route]
    · rw [others name own, othersToo name own, names]

variable [Journal σ Entry] [Publishing σ]

theorem follow (same : Renumbered r other) (txn : String) (plan : Plan) :
    (other.follow txn plan).1 = (r.follow txn plan).1 ∧
      Renumbered (r.follow txn plan).2 (other.follow txn plan).2 := by
  have ⟨storage, report, names, engines⟩ := same
  cases plan with
  | completed => exact ⟨rfl, storage, by simp only [Recovering.follow, report], names, engines⟩
  | forgotten => exact ⟨rfl, same⟩
  | resume sources outcome =>
    have noted : Renumbered { r with report.resumed := r.report.resumed ++ [txn] }
        { other with report.resumed := other.report.resumed ++ [txn] } :=
      ⟨storage, by simp only [report], names, engines⟩
    exact noted.takeUp _ _ _
  | forceAbort sources =>
    rw [Recovering.follow, Recovering.follow, storage]
    rcases forceAbort txn r.storage with ⟨e | ⟨⟨⟩⟩, s⟩
    · exact ⟨rfl, rfl, report, names, engines⟩
    · have noted : Renumbered { r with storage := s, report.aborted := r.report.aborted ++ [txn] }
          { other with storage := s, report.aborted := other.report.aborted ++ [txn] } :=
        ⟨rfl, by simp only [report], names, engines⟩
      exact noted.takeUp _ _ _

theorem followAll (same : Renumbered r other) (found : List (String × Trace)) :
    (Coordinator.followAll found other).1 = (Coordinator.followAll found r).1 ∧
      Renumbered (Coordinator.followAll found r).2 (Coordinator.followAll found other).2 := by
  induction found generalizing r other with
  | nil => exact ⟨rfl, same⟩
  | cons entry rest ih =>
    obtain ⟨txn, trace⟩ := entry
    have turn := same.follow txn trace.plan
    simp only [Coordinator.followAll]
    rcases result : r.follow txn trace.plan with ⟨e | ⟨⟨⟩⟩, after⟩ <;>
      rcases resultToo : other.follow txn trace.plan with ⟨e' | ⟨⟨⟩⟩, afterToo⟩ <;>
      rw [result, resultToo] at turn <;> obtain ⟨results, renumbered⟩ := turn <;> cases results
    · exact ⟨rfl, renumbered⟩
    · exact ih renumbered

end Renumbered

variable [Journal σ Entry] [Publishing σ]

theorem recover_renumbered (config : Config) {inboxes others : Inboxes Envelope}
    (names : ∀ txn, others.has txn = inboxes.has txn) (storage : σ) :
    (recover config others storage).1 = (recover config inboxes storage).1 ∧
      Renumbered (recover config inboxes storage).2 (recover config others storage).2 := by
  have begun : ∀ s : σ, Renumbered { storage := s, inboxes } { storage := s, inboxes := others } :=
    fun s => ⟨rfl, rfl, names, rfl⟩
  simp only [recover]
  split
  · exact ⟨rfl, begun storage⟩
  · split
    · exact ⟨rfl, begun _⟩
    · exact (begun _).followAll _

end Numbers

variable {σ : Type} [Journal σ Entry] [LawfulJournal σ Entry] [Publishing σ]
  [LawfulPublishing σ Entry]

theorem forceAbort_log (txn : String) (s : σ) : held (forceAbort txn s).2 = held s ∨
    held (forceAbort txn s).2 = held s ++ [.decision txn .abort] := by
  have kept := LawfulPublishing.held_retract txn s
  rcases retracted : Publishing.retract txn s with ⟨e | ⟨⟨⟩⟩, between⟩
  · rw [retracted] at kept
    exact .inl (by simpa only [forceAbort, retracted] using kept)
  · rw [retracted] at kept
    rcases appended : Journal.append (Entry.decision txn .abort) between with ⟨e | ⟨⟨⟩⟩, after⟩
    · have same := LawfulJournal.append_error appended
      exact .inl (by simpa only [forceAbort, retracted, appended] using same.trans kept)
    · have grown := LawfulJournal.append_ok appended
      rw [kept] at grown
      exact .inr (by simpa only [forceAbort, retracted, appended] using grown)

theorem follow_log (r : Recovering σ) (txn : String) (plan : Plan) :
    held (r.follow txn plan).2.storage = held r.storage ∨ (∃ sources, plan = .forceAbort sources) ∧
      held (r.follow txn plan).2.storage = held r.storage ++ [.decision txn .abort] := by
  cases plan with
  | completed => exact .inl rfl
  | forgotten => exact .inl rfl
  | resume sources outcome =>
    rw [Recovering.follow, takeUp_storage]
    exact .inl rfl
  | forceAbort sources =>
    have logged := forceAbort_log txn r.storage
    rw [Recovering.follow]
    split
    next e s failed =>
      rw [failed] at logged
      exact logged.imp_right fun grown => ⟨⟨sources, rfl⟩, grown⟩
    next s done =>
      rw [done] at logged
      rw [takeUp_storage]
      exact logged.imp_right fun grown => ⟨⟨sources, rfl⟩, grown⟩

theorem engines_followAll (found : List (String × Trace)) (r : Recovering σ)
    (names : (found.map (·.1)).Nodup)
    (undecided : ∀ txn trace, (txn, trace) ∈ found → (∃ sources, trace.plan = .forceAbort sources) →
      Undecided (held r.storage) txn) :
    engines (traces (held (followAll found r).2.storage)) = engines (traces (held r.storage)) := by
  induction found generalizing r with
  | nil => rfl
  | cons entry rest ih =>
    obtain ⟨name, trace⟩ := entry
    obtain ⟨absent, unique⟩ := List.nodup_cons.mp names
    have turn : engines (traces (held (r.follow name trace.plan).2.storage)) =
        engines (traces (held r.storage)) ∧ ∀ txn trace', (txn, trace') ∈ rest →
          (∃ sources, trace'.plan = .forceAbort sources) →
          Undecided (held (r.follow name trace.plan).2.storage) txn := by
      have open_ := fun txn trace' member =>
        undecided txn trace' (List.mem_cons_of_mem (name, trace) member)
      rcases follow_log r name trace.plan with same | ⟨forced, grown⟩
      · rw [same]
        exact ⟨rfl, open_⟩
      · rw [grown]
        refine ⟨engines_aborted (undecided name trace List.mem_cons_self forced),
          fun txn trace' member forced => (open_ txn trace' member forced).later ?_⟩
        rintro rfl
        exact absent (List.mem_map.mpr ⟨_, member, rfl⟩)
    rcases result : r.follow name trace.plan with ⟨e | ⟨⟨⟩⟩, after⟩ <;> rw [result] at turn <;>
      simp only [followAll, result]
    · exact turn.1
    · exact (ih after unique turn.2).trans turn.1

theorem engines_recover (config : Config) (inboxes : Inboxes Envelope) (storage : σ) :
    engines (traces (held (recover config inboxes storage).2.storage)) =
      engines (traces (held storage)) := by
  have names : ((traces (held storage)).map (·.1)).Nodup := Log.nodup_traces _ _ _
  have open_ : ∀ txn trace, (txn, trace) ∈ traces (held storage) →
      (∃ sources, trace.plan = .forceAbort sources) → Undecided (held storage) txn :=
    fun txn trace found forced => forceAbort_iff.mp ⟨trace, found, forced⟩
  rw [recover]
  split
  next => rfl
  next entries read =>
    obtain rfl := LawfulJournal.records_ok read
    by_cases compacting : config.compactOnRecovery
    · simp only [compacting, if_true]
      split
      next e between failed =>
        rcases LawfulJournal.compact_error failed with same | compacted
        · exact congrArg _ (congrArg _ same)
        · rw [compacted, engines_unfinished]
      next between done =>
        have compacted := LawfulJournal.compact_ok done
        rw [engines_followAll _ _ names, compacted, engines_unfinished]
        intro txn trace found forced
        rw [compacted]
        exact (open_ txn trace found forced).unfinished
    · simp only [compacting]
      exact engines_followAll _ _ names open_

theorem recover_again (config later : Config) (inboxes : Inboxes Envelope) {storage again : σ}
    (left : held again = held (recover config inboxes storage).2.storage) {fine : σ → Prop}
    (unfailing : Unfailing (Undecided (held again)) fine) (start : fine again) :
    ∃ after, recover later {} again = (.ok (), after) ∧
      (after.engines.map fun engine => (engine.transaction, engine.outcome)) =
        engines (traces (held storage)) := by
  have done := unfailing.recover start later
  rcases recovers : recover later {} again with ⟨result, after⟩
  rw [recovers] at done
  cases done
  exact ⟨after, rfl, by rw [(recover_ok recovers).2, left, engines_recover]⟩

end AtomicCommit.Coordinator
