import AtomicCommit.Proofs.Coordinator.Unfailing

/-! A recovery of the coordinator takes up the same transactions however their records are interleaved in
the log. -/

namespace AtomicCommit.Coordinator

open Log (Reordered)

section Plans

@[simp] def Plan.isCompleted : Plan → Bool
  | .completed => true
  | _ => false

@[simp] def Plan.isResumed : Plan → Bool
  | .resume _ _ => true
  | _ => false

@[simp] def Plan.isAborted : Plan → Bool
  | .forceAbort _ => true
  | _ => false

def Plan.engine? (txn : String) : Plan → Option (Transaction × Outcome)
  | .resume sources outcome => some (⟨txn, [], sources⟩, outcome)
  | .forceAbort sources => some (⟨txn, [], sources⟩, .abort)
  | _ => none

def planned (select : Plan → Bool) (found : List (String × Trace)) : List String :=
  (found.filter fun entry => select entry.2.plan).map (·.1)

def engines (found : List (String × Trace)) : List (Transaction × Outcome) :=
  found.filterMap fun entry => entry.2.plan.engine? entry.1

theorem mem_completed {log : List Entry} {txn : String} :
    txn ∈ planned Plan.isCompleted (traces log) ↔ .done txn ∈ log := by
  have completed : ∀ trace : Trace, trace.plan.isCompleted ↔ trace.isDone := by
    rintro ⟨_ | sources, _ | outcome, _ | _⟩ <;> simp [Trace.plan]
  obtain ⟨ended, _, _⟩ := told_trace log txn
  simp only [planned, traces, List.mem_map, List.mem_filter, Prod.exists, exists_and_right,
    exists_eq_right, Log.mem_traces, completed]
  rw [← ended]
  constructor
  · rintro ⟨_, ⟨_, rfl⟩, done⟩
    exact done
  · intro done
    exact ⟨_, ⟨List.ne_nil_of_mem (Log.mem_recordsOf.mpr ⟨ended.mp done, rfl⟩), rfl⟩, done⟩

theorem planned_singleton (select : Plan → Bool) (txn : String) (trace : Trace) :
    planned select [(txn, trace)] = if select trace.plan then [txn] else [] := by
  cases selected : select trace.plan <;> simp [planned, selected]

theorem engines_singleton (txn : String) (trace : Trace) :
    engines [(txn, trace)] = (trace.plan.engine? txn).toList := by
  cases engine : trace.plan.engine? txn <;> simp [engines, engine]

theorem planned_reordered {log other : List Entry} (reordered : Reordered log other)
    (select : Plan → Bool) : (planned select (traces log)).Perm (planned select (traces other)) :=
  ((reordered.traces Trace.note {}).filter _).map _

theorem engines_reordered {log other : List Entry} (reordered : Reordered log other) :
    (engines (traces log)).Perm (engines (traces other)) :=
  (reordered.traces Trace.note {}).filterMap _

end Plans

variable {σ : Type} [Journal σ Entry] [Publishing σ]

structure Followed (found : List (String × Trace)) (r after : Recovering σ) : Prop where
  resumed : after.report.resumed = r.report.resumed ++ planned Plan.isResumed found
  aborted : after.report.aborted = r.report.aborted ++ planned Plan.isAborted found
  completed : after.report.completed =
    r.report.completed + (planned Plan.isCompleted found).length
  engines : (after.engines.map fun engine => (engine.transaction, engine.outcome)) =
    (r.engines.map fun engine => (engine.transaction, engine.outcome)) ++ Coordinator.engines found

namespace Followed

omit [Journal σ Entry] [Publishing σ]

theorem single {txn : String} {trace : Trace} {plan : Plan} {r after : Recovering σ}
    (own : trace.plan = plan)
    (resumed : after.report.resumed = r.report.resumed ++ if plan.isResumed then [txn] else [])
    (aborted : after.report.aborted = r.report.aborted ++ if plan.isAborted then [txn] else [])
    (completed : after.report.completed = r.report.completed + if plan.isCompleted then 1 else 0)
    (engines : (after.engines.map fun engine => (engine.transaction, engine.outcome)) =
      (r.engines.map fun engine => (engine.transaction, engine.outcome)) ++
        (plan.engine? txn).toList) : Followed [(txn, trace)] r after := by
  subst own
  refine ⟨resumed.trans ?_, aborted.trans ?_, completed.trans ?_, engines.trans ?_⟩
  · rw [planned_singleton]
  · rw [planned_singleton]
  · rw [planned_singleton]
    split <;> rfl
  · rw [engines_singleton]

theorem trans {found rest : List (String × Trace)} {r between after : Recovering σ}
    (first : Followed found r between) (second : Followed rest between after) :
    Followed (found ++ rest) r after := by
  constructor
  · simp [second.resumed, first.resumed, planned]
  · simp [second.aborted, first.aborted, planned]
  · simp [second.completed, first.completed, planned, Nat.add_assoc]
  · simp [second.engines, first.engines, Coordinator.engines]

end Followed

section Success

variable {r after : Recovering σ} {txn : String}

omit [Journal σ Entry] [Publishing σ] in
theorem takeUp_ok {sources : List Source} {outcome : Outcome}
    (taken : r.takeUp txn sources outcome = (.ok (), after)) :
    after.report = r.report ∧
      ∃ inbox, after.engines = r.engines ++ [⟨inbox, ⟨txn, [], sources⟩, outcome⟩] := by
  simp only [Recovering.takeUp] at taken
  split at taken
  · cases taken
  · cases taken
    exact ⟨rfl, _, rfl⟩

theorem follow_ok {trace : Trace} (succeeded : r.follow txn trace.plan = (.ok (), after)) :
    Followed [(txn, trace)] r after := by
  cases plan : trace.plan with
  | completed =>
    rw [plan] at succeeded
    cases succeeded
    exact .single plan (by simp) (by simp) rfl (by simp [Plan.engine?])
  | forgotten =>
    rw [plan] at succeeded
    cases succeeded
    exact .single plan (by simp) (by simp) rfl (by simp [Plan.engine?])
  | resume sources outcome =>
    rw [plan] at succeeded
    obtain ⟨report, inbox, engines⟩ := takeUp_ok succeeded
    exact .single plan (by simp [report]) (by simp [report]) (by simp [report])
      (by simp [engines, Plan.engine?])
  | forceAbort sources =>
    rw [plan, Recovering.follow] at succeeded
    split at succeeded
    · cases succeeded
    · obtain ⟨report, inbox, engines⟩ := takeUp_ok succeeded
      exact .single plan (by simp [report]) (by simp [report]) (by simp [report])
        (by simp [engines, Plan.engine?])

theorem followAll_ok {found : List (String × Trace)}
    (succeeded : followAll found r = (.ok (), after)) : Followed found r after := by
  induction found generalizing r with
  | nil =>
    cases succeeded
    constructor <;> simp [planned, engines]
  | cons entry rest ih =>
    obtain ⟨txn, trace⟩ := entry
    rcases result : r.follow txn trace.plan with ⟨e | ⟨⟨⟩⟩, between⟩
    · simp [followAll, result] at succeeded
    · simp only [followAll, result] at succeeded
      exact (follow_ok result).trans (ih succeeded)

end Success

theorem recover_read {inboxes : Inboxes Envelope} {storage : σ} {config : Config}
    {after : Recovering σ} (succeeded : recover config inboxes storage = (.ok (), after)) :
    ∃ entries, Journal.records storage = .ok entries ∧
      after.report = ⟨planned Plan.isResumed (traces entries), planned Plan.isAborted (traces entries),
        (planned Plan.isCompleted (traces entries)).length⟩ ∧
      (after.engines.map fun engine => (engine.transaction, engine.outcome)) =
        engines (traces entries) := by
  simp only [recover] at succeeded
  split at succeeded
  · cases succeeded
  next entries read =>
    split at succeeded
    · cases succeeded
    · have followed := followAll_ok succeeded
      have parts : after.report =
          ⟨after.report.resumed, after.report.aborted, after.report.completed⟩ := rfl
      refine ⟨entries, read, ?_, by simpa using followed.engines⟩
      rw [parts, followed.resumed, followed.aborted, followed.completed]
      simp

variable [LawfulJournal σ Entry]

theorem recover_ok {inboxes : Inboxes Envelope} {storage : σ} {config : Config}
    {after : Recovering σ} (succeeded : recover config inboxes storage = (.ok (), after)) :
    after.report = ⟨planned Plan.isResumed (traces (held storage)),
        planned Plan.isAborted (traces (held storage)),
        (planned Plan.isCompleted (traces (held storage))).length⟩ ∧
      (after.engines.map fun engine => (engine.transaction, engine.outcome)) =
        engines (traces (held storage)) := by
  obtain ⟨entries, read, taken⟩ := recover_read succeeded
  exact LawfulJournal.records_ok read ▸ taken

/-- Two recoveries that take up the same, maybe in another order. -/
structure Alike (one other : Recovering σ) : Prop where
  resumed : one.report.resumed.Perm other.report.resumed
  aborted : one.report.aborted.Perm other.report.aborted
  engines : (one.engines.map fun engine => (engine.transaction, engine.outcome)).Perm
    (other.engines.map fun engine => (engine.transaction, engine.outcome))
  completed : one.report.completed = other.report.completed

theorem recovered_alike {first second : σ} {config : Config} {one other : Recovering σ}
    (succeeded : recover config {} first = (.ok (), one))
    (succeededToo : recover config {} second = (.ok (), other))
    (reordered : Reordered (held first) (held second)) : Alike one other := by
  obtain ⟨report, takenUp⟩ := recover_ok succeeded
  obtain ⟨reportToo, takenUpToo⟩ := recover_ok succeededToo
  constructor
  · rw [report, reportToo]
    exact planned_reordered reordered _
  · rw [report, reportToo]
    exact planned_reordered reordered _
  · rw [takenUp, takenUpToo]
    exact engines_reordered reordered
  · rw [report, reportToo]
    exact (planned_reordered reordered _).length_eq

theorem completed_recovered {storage : σ} {config : Config} {after : Recovering σ}
    (succeeded : recover config {} storage = (.ok (), after)) : ∃ completed : List String,
    completed.Nodup ∧ (∀ txn, txn ∈ completed ↔ .done txn ∈ held storage) ∧
      after.report.completed = completed.length := by
  have names : ((traces (held storage)).map (·.1)).Nodup := Log.nodup_traces _ _ _
  refine ⟨planned Plan.isCompleted (traces (held storage)), ?_, fun txn => mem_completed,
    by rw [(recover_ok succeeded).1]⟩
  exact (List.filter_sublist.map _).nodup names

end AtomicCommit.Coordinator
