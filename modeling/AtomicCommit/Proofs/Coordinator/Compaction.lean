import AtomicCommit.Proofs.Coordinator.Completion

/-! What a compaction leaves out of the log is nothing that a recovery of the coordinator acts upon: the
same transactions are taken up and aborted, in the same order. -/

namespace AtomicCommit

namespace Log

variable {ρ : Type} [Record ρ]

theorem isFinished_unfinished (records : List ρ) (txn : String) :
    isFinished (unfinished records) txn = false := by
  rw [← Bool.not_eq_true, isFinished_iff, recordsOf_unfinished]
  rintro ⟨record, member, ended⟩
  split at member
  · cases member
  next open_ => exact open_ (isFinished_iff.mpr ⟨record, member, ended⟩)

theorem unfinished_unfinished (records : List ρ) :
    unfinished (unfinished records) = unfinished records :=
  List.filter_eq_self.mpr fun record _ => by simp [isFinished_unfinished]

end Log

namespace Coordinator

section Traces

def unended (found : List (String × Trace)) : List (String × Trace) :=
  found.filter fun entry => !entry.2.isDone

theorem isFinished_iff_done {entries : List Entry} {txn : String} :
    Log.isFinished entries txn ↔ .done txn ∈ entries := by
  rw [Log.isFinished_iff]
  constructor
  · rintro ⟨entry, member, ended⟩
    obtain ⟨logged, rfl⟩ := Log.mem_recordsOf.mp member
    cases entry with
    | done txn => exact logged
    | _ => cases ended
  · exact fun logged => ⟨_, Log.mem_recordsOf.mpr ⟨logged, rfl⟩, rfl⟩

theorem unended_traces (entries : List Entry) :
    unended (traces entries) = traces (Log.unfinished entries) := by
  refine Eq.trans ?_ (Log.traces_filter Trace.note {} (fun txn => !Log.isFinished entries txn) entries)
  refine List.filter_congr fun entry member => ?_
  obtain ⟨_, same⟩ := (Log.mem_traces _ _).mp member
  rw [same, Bool.eq_iff_iff, Bool.not_eq_true', Bool.not_eq_true', ← Bool.not_eq_true,
    ← Bool.not_eq_true, (told_trace entries entry.1).1, isFinished_iff_done]

end Traces

section Steps

def Agree {α σ : Type} (alike : σ → σ → Prop) (one two : α × σ) : Prop :=
  ∃ result t t', one = (result, t) ∧ two = (result, t') ∧ alike t t'

theorem Agree.pair {α σ : Type} {alike : σ → σ → Prop} (result : α) {t t' : σ} (same : alike t t') :
    Agree alike (result, t) (result, t') :=
  ⟨result, t, t', rfl, rfl, same⟩

variable {σ : Type} [Journal σ Entry] [Publishing σ]

/-- Whatever a recovery does to storages that are alike, the result is the same, and they stay alike. -/
structure Lockstep (alike : σ → σ → Prop) : Prop where
  append {s s' : σ} (entry : Entry) : alike s s' →
    Agree alike (Journal.append entry s) (Journal.append entry s')
  compact {s s' : σ} (entries : List Entry) : alike s s' →
    Agree alike (Journal.compact entries s) (Journal.compact entries s')
  retract {s s' : σ} (name : String) : alike s s' →
    Agree alike (Publishing.retract name s) (Publishing.retract name s')

structure InStep (alike : σ → σ → Prop) (r r' : Recovering σ) : Prop where
  storage : alike r.storage r'.storage
  inboxes : r.inboxes = r'.inboxes
  engines : r.engines = r'.engines
  resumed : r.report.resumed = r'.report.resumed
  aborted : r.report.aborted = r'.report.aborted

variable {alike : σ → σ → Prop} {r r' : Recovering σ} {s s' : σ}

omit [Journal σ Entry] [Publishing σ] in
theorem InStep.takeUp (inStep : InStep alike r r') (txn : String) (sources : List Source)
    (outcome : Outcome) :
    Agree (InStep alike) (r.takeUp txn sources outcome) (r'.takeUp txn sources outcome) := by
  rw [Recovering.takeUp, Recovering.takeUp, inStep.inboxes]
  cases r'.inboxes.create txn with
  | none => exact .pair _ inStep
  | some created => exact .pair _ { inStep with inboxes := rfl, engines := by simp [inStep.engines] }

namespace Lockstep

theorem forceAbort (lockstep : Lockstep alike) (same : alike s s') (txn : String) :
    Agree alike (Coordinator.forceAbort txn s) (Coordinator.forceAbort txn s') := by
  obtain ⟨e | ⟨⟨⟩⟩, t, t', one, two, next⟩ := lockstep.retract txn same
  · simp only [Coordinator.forceAbort, one, two]
    exact .pair _ next
  · obtain ⟨e | ⟨⟨⟩⟩, u, u', three, four, last⟩ := lockstep.append (.decision txn .abort) next <;>
      simp only [Coordinator.forceAbort, one, two, three, four] <;> exact .pair _ last

theorem follow (lockstep : Lockstep alike) (inStep : InStep alike r r') (txn : String) (plan : Plan) :
    Agree (InStep alike) (r.follow txn plan) (r'.follow txn plan) := by
  cases plan with
  | completed => exact .pair _ { inStep with }
  | forgotten => exact .pair _ inStep
  | resume sources outcome =>
    have reported : InStep alike
        { r with report.resumed := r.report.resumed ++ [txn] }
        { r' with report.resumed := r'.report.resumed ++ [txn] } :=
      { inStep with resumed := by simp [inStep.resumed] }
    exact reported.takeUp txn sources outcome
  | forceAbort sources =>
    obtain ⟨e | ⟨⟨⟩⟩, t, t', one, two, next⟩ := lockstep.forceAbort inStep.storage txn <;>
      simp only [Recovering.follow, one, two]
    · exact .pair _ ⟨next, inStep.inboxes, inStep.engines, inStep.resumed, inStep.aborted⟩
    · have reported : InStep alike
          { r with storage := t, report.aborted := r.report.aborted ++ [txn] }
          { r' with storage := t', report.aborted := r'.report.aborted ++ [txn] } :=
        ⟨next, inStep.inboxes, inStep.engines, inStep.resumed, by simp [inStep.aborted]⟩
      exact reported.takeUp txn sources .abort

theorem followAll (lockstep : Lockstep alike) (inStep : InStep alike r r')
    (found : List (String × Trace)) :
    Agree (InStep alike) (Coordinator.followAll found r)
      (Coordinator.followAll (unended found) r') := by
  induction found generalizing r r' with
  | nil => exact .pair _ inStep
  | cons entry rest ih =>
    obtain ⟨txn, trace⟩ := entry
    by_cases ended : trace.isDone
    · have skipped : unended ((txn, trace) :: rest) = unended rest := by simp [unended, ended]
      have plan : trace.plan = .completed := by simp [Trace.plan, ended]
      rw [skipped, Coordinator.followAll, plan]
      exact ih { inStep with }
    · have kept : unended ((txn, trace) :: rest) = (txn, trace) :: unended rest := by
        simp [unended, ended]
      obtain ⟨e | ⟨⟨⟩⟩, t, t', one, two, next⟩ := lockstep.follow inStep txn trace.plan <;>
        simp only [kept, Coordinator.followAll, one, two]
      · exact .pair _ next
      · exact ih next

theorem recover (lockstep : Lockstep alike) (same : alike s s') {entries : List Entry}
    (read : Journal.records s = .ok entries)
    (readFewer : Journal.records s' = .ok (Log.unfinished entries)) (config : Config)
    (inboxes : Inboxes Envelope) :
    Agree (InStep alike) (Coordinator.recover config inboxes s)
      (Coordinator.recover config inboxes s') := by
  have started : ∀ {t t' : σ}, alike t t' →
      InStep alike { storage := t, inboxes := inboxes } { storage := t', inboxes := inboxes } :=
    fun same => ⟨same, rfl, rfl, rfl, rfl⟩
  simp only [Coordinator.recover, read, readFewer, Log.unfinished_unfinished, ← unended_traces]
  by_cases compacting : config.compactOnRecovery
  · obtain ⟨e | ⟨⟨⟩⟩, t, t', one, two, next⟩ := lockstep.compact (Log.unfinished entries) same <;>
      simp only [compacting, if_true, one, two]
    · exact .pair _ (started next)
    · exact lockstep.followAll (started next) (traces entries)
  · simp only [compacting, Bool.false_eq_true, if_false]
    exact lockstep.followAll (started same) (traces entries)

end Lockstep

end Steps

section Ledgers

variable {β : Type} [Publishing β]

def AlikeLedgers (r r' : Recorded (Beside (Ledger Entry) β) Entry) : Prop :=
  r.deeds = r'.deeds ∧ r.storage.log.failures = r'.storage.log.failures ∧
    r.storage.other = r'.storage.other

theorem lockstep_ledger : Lockstep (AlikeLedgers (β := β)) where
  append := by
    rintro ⟨⟨⟨_, failures⟩, _⟩, _⟩ ⟨⟨⟨_, _⟩, _⟩, _⟩ entry ⟨rfl, rfl, rfl⟩
    rcases failures with _ | ⟨_ | _, rest⟩ <;> exact .pair _ ⟨rfl, rfl, rfl⟩
  compact := by
    rintro ⟨⟨⟨_, failures⟩, _⟩, _⟩ ⟨⟨⟨_, _⟩, _⟩, _⟩ entries ⟨rfl, rfl, rfl⟩
    rcases failures with _ | ⟨_ | _, rest⟩ <;> exact .pair _ ⟨rfl, rfl, rfl⟩
  retract := by
    rintro ⟨⟨⟨_, _⟩, other⟩, deeds⟩ ⟨⟨⟨_, _⟩, _⟩, _⟩ name ⟨rfl, rfl, rfl⟩
    simp only [Publishing.retract, Beside.onOther]
    rcases Publishing.retract name other with ⟨e | ⟨⟨⟩⟩, next⟩ <;> exact .pair _ ⟨rfl, rfl, rfl⟩

/-- A coordinator that comes back over the unfinished part of a log does what it does over all of it. It
takes up the same engines, retracts and aborts the same transactions, all in the same order, and fails
where it fails; only what it counts as completed may differ. -/
theorem finished_transactions_do_not_matter (records : List Entry) (failures : List Bool) (other : β)
    (config : Config) (inboxes : Inboxes Envelope) :
    let whole := recover config inboxes
      (⟨⟨⟨records, failures⟩, other⟩, []⟩ : Recorded (Beside (Ledger Entry) β) Entry)
    let fewer := recover config inboxes
      (⟨⟨⟨Log.unfinished records, failures⟩, other⟩, []⟩ : Recorded (Beside (Ledger Entry) β) Entry)
    whole.1 = fewer.1 ∧ whole.2.storage.deeds = fewer.2.storage.deeds ∧
      whole.2.storage.storage.other = fewer.2.storage.storage.other ∧
      whole.2.inboxes = fewer.2.inboxes ∧ whole.2.engines = fewer.2.engines ∧
      whole.2.report.resumed = fewer.2.report.resumed ∧
      whole.2.report.aborted = fewer.2.report.aborted := by
  intro whole fewer
  have read : ∀ records, Journal.records
      (⟨⟨⟨records, failures⟩, other⟩, []⟩ : Recorded (Beside (Ledger Entry) β) Entry) = .ok records :=
    fun records => Ledger.records_read ⟨records, failures⟩
  have alike : AlikeLedgers
      (⟨⟨⟨records, failures⟩, other⟩, []⟩ : Recorded (Beside (Ledger Entry) β) Entry)
      ⟨⟨⟨Log.unfinished records, failures⟩, other⟩, []⟩ := ⟨rfl, rfl, rfl⟩
  obtain ⟨result, one, two, first, second, inStep⟩ :=
    lockstep_ledger.recover alike (read _) (read _) config inboxes
  obtain ⟨⟨deeds, _, artifacts⟩, sameInboxes, engines, resumed, aborted⟩ := inStep
  rw [show whole = (result, one) from first, show fewer = (result, two) from second]
  exact ⟨rfl, deeds, artifacts, sameInboxes, engines, resumed, aborted⟩

end Ledgers

end Coordinator

end AtomicCommit
