import AtomicCommit.Proofs.Participant.Locking
import Mathlib.Logic.Function.Iterate

/-! What a compaction leaves out of a log is nothing that a recovery looks at: what is restored, what is
applied again and what is reported are the same, and in the same order. -/

namespace AtomicCommit

namespace Participant

section Compacted

variable {records more : List Entry} {txn : String}

theorem isFinished_eq (records : List Entry) (txn : String) :
    Log.isFinished records txn = (known records txn).isDone := by
  rw [Bool.eq_iff_iff, isDone_known, Log.isFinished, List.any_eq_true]
  constructor
  · rintro ⟨entry, member, ended⟩
    simp only [Bool.and_eq_true, beq_iff_eq] at ended
    obtain ⟨isEnd, rfl⟩ := ended
    exact Entry.eq_done isEnd ▸ member
  · exact fun member => ⟨_, member, by simp [Record.isTerminal, Record.txn, Entry.isDone, Entry.txn]⟩

theorem known_compacted (records : List Entry) (txn : String) : known (compacted records) txn =
    if (known records txn).isDone then { known records txn with decision := none }
    else known records txn := by
  rw [known, Log.traceOf, Kept.recordsOf_compacted, isFinished_eq]
  split
  · exact foldl_undecided _ {} none
  · rfl

theorem isDone_compacted (records : List Entry) (txn : String) :
    (known (compacted records) txn).isDone = (known records txn).isDone := by
  rw [known_compacted]
  split <;> rfl

theorem compacted_append (records more : List Entry) :
    compacted (compacted records ++ more) = compacted (records ++ more) := by
  have finished : ∀ txn, Log.isFinished (compacted records ++ more) txn =
      Log.isFinished (records ++ more) txn := by
    intro txn
    have same := isDone_compacted records txn
    rw [← isFinished_eq, ← isFinished_eq] at same
    rw [Log.isFinished, Log.isFinished, List.any_append, List.any_append]
    exact congrArg (· || _) same
  simp only [compacted, finished, List.filter_append] at finished ⊢
  congr 1
  rw [List.filter_filter]
  refine List.filter_congr fun entry _ => ?_
  have lasting : Log.isFinished records entry.txn → Log.isFinished (records ++ more) entry.txn := by
    simp only [Log.isFinished, List.any_append, Bool.or_eq_true]
    exact Or.inl
  grind

theorem compacted_compacted (records : List Entry) :
    compacted (compacted records) = compacted records := by
  simpa using compacted_append records []

theorem compacted_iterate (count : Nat) (records : List Entry) :
    compacted (compacted^[count] records) = compacted records := by
  induction count generalizing records with
  | zero => rfl
  | succ count ih => rw [Function.iterate_succ_apply, ih, compacted_compacted]

theorem unfinished_compacted (records : List Entry) :
    Log.unfinished (compacted records) = Log.unfinished records := by
  have finished : ∀ txn, Log.isFinished (compacted records) txn = Log.isFinished records txn := by
    intro txn
    rw [isFinished_eq, isFinished_eq, isDone_compacted]
  simp only [Log.unfinished, finished]
  rw [compacted, List.filter_filter]
  refine List.filter_congr fun entry _ => ?_
  cases Log.isFinished records entry.txn <;> simp [*]

end Compacted

section Restored

variable {found : List (String × Trace)} {memory other : Memory}

def unended (found : List (String × Trace)) : List (String × Trace) :=
  found.filter fun entry => !entry.2.isDone

theorem unended_traces (records : List Entry) :
    unended (traces records) = traces (Log.unfinished records) := by
  refine Eq.trans ?_ (Log.traces_filter Trace.note {} (fun txn => !Log.isFinished records txn) records)
  refine List.filter_congr fun entry member => ?_
  obtain ⟨_, same⟩ := (Log.mem_traces _ _).mp member
  rw [isFinished_eq, same]
  rfl

theorem unended_compacted (records : List Entry) :
    unended (traces (compacted records)) = unended (traces records) := by
  rw [unended_traces, unended_traces, unfinished_compacted]

theorem toReapply_unended (found : List (String × Trace)) :
    toReapply (unended found) = toReapply found := by
  rw [toReapply_eq, toReapply_eq, unended, List.filter_filter]
  congr 2
  funext entry
  cases ended : entry.2.isDone <;> simp [Trace.unsettled, ended]

theorem locks_unended (found : List (String × Trace)) (same : memory.locks = other.locks) :
    (restored found memory).locks = (restored (unended found) other).locks := by
  induction found generalizing memory other with
  | nil => exact same
  | cons entry rest ih =>
    obtain ⟨txn, trace⟩ := entry
    by_cases ended : trace.isDone
    · have kept : (memory.restore txn trace).locks = other.locks := by
        simpa [Memory.restore, ended, Memory.resolve] using same
      simpa [restored, unended, ended] using ih kept
    · have taken : (memory.restore txn trace).locks = (other.restore txn trace).locks := by
        simp only [Memory.restore, ended, Bool.false_eq_true, if_false]
        split
        · exact same
        · simp [Memory.await, same]
      simpa [restored, unended, ended] using ih taken

theorem restored_compacted (records : List Entry) :
    restored (traces (compacted records)) {} = restored (traces records) {} := by
  have sorted := fun found : List (String × Trace) => Memory.Sorted.empty.restored found
  have pending : ∀ txn, (restored (traces (compacted records)) {}).pending.get? txn =
      (restored (traces records) {}).pending.get? txn := by
    intro txn
    rw [pending_fromLog, pending_fromLog, known_compacted]
    split
    next ended => simp [Trace.waiting?, ended]
    next => rfl
  have resolved : ∀ txn, (restored (traces (compacted records)) {}).resolved.get? txn =
      (restored (traces records) {}).resolved.get? txn := by
    intro txn
    rw [resolved_fromLog, resolved_fromLog, known_compacted]
    split <;> rfl
  have locks : (restored (traces (compacted records)) {}).locks =
      (restored (traces records) {}).locks := by
    rw [locks_unended _ rfl, unended_compacted, ← locks_unended _ rfl]
  have pendingToo := (sorted _).pending.ext (sorted _).pending pending
  have resolvedToo := (sorted _).resolved.ext (sorted _).resolved resolved
  cases one : restored (traces (compacted records)) {}
  cases two : restored (traces records) {}
  simp_all

theorem toReapply_compacted (records : List Entry) :
    toReapply (traces (compacted records)) = toReapply (traces records) := by
  rw [← toReapply_unended, unended_compacted, toReapply_unended]

theorem names_traces (records : List Entry) (txn : String) :
    txn ∈ (traces records).map (·.1) ↔ Log.recordsOf txn records ≠ [] := by
  simp only [traces, List.mem_map, Prod.exists, Log.mem_traces]
  constructor
  · rintro ⟨_, _, ⟨some, _⟩, rfl⟩
    exact some
  · exact fun some => ⟨txn, _, ⟨some, rfl⟩, rfl⟩

theorem length_traces_compacted (records : List Entry) :
    (traces (compacted records)).length = (traces records).length := by
  have names : ∀ records : List Entry, ((traces records).map (·.1)).Nodup :=
    fun records => Log.nodup_traces _ _ _
  have same : ((traces (compacted records)).map (·.1)).Perm ((traces records).map (·.1)) := by
    refine (List.perm_ext_iff_of_nodup (names _) (names _)).mpr fun txn => ?_
    rw [names_traces, names_traces, Kept.recordsOf_compacted]
    split
    next finished =>
      obtain ⟨entry, member, ended⟩ := Log.isFinished_iff.mp finished
      have stays : entry ∈ (Log.recordsOf txn records).filter fun entry => !entry.isDecision := by
        refine List.mem_filter.mpr ⟨member, ?_⟩
        rw [Entry.eq_done ended]
        rfl
      simp [List.ne_nil_of_mem stays, List.ne_nil_of_mem member]
    next => rfl
  simpa using same.length_eq

theorem report_compacted (records : List Entry) :
    report (traces (compacted records)) = report (traces records) := by
  have pending : ∀ found : List (String × Trace), (found.countP fun entry =>
      !entry.2.isDone && entry.2.vote.isSome && entry.2.decision.isNone) =
      (unended found).countP fun entry => entry.2.vote.isSome && entry.2.decision.isNone := by
    intro found
    rw [unended, List.countP_filter]
    refine List.countP_congr fun entry _ => ?_
    cases entry.2.isDone <;> simp
  have completed : ∀ found : List (String × Trace),
      (found.countP fun entry => entry.2.isDone) + (unended found).length = found.length := by
    intro found
    rw [unended, ← List.countP_eq_length_filter,
      List.length_eq_countP_add_countP (fun entry => entry.2.isDone)]
    simp
  have ended := completed (traces (compacted records))
  rw [unended_compacted, length_traces_compacted, ← completed (traces records)] at ended
  simp only [report, pending, unended_compacted, RecoveryReport.mk.injEq, true_and]
  exact ⟨congrArg List.length (toReapply_compacted records), by omega⟩

end Restored

end Participant

end AtomicCommit
