import AtomicCommit.Proofs.Participant.Interrupted

/-! A recovery does not depend on how the records of several transactions are interleaved in the log. -/

namespace AtomicCommit.Participant

open Log (Reordered)

section Logs

variable {log other : List Entry}

theorem known_reordered (reordered : Reordered log other) (txn : String) :
    known log txn = known other txn :=
  reordered.traceOf Trace.note {} txn

theorem doomed_reordered (reordered : Reordered log other) {resource : String} :
    Doomed log resource ↔ Doomed other resource := by
  simp only [Doomed, known_reordered reordered]

theorem exclusive_reordered (reordered : Reordered log other) (exclusive : Exclusive log) :
    Exclusive other := by
  intro first second resource one another
  rw [← known_reordered reordered] at one another
  exact exclusive first second resource one another

theorem report_reordered (reordered : Reordered log other) :
    report (traces log) = report (traces other) := by
  have alike : (traces log).Perm (traces other) := reordered.traces Trace.note {}
  simp only [report, toReapply_eq, List.length_map, RecoveryReport.mk.injEq]
  exact ⟨alike.countP_eq _, (alike.filter _).length_eq, alike.countP_eq _⟩

end Logs

variable {τ : Type} [Journal τ Entry] [LawfulJournal τ Entry] [ResourceStore τ] [LawfulStore τ Entry]
  [LawfulHoldings τ Entry] {first second : τ} {config : Config} {found foundToo : RecoveryReport}
  {one other : Participant (Recorded τ Entry)}

theorem holds_recovered (succeeded : recover config ⟨{}, ⟨first, []⟩⟩ = (.ok found, one))
    (resource : String) : ResourceStore.holds resource one.storage.storage ↔
      ResourceStore.holds resource first ∧ ¬Doomed (held first) resource := by
  have emptied := emptied_pervasive.recover config
    (⟨{}, ⟨first, []⟩⟩ : Participant (Recorded τ Entry))
  rw [succeeded] at emptied
  rw [emptied.of_nothing, recover_deletes succeeded]

theorem recovered_alike (succeeded : recover config ⟨{}, ⟨first, []⟩⟩ = (.ok found, one))
    (succeededToo : recover config ⟨{}, ⟨second, []⟩⟩ = (.ok foundToo, other))
    (reordered : Reordered (held first) (held second)) (exclusive : Exclusive (held first))
    (holdings : ∀ resource,
      ResourceStore.holds resource first = ResourceStore.holds resource second) :
    found = foundToo ∧ one.memory = other.memory ∧
      ∀ resource, ResourceStore.holds resource one.storage.storage =
        ResourceStore.holds resource other.storage.storage := by
  have settled := recover_settled (.self _) exclusive succeeded
  have settledToo :=
    recover_settled (.self _) (exclusive_reordered reordered exclusive) succeededToo
  obtain ⟨_, _, reported, _⟩ := recover_reapplies succeeded
  obtain ⟨_, _, reportedToo, _⟩ := recover_reapplies succeededToo
  refine ⟨?_, settled.unique settledToo fun txn => ?_, fun resource => ?_⟩
  · rw [reported, reportedToo, report_reordered reordered]
  · rw [known_missingEnds (.self _), known_missingEnds (.self _), known_reordered reordered]
  · rw [Bool.eq_iff_iff, holds_recovered succeeded, holds_recovered succeededToo, holdings,
      doomed_reordered reordered]

end AtomicCommit.Participant
