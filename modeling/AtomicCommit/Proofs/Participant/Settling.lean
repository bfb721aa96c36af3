import AtomicCommit.Proofs.Participant.Locking
import AtomicCommit.Proofs.Participant.Unfailing

/-! A recovery that succeeds settles all that was decided. What is then in memory can be told from what
was ever logged. -/

namespace AtomicCommit.Participant

def Trace.settled (trace : Trace) : Trace :=
  { trace with isDone := trace.isDone || trace.decision.isSome }

theorem known_ends {entries ends : List Entry} (only : ∀ entry ∈ ends, entry.isDone) (txn : String) :
    known (entries ++ ends) txn = { known entries txn with
      isDone := (known entries txn).isDone || decide (.done txn ∈ ends) } := by
  induction ends generalizing entries with
  | nil => simp
  | cons entry rest ih =>
    obtain ⟨isEnd, others⟩ := List.forall_mem_cons.mp only
    obtain ⟨name, rfl⟩ : ∃ name, entry = .done name := ⟨_, Entry.eq_done isEnd⟩
    have own : ∀ entry ∈ [Entry.done name], entry.txn = name := by simp [Entry.txn]
    rw [List.append_cons, ih others]
    by_cases same : txn = name
    · subst same
      simp [known_own own, Trace.note]
    · simp [known_other own same, same]

theorem known_missingEnds {entries log : List Entry} (recounts : Recounts entries log)
    (txn : String) : known (entries ++ missingEnds log) txn = (known entries txn).settled := by
  rw [known_ends fun entry => isDone_missingEnds]
  simp only [mem_missingEnds, Trace.settled]
  rcases recounts txn with same | ⟨done, _⟩
  · rw [same]
    cases (known entries txn).isDone <;> cases (known entries txn).decision <;> simp
  · simp [done]

structure Settled (entries : List Entry) (memory : Memory) : Prop where
  informed : Informed entries memory ∅
  calm : ∀ txn, (known entries txn).isDone = false → (known entries txn).decision = none
  sorted : memory.Sorted

namespace Settled

variable {entries others : List Entry} {memory other : Memory} {txn resource : String}

theorem resolved (settled : Settled entries memory) :
    memory.resolved.get? txn = (known entries txn).ended? :=
  (settled.informed.agrees txn).resolved

theorem pending (settled : Settled entries memory) :
    memory.pending.get? txn = (known entries txn).waiting? := by
  obtain ⟨_, ⟨decision, waits⟩, heard⟩ := settled.informed.agrees txn
  rw [waits] at heard ⊢
  rw [Trace.waiting?]
  cases done : (known entries txn).isDone with
  | true => rfl
  | false =>
    have undecided := settled.calm txn done
    cases voted : (known entries txn).vote with
    | none => rfl
    | some cast =>
      obtain rfl : decision = none := by
        refine Option.eq_none_iff_forall_ne_some.mpr fun outcome told => ?_
        have logged := heard ⟨cast.1, cast.2, decision⟩ (by simp [done, voted]) outcome told
        simp [undecided] at logged
      rw [undecided]

theorem locks (settled : Settled entries memory) : memory.locks.owner? resource = some txn ↔
    ∃ pending, memory.pending.get? txn = some pending ∧ pending.vote = .accept ∧
      resource ∈ pending.resources := by
  simp [settled.informed.locks, Claims]

theorem unique (settled : Settled entries memory) (settledToo : Settled others other)
    (alike : ∀ txn, known entries txn = known others txn) : memory = other :=
  settled.informed.unique settledToo.informed settled.sorted settledToo.sorted
    (fun txn => by rw [settled.pending, settledToo.pending, alike])
    (fun txn => by rw [settled.resolved, settledToo.resolved, alike]) fun _ => rfl

end Settled

variable {τ : Type} [Journal τ Entry] [LawfulJournal τ Entry] [ResourceStore τ]
  [LawfulStore τ Entry]

open Recorded (Does)

theorem finish_amends {txn : String} {pending : Pending} {p after : Participant (Recorded τ Entry)}
    (decided : pending.decision ≠ none) (succeeded : p.finish txn pending = (.ok (), after)) :
    after.storage.deeds = p.storage.deeds ++ amends (txn, some pending) := by
  obtain ⟨deeds, finished, does⟩ : ∃ deeds, Finish txn pending p.memory deeds true after.memory ∧
      Does p.storage after.storage deeds := by
    simpa [succeeded, Except.isOk, Except.toBool] using finish_finishes txn pending p
  rw [does.noted, List.append_cancel_left_eq]
  generalize after.memory = memory at finished
  cases finished with
  | undecided undecided => exact absurd undecided decided
  | ended outcome told => simp [amends, Pending.owed, told]

theorem reapply_amends {items : List (String × Option Pending)}
    {p after : Participant (Recorded τ Entry)}
    (decided : ∀ txn pending, (txn, some pending) ∈ items → pending.decision ≠ none)
    (succeeded : reapply items p = (.ok (), after)) :
    after.storage.deeds = p.storage.deeds ++ items.flatMap amends := by
  induction items generalizing p with
  | nil =>
    cases succeeded
    simp
  | cons item rest ih =>
    have later : ∀ txn pending, (txn, some pending) ∈ rest → pending.decision ≠ none :=
      fun txn pending member => decided txn pending (List.mem_cons_of_mem _ member)
    obtain ⟨txn, _ | pending⟩ := item
    · rcases append_does (.done txn) p with ⟨s, ⟨logged, does⟩ | ⟨e, failed, _⟩⟩
      · simp only [reapply, logged] at succeeded
        rw [ih later succeeded, List.flatMap_cons, ← List.append_assoc]
        exact congrArg (· ++ _) does.noted
      · simp [reapply, failed] at succeeded
    · rcases result : p.finish txn pending with ⟨e | ⟨⟨⟩⟩, between⟩
      · simp [reapply, result] at succeeded
      · simp only [reapply, result] at succeeded
        rw [ih later succeeded, finish_amends (decided txn pending List.mem_cons_self) result,
          List.flatMap_cons, List.append_assoc]

section Recovery

variable {storage : τ} {config : Config} {found : RecoveryReport}
  {after : Participant (Recorded τ Entry)}

omit [LawfulStore τ Entry] in
theorem recover_reapplies
    (succeeded : recover config ⟨{}, ⟨storage, []⟩⟩ = (.ok found, after)) :
    ∃ s, Replayed storage s ∧ found = report (traces (held storage)) ∧
      reapply (toReapply (traces (held storage))) ⟨restored (traces (held storage)) {}, s⟩ =
        (.ok (), after) := by
  rcases recover_cases config storage with ⟨e, s, failed, _⟩ | ⟨s, replayed, result⟩
  · simp [failed] at succeeded
  refine ⟨s, replayed, ?_⟩
  rw [succeeded] at result
  rcases reapplied : reapply (toReapply (traces (held storage)))
      ⟨restored (traces (held storage)) {}, s⟩ with ⟨e | ⟨⟨⟩⟩, final⟩
  · simp [resumed, reapplied, Except.map] at result
  · simp only [resumed, reapplied, Except.map, Prod.mk.injEq, Except.ok.injEq] at result
    exact ⟨result.1, by rw [result.2]⟩

theorem recover_ends (succeeded : recover config ⟨{}, ⟨storage, []⟩⟩ = (.ok found, after)) :
    Deed.records after.storage.deeds = missingEnds (held storage) := by
  obtain ⟨s, replayed, _, reapplied⟩ := recover_reapplies succeeded
  rw [reapply_amends (fun txn pending => decided_of_toReapply) reapplied, Deed.records_append,
    replayed.records, records_amends, missingEnds]
  rfl

theorem recover_deletes (succeeded : recover config ⟨{}, ⟨storage, []⟩⟩ = (.ok found, after))
    {resource : String} :
    .deleted resource ∈ after.storage.deeds ↔ Doomed (held storage) resource := by
  obtain ⟨s, replayed, _, reapplied⟩ := recover_reapplies succeeded
  rw [reapply_amends (fun txn pending => decided_of_toReapply) reapplied, List.mem_append,
    deleted_amends, or_iff_right]
  intro member
  obtain ⟨_, impossible⟩ := replayed.compacts _ member
  cases impossible

theorem recover_settled {entries : List Entry} (recounts : Recounts entries (held storage))
    (exclusive : Exclusive entries)
    (succeeded : recover config ⟨{}, ⟨storage, []⟩⟩ = (.ok found, after)) :
    Settled (entries ++ missingEnds (held storage)) after.memory := by
  have sorted := recover_sorted config storage
  rw [succeeded] at sorted
  obtain ⟨s, replayed, _, reapplied⟩ := recover_reapplies succeeded
  obtain ⟨rest, resumes, _⟩ := reapply_induction (P := Resumes entries)
    (fun txn waiting rest p deeds success after resumes applied does =>
      resumes.turn applied does.noted) _ _ (restored_resumes recounts exclusive replayed.records)
  rw [reapplied] at resumes
  have ends := recover_ends succeeded
  refine ⟨ends ▸ resumes.informed, fun txn undone => ?_, sorted⟩
  rw [known_missingEnds recounts] at undone ⊢
  simp only [Trace.settled, Bool.or_eq_false_iff] at undone
  simpa [Trace.settled] using undone.2

theorem recover_settles {entries : List Entry} (kept : Kept entries (held storage))
    (exclusive : Exclusive entries)
    (succeeded : recover config ⟨{}, ⟨storage, []⟩⟩ = (.ok found, after)) :
    Deed.records after.storage.deeds = missingEnds (held storage) ∧
      Kept (entries ++ missingEnds (held storage)) (held after.storage.storage) ∧
      Settled (entries ++ missingEnds (held storage)) after.memory := by
  obtain ⟨s, replayed, _, reapplied⟩ := recover_reapplies succeeded
  obtain ⟨rest, recovers, _⟩ := reapply_induction (P := Recovers entries)
    (fun txn waiting rest p deeds success after => Recovers.turn) _ _
    (restored_recovers kept exclusive replayed)
  rw [reapplied] at recovers
  have ends := recover_ends succeeded
  exact ⟨ends, ends ▸ recovers.kept, recover_settled kept.recounts exclusive succeeded⟩

end Recovery

end AtomicCommit.Participant
