import AtomicCommit.Proofs.Participant.Informed

/-! In every run of a participant the log, the votes and the locks agree with all that was ever logged,
whatever is lost when it goes down. -/

namespace AtomicCommit.Participant

variable {τ : Type} [Journal τ Entry] [LawfulJournal τ Entry]

open Recorded (Does)

section Recovery

structure Resumes (entries : List Entry) (rest : List (String × Option Pending))
    (p : Participant (Recorded τ Entry)) : Prop where
  informed : Informed (entries ++ Deed.records p.storage.deeds) p.memory ∅
  names : (rest.map (·.1)).Nodup
  rest : ∀ txn waiting, (txn, waiting) ∈ rest →
    p.memory.pending.get? txn = waiting ∧ p.memory.resolved.get? txn = none

structure Recovers (entries : List Entry) (rest : List (String × Option Pending))
    (p : Participant (Recorded τ Entry)) : Prop extends Resumes entries rest p where
  kept : Kept (entries ++ Deed.records p.storage.deeds) (held p.storage.storage)

variable {entries : List Entry} {txn : String} {waiting : Option Pending}
  {rest : List (String × Option Pending)} {p after : Participant (Recorded τ Entry)}
  {deeds : List (Deed Entry)} {success : Bool}

theorem Reapply.others {memory later : Memory}
    (applied : Reapply txn waiting memory deeds success later) {other : String}
    (distinct : other ≠ txn) : later.pending.get? other = memory.pending.get? other ∧
      later.resolved.get? other = memory.resolved.get? other := by
  cases applied with
  | applied pending _ _ _ _ finished => cases finished <;> simp [distinct]
  | ended => simp [distinct]
  | unended => simp

omit [Journal τ Entry] [LawfulJournal τ Entry] in
theorem Resumes.continues (resumes : Resumes entries ((txn, waiting) :: rest) p)
    (applied : Reapply txn waiting p.memory deeds success after.memory) :
    Continues txn (known (entries ++ Deed.records p.storage.deeds) txn) (Deed.records deeds) := by
  obtain ⟨_, notResolved⟩ := resumes.rest txn waiting List.mem_cons_self
  generalize after.memory = later at applied
  cases applied with
  | applied _ _ _ _ _ finished => exact resumes.informed.finish_continues notResolved finished
  | ended => exact .told _ (resumes.informed.unresolved notResolved) (by simp)
  | unended => exact .nothing

omit [Journal τ Entry] [LawfulJournal τ Entry] in
theorem Resumes.turn (resumes : Resumes entries ((txn, waiting) :: rest) p)
    (applied : Reapply txn waiting p.memory deeds success after.memory)
    (noted : after.storage.deeds = p.storage.deeds ++ deeds) : Resumes entries rest after := by
  obtain ⟨absent, unique⟩ := List.nodup_cons.mp resumes.names
  obtain ⟨waits, notResolved⟩ := resumes.rest txn waiting List.mem_cons_self
  have informed := resumes.informed
  refine ⟨?_, unique, ?_⟩
  · rw [noted, Deed.records_append, ← List.append_assoc]
    generalize after.memory = later at applied
    cases applied with
    | applied _ _ _ _ _ finished => exact informed.finish waits finished
    | ended => simpa using informed.endUnvoted waits notResolved (Table.get?_empty _)
    | unended => simpa using informed
  · intro other waiting member
    have distinct : other ≠ txn := by
      rintro rfl
      exact absent (List.mem_map.mpr ⟨_, member, rfl⟩)
    rw [(applied.others distinct).1, (applied.others distinct).2]
    exact resumes.rest other waiting (List.mem_cons_of_mem _ member)

theorem Recovers.turn (recovers : Recovers entries ((txn, waiting) :: rest) p)
    (applied : Reapply txn waiting p.memory deeds success after.memory)
    (does : Does p.storage after.storage deeds) : Recovers entries rest after := by
  refine ⟨recovers.toResumes.turn applied does.noted, ?_⟩
  rw [does.noted, does.log, Deed.records_append, ← List.append_assoc]
  exact recovers.kept.append (recovers.continues applied)

theorem Kept.replayed (storage : τ) {s : Recorded τ Entry} (kept : Kept entries (held storage))
    (replayed : Replayed storage s) :
    Kept (entries ++ Deed.records s.deeds) (held s.storage) := by
  rw [replayed.records, List.append_nil]
  rcases replayed.log with same | fewer
  · exact same ▸ kept
  · exact fewer ▸ kept.compacted

omit [Journal τ Entry] [LawfulJournal τ Entry] in
theorem restored_resumes {log : List Entry} {s : Recorded τ Entry} (recounts : Recounts entries log)
    (exclusive : Exclusive entries) (quiet : Deed.records s.deeds = []) :
    Resumes entries (toReapply (traces log))
      (⟨restored (traces log) {}, s⟩ : Participant (Recorded τ Entry)) := by
  have names : ((traces log).map (·.1)).Nodup := Log.nodup_traces _ _ _
  constructor
  · rw [quiet, List.append_nil]
    exact .fromLog recounts exclusive
  · exact (names_toReapply _).nodup names
  · intro txn waiting member
    obtain ⟨trace, there, unsettled, rfl⟩ := mem_toReapply.mp member
    have undone : trace.isDone = false := by
      simp only [Trace.unsettled, Bool.and_eq_true, Bool.not_eq_true'] at unsettled
      exact unsettled.1
    rw [← Table.lookup_eq_some names] at there
    rw [pending_restored names, resolved_restored names, there]
    simp [Trace.ended?, undone]

theorem restored_recovers {storage : τ} {s : Recorded τ Entry} (kept : Kept entries (held storage))
    (exclusive : Exclusive entries) (replayed : Replayed storage s) :
    Recovers entries (toReapply (traces (held storage)))
      (⟨restored (traces (held storage)) {}, s⟩ : Participant (Recorded τ Entry)) :=
  ⟨restored_resumes kept.recounts exclusive replayed.records, kept.replayed storage replayed⟩

end Recovery

structure Consistent (history : List Event) (s : Station τ) : Prop where
  kept : Kept (logged history) (held s.storage)
  exclusive : Exclusive (logged history)
  informed : ∀ now, s.running = some now → Informed (logged history) now.memory now.asking

namespace Consistent

variable [ResourceStore τ] [LawfulStore τ Entry] {history : List Event} {s s' : Station τ}

theorem start (consistent : Consistent history s) (config : Config) :
    Consistent (history ++ Station.startEvents
        (recover config (⟨{}, ⟨s.storage, []⟩⟩ : Participant (Recorded τ Entry))))
      (s.afterStart (recover config ⟨{}, ⟨s.storage, []⟩⟩)) := by
  rcases recover_cases config s.storage with ⟨e, t, result, replayed⟩ | ⟨t, replayed, result⟩
  · rw [result]
    constructor
    · simpa [Station.afterStart] using consistent.kept.replayed s.storage replayed
    · simpa [replayed.records] using consistent.exclusive
    · simp [Station.afterStart, Except.isOk, Except.toBool]
  · obtain ⟨rest, recovers, finished⟩ := reapply_induction (P := Recovers (logged history))
      (fun txn waiting rest p deeds success after => Recovers.turn) _ _
      (restored_recovers consistent.kept consistent.exclusive replayed)
    rw [result]
    constructor
    · simpa [Station.afterStart, resumed] using recovers.kept
    · simpa [resumed] using recovers.informed.exclusive
    · rintro now running
      simp only [Station.afterStart, Option.ite_none_right_eq_some] at running
      obtain ⟨_, ⟨⟩⟩ := running
      simpa [resumed] using recovers.informed

omit [ResourceStore τ] [LawfulStore τ Entry] in
theorem reacted (consistent : Consistent history s) {first : Event} {now : Incarnation}
    {sender txn : String} {result : Reaction × Participant (Recorded τ Entry)}
    {deeds : List (Deed Entry)} (quiet : Eventful.deed? first = none)
    (does : Does ⟨s.storage, []⟩ result.2.storage deeds)
    (continues : Continues txn (known (logged history) txn) (Deed.records deeds))
    (informed : Informed (logged history ++ Deed.records deeds)
      (now.conclude sender result.2.memory result.1).memory
      (now.conclude sender result.2.memory result.1).asking) :
    Consistent (history ++ ([first] ++ Station.reactionEvents sender result))
      (Station.afterReaction now sender result) := by
  have noted : result.2.storage.deeds = deeds := does.noted
  have grown : logged (history ++ ([first] ++ Station.reactionEvents sender result)) =
      logged history ++ Deed.records deeds := by
    rw [← List.append_assoc, logged_append, logged_quiet history quiet, logged_reactionEvents, noted]
  constructor
  · rw [grown, Station.afterReaction, does.log]
    exact consistent.kept.append continues
  · rw [grown]
    exact informed.exclusive
  · rintro later ⟨⟩
    rwa [grown]

theorem step (consistent : Consistent history s) {events : List Event} (stepped : s.Step events s') :
    Consistent (history ++ events) s' := by
  cases stepped with
  | disturb storage same =>
    constructor
    · rw [logged_quiet history rfl, same]
      exact consistent.kept
    · rw [logged_quiet history rfl]
      exact consistent.exclusive
    · rw [logged_quiet history rfl]
      exact consistent.informed
  | start config down => exact consistent.start config
  | stop =>
    refine ⟨?_, ?_, by simp⟩
    · rw [logged_quiet history rfl]
      exact consistent.kept
    · rw [logged_quiet history rfl]
      exact consistent.exclusive
  | receive now envelope running free =>
    have informed := consistent.informed now running
    have idle := Incarnation.isFree_iff.mp free
    obtain ⟨deeds, handled, does⟩ := react_handles envelope.message (now.participant s.storage)
    exact consistent.reacted rfl does (informed.message_continues handled)
      (informed.message idle handled envelope.sender)
  | answer now txn question approved running asked =>
    have informed := consistent.informed now running
    obtain ⟨deeds, handled, does⟩ := answer_handles question.request approved (now.participant s.storage)
    exact consistent.reacted rfl does (informed.answer_continues asked handled)
      (informed.answer asked handled question.sender)

end Consistent

theorem consistent_run [ResourceStore τ] [LawfulStore τ Entry] {history : List Event}
    {s : Station τ} (run : Station.Run history s) : Consistent history s := by
  induction run with
  | begin storage empty =>
    refine ⟨⟨by simp, fun txn => .inl (by simp [empty])⟩, ?_, by simp⟩
    rintro first second resource ⟨_, _, voted, _⟩
    cases voted
  | step run stepped ih => exact ih.step stepped

end AtomicCommit.Participant
