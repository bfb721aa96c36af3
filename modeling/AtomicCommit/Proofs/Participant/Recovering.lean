import AtomicCommit.Proofs.Participant.Handled
import AtomicCommit.Proofs.Traces

/-! What a recovery of a participant can do: it restores the memory from the traces of the log, and
then applies again what was decided, transaction by transaction. -/

namespace AtomicCommit.Participant

/-- `Reapply txn waiting memory deeds success after`: one turn of applying again. -/
inductive Reapply (txn : String) : Option Pending → Memory → List (Deed Entry) → Bool → Memory → Prop
    where
  | applied (pending memory deeds success after) : Finish txn pending memory deeds success after →
      Reapply txn (some pending) memory deeds success after
  | ended (memory) : Reapply txn none memory [.appended (.done txn)] true (memory.resolve txn none)
  | unended (memory) : Reapply txn none memory [] false memory

def restored (found : List (String × Trace)) (memory : Memory) : Memory :=
  found.foldl (fun memory (txn, trace) => memory.restore txn trace) memory

variable {τ : Type} [Journal τ Entry] [LawfulJournal τ Entry]

open Recorded (Does)

structure Replayed (storage : τ) (s : Recorded τ Entry) : Prop where
  log : held s.storage = held storage ∨ held s.storage = compacted (held storage)
  compacts : ∀ deed ∈ s.deeds, ∃ records, deed = .compacted records

theorem Replayed.records {storage : τ} {s : Recorded τ Entry} (replayed : Replayed storage s) :
    Deed.records s.deeds = [] := by
  refine List.filterMap_eq_nil_iff.mpr fun deed member => ?_
  obtain ⟨records, rfl⟩ := replayed.compacts deed member
  rfl

variable [ResourceStore τ]

def resumed (storage : τ) (s : Recorded τ Entry) :
    Except ParticipantError RecoveryReport × Participant (Recorded τ Entry) :=
  let found := traces (held storage)
  let result := reapply (toReapply found) ⟨restored found {}, s⟩
  (result.1.map fun () => report found, result.2)

theorem recover_cases (config : Config) (storage : τ) :
    (∃ e s, recover config (⟨{}, ⟨storage, []⟩⟩ : Participant (Recorded τ Entry)) =
        (.error e, ⟨{}, s⟩) ∧ Replayed storage s) ∨
      ∃ s, Replayed storage s ∧
        recover config (⟨{}, ⟨storage, []⟩⟩ : Participant (Recorded τ Entry)) =
          resumed storage s := by
  rcases replayed : Journal.records (⟨storage, []⟩ : Recorded τ Entry) with e | entries
  · exact .inl ⟨_, _, by simp only [recover, replayed]; rfl, .inl rfl, by simp⟩
  obtain rfl : entries = held storage := Recorded.records_held replayed
  have goesOn : ∀ s, compactLog config (held storage)
      (⟨{}, ⟨storage, []⟩⟩ : Participant (Recorded τ Entry)) = (.ok (), ⟨{}, s⟩) →
      recover config (⟨{}, ⟨storage, []⟩⟩ : Participant (Recorded τ Entry)) = resumed storage s := by
    intro s compacting
    simp only [recover, replayed, compacting, resumed, restored]
    split <;> simp_all [Except.map]
  by_cases compacting : config.compactOnRecovery
  · rcases Recorded.compact_cases (compacted (held storage)) (⟨storage, []⟩ : Recorded τ Entry)
      with ⟨s, done, now⟩ | ⟨e, s, failed, now⟩
    · refine .inr ⟨⟨s, [.compacted (compacted (held storage))]⟩, ⟨.inr now, by simp⟩, goesOn _ ?_⟩
      simp only [compactLog, compacting, if_true, done, List.nil_append]
    · refine .inl ⟨.log e, ⟨s, []⟩, ?_, now, by simp⟩
      simp only [recover, replayed, compactLog, compacting, if_true, failed]
  · refine .inr ⟨⟨storage, []⟩, ⟨.inl rfl, by simp⟩, goesOn _ ?_⟩
    simp only [compactLog, compacting, Bool.false_eq_true, if_false]

variable [LawfulStore τ Entry]

theorem reapply_induction
    {P : List (String × Option Pending) → Participant (Recorded τ Entry) → Prop}
    (turn : ∀ txn waiting rest p deeds success after, P ((txn, waiting) :: rest) p →
      Reapply txn waiting p.memory deeds success after.memory →
      Does p.storage after.storage deeds → P rest after)
    (items : List (String × Option Pending)) (p : Participant (Recorded τ Entry))
    (start : P items p) :
    ∃ rest, P rest (reapply items p).2 ∧ ((reapply items p).1.isOk → rest = []) := by
  induction items generalizing p with
  | nil => exact ⟨[], start, fun _ => rfl⟩
  | cons item items ih =>
    obtain ⟨txn, _ | pending⟩ := item
    · rcases append_does (.done txn) p with ⟨s, ⟨ended, does⟩ | ⟨e, failed, kept⟩⟩
      · have kept := turn _ _ _ _ _ _ ({ p with storage := s }.setResolved txn none) start
          (.ended p.memory) does
        simpa only [reapply, ended] using ih _ kept
      · have kept := turn _ _ _ _ _ _ { p with storage := s } start (.unended p.memory) kept
        exact ⟨items, by simpa only [reapply, failed] using kept,
          by simp [reapply, failed, Except.isOk, Except.toBool]⟩
    · obtain ⟨deeds, finish, does⟩ := finish_finishes txn pending p
      have kept := turn _ _ _ _ _ _ _ start (.applied _ _ _ _ _ finish) does
      rcases result : p.finish txn pending with ⟨e | ⟨⟨⟩⟩, after⟩
      · rw [result] at kept
        exact ⟨items, by simpa only [reapply, result] using kept,
          by simp [reapply, result, Except.isOk, Except.toBool]⟩
      · rw [result] at kept
        simpa only [reapply, result] using ih _ kept

end AtomicCommit.Participant
