import AtomicCommit.Proofs.Coordinator.Run
import AtomicCommit.Proofs.Traces

/-! What a recovery of the coordinator can do, transaction by transaction. -/

namespace AtomicCommit.Coordinator

variable {σ : Type} [Journal σ Entry] [LawfulJournal σ Entry] [Publishing σ]
  [LawfulPublishing σ Entry]

/-- `Follow txn plan r result after`: following the plan can lead from `r` to `after`. -/
inductive Follow (txn : String) : Plan → Recovering (Recorded σ Entry) →
    Except CoordinatorError Unit → Recovering (Recorded σ Entry) → Prop where
  | skip (plan r report) : plan = .completed ∨ plan = .forgotten →
      Follow txn plan r (.ok ()) { r with report := report }
  | resume (sources outcome r inbox inboxes report) :
      r.inboxes.create txn = some (inbox, inboxes) →
      Follow txn (.resume sources outcome) r (.ok ()) { r with
        inboxes := inboxes
        engines := r.engines ++ [⟨inbox, ⟨txn, [], sources⟩, outcome⟩]
        report := report }
  | resumeTwice (sources outcome r report) : r.inboxes.create txn = none →
      Follow txn (.resume sources outcome) r (.error (.duplicate txn)) { r with report := report }
  | notRetracted (sources r e s) : held s = held r.storage.storage →
      Follow txn (.forceAbort sources) r (.error (.publish txn e))
        { r with storage := ⟨s, r.storage.deeds⟩ }
  | notAborted (sources r error s) : held s = held r.storage.storage →
      Follow txn (.forceAbort sources) r (.error error)
        { r with storage := ⟨s, r.storage.deeds ++ [.retracted txn]⟩ }
  | abort (sources r s inbox inboxes report) :
      held s = held r.storage.storage ++ [.decision txn .abort] →
      r.inboxes.create txn = some (inbox, inboxes) →
      Follow txn (.forceAbort sources) r (.ok ()) {
        storage := ⟨s, r.storage.deeds ++ [.retracted txn, .appended (.decision txn .abort)]⟩
        inboxes := inboxes
        engines := r.engines ++ [⟨inbox, ⟨txn, [], sources⟩, .abort⟩]
        report := report }
  | abortTwice (sources r s report) :
      held s = held r.storage.storage ++ [.decision txn .abort] → r.inboxes.create txn = none →
      Follow txn (.forceAbort sources) r (.error (.duplicate txn)) { r with
        storage := ⟨s, r.storage.deeds ++ [.retracted txn, .appended (.decision txn .abort)]⟩
        report := report }

theorem follow_follows (txn : String) (plan : Plan) (r : Recovering (Recorded σ Entry)) :
    Follow txn plan r (r.follow txn plan).1 (r.follow txn plan).2 := by
  cases plan with
  | completed => exact .skip _ r _ (.inl rfl)
  | forgotten => exact .skip _ r r.report (.inr rfl)
  | resume sources outcome =>
    simp only [Recovering.follow, Recovering.takeUp]
    split
    next created => exact .resumeTwice _ _ r _ created
    next inbox inboxes created => exact .resume _ _ r _ _ _ created
  | forceAbort sources =>
    simp only [Recovering.follow, forceAbort]
    rcases Recorded.retract_cases txn r.storage
      with ⟨s, kept, retracted | ⟨e, failed | failed⟩⟩
    · rcases Recorded.append_cases (.decision txn .abort)
        (⟨s, r.storage.deeds ++ [.retracted txn]⟩ : Recorded σ Entry)
        with ⟨s', appended, grown⟩ | ⟨e, s', failed, same⟩
      · simp only [retracted, appended, Recovering.takeUp, List.append_assoc, List.cons_append,
          List.nil_append]
        rw [kept] at grown
        split
        next created => exact .abortTwice _ r _ _ grown created
        next inbox inboxes created => exact .abort _ r _ _ _ _ grown created
      · simp only [retracted, failed]
        exact .notAborted _ r _ _ (same.trans kept)
    · simp only [failed]
      exact .notRetracted _ r _ _ kept
    · simp only [failed]
      exact .notAborted _ r _ _ kept

section Induction

variable {P : Except CoordinatorError Unit → List (String × Trace) →
  Recovering (Recorded σ Entry) → Prop}

theorem followAll_induction
    (turn : ∀ txn trace rest r result after, P (.ok ()) ((txn, trace) :: rest) r →
      Follow txn trace.plan r result after → P result rest after)
    (found : List (String × Trace)) (r : Recovering (Recorded σ Entry))
    (start : P (.ok ()) found r) :
    ∃ rest, P (followAll found r).1 rest (followAll found r).2 ∧
      ((followAll found r).1 = .ok () → rest = []) := by
  induction found generalizing r with
  | nil => exact ⟨[], start, fun _ => rfl⟩
  | cons entry rest ih =>
    obtain ⟨txn, trace⟩ := entry
    have followed := follow_follows txn trace.plan r
    have kept := turn _ _ _ _ _ _ start followed
    rcases result : r.follow txn trace.plan with ⟨e | ⟨⟨⟩⟩, after⟩
    · rw [result] at kept
      exact ⟨rest, by simpa [followAll, result] using kept, by simp [followAll, result]⟩
    · rw [result] at kept
      simpa [followAll, result] using ih after kept

theorem recover_induction (config : Config) (inboxes : Inboxes Envelope) (storage : σ)
    (turn : ∀ txn trace rest r result after, P (.ok ()) ((txn, trace) :: rest) r →
      Follow txn trace.plan r result after → P result rest after)
    (start : ∀ result s deeds, held s = held storage ∨ held s = Log.unfinished (held storage) →
      (∀ deed ∈ deeds, ∃ records, deed = .compacted records) → Deed.records deeds = [] →
      P result (traces (held storage)) { storage := ⟨s, deeds⟩, inboxes := inboxes }) :
    ∃ rest, P (recover config inboxes (⟨storage, []⟩ : Recorded σ Entry)).1 rest
        (recover config inboxes (⟨storage, []⟩ : Recorded σ Entry)).2 ∧
      ((recover config inboxes (⟨storage, []⟩ : Recorded σ Entry)).1 = .ok () → rest = []) := by
  rcases replayed : Journal.records (⟨storage, []⟩ : Recorded σ Entry) with e | entries
  · exact ⟨_, by simpa [recover, replayed] using start _ storage [] (.inl rfl) (by simp) rfl,
      by simp [recover, replayed]⟩
  · obtain rfl : entries = held storage := Recorded.records_held replayed
    by_cases compacting : config.compactOnRecovery
    · rcases Recorded.compact_cases (Log.unfinished (held storage))
        (⟨storage, []⟩ : Recorded σ Entry) with ⟨s, compacted, now⟩ | ⟨e, s, failed, now⟩
      · have started :=
          start (.ok ()) s [.compacted (Log.unfinished (held storage))] (.inr now) (by simp) rfl
        simpa [recover, replayed, compacting, compacted] using
          followAll_induction turn _ _ started
      · exact ⟨_, by
          simpa [recover, replayed, compacting, failed] using start _ s [] now (by simp) rfl,
          by simp [recover, replayed, compacting, failed]⟩
    · simpa [recover, replayed, compacting] using
        followAll_induction turn _ _ (start (.ok ()) storage [] (.inl rfl) (by simp) rfl)

end Induction

end AtomicCommit.Coordinator
