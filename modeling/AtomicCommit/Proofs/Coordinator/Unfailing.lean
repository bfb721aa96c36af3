import AtomicCommit.Proofs.Coordinator.Completion

/-! A recovery of the coordinator in which nothing fails comes to its end. -/

namespace AtomicCommit.Coordinator

variable {σ : Type} [Journal σ Entry] [Publishing σ] [LawfulJournal σ Entry]

/-- On fine storages nothing fails, and they stay fine, as long as no other artifacts than these are
retracted. -/
structure Unfailing (retractable : String → Prop) (fine : σ → Prop) : Prop where
  read {s : σ} : fine s → Journal.records s = .ok (held s)
  append {s : σ} (entry : Entry) : fine s →
    (Journal.append entry s).1 = .ok () ∧ fine (Journal.append entry s).2
  compact {s : σ} (entries : List Entry) : fine s →
    (Journal.compact entries s).1 = .ok () ∧ fine (Journal.compact entries s).2
  retract {s : σ} {name : String} : retractable name → fine s →
    (Publishing.retract name s).1 = .ok () ∧ fine (Publishing.retract name s).2

namespace Unfailing

variable {retractable : String → Prop} {fine : σ → Prop} {r : Recovering σ} {txn : String}

theorem forceAbort (unfailing : Unfailing retractable fine) {s : σ} (start : fine s)
    (allowed : retractable txn) : ∃ s', forceAbort txn s = (.ok (), s') ∧ fine s' := by
  obtain ⟨retracted, between⟩ := unfailing.retract allowed start
  obtain ⟨appended, next⟩ := unfailing.append (.decision txn .abort) between
  refine ⟨_, ?_, next⟩
  rw [Coordinator.forceAbort, ← Prod.eta (Publishing.retract txn s), retracted]
  simp only
  rw [← Prod.eta (Journal.append _ _), appended]

theorem follow (unfailing : Unfailing retractable fine) (start : fine r.storage)
    (free : r.inboxes.has txn = false) (plan : Plan)
    (allowed : (∃ sources, plan = .forceAbort sources) → retractable txn) :
    ∃ after, r.follow txn plan = (.ok (), after) ∧ fine after.storage ∧
      ∀ other, other ≠ txn → after.inboxes.has other = r.inboxes.has other := by
  cases plan with
  | completed => exact ⟨_, rfl, start, fun _ _ => rfl⟩
  | forgotten => exact ⟨_, rfl, start, fun _ _ => rfl⟩
  | resume sources outcome =>
    obtain ⟨after, taken, kept, others⟩ := takeUp_spares
      (r := { r with report.resumed := r.report.resumed ++ [txn] }) free sources outcome
    exact ⟨after, taken, by rwa [kept], others⟩
  | forceAbort sources =>
    obtain ⟨s, aborted, next⟩ := unfailing.forceAbort start (allowed ⟨sources, rfl⟩)
    obtain ⟨after, taken, kept, others⟩ := takeUp_spares
      (r := { r with storage := s, report.aborted := r.report.aborted ++ [txn] }) free sources .abort
    exact ⟨after, by simpa only [Recovering.follow, aborted] using taken, by rwa [kept], others⟩

theorem followAll (unfailing : Unfailing retractable fine) {found : List (String × Trace)}
    (start : fine r.storage) (names : (found.map (·.1)).Nodup)
    (free : ∀ txn trace, (txn, trace) ∈ found → r.inboxes.has txn = false)
    (allowed : ∀ txn trace, (txn, trace) ∈ found → (∃ sources, trace.plan = .forceAbort sources) →
      retractable txn) :
    (followAll found r).1 = .ok () := by
  induction found generalizing r with
  | nil => rfl
  | cons entry rest ih =>
    obtain ⟨name, trace⟩ := entry
    obtain ⟨absent, unique⟩ := List.nodup_cons.mp names
    obtain ⟨between, followed, next, others⟩ := unfailing.follow start
      (free name trace List.mem_cons_self) trace.plan (allowed name trace List.mem_cons_self)
    simp only [Coordinator.followAll, followed]
    refine ih next unique (fun txn later member => ?_) fun txn later member =>
      allowed txn later (List.mem_cons_of_mem _ member)
    have distinct : txn ≠ name := by
      rintro rfl
      exact absent (List.mem_map.mpr ⟨_, member, rfl⟩)
    rw [others txn distinct]
    exact free txn later (List.mem_cons_of_mem _ member)

theorem recover {storage : σ} (unfailing : Unfailing (Undecided (held storage)) fine)
    (start : fine storage) (config : Config) : (recover config {} storage).1 = .ok () := by
  have names : ((traces (held storage)).map (·.1)).Nodup := Log.nodup_traces _ _ _
  have followed : ∀ s, fine s →
      (Coordinator.followAll (traces (held storage)) { storage := s, inboxes := {} }).1 = .ok () :=
    fun s next => unfailing.followAll next names (fun _ _ _ => rfl)
      fun txn trace member aborted => forceAbort_iff.mp ⟨trace, member, aborted⟩
  simp only [Coordinator.recover, unfailing.read start]
  by_cases compacting : config.compactOnRecovery
  · obtain ⟨compacted, next⟩ := unfailing.compact (Log.unfinished (held storage)) start
    rw [if_pos compacting]
    rcases result : Journal.compact (Log.unfinished (held storage)) storage with ⟨_, s⟩
    rw [result] at compacted next
    cases compacted
    exact followed s next
  · rw [if_neg compacting]
    exact followed storage start

end Unfailing

theorem unfailing_publisher {retractable : String → Prop}
    (artifacts : ∀ name, retractable name → Publisher.isArtifactName name) : Unfailing retractable
    fun s : Beside (Ledger Entry) Publisher => s.log.failures = [] ∧ s.other.Tidy where
  read {s} _ := s.log.records_read
  append := by
    rintro ⟨⟨records, failures⟩, publisher⟩ entry ⟨rfl, tidy⟩
    exact ⟨rfl, rfl, tidy⟩
  compact := by
    rintro ⟨⟨records, failures⟩, publisher⟩ entries ⟨rfl, tidy⟩
    exact ⟨rfl, rfl, tidy⟩
  retract := by
    rintro ⟨log, publisher⟩ name allowed ⟨whole, tidy⟩
    exact ⟨Publisher.retract_ok_iff.mpr (tidy.retractable_iff.mpr (artifacts name allowed)), whole,
      tidy.kept (Publisher.retract_serves name publisher)⟩

end AtomicCommit.Coordinator
