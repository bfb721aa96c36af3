import AtomicCommit.Proofs.Coordinator.Orders
import AtomicCommit.Proofs.Participant.Orders

/-! What a recovery makes of a log does not depend on how the records of its transactions are
interleaved. -/

namespace AtomicCommit

open Log (Reordered)

/-- Logs with the same records, in the same order for each transaction, are recovered alike. A coordinator
resumes, aborts and counts as completed the same transactions, with the same participants and outcomes.
A participant has the same in memory, keeps the same resources and reports the same, as long as no two
acceptances compete that have not ended. When no operation on its storage fails, a recovery succeeds. -/
theorem recovery_ignores_order {σ τ : Type} [Journal σ Coordinator.Entry] [Publishing σ]
    [LawfulJournal σ Coordinator.Entry] [Journal τ Participant.Entry] [ResourceStore τ]
    [LawfulJournal τ Participant.Entry] [LawfulStore τ Participant.Entry]
    [LawfulHoldings τ Participant.Entry] :
    (∀ (config : Coordinator.Config) (first second : σ) (one other : Coordinator.Recovering σ),
      Reordered (held first) (held second) →
      Coordinator.recover config {} first = (.ok (), one) →
      Coordinator.recover config {} second = (.ok (), other) →
      Coordinator.Alike one other ∧ ∃ completed : List String, completed.Nodup ∧
        (∀ txn, txn ∈ completed ↔ .done txn ∈ held first) ∧
        one.report.completed = completed.length) ∧
    (∀ (config : Participant.Config) (first second : τ) (found foundToo : Participant.RecoveryReport)
      (one other : Participant (Recorded τ Participant.Entry)),
      Reordered (held first) (held second) → Participant.Exclusive (held first) →
      (∀ resource, ResourceStore.holds resource first = ResourceStore.holds resource second) →
      Participant.recover config ⟨{}, ⟨first, []⟩⟩ = (.ok found, one) →
      Participant.recover config ⟨{}, ⟨second, []⟩⟩ = (.ok foundToo, other) →
      found = foundToo ∧ one.memory = other.memory ∧
        ∀ resource, ResourceStore.holds resource one.storage.storage =
          ResourceStore.holds resource other.storage.storage) ∧
    (∀ (config : Coordinator.Config) (fine : σ → Prop) (storage : σ),
      Coordinator.Unfailing (Coordinator.Undecided (held storage)) fine → fine storage →
      (Coordinator.recover config {} storage).1 = .ok ()) ∧
    ∀ (config : Participant.Config) (fine : τ → Prop) (storage : τ),
      Participant.Unfailing (Participant.Doomed (held storage)) fine → fine storage →
      ∃ found, (Participant.recover config (⟨{}, ⟨storage, []⟩⟩ :
        Participant (Recorded τ Participant.Entry))).1 = .ok found := by
  refine ⟨fun config first second one other reordered succeeded succeededToo =>
      ⟨Coordinator.recovered_alike succeeded succeededToo reordered,
        Coordinator.completed_recovered succeeded⟩,
    fun config first second found foundToo one other reordered exclusive holdings succeeded
        succeededToo =>
      Participant.recovered_alike succeeded succeededToo reordered exclusive holdings,
    fun config fine storage unfailing start => unfailing.recover start config,
    fun config fine storage unfailing start => ?_⟩
  obtain ⟨memory, succeeded⟩ := unfailing.recover start (fun _ => id) config
  exact ⟨_, congrArg Prod.fst succeeded⟩

section Interleaved

def publisherWith (records : List Coordinator.Entry) : Beside (Ledger Coordinator.Entry) Publisher :=
  ⟨{ records }, ⟨["out"], { nodes := (∅ : Table Path FileNode).insert ["out"] .directory }, ""⟩⟩

def stockWith (records : List Participant.Entry) : Beside (Ledger Participant.Entry) DirectoryStore :=
  ⟨{ records }, ⟨[], { nodes := ⟨[(["x"], .file 0), (["y"], .file 1)]⟩ }⟩⟩

def threeRequests : List Coordinator.Entry :=
  [.prepare "a" [⟨"p", "x"⟩], .prepare "b" [⟨"p", "y"⟩], .prepare "c" [⟨"q", "z"⟩],
    .decision "c" .commit, .decision "a" .commit, .done "a"]

def threeRequestsInTurn : List Coordinator.Entry :=
  [.prepare "c" [⟨"q", "z"⟩], .decision "c" .commit, .prepare "b" [⟨"p", "y"⟩],
    .prepare "a" [⟨"p", "x"⟩], .decision "a" .commit, .done "a"]

def threeVotes : List Participant.Entry :=
  [.prepare "t" ["x"] .accept, .prepare "u" ["y"] .accept, .decision "w" .abort,
    .decision "u" .commit]

def threeVotesInTurn : List Participant.Entry :=
  [.decision "w" .abort, .prepare "u" ["y"] .accept, .decision "u" .commit,
    .prepare "t" ["x"] .accept]

theorem threeRequests_reordered :
    Reordered (held (publisherWith threeRequests)) (held (publisherWith threeRequestsInTurn)) := by
  intro txn
  simp only [held, publisherWith, threeRequests, threeRequestsInTurn, Log.recordsOf, List.filter,
    Record.txn, Coordinator.Entry.txn]
  grind

theorem threeVotes_reordered :
    Reordered (held (stockWith threeVotes)) (held (stockWith threeVotesInTurn)) := by
  intro txn
  simp only [held, stockWith, threeVotes, threeVotesInTurn, Log.recordsOf, List.filter,
    Record.txn, Participant.Entry.txn]
  grind

theorem threeRequests_undecided {records : List Coordinator.Entry}
    (same : records = threeRequests ∨ records = threeRequestsInTurn) (txn : String)
    (open_ : Coordinator.Undecided records txn) : txn = "b" := by
  obtain ⟨⟨sources, requested⟩, undecided, _⟩ := open_
  have notCommitted := undecided .commit
  rcases same with rfl | rfl <;>
    simp only [threeRequests, threeRequestsInTurn, List.mem_cons, reduceCtorEq,
      Coordinator.Entry.prepare.injEq, Coordinator.Entry.decision.injEq,
      List.not_mem_nil] at requested notCommitted <;>
    grind

theorem threeVotes_accepted {records : List Participant.Entry} {txn : String} {resources : List String}
    (same : records = threeVotes ∨ records = threeVotesInTurn)
    (voted : (Participant.known records txn).vote = some (resources, .accept)) :
    txn = "t" ∧ resources = ["x"] ∨ txn = "u" ∧ resources = ["y"] := by
  have logged := Participant.vote_known voted
  rcases same with rfl | rfl <;> simpa [threeVotes, threeVotesInTurn, or_comm] using logged

theorem threeVotes_exclusive : Participant.Exclusive threeVotes := by
  rintro first second resource ⟨_, _, one, listed⟩ ⟨_, _, other, listedToo⟩
  rcases threeVotes_accepted (.inl rfl) one with ⟨rfl, rfl⟩ | ⟨rfl, rfl⟩ <;>
    rcases threeVotes_accepted (.inl rfl) other with ⟨rfl, rfl⟩ | ⟨rfl, rfl⟩ <;> simp_all

theorem publisherWith_recovered {records : List Coordinator.Entry}
    (undecided : ∀ txn, Coordinator.Undecided records txn → txn = "b") :
    Coordinator.Unfailing (Coordinator.Undecided (held (publisherWith records)))
        (fun s : Beside (Ledger Coordinator.Entry) Publisher =>
          s.log.failures = [] ∧ s.other.Tidy) ∧
      (publisherWith records).log.failures = [] ∧ (publisherWith records).other.Tidy := by
  refine ⟨Coordinator.unfailing_publisher fun txn open_ => ?_, rfl, rfl, rfl, fun name => ?_⟩
  · rw [undecided txn open_]
    decide
  · simp [publisherWith, Disk.node?]

theorem threeVotes_deletable {records : List Participant.Entry}
    (same : records = threeVotes ∨ records = threeVotesInTurn) (resource : String)
    (doomed : Participant.Doomed records resource) : (stockWith records).other.Deletable resource := by
  obtain ⟨txn, resources, dooms, listed⟩ := doomed
  have named : resource = "x" ∨ resource = "y" := by
    rcases threeVotes_accepted same dooms.accepted with ⟨_, rfl⟩ | ⟨_, rfl⟩
    · exact .inl (List.mem_singleton.mp listed)
    · exact .inr (List.mem_singleton.mp listed)
  rcases named with rfl | rfl <;> exact DirectoryStore.delete_ok_iff.mp (by rfl)

theorem interleaved_recovered :
    (∃ one other, Coordinator.recover {} {} (publisherWith threeRequests) = (.ok (), one) ∧
      Coordinator.recover {} {} (publisherWith threeRequestsInTurn) = (.ok (), other) ∧
      Coordinator.Alike one other ∧ one.report = ⟨["c"], ["b"], 1⟩) ∧
    ∃ found one other,
      Participant.recover {} (⟨{}, ⟨stockWith threeVotes, []⟩⟩ :
        Participant (Recorded _ Participant.Entry)) = (.ok found, one) ∧
      Participant.recover {} (⟨{}, ⟨stockWith threeVotesInTurn, []⟩⟩ :
        Participant (Recorded _ Participant.Entry)) = (.ok found, other) ∧
      one.memory = other.memory ∧ one.memory.locks.locked = [("x", "t")] ∧
      ResourceStore.holds "x" other.storage.storage ∧
      ResourceStore.holds "y" other.storage.storage = false := by
  obtain ⟨coordinators, participants, succeeds, succeedsToo⟩ := recovery_ignores_order
    (σ := Beside (Ledger Coordinator.Entry) Publisher)
    (τ := Beside (Ledger Participant.Entry) DirectoryStore)
  constructor
  · obtain ⟨unfailing, fine⟩ := publisherWith_recovered (threeRequests_undecided (.inl rfl))
    obtain ⟨unfailingToo, fineToo⟩ := publisherWith_recovered (threeRequests_undecided (.inr rfl))
    have recovered := succeeds {} _ _ unfailing fine
    have recoveredToo := succeeds {} _ _ unfailingToo fineToo
    have report : (Coordinator.recover {} {} (publisherWith threeRequests)).2.report =
      ⟨["c"], ["b"], 1⟩ := by rfl
    obtain ⟨alike, _⟩ := coordinators {} _ _ _ _ threeRequests_reordered
      (Prod.ext recovered rfl) (Prod.ext recoveredToo rfl)
    exact ⟨_, _, Prod.ext recovered rfl, Prod.ext recoveredToo rfl, alike, report⟩
  · obtain ⟨found, recovered⟩ := succeedsToo {} _ (stockWith threeVotes)
      Participant.unfailing_directory ⟨rfl, threeVotes_deletable (.inl rfl)⟩
    obtain ⟨foundToo, recoveredToo⟩ := succeedsToo {} _ (stockWith threeVotesInTurn)
      Participant.unfailing_directory ⟨rfl, threeVotes_deletable (.inr rfl)⟩
    have locked : (Participant.recover {} (⟨{}, ⟨stockWith threeVotes, []⟩⟩ :
        Participant (Recorded _ Participant.Entry))).2.memory.locks.locked = [("x", "t")] := by rfl
    have left : ∀ resource, ResourceStore.holds resource (Participant.recover {}
        (⟨{}, ⟨stockWith threeVotesInTurn, []⟩⟩ :
          Participant (Recorded _ Participant.Entry))).2.storage.storage =
      ResourceStore.holds resource (⟨[], { nodes := ⟨[(["x"], .file 0)]⟩ }⟩ : DirectoryStore) :=
        fun _ => rfl
    obtain ⟨rfl, memory, _⟩ := participants {} _ _ found foundToo _ _ threeVotes_reordered threeVotes_exclusive
      (fun _ => rfl) (Prod.ext recovered rfl) (Prod.ext recoveredToo rfl)
    exact ⟨found, _, _, Prod.ext recovered rfl, Prod.ext recoveredToo rfl, memory, locked, left "x",
      left "y"⟩

end Interleaved

end AtomicCommit
