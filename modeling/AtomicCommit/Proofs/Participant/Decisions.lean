import AtomicCommit.Proofs.Participant.LogForm
import Mathlib.Data.List.Pairwise

/-! The decision that a participant logs first counts, whatever it is told later. After a vote it is the
only one that is ever logged, and what is done to the resources follows it. -/

namespace AtomicCommit.Participant

theorem InForm.decision_unique {records : List Entry} (inForm : InForm records) {txn : String}
    {one other : Outcome} (first : .decision txn one ∈ records)
    (second : .decision txn other ∈ records) : one = other := by
  have apart : records.Pairwise fun earlier later => earlier.stage ≠ later.stage :=
    (inForm_iff.mp inForm).imp Nat.ne_of_lt
  have symm : Std.Symm fun earlier later : Entry => earlier.stage ≠ later.stage :=
    ⟨fun _ _ => Ne.symm⟩
  by_contra different
  exact apart.forall first second (by simpa using different) rfl

variable {τ : Type} [Journal τ Entry] [LawfulJournal τ Entry] [ResourceStore τ]
  [LawfulStore τ Entry] {history before after : List Event} {s : Station τ} {txn resource : String}
  {resources : List String} {vote : Vote}

theorem orphansEnd_of_voteFirst (run : Station.Run history s)
    (split : history = before ++ .did (.appended (.prepare txn resources vote)) :: after)
    (first : ∀ outcome, .decision txn outcome ∉ logged before) : OrphansEnd history txn := by
  rintro earlier entry later parted rfl ⟨unvoted, decided, _⟩
  obtain ⟨outcome, toldEarly⟩ := decided_iff.mp decided
  have kept := (consistent_run run).kept
  rw [parted, logged_append] at kept
  have notYet : .did (.appended (.prepare entry.txn resources vote)) ∉ earlier := by
    intro there
    simp [kept.vote_early (mem_logged.mpr there)] at unvoted
  exfalso
  rcases List.append_eq_append_iff.mp (parted.symm.trans split) with ⟨more, rfl, _⟩ | ⟨more, rfl, rest⟩
  · exact first outcome (by simp [toldEarly])
  · rcases more with _ | ⟨event, more⟩
    · exact first outcome (by simpa using toldEarly)
    · obtain ⟨rfl, _⟩ := List.cons_eq_cons.mp rest
      exact notYet (by simp)

theorem deleted_before_end (run : Station.Run history s)
    (split : history = before ++ .did (.appended (.done txn)) :: after)
    (voted : .prepare txn resources .accept ∈ logged history)
    (told : ∀ outcome, .decision txn outcome ∈ logged history → outcome = .commit)
    (listed : resource ∈ resources) :
    ∃ earlier later, before = earlier ++ .did (.deleted resource) :: later ∧
      OnBehalf earlier txn resource := by
  have votedEarly := logged_before_end run split voted rfl (by simp)
  have kept := (consistent_run run).kept
  have inOrder : (Entry.done txn).InOrder before := orderly_run run _ _ _ split
  rw [split, logged_append] at kept
  have vote := kept.vote_early votedEarly
  obtain ⟨outcome, decided, gone⟩ := inOrder.applied txn resources rfl vote
  obtain rfl := told outcome (by simp [split, decision_known decided])
  obtain ⟨earlier, rfl⟩ := gone rfl
  obtain ⟨first, others, rfl⟩ := List.append_of_mem listed
  refine ⟨earlier ++ deletions first, deletions others, by simp [deletions], .inr ⟨?_, ?_⟩⟩
  · have undone := Bool.eq_false_iff.mpr (isDone_known.not.mpr inOrder.undone)
    simpa [Entry.txn] using undone
  · exact ⟨_, by simpa using vote, listed⟩

/-- If a vote is logged before any decision on its transaction, then only one decision is ever logged, and
only that has effects, whatever messages and failures follow. Deletions on behalf of the transaction are
of listed resources, after an acceptance and a logged commit; on an abort and after a refusal there
are none. On a commit of an acceptance all listed resources are deleted before any acknowledgement,
and what has been deleted is gone. -/
theorem first_decision_stands [LawfulHoldings τ Entry] (run : Station.Run history s)
    (split : history = before ++ .did (.appended (.prepare txn resources vote)) :: after)
    (first : ∀ outcome, .decision txn outcome ∉ logged before) :
    (Log.recordsOf txn (logged history)).countP Entry.isDecision ≤ 1 ∧
    (∀ earlier resource later, history = earlier ++ .did (.deleted resource) :: later →
      OnBehalf earlier txn resource →
        vote = .accept ∧ resource ∈ resources ∧ .decision txn .commit ∈ logged earlier) ∧
    (.decision txn .abort ∈ logged history ∨ vote = .refuse → ∀ earlier resource later,
      history = earlier ++ .did (.deleted resource) :: later → ¬OnBehalf earlier txn resource) ∧
    (.decision txn .commit ∈ logged history → vote = .accept → ∀ earlier recipient message later,
      history = earlier ++ .sent recipient message :: later → message.phase = .ack →
      message.txn = txn → ∀ resource ∈ resources, ∃ sooner rest,
        earlier = sooner ++ .did (.deleted resource) :: rest ∧ OnBehalf sooner txn resource) ∧
    ∀ resource, Since .disturbed history (.did (.deleted resource)) →
      ResourceStore.holds resource s.storage = false := by
  have inForm : InForm (Log.recordsOf txn (logged history)) :=
    inForm_logged (orderly_run run) (heedful_run run).timely (orphansEnd_of_voteFirst run split first)
  have unique : ∀ one other, .decision txn one ∈ logged history →
      .decision txn other ∈ logged history → one = other := fun one other member memberToo =>
    inForm.decision_unique (Log.mem_recordsOf.mpr ⟨member, rfl⟩) (Log.mem_recordsOf.mpr ⟨memberToo, rfl⟩)
  have voted : .prepare txn resources vote ∈ logged history := mem_logged.mpr (by simp [split])
  have rests : ∀ earlier resource later, history = earlier ++ .did (.deleted resource) :: later →
      OnBehalf earlier txn resource →
        vote = .accept ∧ resource ∈ resources ∧ .decision txn .commit ∈ logged earlier := by
    intro earlier resource later parted behalf
    obtain ⟨owner, listed, dooms, member, only⟩ := deleted_for run parted
    obtain rfl := (only txn).mp behalf
    have accepted : .prepare txn listed .accept ∈ logged history := by
      simp [parted, vote_known dooms.accepted]
    have cast := (consistent_run run).kept.vote _ _ _ accepted
    rw [(consistent_run run).kept.vote _ _ _ voted] at cast
    cases cast
    exact ⟨rfl, member, decision_known dooms.committed⟩
  refine ⟨inForm.decisions, rests, ?_, ?_, fun resource => deleted_gone run⟩
  · intro against earlier resource later parted behalf
    obtain ⟨accepted, _, committed⟩ := rests earlier resource later parted behalf
    rcases against with aborted | refused
    · have committedToo : .decision txn .commit ∈ logged history := by
        rw [parted, logged_append]
        exact List.mem_append_left _ committed
      cases unique _ _ aborted committedToo
    · simp [accepted] at refused
  · rintro committed rfl earlier recipient message later parted ack rfl resource listed
    have ended : .done message.txn ∈ logged earlier := orderly_run run _ _ _ parted ack
    obtain ⟨sooner, rest, rfl⟩ := List.append_of_mem (mem_logged.mp ended)
    obtain ⟨start, others, rfl, behalf⟩ := deleted_before_end run
      (by simp [parted] : history = sooner ++ .did (.appended (.done message.txn)) ::
        (rest ++ .sent recipient message :: later)) voted
      (fun outcome told => unique _ _ told committed) listed
    exact ⟨start, others ++ .did (.appended (.done message.txn)) :: rest, by simp, behalf⟩

def contradicted : List Action :=
  [.start {}, .receive ⟨"c", .prepare "t" ["x"] []⟩, .answer "t" true,
    .receive ⟨"c", .decision "t" .commit⟩, .receive ⟨"d", .decision "t" .abort⟩]

/-- A commit whose deletion failed is carried out when an abort is heard, and only then acknowledged. -/
theorem committed_against_abort : ∃ history s before after,
    stocked.playAll contradicted = some (history, s) ∧
    history = before ++ .did (.appended (.prepare "t" ["x"] .accept)) :: after ∧
    (∀ outcome, .decision "t" outcome ∉ logged before) ∧
    held s.storage = [.prepare "t" ["x"] .accept, .decision "t" .commit, .done "t"] ∧
    ∃ earlier later, history = earlier ++ .sent "d" (.ack "t") :: later ∧
      ∃ sooner rest, earlier = sooner ++ .did (.deleted "x") :: rest ∧ OnBehalf sooner "t" "x" := by
  have played : ((stocked.playAll contradicted).map fun result => (result.1, held result.2.storage)) =
    some ([.started, .did (.compacted []), .recovered (.ok {}),
        .received ⟨"c", .prepare "t" ["x"] []⟩, .asked ⟨"t", ["x"], []⟩,
        .answered ⟨"t", ["x"], []⟩ true, .did (.appended (.prepare "t" ["x"] .accept)),
        .sent "c" (.vote "t" .accept), .received ⟨"c", .decision "t" .commit⟩,
        .did (.appended (.decision "t" .commit)), .received ⟨"d", .decision "t" .abort⟩,
        .did (.deleted "x"), .did (.appended (.done "t")), .sent "d" (.ack "t")],
      [.prepare "t" ["x"] .accept, .decision "t" .commit, .done "t"]) := by rfl
  obtain ⟨⟨history, s⟩, played, facts⟩ := Option.map_eq_some_iff.mp played
  simp only [Prod.mk.injEq] at facts
  obtain ⟨happened, records⟩ := facts
  have run : Station.Run history s := Station.playAll_run (.begin stocked.storage rfl) played
  obtain ⟨before, after, split, first⟩ : ∃ before after,
      history = before ++ .did (.appended (.prepare "t" ["x"] .accept)) :: after ∧
        ∀ outcome, .decision "t" outcome ∉ logged before :=
    ⟨history.take 6, history.drop 7, by subst happened; rfl, fun outcome told => by
      subst happened
      simpa using mem_logged.mp told⟩
  obtain ⟨_, _, _, applied, _⟩ := first_decision_stands run split first
  have committed : .decision "t" .commit ∈ logged history := mem_logged.mpr (by simp [happened])
  have acked : history = history.take 13 ++ .sent "d" (.ack "t") :: [] := by subst happened; rfl
  exact ⟨history, s, before, after, played, split, first, records, _, [], acked,
    applied committed rfl _ "d" (.ack "t") [] acked rfl rfl "x" List.mem_cons_self⟩

end AtomicCommit.Participant
