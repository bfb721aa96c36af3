import AtomicCommit.Participant.Recovery

/-! What a participant does to its storage is made of a few operations: whatever these keep, the handling
of a message and a recovery keep. -/

namespace AtomicCommit.Participant

variable {σ : Type}

theorem openVote_storage [ResourceStore σ] (request : VoteRequest) (p : Participant σ) :
    (p.openVote request).2.storage = p.storage := by
  rw [openVote]
  split
  · rfl
  · split
    · split <;> rfl
    · rfl

structure Pervasive [Journal σ Entry] [ResourceStore σ] (Related : σ → σ → Prop) : Prop where
  refl : ∀ s, Related s s
  trans : ∀ {s between after}, Related s between → Related between after → Related s after
  append : ∀ entry s, Related s (Journal.append entry s).2
  compact : ∀ entries s, Related s (Journal.compact entries s).2
  delete : ∀ name s, Related s (ResourceStore.delete name s).2

namespace Pervasive

variable [Journal σ Entry] [ResourceStore σ] {Related : σ → σ → Prop}

theorem appended (pervasive : Pervasive Related) (entry : Entry) (p : Participant σ) :
    Related p.storage (p.append entry).2.storage := by
  have appended := pervasive.append entry p.storage
  rw [Participant.append]
  split
  all_goals
    next result => rwa [result] at appended

theorem castVote (pervasive : Pervasive Related) (request : VoteRequest) (wasGranted : Bool)
    (vote : Vote) (p : Participant σ) :
    Related p.storage (p.castVote request wasGranted vote).2.storage := by
  have released : ∀ test : Bool,
      (if test then p.releaseLocks request.txn request.resources else p).storage = p.storage := by
    intro test
    split <;> rfl
  have appended := pervasive.appended (.prepare request.txn request.resources vote)
    (if wasGranted && !vote.isAccept then p.releaseLocks request.txn request.resources else p)
  rw [released] at appended
  simp only [Participant.castVote]
  split
  next e after failed =>
    rw [failed] at appended
    split <;> exact appended
  next after logged =>
    rw [logged] at appended
    exact appended

theorem deleteAll (pervasive : Pervasive Related) (names : List String) (p : Participant σ) :
    Related p.storage (p.deleteAll names).2.storage := by
  induction names generalizing p with
  | nil => exact pervasive.refl _
  | cons name rest ih =>
    have deleted := pervasive.delete name p.storage
    rw [Participant.deleteAll]
    split
    next s result =>
      rw [result] at deleted
      exact pervasive.trans deleted (ih { p with storage := s })
    next e s result =>
      rw [result] at deleted
      exact deleted

theorem finish (pervasive : Pervasive Related) (txn : String) (pending : Pending)
    (p : Participant σ) : Related p.storage (p.finish txn pending).2.storage := by
  rw [Participant.finish]
  split
  next => exact pervasive.refl _
  next outcome _ =>
    have deleted := pervasive.deleteAll (pending.doomed outcome) p
    split
    next e after failed => rwa [failed] at deleted
    next after done =>
      rw [done] at deleted
      have ended := pervasive.trans deleted (pervasive.appended (.done txn) after)
      split
      all_goals
        next result =>
          rw [result] at ended
          exact ended

theorem handleDecision (pervasive : Pervasive Related) (txn : String) (outcome : Outcome)
    (p : Participant σ) : Related p.storage (p.handleDecision txn outcome).2.storage := by
  have heard := pervasive.appended (.decision txn outcome) p
  rw [Participant.handleDecision]
  split
  · exact pervasive.refl _
  split
  next =>
    rw [Participant.resolveUnknown]
    split
    next e after failed => rwa [failed] at heard
    next after logged =>
      rw [logged] at heard
      have ended := pervasive.trans heard (pervasive.appended (.done txn) after)
      split
      all_goals
        next result =>
          rw [result] at ended
          exact ended
  next pending _ =>
    split
    next => exact pervasive.finish txn pending p
    next =>
      split
      next e after failed => rwa [failed] at heard
      next after logged =>
        rw [logged] at heard
        exact pervasive.trans heard (pervasive.finish txn _ (after.setPending txn _))

theorem react (pervasive : Pervasive Related) (message : Message) (p : Participant σ) :
    Related p.storage (react message p).2.storage := by
  have decided : ∀ outcome, Related p.storage (react.decide message p outcome).2.storage := by
    intro outcome
    have handled := pervasive.handleDecision message.txn outcome p
    rw [react.decide]
    split
    all_goals
      next result => rwa [result] at handled
  have opened := openVote_storage (requestOf message) p
  cases phase : message.phase <;> simp only [Participant.react, phase]
  case prepare =>
    split
    next result =>
      rw [result] at opened
      exact opened ▸ pervasive.refl _
    next after result =>
      rw [result] at opened
      exact opened ▸ pervasive.castVote (requestOf message) false .refuse after
    next result =>
      rw [result] at opened
      exact opened ▸ pervasive.refl _
  case commit => exact decided .commit
  case abort => exact decided .abort
  all_goals exact pervasive.refl _

theorem reapply (pervasive : Pervasive Related) (items : List (String × Option Pending))
    (p : Participant σ) : Related p.storage (reapply items p).2.storage := by
  induction items generalizing p with
  | nil => exact pervasive.refl _
  | cons item rest ih =>
    obtain ⟨txn, _ | pending⟩ := item
    · have ended := pervasive.appended (.done txn) p
      rw [Participant.reapply]
      split
      next e after failed => rwa [failed] at ended
      next after done =>
        rw [done] at ended
        exact pervasive.trans ended (ih (after.setResolved txn none))
    · have finished := pervasive.finish txn pending p
      rw [Participant.reapply]
      split
      next e after failed => rwa [failed] at finished
      next after done =>
        rw [done] at finished
        exact pervasive.trans finished (ih after)

theorem compactLog (pervasive : Pervasive Related) (config : Config) (entries : List Entry)
    (p : Participant σ) : Related p.storage (p.compactLog config entries).2.storage := by
  have compacted := pervasive.compact (compacted entries) p.storage
  rw [Participant.compactLog]
  split
  · split
    all_goals
      next result => rwa [result] at compacted
  · exact pervasive.refl _

theorem recover (pervasive : Pervasive Related) (config : Config) (p : Participant σ) :
    Related p.storage (recover config p).2.storage := by
  rw [Participant.recover]
  split
  next => exact pervasive.refl _
  next entries _ =>
    have compacted := pervasive.compactLog config entries p
    split
    next e after failed => rwa [failed] at compacted
    next after done =>
      rw [done] at compacted
      simp only
      generalize List.foldl _ after.memory (traces entries) = memory
      have reapplied := pervasive.trans compacted
        (pervasive.reapply (toReapply (traces entries)) ⟨memory, after.storage⟩)
      split
      all_goals
        next result =>
          rw [result] at reapplied
          exact reapplied

end Pervasive

end AtomicCommit.Participant
