import AtomicCommit.Coordinator.Recovery

/-! What a coordinator does to its storage is made of a few operations: whatever these keep, an engine
and a recovery keep. -/

namespace AtomicCommit.Coordinator

variable {σ : Type}

theorem takeUp_storage (r : Recovering σ) (txn : String) (sources : List Source)
    (outcome : Outcome) : (r.takeUp txn sources outcome).2.storage = r.storage := by
  rw [Recovering.takeUp]
  split <;> rfl

/-- Each operation leads from a storage to a related one, and so do several. -/
structure Pervasive [Journal σ Entry] [Publishing σ] (Related : σ → σ → Prop) : Prop where
  refl : ∀ s, Related s s
  trans : ∀ {s between after}, Related s between → Related between after → Related s after
  append : ∀ entry s, Related s (Journal.append entry s).2
  compact : ∀ entries s, Related s (Journal.compact entries s).2
  publish : ∀ name payload s, Related s (Publishing.publish name payload s).2
  retract : ∀ name s, Related s (Publishing.retract name s).2

namespace Pervasive

variable [Journal σ Entry] [Publishing σ] {Related : σ → σ → Prop}

theorem step (pervasive : Pervasive Related) {config : Config} {now : Nat} {t : Transaction}
    {stage : Stage} {queue : List Envelope} {storage : σ} {progress : Progress σ}
    (stepped : step config now t stage queue storage = some progress) :
    Related storage progress.storage := by
  have same := pervasive.refl storage
  have appended := fun entry => pervasive.append entry storage
  have published := pervasive.publish t.name t.payload storage
  cases stage <;> simp only [Coordinator.step] at stepped <;> grind

theorem forceAbort (pervasive : Pervasive Related) (txn : String) (storage : σ) :
    Related storage (forceAbort txn storage).2 := by
  have retracted := pervasive.retract txn storage
  rw [Coordinator.forceAbort]
  split
  next e s failed => rwa [failed] at retracted
  next s done =>
    rw [done] at retracted
    have appended := pervasive.trans retracted (pervasive.append (.decision txn .abort) s)
    split
    next e s' failed => rwa [failed] at appended
    next s' done => rwa [done] at appended

theorem follow (pervasive : Pervasive Related) (r : Recovering σ) (txn : String) (plan : Plan) :
    Related r.storage (r.follow txn plan).2.storage := by
  cases plan with
  | completed => exact pervasive.refl _
  | forgotten => exact pervasive.refl _
  | resume sources outcome =>
    rw [Recovering.follow, takeUp_storage]
    exact pervasive.refl _
  | forceAbort sources =>
    have aborted := pervasive.forceAbort txn r.storage
    rw [Recovering.follow]
    split
    next e s failed => rwa [failed] at aborted
    next s done =>
      rw [takeUp_storage]
      rwa [done] at aborted

theorem followAll (pervasive : Pervasive Related) (found : List (String × Trace))
    (r : Recovering σ) : Related r.storage (followAll found r).2.storage := by
  induction found generalizing r with
  | nil => exact pervasive.refl _
  | cons entry rest ih =>
    obtain ⟨txn, trace⟩ := entry
    have followed := pervasive.follow r txn trace.plan
    rw [Coordinator.followAll]
    split
    next e after failed => rwa [failed] at followed
    next after done =>
      rw [done] at followed
      exact pervasive.trans followed (ih after)

theorem recover (pervasive : Pervasive Related) (config : Config) (inboxes : Inboxes Envelope)
    (storage : σ) : Related storage (recover config inboxes storage).2.storage := by
  rw [Coordinator.recover]
  split
  next => exact pervasive.refl _
  next entries read =>
    have compacted := pervasive.compact (Log.unfinished entries) storage
    have followed := fun between =>
      pervasive.followAll (traces entries) { storage := between, inboxes }
    by_cases compacting : config.compactOnRecovery
    · simp only [compacting, if_true]
      split
      next e between failed => rwa [failed] at compacted
      next between done =>
        rw [done] at compacted
        exact pervasive.trans compacted (followed between)
    · simp only [compacting]
      exact followed storage

end Pervasive

end AtomicCommit.Coordinator
