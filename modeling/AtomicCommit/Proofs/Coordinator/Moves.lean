import AtomicCommit.Proofs.Coordinator.Run

/-! The moves of an engine: everything that one step can do, with what it notes in the storage and
what it hands to the transport. -/

namespace AtomicCommit.Coordinator

/-- `Move t stage queue next sent rest deeds`: the engine of `t` can go from `stage` to `next`. -/
inductive Move (t : Transaction) : Stage → List Envelope →
    Next → List (String × Message) → List Envelope → List (Deed Entry) → Prop where
  | notRequested (queue e) : Move t .starting queue (.finished (.error (.log e))) [] queue []
  | requested (queue deadline) : Move t .starting queue (.stage (.voting deadline [])) t.requests
      queue [.appended (.prepare t.name t.sources)]
  | counted (queue deadline ballot outcome now) : ballot.outcome? t.participants = some outcome →
      Move t (.voting deadline ballot) queue (.stage (decided now outcome)) [] queue []
  | heard (envelope rest deadline ballot) : ballot.outcome? t.participants = none →
      Move t (.voting deadline ballot) (envelope :: rest)
        (.stage (.voting deadline (ballot.receive t.participants envelope))) [] rest []
  | expired (deadline ballot now) :
      Move t (.voting deadline ballot) [] (.stage (.deciding .abort now)) [] [] []
  | published (queue now) : Move t .publishing queue (.stage (.deciding .commit now)) [] queue
      [.published t.name t.payload]
  | notPublished (queue now) : Move t .publishing queue (.stage (.deciding .abort now)) [] queue []
  | stranded (queue now) : Move t .publishing queue (.stage (.deciding .abort now)) [] queue
      [.stranded t.name t.payload]
  | recorded (queue outcome due) : Move t (.deciding outcome due) queue
      (.stage (.announcing outcome t.participants)) [] queue [.appended (.decision t.name outcome)]
  | notRecorded (queue outcome due later) : Move t (.deciding outcome due) queue
      (.stage (.deciding outcome later)) [] queue []
  | nobodyLeft (queue outcome now) : Move t (.announcing outcome []) queue
      (.stage (.closing outcome now)) [] queue []
  | announced (queue outcome waiting deadline) : waiting ≠ [] →
      Move t (.announcing outcome waiting) queue (.stage (.awaiting outcome waiting deadline))
        (waiting.map fun participant => (participant, Message.decision t.name outcome)) queue []
  | acknowledged (queue outcome deadline now) : Move t (.awaiting outcome [] deadline) queue
      (.stage (.closing outcome now)) [] queue []
  | noted (envelope rest outcome waiting deadline) : waiting ≠ [] →
      Move t (.awaiting outcome waiting deadline) (envelope :: rest)
        (.stage (.awaiting outcome (stillWaiting waiting envelope) deadline)) [] rest []
  | again (outcome waiting deadline) : waiting ≠ [] →
      Move t (.awaiting outcome waiting deadline) [] (.stage (.announcing outcome waiting)) [] [] []
  | closed (queue outcome due) : Move t (.closing outcome due) queue (.finished (.ok outcome)) []
      queue [.appended (.done t.name)]
  | notClosed (queue outcome due later) : Move t (.closing outcome due) queue
      (.stage (.closing outcome later)) [] queue []

inductive Stage.Logs (t : Transaction) : Stage → Entry → Prop where
  | request : Stage.Logs t .starting (.prepare t.name t.sources)
  | outcome (outcome due) : Stage.Logs t (.deciding outcome due) (.decision t.name outcome)
  | finish (outcome due) : Stage.Logs t (.closing outcome due) (.done t.name)

theorem Move.logs {t : Transaction} {stage : Stage} {queue rest : List Envelope} {next : Next}
    {sent : List (String × Message)} {deeds : List (Deed Entry)}
    (move : Move t stage queue next sent rest deeds) {entry : Entry}
    (logged : entry ∈ Deed.records deeds) : stage.Logs t entry ∧ deeds = [.appended entry] := by
  cases move with
  | requested =>
    cases List.mem_singleton.mp logged
    exact ⟨.request, rfl⟩
  | recorded queue outcome due =>
    cases List.mem_singleton.mp logged
    exact ⟨.outcome outcome due, rfl⟩
  | closed queue outcome due =>
    cases List.mem_singleton.mp logged
    exact ⟨.finish outcome due, rfl⟩
  | _ => simp at logged

variable {σ : Type} [Journal σ Entry] [LawfulJournal σ Entry] [Publishing σ]
  [LawfulPublishing σ Entry]

def Progress.Follows (t : Transaction) (stage : Stage) (queue : List Envelope) (storage : σ)
    (progress : Progress (Recorded σ Entry)) : Prop :=
  Move t stage queue progress.next progress.sent progress.queue progress.storage.deeds ∧
    held progress.storage.storage = held storage ++ Deed.records progress.storage.deeds

theorem step_follows {config : Config} {now : Nat} {t : Transaction} {stage : Stage}
    {queue : List Envelope} {storage : σ} {progress : Progress (Recorded σ Entry)}
    (stepped : step config now t stage queue ⟨storage, []⟩ = some progress) :
    progress.Follows t stage queue storage := by
  cases stage with
  | starting =>
    rcases Recorded.append_cases (.prepare t.name t.sources) (⟨storage, []⟩ : Recorded σ Entry)
      with ⟨s, result, kept⟩ | ⟨e, s, result, kept⟩
    · simp only [step, result, Option.some.injEq] at stepped
      subst stepped
      exact ⟨.requested _ _, kept⟩
    · simp only [step, result, Option.some.injEq] at stepped
      subst stepped
      exact ⟨.notRequested _ _, by simpa using kept⟩
  | voting deadline ballot =>
    simp only [step] at stepped
    split at stepped
    next outcome _ counted =>
      cases stepped
      exact ⟨.counted _ _ _ _ _ counted, by simp⟩
    next envelope rest _ uncounted =>
      cases stepped
      exact ⟨.heard _ _ _ _ uncounted, by simp⟩
    next =>
      split at stepped
      · cases stepped
        exact ⟨.expired _ _ _, by simp⟩
      · cases stepped
  | publishing =>
    rcases Recorded.publish_cases t.name t.payload (⟨storage, []⟩ : Recorded σ Entry)
      with ⟨s, kept, result | ⟨e, result | result⟩⟩ <;>
      simp only [step, result, Option.some.injEq] at stepped <;> subst stepped
    · exact ⟨.published _ _, kept.trans (List.append_nil _).symm⟩
    · exact ⟨.notPublished _ _, by simpa using kept⟩
    · exact ⟨.stranded _ _, kept.trans (List.append_nil _).symm⟩
  | deciding outcome due =>
    simp only [step] at stepped
    split at stepped
    · cases stepped
    rcases Recorded.append_cases (.decision t.name outcome) (⟨storage, []⟩ : Recorded σ Entry)
      with ⟨s, result, kept⟩ | ⟨e, s, result, kept⟩
    · simp only [result, Option.some.injEq] at stepped
      subst stepped
      exact ⟨.recorded _ _ _, kept⟩
    · simp only [result, Option.some.injEq] at stepped
      subst stepped
      exact ⟨.notRecorded _ _ _ _, by simpa using kept⟩
  | announcing outcome waiting =>
    simp only [step, List.isEmpty_iff] at stepped
    split at stepped
    · rename_i empty
      cases stepped
      subst empty
      exact ⟨.nobodyLeft _ _ _, by simp⟩
    · rename_i some
      cases stepped
      exact ⟨.announced _ _ _ _ some, by simp⟩
  | awaiting outcome waiting deadline =>
    simp only [step, List.isEmpty_iff] at stepped
    split at stepped
    · rename_i empty
      cases stepped
      subst empty
      exact ⟨.acknowledged _ _ _ _, by simp⟩
    · rename_i some
      split at stepped
      · cases stepped
        exact ⟨.noted _ _ _ _ _ some, by simp⟩
      · split at stepped
        · cases stepped
          exact ⟨.again _ _ _ some, by simp⟩
        · cases stepped
  | closing outcome due =>
    simp only [step] at stepped
    split at stepped
    · cases stepped
    rcases Recorded.append_cases (.done t.name) (⟨storage, []⟩ : Recorded σ Entry)
      with ⟨s, result, kept⟩ | ⟨e, s, result, kept⟩
    · simp only [result, Option.some.injEq] at stepped
      subst stepped
      exact ⟨.closed _ _ _, kept⟩
    · simp only [result, Option.some.injEq] at stepped
      subst stepped
      exact ⟨.notClosed _ _ _ _, by simpa using kept⟩

end AtomicCommit.Coordinator
