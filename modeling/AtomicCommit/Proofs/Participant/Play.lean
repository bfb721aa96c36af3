import AtomicCommit.Proofs.Participant.Run

/-! Playing a run of a participant, like that of a coordinator. -/

namespace AtomicCommit.Participant

inductive Action where
  | start (config : Config)
  | stop
  | receive (envelope : Envelope)
  | answer (txn : String) (approved : Bool)
  deriving DecidableEq, Repr

namespace Station

variable {τ : Type} [Journal τ Entry] [ResourceStore τ]

def play (s : Station τ) : Action → Option (List Event × Station τ)
  | .start config =>
    match s.running with
    | none =>
      let result := recover config (⟨{}, ⟨s.storage, []⟩⟩ : Participant (Recorded τ Entry))
      some (startEvents result, s.afterStart result)
    | some _ => none
  | .stop => some ([.stopped], { s with running := none })
  | .receive envelope => do
    let now ← s.running
    if now.isFree envelope.message.txn then
      let result := react envelope.message (now.participant s.storage)
      some ([.received envelope] ++ reactionEvents envelope.sender result,
        afterReaction now envelope.sender result)
    else none
  | .answer txn approved => do
    let now ← s.running
    let question ← now.asking.get? txn
    let result := answerReaction question.request approved (now.participant s.storage)
    some ([.answered question.request approved] ++ reactionEvents question.sender result,
      afterReaction { now with asking := now.asking.erase txn } question.sender result)

def playAll (s : Station τ) : List Action → Option (List Event × Station τ)
  | [] => some ([], s)
  | action :: rest => do
    let (events, s) ← s.play action
    let (later, s) ← s.playAll rest
    some (events ++ later, s)

variable [LawfulJournal τ Entry]

theorem play_step {s s' : Station τ} {action : Action} {events : List Event}
    (played : s.play action = some (events, s')) : s.Step events s' := by
  cases action with
  | start config =>
    simp only [play] at played
    split at played
    next down =>
      cases played
      exact .start s config down
    next => cases played
  | stop =>
    cases played
    exact .stop s
  | receive envelope =>
    simp only [play, Option.bind_eq_bind, Option.bind_eq_some_iff] at played
    obtain ⟨now, running, played⟩ := played
    split at played
    next free =>
      cases played
      exact .receive s now envelope running free
    next => cases played
  | answer txn approved =>
    simp only [play, Option.bind_eq_bind, Option.bind_eq_some_iff] at played
    obtain ⟨now, running, question, asked, played⟩ := played
    cases played
    exact .answer s now txn question approved running asked

theorem playAll_steps {first s s' : Station τ} {actions : List Action} {earlier events : List Event}
    (steps : first.Steps earlier s) (played : s.playAll actions = some (events, s')) :
    first.Steps (earlier ++ events) s' := by
  induction actions generalizing s earlier events with
  | nil =>
    cases played
    simpa using steps
  | cons action rest ih =>
    simp only [playAll, Option.bind_eq_bind, Option.bind_eq_some_iff, Option.some.injEq,
      Prod.mk.injEq] at played
    obtain ⟨⟨first, between⟩, one, ⟨later, last⟩, others, rfl, rfl⟩ := played
    simpa using ih (steps.step (play_step one)) others

theorem playAll_run {s s' : Station τ} {actions : List Action} {history events : List Event}
    (run : Run history s) (played : s.playAll actions = some (events, s')) :
    Run (history ++ events) s' :=
  run.steps (playAll_steps .nothing played)

end Station

end AtomicCommit.Participant
