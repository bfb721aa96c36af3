import AtomicCommit.Proofs.Coordinator.Run

/-! Playing a run of a coordinator: each step as a function of what happens to the station. -/

namespace AtomicCommit.Coordinator

inductive Action where
  | wait (duration : Nat)
  | start (config : Config)
  | stop
  | commit (name : String) (payload : Bytes) (sources : List String)
  | receive (envelope : Envelope)
  | advance (place : Nat)
  deriving DecidableEq, Repr

def Action.Brings (action : Action) : Event → Prop
  | .disturbed => False
  | .admitted t => ∃ sources, action = .commit t.name t.payload sources
  | .received envelope => action = .receive envelope
  | _ => True

namespace Station

variable {σ : Type} [Journal σ Entry] [Publishing σ]

def play (s : Station σ) : Action → Option (List Event × Station σ)
  | .wait duration => some ([], { s with clock := s.clock + duration })
  | .start config =>
    match s.running with
    | none =>
      let result := recover config {} (⟨s.storage, []⟩ : Recorded σ Entry)
      some (startEvents result, s.afterStart config result)
    | some _ => none
  | .stop => some ([.stopped], { s with running := none })
  | .commit name payload sources => do
    let now ← s.running
    match admission name sources now.gateOpen now.inboxes with
    | .admitted inbox inboxes parsed =>
      some ([.admitted ⟨name, payload, parsed⟩], { s with
        running := some { now with
          inboxes := inboxes
          engines := now.engines ++ [⟨inbox, ⟨name, payload, parsed⟩, .starting⟩] } })
    | _ => none
  | .receive envelope => do
    let now ← s.running
    some ([.received envelope], { s with running := some (now.receive envelope) })
  | .advance place => do
    let now ← s.running
    match now.engines.drop place with
    | [] => none
    | engine :: after =>
      let progress ← Coordinator.step now.config s.clock engine.transaction engine.stage
        (now.inboxes.queue engine.inbox) (⟨s.storage, []⟩ : Recorded σ Entry)
      some (progress.events engine.name, { s with
        running := some
          (now.replace (now.engines.take place) engine after progress.queue progress.next)
        storage := progress.storage.storage })

def playAll (s : Station σ) : List Action → Option (List Event × Station σ)
  | [] => some ([], s)
  | action :: rest => do
    let (events, s) ← s.play action
    let (later, s) ← s.playAll rest
    some (events ++ later, s)

theorem play_brings {s s' : Station σ} {action : Action} {events : List Event}
    (played : s.play action = some (events, s')) : ∀ event ∈ events, action.Brings event := by
  cases action with
  | wait | stop =>
    cases played
    simp [Action.Brings]
  | start =>
    simp only [play] at played
    split at played
    · cases played
      simp [startEvents, Action.Brings, or_imp, forall_and]
    · cases played
  | commit name payload sources =>
    simp only [play, Option.bind_eq_bind, Option.bind_eq_some_iff] at played
    obtain ⟨now, _, played⟩ := played
    split at played
    · cases played
      simp [Action.Brings]
    · cases played
  | receive =>
    simp only [play, Option.bind_eq_bind, Option.bind_eq_some_iff] at played
    obtain ⟨now, _, played⟩ := played
    cases played
    simp [Action.Brings]
  | advance =>
    simp only [play, Option.bind_eq_bind, Option.bind_eq_some_iff] at played
    obtain ⟨now, _, played⟩ := played
    split at played
    · cases played
    · obtain ⟨progress, _, played⟩ := Option.bind_eq_some_iff.mp played
      cases played
      intro event member
      cases event with
      | disturbed | admitted | received =>
        cases next : progress.next <;> simp [Progress.events, Next.events, next] at member
      | _ => trivial

variable [LawfulJournal σ Entry]

theorem play_step {s s' : Station σ} {action : Action} {events : List Event}
    (played : s.play action = some (events, s')) : s.Step events s' := by
  cases action with
  | wait duration =>
    cases played
    exact .wait s duration
  | start config =>
    simp only [play] at played
    split at played
    next down =>
      cases played
      exact .start s config down
    next => cases played
  | stop =>
    cases played
    exact .stop s
  | commit name payload sources =>
    simp only [play, Option.bind_eq_bind, Option.bind_eq_some_iff] at played
    obtain ⟨now, running, played⟩ := played
    split at played
    next inbox inboxes parsed admitted =>
      cases played
      exact .commit s now name payload sources inbox inboxes parsed running admitted
    next => cases played
  | receive envelope =>
    simp only [play, Option.bind_eq_bind, Option.bind_eq_some_iff] at played
    obtain ⟨now, running, played⟩ := played
    cases played
    exact .receive s now envelope running
  | advance place =>
    simp only [play, Option.bind_eq_bind, Option.bind_eq_some_iff] at played
    obtain ⟨now, running, played⟩ := played
    split at played
    next => cases played
    next engine after rest =>
      obtain ⟨progress, stepped, played⟩ := Option.bind_eq_some_iff.mp played
      cases played
      have engines : now.engines = now.engines.take place ++ engine :: after := by
        rw [← rest, List.take_append_drop]
      exact .advance s now _ engine after progress running engines stepped

theorem playAll_steps {first s s' : Station σ} {actions : List Action} {earlier events : List Event}
    (steps : first.Steps earlier s) (played : s.playAll actions = some (events, s')) :
    first.Steps (earlier ++ events) s' := by
  induction actions generalizing s earlier events with
  | nil =>
    cases played
    simpa using steps
  | cons action rest ih =>
    simp only [playAll, Option.bind_eq_bind, Option.bind_eq_some_iff, Option.some.injEq,
      Prod.mk.injEq] at played
    obtain ⟨⟨first, between⟩, one, ⟨later, last⟩, others, rfl, rfl⟩ := played
    simpa using ih (steps.step (play_step one)) others

theorem playAll_run {s s' : Station σ} {actions : List Action} {history events : List Event}
    (run : Run history s) (played : s.playAll actions = some (events, s')) :
    Run (history ++ events) s' :=
  run.steps (playAll_steps .nothing played)

end Station

end AtomicCommit.Coordinator
