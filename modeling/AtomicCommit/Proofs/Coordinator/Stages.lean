import AtomicCommit.Proofs.Coordinator.Consistent

/-! What holds of a transaction at each stage of its engine, going by what has happened so far. -/

namespace AtomicCommit.Coordinator

def Heard (history : List Event) (name : String) (envelope : Envelope) : Prop :=
  .received envelope ∈ history ∧ envelope.message.txn = name

theorem Heard.later {history : List Event} {name : String} {envelope : Envelope}
    (heard : Heard history name envelope) (events : List Event) :
    Heard (history ++ events) name envelope :=
  ⟨List.mem_append_left _ heard.1, heard.2⟩

theorem Move.queue_subset {t : Transaction} {stage : Stage} {queue rest : List Envelope}
    {next : Next} {sent : List (String × Message)} {deeds : List (Deed Entry)}
    (move : Move t stage queue next sent rest deeds) : rest ⊆ queue := by
  cases move <;> simp

structure Carried (Holds : List Event → Transaction → Stage → Prop) : Prop where
  later : ∀ {history t stage} events, Holds history t stage → Holds (history ++ events) t stage
  starts : ∀ {history t}, .admitted t ∈ history → Holds history t .starting
  resumes : ∀ history t outcome, Holds history t (.announcing outcome t.participants)
  moves : ∀ {history t stage queue next sent rest deeds stage'},
    Move t stage queue next sent rest deeds → Holds history t stage →
    (∀ envelope ∈ queue, Heard history t.name envelope) → next = .stage stage' →
    Holds history t stage'

variable {σ : Type} [Journal σ Entry] [LawfulJournal σ Entry] [Publishing σ]
  [LawfulPublishing σ Entry]

theorem recover_tidy (config : Config) (storage : σ) (right : String → Envelope → Prop) :
    (recover config {} (⟨storage, []⟩ : Recorded σ Entry)).2.inboxes.Tidy right := by
  obtain ⟨_, tidy, _⟩ := recover_induction (P := fun _ _ r => r.inboxes.Tidy right) config {} storage
    (by
      intro txn trace rest r result after tidy followed
      generalize trace.plan = plan at followed
      cases followed with
      | resume _ _ _ _ _ _ created => exact tidy.create created
      | abort _ _ _ _ _ _ _ created => exact tidy.create created
      | _ => exact tidy)
    (fun _ _ _ _ _ _ => .empty right)
  exact tidy

theorem heard_run {history : List Event} {s : Station σ} (run : Station.Run history s) :
    ∀ now, s.running = some now → now.inboxes.Tidy (Heard history) := by
  induction run with
  | begin => simp
  | @step history events s s' run stepped ih =>
    have before : ∀ now, s.running = some now → now.inboxes.Tidy (Heard (history ++ events)) :=
      fun now running => (ih now running).imp fun _ _ heard => heard.later events
    cases stepped with
    | wait | disturb => exact before
    | start config down =>
      rintro now ⟨⟩
      exact recover_tidy config s.storage _
    | stop => simp
    | commit now name payload sources inbox inboxes parsed running admitted =>
      rintro later ⟨⟩
      exact (before now running).create (admission_created admitted)
    | receive now envelope running =>
      rintro later ⟨⟩
      exact (before now running).deliver ⟨by simp, rfl⟩
    | advance now earlier engine others progress running engines stepped =>
      obtain ⟨move, _⟩ := step_follows stepped
      have emptier := (before now running).setQueue move.queue_subset
      rintro later ⟨⟩
      cases progress.next with
      | stage stage => exact emptier
      | finished result => exact emptier.drop engine.inbox

theorem staged_run {Holds : List Event → Transaction → Stage → Prop} (carried : Carried Holds)
    {history : List Event} {s : Station σ} (run : Station.Run history s)
    (unique : UniqueNames history) : ∀ now, s.running = some now → ∀ engine ∈ now.engines,
      Holds history engine.transaction engine.stage := by
  induction run with
  | begin => simp
  | @step history events s s' run stepped ih =>
    have earlier := unique.of_append
    have before : ∀ now, s.running = some now → ∀ engine ∈ now.engines,
        Holds (history ++ events) engine.transaction engine.stage :=
      fun now running engine member => carried.later events (ih earlier now running engine member)
    cases stepped with
    | wait | disturb => exact before
    | start config down =>
      rintro now ⟨⟩ engine member
      obtain ⟨resumed, _, rfl⟩ := List.mem_map.mp member
      exact carried.resumes _ _ _
    | stop => simp
    | commit now name payload sources inbox inboxes parsed running admitted =>
      rintro later ⟨⟩ engine member
      rcases List.mem_append.mp member with old | new
      · exact before now running engine old
      · obtain rfl := List.mem_singleton.mp new
        exact carried.starts (by simp)
    | receive now envelope running =>
      rintro later ⟨⟩
      exact before now running
    | advance now others engine after progress running engines stepped =>
      obtain ⟨move, _⟩ := step_follows stepped
      have working : engine ∈ now.engines := by simp [engines]
      have reaches := ((consistent_run run earlier).occupied now running).reaches engine working
      rintro later ⟨⟩ other member
      rcases Incarnation.mem_replace member with old | ⟨stage, staged, rfl⟩
      · exact before now running other (engines ▸ by grind)
      · exact carried.later _ (carried.moves move (ih earlier now running engine working)
          ((heard_run run now running).reached reaches) staged)

end AtomicCommit.Coordinator
