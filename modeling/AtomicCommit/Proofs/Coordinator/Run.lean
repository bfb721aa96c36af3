import AtomicCommit.Coordinator.Admission
import AtomicCommit.Coordinator.Recovery
import AtomicCommit.Proofs.Histories

/-! Runs of a coordinator. Between its steps anything may happen: messages arrive in any number and
order, time passes, the coordinator goes down and is started again over what is in its storage. -/

namespace AtomicCommit.Coordinator

structure Engine where
  inbox : Nat
  transaction : Transaction
  stage : Stage
  deriving DecidableEq, Repr

def Engine.name (engine : Engine) : String := engine.transaction.name

def Resumed.engine (resumed : Resumed) : Engine :=
  ⟨resumed.inbox, resumed.transaction,
    .announcing resumed.outcome resumed.transaction.participants⟩

/-- What a coordinator has in memory from one start to the next. -/
structure Incarnation where
  config : Config
  inboxes : Inboxes Envelope
  engines : List Engine
  gateOpen : Bool
  deriving DecidableEq, Repr

/-- The place where incarnations of a coordinator follow each other. -/
structure Station (σ : Type) where
  clock : Nat := 0
  running : Option Incarnation := none
  storage : σ

inductive Event where
  | started
  | recovered (result : Except CoordinatorError RecoveryReport)
  | stopped
  /-- Somebody else has changed the storage, but not the log. -/
  | disturbed
  | admitted (transaction : Transaction)
  | received (envelope : Envelope)
  | did (deed : Deed Entry)
  | sent (recipient : String) (message : Message)
  | finished (name : String) (result : Except CoordinatorError Outcome)

def Event.deed? : Event → Option (Deed Entry)
  | .did deed => some deed
  | _ => none

instance : Eventful Event Entry where
  deed := .did
  deed? := Event.deed?
  deed?_eq event deed := by cases event <;> simp [Event.deed?]

def Next.events (name : String) : Next → List Event
  | .stage _ => []
  | .finished result => [.finished name result]

variable {σ : Type} [Journal σ Entry] [Publishing σ]

namespace Progress

def events (name : String) (progress : Progress (Recorded σ Entry)) : List Event :=
  progress.storage.deeds.map .did ++
    progress.sent.map (fun (recipient, message) => .sent recipient message) ++
    progress.next.events name

omit [Journal σ Entry] [Publishing σ] in
theorem unmarked (progress : Progress (Recorded σ Entry)) (name : String) :
    .started ∉ progress.events name ∧ .stopped ∉ progress.events name := by
  cases next : progress.next <;> simp [events, Next.events, next]

end Progress

namespace Incarnation

def receive (envelope : Envelope) (now : Incarnation) : Incarnation :=
  { now with inboxes := (now.inboxes.deliver envelope.message.txn envelope).2 }

/-- An engine that has finished goes away with its inbox. -/
def replace (now : Incarnation) (before : List Engine) (engine : Engine) (after : List Engine)
    (queue : List Envelope) : Next → Incarnation
  | .stage stage => { now with
      inboxes := now.inboxes.setQueue engine.inbox queue
      engines := before ++ { engine with stage := stage } :: after }
  | .finished _ => { now with
      inboxes := (now.inboxes.setQueue engine.inbox queue).drop engine.inbox
      engines := before ++ after }

section Replaced

variable (now : Incarnation) (before : List Engine) (engine : Engine) (after : List Engine)
  (queue : List Envelope) (next : Next)

@[simp] theorem config_replace : (now.replace before engine after queue next).config = now.config := by
  cases next <;> rfl

@[simp] theorem gateOpen_replace :
    (now.replace before engine after queue next).gateOpen = now.gateOpen := by
  cases next <;> rfl

end Replaced

theorem mem_replace {now : Incarnation} {before after : List Engine} {engine other : Engine}
    {queue : List Envelope} {next : Next}
    (member : other ∈ (now.replace before engine after queue next).engines) :
    other ∈ before ++ after ∨
      ∃ stage, next = .stage stage ∧ other = { engine with stage := stage } := by
  cases next with
  | stage stage =>
    simp only [replace, List.mem_append, List.mem_cons] at member
    rcases member with earlier | rfl | later
    · exact .inl (by simp [earlier])
    · exact .inr ⟨stage, rfl, rfl⟩
    · exact .inl (by simp [later])
  | finished result => exact .inl member

end Incarnation

namespace Station

/-- A recovery that fails leaves the engines that it has taken up, and the gate closed. -/
def afterStart (s : Station σ) (config : Config)
    (result : Except CoordinatorError Unit × Recovering (Recorded σ Entry)) : Station σ :=
  { s with
    running := some ⟨config, result.2.inboxes, result.2.engines.map Resumed.engine, result.1.isOk⟩
    storage := result.2.storage.storage }

def startEvents (result : Except CoordinatorError Unit × Recovering (Recorded σ Entry)) :
    List Event :=
  [.started] ++ result.2.storage.deeds.map .did ++
    [.recovered (result.1.map fun () => result.2.report)]

variable [LawfulJournal σ Entry]

inductive Step : Station σ → List Event → Station σ → Prop where
  | wait (s : Station σ) (duration : Nat) : Step s [] { s with clock := s.clock + duration }
  | disturb (s : Station σ) (storage : σ) :
      held storage = held s.storage → Step s [.disturbed] { s with storage := storage }
  | start (s : Station σ) (config : Config) : s.running = none →
      Step s (startEvents (recover config {} (⟨s.storage, []⟩ : Recorded σ Entry)))
        (s.afterStart config (recover config {} ⟨s.storage, []⟩))
  /-- A crash, or a shutdown whose engines have all gone by now. -/
  | stop (s : Station σ) : Step s [.stopped] { s with running := none }
  | commit (s : Station σ) (now : Incarnation) (name : String) (payload : Bytes)
      (sources : List String) (inbox : Nat) (inboxes : Inboxes Envelope) (parsed : List Source) :
      s.running = some now →
      admission name sources now.gateOpen now.inboxes = .admitted inbox inboxes parsed →
      Step s [.admitted ⟨name, payload, parsed⟩] { s with
        running := some { now with
          inboxes := inboxes
          engines := now.engines ++ [⟨inbox, ⟨name, payload, parsed⟩, .starting⟩] } }
  | receive (s : Station σ) (now : Incarnation) (envelope : Envelope) :
      s.running = some now →
      Step s [.received envelope] { s with running := some (now.receive envelope) }
  | advance (s : Station σ) (now : Incarnation) (before : List Engine) (engine : Engine)
      (after : List Engine) (progress : Progress (Recorded σ Entry)) :
      s.running = some now → now.engines = before ++ engine :: after →
      Coordinator.step now.config s.clock engine.transaction engine.stage
        (now.inboxes.queue engine.inbox) ⟨s.storage, []⟩ = some progress →
      Step s (progress.events engine.name) { s with
        running := some (now.replace before engine after progress.queue progress.next)
        storage := progress.storage.storage }

/-- What can have happened when a station is in some state. A run begins with an empty log. -/
inductive Run : List Event → Station σ → Prop where
  | begin (storage : σ) : held storage = [] → Run [] { storage := storage }
  | step {history events : List Event} {s s' : Station σ} :
      Run history s → Step s events s' → Run (history ++ events) s'

inductive Steps (s : Station σ) : List Event → Station σ → Prop where
  | nothing : Steps s [] s
  | step {events more : List Event} {between s' : Station σ} :
      Steps s events between → Step between more s' → Steps s (events ++ more) s'

theorem Run.steps {history events : List Event} {s s' : Station σ} (run : Run history s)
    (steps : Steps s events s') : Run (history ++ events) s' := by
  induction steps with
  | nothing => simpa using run
  | step _ stepped ih =>
    rw [← List.append_assoc]
    exact ih.step stepped

end Station

section Logged

theorem mem_logged {history : List Event} {entry : Entry} :
    entry ∈ logged history ↔ .did (.appended entry) ∈ history :=
  AtomicCommit.mem_logged

theorem logged_did (deeds : List (Deed Entry)) : logged (deeds.map Event.did) = Deed.records deeds :=
  logged_deeds deeds

omit [Journal σ Entry] [Publishing σ] in
@[simp] theorem deedsOf_events (name : String) (progress : Progress (Recorded σ Entry)) :
    deedsOf (progress.events name) = progress.storage.deeds := by
  have nothingSent : deedsOf (progress.sent.map fun (recipient, message) =>
      Event.sent recipient message) = [] := by
    apply deedsOf_eq_nil
    intro event member
    obtain ⟨packet, _, rfl⟩ := List.mem_map.mp member
    rfl
  have nothingEnded : deedsOf (progress.next.events name) = [] := by
    cases progress.next <;> rfl
  simp only [Progress.events, deedsOf_append, nothingSent, nothingEnded, List.append_nil]
  exact deedsOf_deeds _

omit [Journal σ Entry] [Publishing σ] in
@[simp] theorem logged_events (name : String) (progress : Progress (Recorded σ Entry)) :
    logged (progress.events name) = Deed.records progress.storage.deeds :=
  congrArg Deed.records (deedsOf_events name progress)

omit [Journal σ Entry] [Publishing σ] in
@[simp] theorem deedsOf_startEvents
    (result : Except CoordinatorError Unit × Recovering (Recorded σ Entry)) :
    deedsOf (Station.startEvents result) = result.2.storage.deeds := by
  have ended : deedsOf [Event.recovered (result.1.map fun () => result.2.report)] = [] := rfl
  simp only [Station.startEvents, deedsOf_append, ended, List.append_nil]
  exact deedsOf_deeds _

omit [Journal σ Entry] [Publishing σ] in
@[simp] theorem logged_startEvents
    (result : Except CoordinatorError Unit × Recovering (Recorded σ Entry)) :
    logged (Station.startEvents result) = Deed.records result.2.storage.deeds :=
  congrArg Deed.records (deedsOf_startEvents result)

end Logged

end AtomicCommit.Coordinator
