import AtomicCommit.Participant.Recovery
import AtomicCommit.Proofs.Histories

/-! Runs of a participant. Messages arrive in any number and order, the oracle takes any time and gives
any answer, and the participant goes down and is started again over what is in its storage. Messages
of one transaction are handled one after the other. -/

namespace AtomicCommit.Participant

/-- A vote request whose answer the oracle still owes, and who asked for the vote. -/
structure Question where
  sender : String
  request : VoteRequest
  deriving DecidableEq, Repr

/-- What a participant has in memory from one start to the next. A transaction has one open question
at most. -/
structure Incarnation where
  memory : Memory := {}
  asking : Table String Question := ∅
  deriving DecidableEq, Repr

/-- The place where incarnations of a participant follow each other. -/
structure Station (τ : Type) where
  running : Option Incarnation := none
  storage : τ

inductive Event where
  | started
  | recovered (result : Except ParticipantError RecoveryReport)
  | stopped
  /-- Somebody else has changed the storage, but not the log. -/
  | disturbed
  | received (envelope : Envelope)
  | asked (request : VoteRequest)
  | answered (request : VoteRequest) (approved : Bool)
  | did (deed : Deed Entry)
  | sent (recipient : String) (message : Message)

def Event.deed? : Event → Option (Deed Entry)
  | .did deed => some deed
  | _ => none

instance : Eventful Event Entry where
  deed := .did
  deed? := Event.deed?
  deed?_eq event deed := by cases event <;> simp [Event.deed?]

variable {τ : Type} [Journal τ Entry] [ResourceStore τ]

def Reaction.events (sender : String) : Reaction → List Event
  | .silent => []
  | .reply message => [.sent sender message]
  | .ask request => [.asked request]

namespace Incarnation

def participant (now : Incarnation) (storage : τ) : Participant (Recorded τ Entry) :=
  ⟨now.memory, ⟨storage, []⟩⟩

/-- A transaction with an open question waits with its other messages. -/
def isFree (now : Incarnation) (txn : String) : Bool := !now.asking.contains txn

def conclude (now : Incarnation) (sender : String) (memory : Memory) : Reaction → Incarnation
  | .ask request => ⟨memory, now.asking.insert request.txn ⟨sender, request⟩⟩
  | _ => { now with memory := memory }

theorem isFree_iff {now : Incarnation} {txn : String} :
    now.isFree txn ↔ now.asking.get? txn = none := by
  simp [isFree, Table.contains]

@[simp] theorem memory_conclude (now : Incarnation) (sender : String) (memory : Memory)
    (reaction : Reaction) : (now.conclude sender memory reaction).memory = memory := by
  cases reaction <;> rfl

end Incarnation

namespace Station

def afterStart (s : Station τ)
    (result : Except ParticipantError RecoveryReport × Participant (Recorded τ Entry)) :
    Station τ :=
  { s with
    running := if result.1.isOk then some { memory := result.2.memory } else none
    storage := result.2.storage.storage }

def startEvents
    (result : Except ParticipantError RecoveryReport × Participant (Recorded τ Entry)) :
    List Event :=
  [.started] ++ result.2.storage.deeds.map .did ++ [.recovered result.1]

def afterReaction (now : Incarnation) (sender : String)
    (result : Reaction × Participant (Recorded τ Entry)) : Station τ :=
  ⟨some (now.conclude sender result.2.memory result.1), result.2.storage.storage⟩

def reactionEvents (sender : String)
    (result : Reaction × Participant (Recorded τ Entry)) : List Event :=
  result.2.storage.deeds.map .did ++ result.1.events sender

omit [Journal τ Entry] [ResourceStore τ] in
theorem mem_reactionEvents {sender : String} {result : Reaction × Participant (Recorded τ Entry)}
    {event : Event} : event ∈ reactionEvents sender result ↔
      (∃ deed ∈ result.2.storage.deeds, event = .did deed) ∨
        (∃ message, result.1 = .reply message ∧ event = .sent sender message) ∨
        ∃ request, result.1 = .ask request ∧ event = .asked request := by
  rw [reactionEvents, List.mem_append, List.mem_map]
  refine or_congr (by simp only [eq_comm]) ?_
  cases result.1 <;> simp [Reaction.events]

def answerReaction (request : VoteRequest) (approved : Bool)
    (p : Participant (Recorded τ Entry)) : Reaction × Participant (Recorded τ Entry) :=
  ((p.answerVote request approved).1 |> voteReply request.txn, (p.answerVote request approved).2)

variable [LawfulJournal τ Entry]

inductive Step : Station τ → List Event → Station τ → Prop where
  | disturb (s : Station τ) (storage : τ) :
      held storage = held s.storage → Step s [.disturbed] { s with storage := storage }
  | start (s : Station τ) (config : Config) : s.running = none →
      Step s (startEvents (recover config (⟨{}, ⟨s.storage, []⟩⟩ : Participant (Recorded τ Entry))))
        (s.afterStart (recover config ⟨{}, ⟨s.storage, []⟩⟩))
  | stop (s : Station τ) : Step s [.stopped] { s with running := none }
  | receive (s : Station τ) (now : Incarnation) (envelope : Envelope) :
      s.running = some now → now.isFree envelope.message.txn →
      Step s ([.received envelope] ++
          reactionEvents envelope.sender (react envelope.message (now.participant s.storage)))
        (afterReaction now envelope.sender (react envelope.message (now.participant s.storage)))
  | answer (s : Station τ) (now : Incarnation) (txn : String) (question : Question)
      (approved : Bool) :
      s.running = some now → now.asking.get? txn = some question →
      Step s ([.answered question.request approved] ++ reactionEvents question.sender
          (answerReaction question.request approved (now.participant s.storage)))
        (afterReaction { now with asking := now.asking.erase txn } question.sender
          (answerReaction question.request approved (now.participant s.storage)))

/-- What can have happened when a station is in some state. A run begins with an empty log. -/
inductive Run : List Event → Station τ → Prop where
  | begin (storage : τ) : held storage = [] → Run [] { storage := storage }
  | step {history events : List Event} {s s' : Station τ} :
      Run history s → Step s events s' → Run (history ++ events) s'

inductive Steps (s : Station τ) : List Event → Station τ → Prop where
  | nothing : Steps s [] s
  | step {events more : List Event} {between s' : Station τ} :
      Steps s events between → Step between more s' → Steps s (events ++ more) s'

theorem Run.steps {history events : List Event} {s s' : Station τ} (run : Run history s)
    (steps : Steps s events s') : Run (history ++ events) s' := by
  induction steps with
  | nothing => simpa using run
  | step _ stepped ih =>
    rw [← List.append_assoc]
    exact ih.step stepped

end Station

section Logged

theorem mem_logged {history : List Event} {entry : Entry} :
    entry ∈ logged history ↔ .did (.appended entry) ∈ history :=
  AtomicCommit.mem_logged

theorem logged_did (deeds : List (Deed Entry)) : logged (deeds.map Event.did) = Deed.records deeds :=
  logged_deeds deeds

omit [Journal τ Entry] [ResourceStore τ] in
@[simp] theorem logged_reactionEvents (sender : String)
    (result : Reaction × Participant (Recorded τ Entry)) :
    logged (Station.reactionEvents sender result) = Deed.records result.2.storage.deeds := by
  have reacted : logged (result.1.events sender) = [] := by cases result.1 <;> rfl
  simp only [Station.reactionEvents, logged_append, logged_did, reacted, List.append_nil]

omit [Journal τ Entry] [ResourceStore τ] in
@[simp] theorem logged_startEvents
    (result : Except ParticipantError RecoveryReport × Participant (Recorded τ Entry)) :
    logged (Station.startEvents result) = Deed.records result.2.storage.deeds := by
  have begun : logged [Event.started] = [] := rfl
  have ended : logged [Event.recovered result.1] = [] := rfl
  simp only [Station.startEvents, logged_append, logged_did, begun, ended, List.nil_append,
    List.append_nil]

omit [Journal τ Entry] [ResourceStore τ] in
theorem logged_reaction {first : Event} (quiet : Eventful.deed? first = none) (sender : String)
    (result : Reaction × Participant (Recorded τ Entry)) :
    logged ([first] ++ Station.reactionEvents sender result) =
      Deed.records result.2.storage.deeds := by
  have none : logged [first] = [] := logged_quiet [] quiet
  rw [logged_append, none, List.nil_append, logged_reactionEvents]

end Logged

end AtomicCommit.Participant
