import AtomicCommit.Coordinator.Engine

/-! An engine that listens to its inbox. Messages arrive and turns come in any order; a turn is one
step of the engine, as long as it is in the phase that is looked at. -/

namespace AtomicCommit.Coordinator

inductive Occurrence where
  | arrival (envelope : Envelope)
  | turn (now : Nat)
  deriving DecidableEq, Repr

def Occurrence.envelope? : Occurrence → Option Envelope
  | .arrival envelope => some envelope
  | .turn _ => none

def Occurrence.turn? : Occurrence → Option Nat
  | .arrival _ => none
  | .turn now => some now

def arrivals (occurrences : List Occurrence) : List Envelope :=
  occurrences.filterMap Occurrence.envelope?

def turns (occurrences : List Occurrence) : List Nat := occurrences.filterMap Occurrence.turn?

structure Round where
  time : Nat
  packets : List (String × Message)
  deriving DecidableEq, Repr

structure Listener (σ : Type) where
  stage : Stage
  queue : List Envelope
  storage : σ
  rounds : List Round := []

namespace Listener

variable {σ : Type}

def go (now : Nat) (l : Listener σ) : Option (Progress σ) → Listener σ
  | some ⟨.stage stage, sent, queue, storage⟩ =>
    ⟨stage, queue, storage, if sent.isEmpty then l.rounds else l.rounds ++ [⟨now, sent⟩]⟩
  | _ => l

variable [Journal σ Entry] [Publishing σ] (config : Config) (t : Transaction) (phase : Stage → Bool)

def occur (l : Listener σ) : Occurrence → Listener σ
  | .arrival envelope => { l with queue := l.queue ++ [envelope] }
  | .turn now => if phase l.stage then l.go now (step config now t l.stage l.queue l.storage) else l

def listen (l : Listener σ) (occurrences : List Occurrence) : Listener σ :=
  occurrences.foldl (occur config t phase) l

end Listener

section Occurrences

variable {occurrences more : List Occurrence}

@[simp] theorem arrivals_nil : arrivals [] = [] := rfl

@[simp] theorem turns_nil : turns [] = [] := rfl

@[simp] theorem arrivals_append (occurrences more : List Occurrence) :
    arrivals (occurrences ++ more) = arrivals occurrences ++ arrivals more :=
  List.filterMap_append ..

@[simp] theorem arrivals_arrival (envelope : Envelope) (occurrences : List Occurrence) :
    arrivals (.arrival envelope :: occurrences) = envelope :: arrivals occurrences := rfl

@[simp] theorem arrivals_turn (now : Nat) (occurrences : List Occurrence) :
    arrivals (.turn now :: occurrences) = arrivals occurrences := rfl

@[simp] theorem turns_arrival (envelope : Envelope) (occurrences : List Occurrence) :
    turns (.arrival envelope :: occurrences) = turns occurrences := rfl

@[simp] theorem turns_turn (now : Nat) (occurrences : List Occurrence) :
    turns (.turn now :: occurrences) = now :: turns occurrences := rfl

end Occurrences

namespace Listener

variable {σ : Type} [Journal σ Entry] [Publishing σ] {config : Config} {t : Transaction}
  {phase : Stage → Bool} {l : Listener σ}

@[simp] theorem listen_nil : l.listen config t phase [] = l := rfl

theorem listen_cons (l : Listener σ) (occurrence : Occurrence) (more : List Occurrence) :
    l.listen config t phase (occurrence :: more) =
      (l.occur config t phase occurrence).listen config t phase more := rfl

theorem listen_append (l : Listener σ) (occurrences more : List Occurrence) :
    l.listen config t phase (occurrences ++ more) =
      (l.listen config t phase occurrences).listen config t phase more :=
  List.foldl_append

theorem occur_outside (outside : phase l.stage = false) (now : Nat) :
    l.occur config t phase (.turn now) = l := by
  simp [occur, outside]

theorem listen_outside (outside : phase l.stage = false) (occurrences : List Occurrence) :
    l.listen config t phase occurrences = { l with queue := l.queue ++ arrivals occurrences } := by
  induction occurrences generalizing l with
  | nil => simp
  | cons occurrence occurrences ih =>
    cases occurrence with
    | arrival envelope =>
      rw [listen_cons, ih (by simpa [occur] using outside)]
      simp [occur]
    | turn now =>
      rw [listen_cons, occur_outside outside, ih outside, arrivals_turn]

end Listener

end AtomicCommit.Coordinator
