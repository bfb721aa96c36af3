import AtomicCommit.Proofs.Coordinator.Restart
import AtomicCommit.Proofs.Coordinator.Stages

/-! The acknowledgements behind an end: it is logged when every participant has been heard to acknowledge
the outcome, to this incarnation or to an earlier one. -/

namespace AtomicCommit.Coordinator

def Acked (history : List Event) (name participant : String) : Prop :=
  ∃ envelope, .received envelope ∈ history ∧ envelope.sender = participant ∧
    envelope.message.txn = name ∧ envelope.message.phase = .ack

theorem Acked.later {history : List Event} {name participant : String}
    (acked : Acked history name participant) (events : List Event) :
    Acked (history ++ events) name participant := by
  obtain ⟨envelope, received, rest⟩ := acked
  exact ⟨envelope, List.mem_append_left _ received, rest⟩

def AckedBut (history : List Event) (t : Transaction) (waiting : List String) : Prop :=
  ∀ participant ∈ t.participants, participant ∉ waiting → Acked history t.name participant

def Stage.AckedBut (history : List Event) (t : Transaction) : Stage → Prop
  | .announcing _ waiting => Coordinator.AckedBut history t waiting
  | .awaiting _ waiting _ => Coordinator.AckedBut history t waiting
  | .closing _ _ => Coordinator.AckedBut history t []
  | _ => True

theorem AckedBut.noted {history : List Event} {t : Transaction} {waiting : List String}
    (acked : AckedBut history t waiting) {envelope : Envelope} (heard : Heard history t.name envelope) :
    AckedBut history t (stillWaiting waiting envelope) := by
  intro participant asked gone
  by_cases before : participant ∈ waiting
  · rw [stillWaiting] at gone
    split at gone
    next ack =>
      have sender : envelope.sender = participant := by
        by_contra other
        exact gone ((List.mem_erase_of_ne (Ne.symm other)).mpr before)
      exact ⟨envelope, heard.1, sender, heard.2, ack⟩
    next => exact absurd before gone
  · exact acked participant asked before

theorem ackedBut_carried : Carried Stage.AckedBut where
  later := by
    intro history t stage events acked
    have later : ∀ waiting, AckedBut history t waiting → AckedBut (history ++ events) t waiting :=
      fun waiting acked participant asked gone => (acked participant asked gone).later events
    cases stage with
    | announcing | awaiting | closing => exact later _ acked
    | _ => trivial
  starts _ := trivial
  resumes _ _ _ := fun _ asked gone => absurd asked gone
  moves := by
    intro history t stage queue next sent rest deeds stage' move acked heard staged
    cases move with
    | counted _ _ _ outcome =>
      cases staged
      cases outcome <;> trivial
    | recorded =>
      cases staged
      exact fun _ asked gone => absurd asked gone
    | noted envelope _ _ _ _ _ =>
      cases staged
      exact AckedBut.noted acked (heard envelope List.mem_cons_self)
    | nobodyLeft | announced | acknowledged | again | notClosed =>
      cases staged
      exact acked
    | requested | heard | expired | published | notPublished | stranded | notRecorded =>
      cases staged
      trivial
    | notRequested | closed => cases staged

namespace Move

variable {t : Transaction} {stage : Stage} {queue rest : List Envelope} {next : Next}
  {sent : List (String × Message)} {deeds : List (Deed Entry)}

theorem finishes (move : Move t stage queue next sent rest deeds) {outcome : Outcome}
    (finished : next = .finished (.ok outcome)) : .done t.name ∈ Deed.records deeds := by
  cases move <;> cases finished
  simp

end Move

theorem Progress.finished_mem {σ : Type} {progress : Progress (Recorded σ Entry)} {own name : String}
    {result : Except CoordinatorError Outcome} (member : .finished name result ∈ progress.events own) :
    name = own ∧ progress.next = .finished result := by
  cases next : progress.next with
  | stage stage => simp [Progress.events, Next.events, next] at member
  | finished other =>
    obtain ⟨rfl, rfl⟩ : name = own ∧ result = other := by
      simpa [Progress.events, Next.events, next] using member
    exact ⟨rfl, rfl⟩

structure Closes (history : List Event) : Prop where
  ended : ∀ name, .done name ∈ logged history → ∃ sources outcome,
    .prepare name sources ∈ logged history ∧ .decision name outcome ∈ logged history ∧
      ∀ participant ∈ (Source.shares sources).map (·.1), Acked history name participant
  finished : ∀ name outcome, .finished name (.ok outcome) ∈ history → .done name ∈ logged history

namespace Closes

variable {history events : List Event}

theorem append (closes : Closes history)
    (ended : ∀ name, .done name ∈ logged events → ∃ sources outcome,
      .prepare name sources ∈ logged history ∧ .decision name outcome ∈ logged history ∧
        ∀ participant ∈ (Source.shares sources).map (·.1), Acked history name participant)
    (finished : ∀ name outcome, .finished name (.ok outcome) ∈ events → .done name ∈ logged events) :
    Closes (history ++ events) := by
  constructor
  · intro name done
    rw [logged_append] at done
    obtain ⟨sources, outcome, prepared, decided, acked⟩ := (List.mem_append.mp done).elim
      (closes.ended name) (ended name)
    refine ⟨sources, outcome, by simp [prepared], by simp [decided], fun participant asked => ?_⟩
    exact (acked participant asked).later events
  · intro name outcome returned
    rw [logged_append, List.mem_append]
    exact (List.mem_append.mp returned).imp (closes.finished name outcome) (finished name outcome)

theorem quiet (closes : Closes history) (open_ : ∀ name, .done name ∉ logged events)
    (unfinished : ∀ name result, .finished name result ∉ events) : Closes (history ++ events) :=
  closes.append (fun name done => absurd done (open_ name))
    (fun name _ returned => absurd returned (unfinished name _))

end Closes

theorem closes_run {σ : Type} [Journal σ Entry] [LawfulJournal σ Entry] [Publishing σ]
    [LawfulPublishing σ Entry] {history : List Event} {s : Station σ} (run : Station.Run history s)
    (unique : UniqueNames history) : Closes history := by
  induction run with
  | begin storage empty => exact ⟨by simp, by simp⟩
  | @step history events s s' run stepped ih =>
    have earlier := unique.of_append
    have closes := ih earlier
    have consistent := consistent_run run earlier
    cases stepped with
    | wait => simpa using closes
    | disturb | stop | commit | receive => exact closes.quiet (by rintro name ⟨⟩) (by simp)
    | start config down =>
      refine closes.quiet (fun name ended => ?_) (by simp [Station.startEvents])
      rw [logged_startEvents] at ended
      obtain ⟨_, impossible, _⟩ := (recover_retracts config consistent.kept).aborts _ ended
      cases impossible
    | advance now others engine after progress running engines stepped =>
      obtain ⟨move, _⟩ := step_follows stepped
      have working : engine ∈ now.engines := by simp [engines]
      have past := (consistent.occupied now running).past engine working
      have acked := staged_run ackedBut_carried run earlier now running engine working
      obtain ⟨inbox, t, stage⟩ := engine
      apply closes.append
      · intro name ended
        rw [logged_events] at ended
        obtain ⟨_ | _ | ⟨outcome, due⟩, _⟩ := move.logs ended
        have records : ∀ entry ∈ Stage.past t (.closing outcome due), entry ∈ logged history := by
          intro entry member
          rw [← past] at member
          exact (Log.mem_recordsOf.mp member).1
        exact ⟨t.sources, outcome, records _ (by simp [Stage.past]),
          records _ (by simp [Stage.past]), fun participant asked => acked participant asked (by simp)⟩
      · intro name outcome returned
        rw [logged_events]
        obtain ⟨rfl, finished⟩ := progress.finished_mem returned
        exact move.finishes finished

end AtomicCommit.Coordinator
