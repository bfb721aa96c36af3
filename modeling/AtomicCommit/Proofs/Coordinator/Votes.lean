import AtomicCommit.Proofs.Coordinator.Restart
import AtomicCommit.Proofs.Coordinator.Stages
import Mathlib.Data.List.Perm.Subperm

/-! The votes behind a commit: every participant of the transaction has been heard to accept. -/

namespace AtomicCommit.Coordinator

def Voted (history : List Event) (name participant : String) (vote : Vote) : Prop :=
  ∃ envelope, .received envelope ∈ history ∧ envelope.sender = participant ∧
    envelope.message.txn = name ∧ envelope.message.phase = vote.phase

def Unanimous (history : List Event) (name : String) (participants : List String) : Prop :=
  ∀ participant ∈ participants, Voted history name participant .accept

structure Ballot.Fair (history : List Event) (t : Transaction) (ballot : Ballot) : Prop where
  once : (ballot.map (·.1)).Nodup
  votes : ∀ participant vote, (participant, vote) ∈ ballot →
    participant ∈ t.participants ∧ Voted history t.name participant vote

def Stage.Collected (history : List Event) (t : Transaction) : Stage → Prop
  | .starting => .admitted t ∈ history
  | .voting _ ballot => ballot.Fair history t
  | .publishing => Unanimous history t.name t.participants
  | .deciding outcome _ => outcome = .commit → Unanimous history t.name t.participants
  | _ => True

section Later

variable {history : List Event} {name participant : String}

theorem Voted.later {vote : Vote} (voted : Voted history name participant vote)
    (events : List Event) : Voted (history ++ events) name participant vote := by
  obtain ⟨envelope, received, rest⟩ := voted
  exact ⟨envelope, List.mem_append_left _ received, rest⟩

theorem Unanimous.later {participants : List String}
    (unanimous : Unanimous history name participants) (events : List Event) :
    Unanimous (history ++ events) name participants :=
  fun participant asked => (unanimous participant asked).later events

theorem Stage.Collected.later {t : Transaction} {stage : Stage}
    (collected : stage.Collected history t) (events : List Event) :
    stage.Collected (history ++ events) t := by
  cases stage with
  | starting => exact List.mem_append_left _ collected
  | voting deadline ballot =>
    exact ⟨collected.once, fun participant vote member =>
      (collected.votes participant vote member).imp_right fun voted => voted.later events⟩
  | publishing => exact Unanimous.later collected events
  | deciding outcome due => exact fun commits => (collected commits).later events
  | _ => trivial

end Later

namespace Ballot

variable {history : List Event} {t : Transaction} {ballot : Ballot}

theorem vote?_eq {phase : Phase} {vote : Vote} (voted : phase.vote? = some vote) :
    phase = vote.phase := by
  cases phase <;> cases voted <;> rfl

theorem hasVoted_iff {participant : String} : ballot.hasVoted participant ↔
    participant ∈ ballot.map (·.1) := by
  simp [hasVoted]

theorem Fair.receive (fair : ballot.Fair history t) {envelope : Envelope}
    (heard : Heard history t.name envelope) :
    (ballot.receive t.participants envelope).Fair history t := by
  simp only [Ballot.receive]
  split
  next vote voted =>
    split
    next counts =>
      simp only [Bool.and_eq_true, List.contains_iff_mem, Bool.not_eq_true', ← Bool.not_eq_true,
        hasVoted_iff] at counts
      obtain ⟨asked, first⟩ := counts
      constructor
      · rw [List.map_append]
        refine List.nodup_append.mpr ⟨fair.once, by simp, ?_⟩
        rintro participant member _ new rfl
        obtain rfl := List.mem_singleton.mp new
        exact first member
      · intro participant vote member
        rcases List.mem_append.mp member with old | new
        · exact fair.votes participant vote old
        · cases List.mem_singleton.mp new
          exact ⟨asked, envelope, heard.1, rfl, heard.2, vote?_eq voted⟩
    next => exact fair
  next => exact fair

theorem Fair.unanimous (fair : ballot.Fair history t)
    (counted : ballot.outcome? t.participants = some .commit) :
    Unanimous history t.name t.participants := by
  simp only [outcome?] at counted
  split at counted
  · cases counted
  next noRefusal =>
    split at counted
    next enough =>
      have asked : ballot.map (·.1) ⊆ t.participants := by
        intro participant member
        obtain ⟨⟨_, vote⟩, voted, rfl⟩ := List.mem_map.mp member
        exact (fair.votes _ vote voted).1
      have all : (ballot.map (·.1)).Perm t.participants :=
        (List.subperm_of_subset fair.once asked).perm_of_length_le (by simpa using enough)
      intro participant member
      obtain ⟨⟨_, vote⟩, voted, rfl⟩ := List.mem_map.mp (all.mem_iff.mpr member)
      have accepts : vote = .accept := by
        cases vote with
        | accept => rfl
        | refuse => exact absurd (List.any_eq_true.mpr ⟨_, voted, rfl⟩) noRefusal
      exact accepts ▸ (fair.votes _ vote voted).2
    next => cases counted

end Ballot

namespace Move

variable {history : List Event} {t : Transaction} {stage : Stage} {queue rest : List Envelope}
  {next : Next} {sent : List (String × Message)} {deeds : List (Deed Entry)}

theorem collects (move : Move t stage queue next sent rest deeds)
    (collected : stage.Collected history t) (heard : ∀ envelope ∈ queue, Heard history t.name envelope)
    {later : Stage} (staged : next = .stage later) : later.Collected history t := by
  cases move with
  | requested => cases staged; exact ⟨.nil, by simp⟩
  | counted queue deadline ballot outcome now counted =>
    cases staged
    cases outcome with
    | commit => exact Ballot.Fair.unanimous collected counted
    | abort => exact fun impossible => by cases impossible
  | heard envelope rest deadline ballot _ =>
    cases staged
    exact Ballot.Fair.receive collected (heard envelope List.mem_cons_self)
  | published => cases staged; exact fun _ => collected
  | notRecorded => cases staged; exact collected
  | expired | notPublished | stranded => cases staged; exact fun impossible => by cases impossible
  | recorded | nobodyLeft | announced | acknowledged | noted | again | notClosed =>
    cases staged; trivial
  | notRequested | closed => cases staged

theorem prepares (move : Move t stage queue next sent rest deeds) {name : String}
    {sources : List Source} (collected : stage.Collected history t)
    (prepared : .prepare name sources ∈ Deed.records deeds) :
    ∃ payload, .admitted ⟨name, payload, sources⟩ ∈ history := by
  cases (move.logs prepared).1
  exact ⟨t.payload, collected⟩

theorem commits (move : Move t stage queue next sent rest deeds) {name : String}
    (collected : stage.Collected history t)
    (decided : .decision name .commit ∈ Deed.records deeds) :
    name = t.name ∧ stage.past t = [.prepare t.name t.sources] ∧
      Unanimous history t.name t.participants := by
  cases (move.logs decided).1
  exact ⟨rfl, rfl, collected rfl⟩

end Move

theorem collected_carried : Carried Stage.Collected where
  later events collected := collected.later events
  starts admitted := admitted
  resumes _ _ _ := trivial
  moves move collected heard staged := move.collects collected heard staged

structure Collects (history : List Event) : Prop where
  prepares : ∀ name sources, .prepare name sources ∈ logged history →
    ∃ payload, .admitted ⟨name, payload, sources⟩ ∈ history
  commits : ∀ name, .decision name .commit ∈ logged history →
    ∃ sources, .prepare name sources ∈ logged history ∧
      Unanimous history name ((Source.shares sources).map (·.1))

namespace Collects

variable {history events : List Event}

theorem append (collects : Collects history)
    (prepares : ∀ name sources, .prepare name sources ∈ logged events →
      ∃ payload, .admitted ⟨name, payload, sources⟩ ∈ history)
    (commits : ∀ name, .decision name .commit ∈ logged events →
      ∃ sources, .prepare name sources ∈ logged history ∧
        Unanimous history name ((Source.shares sources).map (·.1))) :
    Collects (history ++ events) := by
  constructor
  · intro name sources prepared
    rw [logged_append] at prepared
    obtain ⟨payload, admitted⟩ := (List.mem_append.mp prepared).elim (collects.prepares name sources)
      (prepares name sources)
    exact ⟨payload, List.mem_append_left _ admitted⟩
  · intro name decided
    rw [logged_append] at decided
    obtain ⟨sources, prepared, unanimous⟩ := (List.mem_append.mp decided).elim
      (collects.commits name) (commits name)
    exact ⟨sources, by simp [prepared], unanimous.later events⟩

theorem quiet (collects : Collects history)
    (aborts : ∀ entry ∈ logged events, ∃ txn, entry = .decision txn .abort) :
    Collects (history ++ events) := by
  apply collects.append
  · intro name sources prepared
    obtain ⟨txn, impossible⟩ := aborts _ prepared
    cases impossible
  · intro name decided
    obtain ⟨txn, impossible⟩ := aborts _ decided
    cases impossible

end Collects

theorem collects_run {σ : Type} [Journal σ Entry] [LawfulJournal σ Entry] [Publishing σ]
    [LawfulPublishing σ Entry] {history : List Event} {s : Station σ} (run : Station.Run history s)
    (unique : UniqueNames history) : Collects history := by
  induction run with
  | begin storage empty => exact ⟨by simp, by simp⟩
  | @step history events s s' run stepped ih =>
    have earlier := unique.of_append
    have collects := ih earlier
    have consistent := consistent_run run earlier
    cases stepped with
    | wait => simpa using collects
    | disturb | stop | commit | receive => exact collects.quiet (by rintro entry ⟨⟩)
    | start config down =>
      refine collects.quiet fun entry member => ?_
      rw [logged_startEvents] at member
      obtain ⟨name, aborted, _⟩ := (recover_retracts config consistent.kept).aborts entry member
      exact ⟨name, aborted⟩
    | advance now others engine after progress running engines stepped =>
      obtain ⟨move, _⟩ := step_follows stepped
      have working : engine ∈ now.engines := by simp [engines]
      have collected := staged_run collected_carried run earlier now running engine working
      apply collects.append
      · intro name sources prepared
        rw [logged_events] at prepared
        exact move.prepares collected prepared
      · intro name decided
        rw [logged_events] at decided
        obtain ⟨rfl, requested, unanimous⟩ := move.commits collected decided
        have past := (consistent.occupied now running).past engine working
        have prepared : .prepare engine.name engine.transaction.sources ∈
            Log.recordsOf engine.name (logged history) := by
          rw [past, requested]
          exact List.mem_singleton.mpr rfl
        exact ⟨_, (Log.mem_recordsOf.mp prepared).1, unanimous⟩

end AtomicCommit.Coordinator
