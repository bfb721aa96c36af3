import AtomicCommit.Proofs.Coordinator.Collection
import Mathlib.Data.List.Chain

/-! The announcement of an outcome, round by round, compared with whose acknowledgements have been
taken from the inbox. -/

namespace AtomicCommit.Coordinator

def acknowledged (taken : List Envelope) (participant : String) : Bool :=
  taken.any fun envelope => envelope.sender = participant && envelope.message.phase = .ack

def missing (participants : List String) (taken : List Envelope) : List String :=
  participants.filter fun participant => !acknowledged taken participant

def decisions (t : Transaction) (outcome : Outcome) (recipients : List String) :
    List (String × Message) :=
  recipients.map fun participant => (participant, Message.decision t.name outcome)

/-- A message that is no acknowledgement, not from a participant, or not the first acknowledgement of
its sender. -/
def Stale (participants : List String) (before : List Envelope) (envelope : Envelope) : Prop :=
  envelope.message.phase ≠ .ack ∨ envelope.sender ∉ participants ∨
    acknowledged before envelope.sender

section Missing

variable {participants : List String} {taken : List Envelope}

theorem acknowledged_append (taken more : List Envelope) (participant : String) :
    acknowledged (taken ++ more) participant =
      (acknowledged taken participant || acknowledged more participant) :=
  List.any_append

theorem missing_nil (participants : List String) : missing participants [] = participants := by
  simp [missing, acknowledged]

theorem Stale.missing_eq {before : List Envelope} {envelope : Envelope}
    (stale : Stale participants before envelope) (after : List Envelope) :
    missing participants (before ++ envelope :: after) = missing participants (before ++ after) := by
  refine List.filter_congr fun participant asked => ?_
  have one : acknowledged (envelope :: after) participant =
      (acknowledged [envelope] participant || acknowledged after participant) :=
    acknowledged_append [envelope] after participant
  rw [acknowledged_append, acknowledged_append, one]
  by_cases own : envelope.sender = participant
  · subst own
    rcases stale with other | foreign | repeated
    · simp [acknowledged, other]
    · exact absurd asked foreign
    · simp [repeated]
  · simp [acknowledged, own]

theorem missing_snoc (distinct : participants.Nodup) (taken : List Envelope) (envelope : Envelope) :
    missing participants (taken ++ [envelope]) =
      stillWaiting (missing participants taken) envelope := by
  rw [stillWaiting]
  split
  next acks =>
    have apart : (missing participants taken).Nodup := distinct.filter _
    rw [apart.erase_eq_filter, missing, missing, List.filter_filter]
    refine List.filter_congr fun participant _ => ?_
    rw [acknowledged_append, Bool.not_or, Bool.and_comm]
    by_cases own : envelope.sender = participant
    · simp [acknowledged, acks, own]
    · simp [acknowledged, own, Ne.symm own]
  next other => exact (Stale.missing_eq (.inl other) []).trans (by rw [List.append_nil])

end Missing

def Stage.isTelling : Stage → Bool
  | .announcing _ _ => true
  | .awaiting _ _ _ => true
  | _ => false

/-- When a round began, and what had been taken from the inbox by then. -/
structure Mark where
  time : Nat
  taken : List Envelope

def Mark.round (t : Transaction) (outcome : Outcome) (mark : Mark) : Round :=
  ⟨mark.time, decisions t outcome (missing t.participants mark.taken)⟩

def Listener.Ended {σ : Type} (l : Listener σ) (outcome : Outcome) : Prop :=
  ∃ now, l.stage = .closing outcome now

theorem Listener.Ended.outside {σ : Type} {l : Listener σ} {outcome : Outcome}
    (ended : l.Ended outcome) : l.stage.isTelling = false := by
  obtain ⟨now, same⟩ := ended
  rw [same]
  rfl

section Announcing

variable {σ : Type} {config : Config} {t : Transaction} {outcome : Outcome}
  {queue taken : List Envelope} {storage : σ} {l : Listener σ} {occurrences : List Occurrence}
  {marks : List Mark} {waiting : List String} {deadline : Nat}

section Turns

variable [Journal σ Entry] [Publishing σ]

theorem occur_announcing (announcing : l.stage = .announcing outcome waiting) (now : Nat) :
    l.occur config t Stage.isTelling (.turn now) =
      if waiting = [] then { l with stage := .closing outcome now }
      else { l with
        stage := .awaiting outcome waiting (now + config.retryInterval)
        rounds := l.rounds ++ [⟨now, decisions t outcome waiting⟩] } := by
  obtain ⟨stage, queue, storage, rounds⟩ := l
  subst announcing
  by_cases nobody : waiting = []
  · simp [Listener.occur, Stage.isTelling, step, nobody, Listener.go]
  · simp [Listener.occur, Stage.isTelling, step, nobody, Listener.go, decisions]

theorem occur_awaiting (awaiting : l.stage = .awaiting outcome waiting deadline) (now : Nat) :
    l.occur config t Stage.isTelling (.turn now) =
      if waiting = [] then { l with stage := .closing outcome now }
      else match l.queue with
        | envelope :: rest => { l with
            stage := .awaiting outcome (stillWaiting waiting envelope) deadline
            queue := rest }
        | [] => if deadline ≤ now then { l with stage := .announcing outcome waiting } else l := by
  obtain ⟨stage, queue, storage, rounds⟩ := l
  subst awaiting
  by_cases nobody : waiting = []
  · simp [Listener.occur, Stage.isTelling, step, nobody, Listener.go]
  · cases queue with
    | cons envelope rest => simp [Listener.occur, Stage.isTelling, step, nobody, Listener.go]
    | nil =>
      by_cases passed : deadline ≤ now <;>
        simp [Listener.occur, Stage.isTelling, step, nobody, Listener.go, passed]

end Turns

inductive Stage.Tells (config : Config) (t : Transaction) (outcome : Outcome)
    (queue : List Envelope) (occurrences : List Occurrence) (taken : List Envelope) :
    List Mark → Stage → Prop where
  | first : taken = [] → Stage.Tells config t outcome queue occurrences taken []
      (.announcing outcome (missing t.participants taken))
  | again {marks : List Mark} (mark : Mark) : marks.getLast? = some mark →
      Expired (mark.time + config.retryInterval) queue occurrences taken →
      Stage.Tells config t outcome queue occurrences taken marks
        (.announcing outcome (missing t.participants taken))
  | told {marks : List Mark} (mark : Mark) : marks.getLast? = some mark →
      Stage.Tells config t outcome queue occurrences taken marks
        (.awaiting outcome (missing t.participants taken) (mark.time + config.retryInterval))
  | ended (marks : List Mark) (now : Nat) : missing t.participants taken = [] →
      Stage.Tells config t outcome queue occurrences taken marks (.closing outcome now)

structure Tells (config : Config) (t : Transaction) (outcome : Outcome) (queue : List Envelope)
    (storage : σ) (occurrences : List Occurrence) (l : Listener σ) (taken : List Envelope)
    (marks : List Mark) : Prop where
  came : queue ++ arrivals occurrences = taken ++ l.queue
  kept : l.storage = storage
  unfinished : ∀ front envelope back, taken = front ++ envelope :: back →
    missing t.participants front ≠ []
  rounds : l.rounds = marks.map (Mark.round t outcome)
  made : ∀ mark ∈ marks, mark.taken <+: taken ∧ missing t.participants mark.taken ≠ []
  first : ∀ mark, marks.head? = some mark → mark.taken = []
  repeats : marks.IsChain fun mark next =>
    Expired (mark.time + config.retryInterval) queue occurrences next.taken
  stage : l.stage.Tells config t outcome queue occurrences taken marks

theorem Stage.Tells.append {stage : Stage}
    (tells : stage.Tells config t outcome queue occurrences taken marks) (more : List Occurrence) :
    stage.Tells config t outcome queue (occurrences ++ more) taken marks := by
  cases tells with
  | first none => exact .first none
  | again mark last expired => exact .again mark last (expired.append more)
  | told mark last => exact .told mark last
  | ended _ now all => exact .ended _ now all

namespace Tells

theorem begin (queue : List Envelope) (storage : σ) : Tells config t outcome queue storage []
    ⟨.announcing outcome t.participants, queue, storage, []⟩ [] [] := by
  refine ⟨by simp, rfl, by simp, rfl, by simp, by simp, .nil, ?_⟩
  rw [← missing_nil t.participants]
  exact .first rfl

theorem stay (tells : Tells config t outcome queue storage occurrences l taken marks)
    {more : List Occurrence} {l' : Listener σ} (came : l'.queue = l.queue ++ arrivals more)
    (kept : l'.storage = l.storage) (rounds : l'.rounds = l.rounds)
    (stage : l'.stage.Tells config t outcome queue (occurrences ++ more) taken marks) :
    Tells config t outcome queue storage (occurrences ++ more) l' taken marks := by
  refine ⟨?_, kept.trans tells.kept, tells.unfinished, rounds.trans tells.rounds, tells.made,
    tells.first, tells.repeats.imp fun _ _ expired => expired.append more, stage⟩
  rw [arrivals_append, ← List.append_assoc, tells.came, came, List.append_assoc]

theorem tell (tells : Tells config t outcome queue storage occurrences l taken marks)
    (announcing : l.stage = .announcing outcome (missing t.participants taken))
    (some : missing t.participants taken ≠ []) (now : Nat) :
    Tells config t outcome queue storage (occurrences ++ [.turn now]) { l with
      stage := .awaiting outcome (missing t.participants taken) (now + config.retryInterval)
      rounds := l.rounds ++ [⟨now, decisions t outcome (missing t.participants taken)⟩] }
      taken (marks ++ [⟨now, taken⟩]) := by
  obtain ⟨came, kept, unfinished, rounds, made, first, repeats, stage⟩ := tells
  rw [announcing] at stage
  refine ⟨by simpa using came, kept, unfinished, by simp [rounds, Mark.round], ?_, ?_, ?_,
    .told ⟨now, taken⟩ (by simp)⟩
  · intro mark member
    rcases List.mem_append.mp member with old | new
    · exact made mark old
    · obtain rfl := List.mem_singleton.mp new
      exact ⟨List.prefix_rfl, some⟩
  · intro mark head
    cases stage with
    | first none =>
      cases head
      exact none
    | again earlier last expired =>
      obtain ⟨front, rfl⟩ := List.getLast?_eq_some_iff.mp last
      exact first mark (by simpa [List.head?_append] using head)
  · refine List.isChain_append.mpr ⟨repeats.imp fun _ _ expired => expired.append _,
      List.isChain_singleton _, ?_⟩
    rintro earlier lastToo _ ⟨⟩
    cases stage with
    | first none => cases lastToo
    | again mark last expired =>
      obtain rfl : mark = earlier := by simpa [last] using lastToo
      exact expired.append _

theorem take (tells : Tells config t outcome queue storage occurrences l taken marks) {mark : Mark}
    (last : marks.getLast? = some mark) (unfinished : missing t.participants taken ≠ [])
    {envelope : Envelope} {rest : List Envelope} (next : l.queue = envelope :: rest) (now : Nat) :
    Tells config t outcome queue storage (occurrences ++ [.turn now]) { l with
      stage := .awaiting outcome (stillWaiting (missing t.participants taken) envelope)
        (mark.time + config.retryInterval)
      queue := rest } (taken ++ [envelope]) marks := by
  refine ⟨by simpa [next] using tells.came, tells.kept, ?_, tells.rounds, ?_, tells.first,
    tells.repeats.imp fun _ _ expired => expired.append _, ?_⟩
  · exact Ordered.snoc tells.unfinished unfinished
  · intro earlier member
    obtain ⟨before, some⟩ := tells.made earlier member
    exact ⟨before.trans (List.prefix_append _ _), some⟩
  · rw [← missing_snoc t.participants_nodup]
    exact .told mark last

theorem ended_iff (tells : Tells config t outcome queue storage occurrences l taken marks) :
    l.Ended outcome ↔ ¬ l.stage.isTelling := by
  refine ⟨fun ended => by simp [ended.outside], fun done => ?_⟩
  have stage := tells.stage
  generalize at_ : l.stage = place at stage
  cases stage with
  | ended _ now => exact ⟨now, at_⟩
  | first | again | told =>
    rw [at_] at done
    exact absurd rfl done

theorem all_in (tells : Tells config t outcome queue storage occurrences l taken marks)
    (ended : l.Ended outcome) : missing t.participants taken = [] := by
  obtain ⟨now, same⟩ := ended
  have stage := tells.stage
  rw [same] at stage
  cases stage with
  | ended _ _ all => exact all

theorem awaits (tells : Tells config t outcome queue storage occurrences l taken marks)
    (awaiting : l.stage = .awaiting outcome waiting deadline) :
    waiting = missing t.participants taken ∧
      ∃ mark, marks.getLast? = some mark ∧ deadline = mark.time + config.retryInterval := by
  have stage := tells.stage
  rw [awaiting] at stage
  cases stage with
  | told mark last => exact ⟨rfl, mark, last, rfl⟩

variable [Journal σ Entry] [Publishing σ]

theorem occur (tells : Tells config t outcome queue storage occurrences l taken marks)
    (occurrence : Occurrence) : ∃ taken marks, Tells config t outcome queue storage
      (occurrences ++ [occurrence]) (l.occur config t Stage.isTelling occurrence) taken marks := by
  have stage := tells.stage
  cases occurrence with
  | arrival envelope => exact ⟨taken, marks, tells.stay rfl rfl rfl (stage.append _)⟩
  | turn now =>
    generalize at_ : l.stage = place at stage
    have announces : l.stage = .announcing outcome (missing t.participants taken) →
        ∃ taken marks, Tells config t outcome queue storage (occurrences ++ [.turn now])
          (l.occur config t Stage.isTelling (.turn now)) taken marks := by
      intro announcing
      rw [occur_announcing announcing]
      split
      next nobody => exact ⟨taken, marks, tells.stay (by simp) rfl rfl (.ended _ now nobody)⟩
      next some => exact ⟨taken, _, tells.tell announcing some now⟩
    cases stage with
    | first => exact announces at_
    | again => exact announces at_
    | told mark last =>
      rw [occur_awaiting at_]
      split
      next all => exact ⟨taken, marks, tells.stay (by simp) rfl rfl (.ended _ now all)⟩
      next some =>
        split
        next envelope rest next => exact ⟨_, marks, tells.take last some next now⟩
        next empty =>
          split
          next passed =>
            refine ⟨taken, marks, tells.stay (by simp) rfl rfl (.again mark last ?_)⟩
            exact ⟨occurrences, now, [], by simp, passed, by simpa [empty] using tells.came⟩
          next => exact ⟨taken, marks, tells.stay (by simp) rfl rfl (tells.stage.append _)⟩
    | ended _ earlier all =>
      rw [Listener.occur_outside (by rw [at_]; rfl)]
      exact ⟨taken, marks, tells.stay (by simp) rfl rfl (tells.stage.append _)⟩

end Tells

section Turns

variable [Journal σ Entry] [Publishing σ] {front back : List Envelope} {more : List Occurrence}

theorem Listener.ends_awaiting
    (awaiting : l.stage = .awaiting outcome (missing t.participants taken) deadline)
    (here : l.queue = front ++ back) (all : missing t.participants (taken ++ front) = [])
    (enough : front.length < (turns more).length) :
    (l.listen config t Stage.isTelling more).Ended outcome := by
  induction more generalizing l taken front back with
  | nil => simp at enough
  | cons occurrence more ih =>
    rw [listen_cons]
    cases occurrence with
    | arrival envelope =>
      have longer : l.queue ++ [envelope] = front ++ (back ++ [envelope]) := by simp [here]
      exact ih awaiting longer all enough
    | turn now =>
      rw [occur_awaiting awaiting]
      split
      next =>
        have ended : Ended { l with stage := .closing outcome now } outcome := ⟨now, rfl⟩
        rw [listen_outside ended.outside]
        exact ended
      next some =>
        cases front with
        | nil => exact absurd (by simpa using all) some
        | cons envelope front =>
          have rest : missing t.participants (taken ++ [envelope] ++ front) = [] := by
            simpa using all
          have noted := missing_snoc t.participants_nodup taken envelope
          rw [here]
          exact ih (congrArg (Stage.awaiting outcome · deadline) noted.symm) rfl rest
            (by simpa using enough)

theorem Listener.ends_announcing
    (announcing : l.stage = .announcing outcome (missing t.participants taken))
    (here : l.queue = front ++ back) (all : missing t.participants (taken ++ front) = [])
    (enough : front.length + 1 < (turns more).length) :
    (l.listen config t Stage.isTelling more).Ended outcome := by
  induction more generalizing l back with
  | nil => simp at enough
  | cons occurrence more ih =>
    rw [listen_cons]
    cases occurrence with
    | arrival envelope =>
      have longer : l.queue ++ [envelope] = front ++ (back ++ [envelope]) := by simp [here]
      exact ih announcing longer enough
    | turn now =>
      rw [occur_announcing announcing]
      split
      next =>
        have ended : Ended { l with stage := .closing outcome now } outcome := ⟨now, rfl⟩
        rw [listen_outside ended.outside]
        exact ended
      next => exact ends_awaiting rfl here all (by simpa using enough)

namespace Tells

theorem ends (tells : Tells config t outcome queue storage occurrences l taken marks)
    (still : l.stage.isTelling) (here : l.queue = front ++ back)
    (all : missing t.participants (taken ++ front) = [])
    (enough : front.length + 1 < (turns more).length) :
    (l.listen config t Stage.isTelling more).Ended outcome := by
  have stage := tells.stage
  generalize at_ : l.stage = place at stage
  cases stage with
  | first | again => exact l.ends_announcing at_ here all enough
  | told => exact l.ends_awaiting at_ here all (by omega)
  | ended _ now =>
    rw [at_] at still
    cases still

theorem announces (tells : Tells config t outcome queue storage occurrences l taken marks)
    (announcing : l.stage = .announcing outcome waiting)
    (some : missing t.participants taken ≠ []) (now : Nat) :
    (l.occur config t Stage.isTelling (.turn now)).rounds =
      l.rounds ++ [Mark.round t outcome ⟨now, taken⟩] := by
  have same : waiting = missing t.participants taken := by
    have stage := tells.stage
    rw [announcing] at stage
    cases stage <;> rfl
  rw [occur_announcing announcing, same, if_neg some]
  rfl

end Tells

/-- An engine whose outcome is logged, with this in its inbox, after all that has occurred since. -/
def announcement (config : Config) (t : Transaction) (outcome : Outcome) (queue : List Envelope)
    (storage : σ) (occurrences : List Occurrence) : Listener σ :=
  Listener.listen config t Stage.isTelling ⟨.announcing outcome t.participants, queue, storage, []⟩
    occurrences

theorem announcement_append (occurrences more : List Occurrence) :
    announcement config t outcome queue storage (occurrences ++ more) =
      (announcement config t outcome queue storage occurrences).listen config t Stage.isTelling
        more :=
  Listener.listen_append ..

theorem announcement_tells (config : Config) (t : Transaction) (outcome : Outcome)
    (queue : List Envelope) (storage : σ) (occurrences : List Occurrence) : ∃ taken marks,
      Tells config t outcome queue storage occurrences
        (announcement config t outcome queue storage occurrences) taken marks := by
  induction occurrences using List.reverseRecOn with
  | nil => exact ⟨[], [], .begin queue storage⟩
  | append_singleton occurrences occurrence ih =>
    obtain ⟨taken, marks, tells⟩ := ih
    rw [announcement_append]
    exact tells.occur occurrence

/-- Each round tells those whose acknowledgement has not been taken by then, and nobody else. A round
follows another when the retry interval has passed with nothing left in the inbox; after the last
acknowledgement that is missing nothing more is taken. -/
theorem rounds_tell_missing (config : Config) (t : Transaction) (outcome : Outcome)
    (queue : List Envelope) (storage : σ) (occurrences : List Occurrence) :
    let after := announcement config t outcome queue storage
    let l := after occurrences
    ∃ (taken : List Envelope) (marks : List Mark),
      queue ++ arrivals occurrences = taken ++ l.queue ∧ l.storage = storage ∧
      (∀ front envelope back, taken = front ++ envelope :: back →
        missing t.participants front ≠ []) ∧
      l.rounds = marks.map (Mark.round t outcome) ∧
      (∀ mark ∈ marks, mark.taken <+: taken ∧ missing t.participants mark.taken ≠ [] ∧
        (missing t.participants mark.taken).Pairwise (· < ·)) ∧
      (∀ mark, marks.head? = some mark → mark.taken = []) ∧
      (marks.IsChain fun mark next =>
        Expired (mark.time + config.retryInterval) queue occurrences next.taken) ∧
      (l.Ended outcome ↔ ¬ l.stage.isTelling) ∧
      (l.Ended outcome → missing t.participants taken = []) ∧
      (l.stage.isTelling → ∀ front back, l.queue = front ++ back →
        missing t.participants (taken ++ front) = [] →
          ∀ more, front.length + 1 < (turns more).length →
            (after (occurrences ++ more)).Ended outcome) ∧
      (∀ waiting, l.stage = .announcing outcome waiting → missing t.participants taken ≠ [] →
        ∀ now, (after (occurrences ++ [.turn now])).rounds =
          l.rounds ++ [Mark.round t outcome ⟨now, taken⟩]) ∧
      (∀ waiting deadline, l.stage = .awaiting outcome waiting deadline →
        (∃ mark, marks.getLast? = some mark ∧ deadline = mark.time + config.retryInterval) ∧
          (missing t.participants taken ≠ [] → l.queue = [] → ∀ now,
            if deadline ≤ now then
              (after (occurrences ++ [.turn now])).stage = .announcing outcome waiting
            else after (occurrences ++ [.turn now]) = l)) ∧
      ∀ front envelope back, Stale t.participants front envelope →
        missing t.participants (front ++ envelope :: back) =
          missing t.participants (front ++ back) := by
  intro after l
  obtain ⟨taken, marks, tells⟩ := announcement_tells config t outcome queue storage occurrences
  have later : ∀ more, after (occurrences ++ more) = l.listen config t Stage.isTelling more :=
    announcement_append occurrences
  refine ⟨taken, marks, tells.came, tells.kept, tells.unfinished, tells.rounds, ?_, tells.first,
    tells.repeats, tells.ended_iff, tells.all_in, ?_, ?_, ?_,
    fun front envelope back stale => stale.missing_eq back⟩
  · intro mark member
    obtain ⟨before, some⟩ := tells.made mark member
    exact ⟨before, some, (Source.sorted_shares t.sources).filter _⟩
  · intro still front back here all more enough
    rw [later]
    exact tells.ends still here all enough
  · intro waiting announcing some now
    rw [later, Listener.listen_cons, Listener.listen_nil]
    exact tells.announces announcing some now
  · intro waiting deadline awaiting
    obtain ⟨rfl, last⟩ := tells.awaits awaiting
    refine ⟨last, fun some empty now => ?_⟩
    rw [later, Listener.listen_cons, Listener.listen_nil, occur_awaiting awaiting, if_neg some, empty]
    split <;> rfl

example : (announcement {} ⟨"t", [], [⟨"q", "y"⟩, ⟨"p", "x"⟩]⟩ .commit []
    (⟨{}, ⟨[], {}, "draft"⟩⟩ : Beside (Ledger Entry) Publisher)
    [.turn 0, .arrival ⟨"p", .ack "t"⟩, .turn 1, .arrival ⟨"p", .ack "t"⟩, .turn 2, .turn 6000,
      .turn 6000]).rounds =
    [⟨0, [("p", .decision "t" .commit), ("q", .decision "t" .commit)]⟩,
      ⟨6000, [("q", .decision "t" .commit)]⟩] := by
  decide +kernel

end Turns

end Announcing

end AtomicCommit.Coordinator
