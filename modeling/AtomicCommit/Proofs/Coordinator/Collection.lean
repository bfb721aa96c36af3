import AtomicCommit.Proofs.Coordinator.Listening
import AtomicCommit.Proofs.Coordinator.Votes
import AtomicCommit.Proofs.Sources

/-! The collection of votes, compared with what the first votes of the participants say. -/

namespace AtomicCommit.Coordinator

def firstVote? (envelopes : List Envelope) (participant : String) : Option Vote :=
  envelopes.findSome? fun envelope =>
    if envelope.sender = participant then envelope.message.phase.vote? else none

/-- What the first votes among the messages decide, if they decide anything. -/
def Verdict (participants : List String) (envelopes : List Envelope) : Outcome → Prop
  | .commit => ∀ participant ∈ participants, firstVote? envelopes participant = some .accept
  | .abort => ∃ participant ∈ participants, firstVote? envelopes participant = some .refuse

/-- A message that is no vote, not from a participant, or not the first vote of its sender. -/
def Idle (participants : List String) (before : List Envelope) (envelope : Envelope) : Prop :=
  envelope.message.phase.vote? = none ∨ envelope.sender ∉ participants ∨
    (firstVote? before envelope.sender).isSome

section Verdict

variable {participants : List String} {envelopes : List Envelope} {outcome : Outcome}

theorem firstVote?_append (envelopes more : List Envelope) (participant : String) :
    firstVote? (envelopes ++ more) participant =
      (firstVote? envelopes participant).or (firstVote? more participant) :=
  List.findSome?_append

theorem firstVote?_singleton (envelope : Envelope) (participant : String) :
    firstVote? [envelope] participant =
      if envelope.sender = participant then envelope.message.phase.vote? else none := by
  rw [firstVote?, List.findSome?_cons]
  split <;> simp_all

theorem Verdict.append (verdict : Verdict participants envelopes outcome) (more : List Envelope) :
    Verdict participants (envelopes ++ more) outcome := by
  cases outcome with
  | commit =>
    intro participant asked
    rw [firstVote?_append, verdict participant asked, Option.some_or]
  | abort =>
    obtain ⟨participant, asked, refused⟩ := verdict
    exact ⟨participant, asked, by rw [firstVote?_append, refused, Option.some_or]⟩

theorem Verdict.exclusive (accepted : Verdict participants envelopes .commit)
    (refused : Verdict participants envelopes .abort) : False := by
  obtain ⟨participant, asked, refused⟩ := refused
  simp [accepted participant asked] at refused

theorem Verdict.unique {other : Outcome} (verdict : Verdict participants envelopes outcome)
    (otherToo : Verdict participants envelopes other) : outcome = other := by
  cases outcome <;> cases other
  case commit.abort => exact (verdict.exclusive otherToo).elim
  case abort.commit => exact (otherToo.exclusive verdict).elim
  all_goals rfl

theorem Idle.passed {before : List Envelope} {envelope : Envelope}
    (idle : Idle participants before envelope) {participant : String}
    (asked : participant ∈ participants) :
    firstVote? (before ++ [envelope]) participant = firstVote? before participant := by
  rw [firstVote?_append, firstVote?_singleton]
  split
  next own =>
    subst own
    rcases idle with silent | foreign | repeated
    · simp [silent]
    · exact absurd asked foreign
    · obtain ⟨vote, first⟩ := Option.isSome_iff_exists.mp repeated
      simp [first]
  next => simp

theorem Idle.verdict_iff {before : List Envelope} {envelope : Envelope}
    (idle : Idle participants before envelope) (after : List Envelope) (outcome : Outcome) :
    Verdict participants (before ++ envelope :: after) outcome ↔
      Verdict participants (before ++ after) outcome := by
  have same : ∀ participant ∈ participants,
      firstVote? (before ++ envelope :: after) participant =
        firstVote? (before ++ after) participant := by
    intro participant asked
    rw [← List.singleton_append, ← List.append_assoc, firstVote?_append, idle.passed asked,
      ← firstVote?_append]
  cases outcome with
  | commit =>
    refine forall₂_congr fun participant asked => ?_
    rw [same participant asked]
  | abort =>
    refine exists_congr fun participant => and_congr_right fun asked => ?_
    rw [same participant asked]

end Verdict

structure Ballot.Counts (participants : List String) (taken : List Envelope) (ballot : Ballot) :
    Prop where
  once : (ballot.map (·.1)).Nodup
  votes : ∀ participant vote, (participant, vote) ∈ ballot ↔
    participant ∈ participants ∧ firstVote? taken participant = some vote

namespace Ballot.Counts

variable {participants : List String} {taken : List Envelope} {ballot : Ballot}

theorem none (participants : List String) : Counts participants [] [] :=
  ⟨.nil, by simp [firstVote?]⟩

theorem heard_iff (counts : ballot.Counts participants taken) {participant : String}
    (asked : participant ∈ participants) :
    ballot.hasVoted participant ↔ (firstVote? taken participant).isSome := by
  simp [Ballot.hasVoted_iff, Option.isSome_iff_exists, counts.votes, asked]

theorem idle (counts : ballot.Counts participants taken) {envelope : Envelope}
    (idle : Idle participants taken envelope) : ballot.Counts participants (taken ++ [envelope]) := by
  refine ⟨counts.once, fun participant vote => (counts.votes participant vote).trans ?_⟩
  exact and_congr_right fun asked => by rw [idle.passed asked]

theorem receive_idle (counts : ballot.Counts participants taken) {envelope : Envelope}
    (idle : Idle participants taken envelope) : ballot.receive participants envelope = ballot := by
  rw [Ballot.receive]
  split
  next vote voted =>
    refine if_neg fun counted => ?_
    obtain ⟨asked, first⟩ : envelope.sender ∈ participants ∧
        ballot.hasVoted envelope.sender = false := by
      simpa using counted
    rcases idle with silent | foreign | repeated
    · simp [silent] at voted
    · exact foreign asked
    · simp [(counts.heard_iff asked).mpr repeated] at first
  next => rfl

theorem receive (counts : ballot.Counts participants taken) (envelope : Envelope) :
    (ballot.receive participants envelope).Counts participants (taken ++ [envelope]) := by
  by_cases idle : Idle participants taken envelope
  · rw [counts.receive_idle idle]
    exact counts.idle idle
  obtain ⟨votes, asked, unheard⟩ : envelope.message.phase.vote? ≠ Option.none ∧
      envelope.sender ∈ participants ∧ firstVote? taken envelope.sender = Option.none := by
    simpa [Idle] using idle
  obtain ⟨vote, voted⟩ := Option.ne_none_iff_exists'.mp votes
  have unvoted : ballot.hasVoted envelope.sender = false := by
    rw [Bool.eq_false_iff, Ne, counts.heard_iff asked, unheard]
    simp
  have received : ballot.receive participants envelope = ballot ++ [(envelope.sender, vote)] := by
    simp [Ballot.receive, voted, asked, unvoted]
  rw [received]
  constructor
  · rw [List.map_append]
    refine List.nodup_append.mpr ⟨counts.once, by simp, ?_⟩
    rintro participant member _ new rfl
    obtain rfl := List.mem_singleton.mp new
    simp [Ballot.hasVoted_iff.mpr member] at unvoted
  · intro participant other
    rw [List.mem_append, counts.votes, List.mem_singleton, firstVote?_append, firstVote?_singleton]
    by_cases own : envelope.sender = participant
    · subst own
      simp only [unheard, asked, voted, if_true, Option.none_or, reduceCtorEq, and_false, false_or,
        true_and, Option.some.injEq, Prod.mk.injEq]
      exact eq_comm
    · simp [own, Ne.symm own]

theorem refuses_iff (counts : ballot.Counts participants taken) :
    (ballot.any fun (_, vote) => !vote.isAccept) ↔ Verdict participants taken .abort := by
  simp only [List.any_eq_true, Verdict]
  constructor
  · rintro ⟨⟨participant, vote⟩, member, refused⟩
    obtain rfl : vote = .refuse := by cases vote <;> simp_all [Vote.isAccept]
    exact ⟨participant, (counts.votes _ _).mp member⟩
  · rintro ⟨participant, heard⟩
    exact ⟨(participant, .refuse), (counts.votes _ _).mpr heard, rfl⟩

theorem complete_iff (counts : ballot.Counts participants taken) (distinct : participants.Nodup)
    (unrefused : ¬ Verdict participants taken .abort) :
    participants.length ≤ ballot.length ↔ Verdict participants taken .commit := by
  have asked : ballot.map (·.1) ⊆ participants := by
    intro participant member
    obtain ⟨⟨_, vote⟩, voted, rfl⟩ := List.mem_map.mp member
    exact ((counts.votes _ vote).mp voted).1
  constructor
  · intro enough participant member
    have all : (ballot.map (·.1)).Perm participants :=
      (List.subperm_of_subset counts.once asked).perm_of_length_le (by simpa using enough)
    obtain ⟨⟨_, vote⟩, voted, rfl⟩ := List.mem_map.mp (all.mem_iff.mpr member)
    have first := (counts.votes _ vote).mp voted
    cases vote with
    | accept => exact first.2
    | refuse => exact absurd ⟨_, first⟩ unrefused
  · intro unanimous
    have heard : participants ⊆ ballot.map (·.1) := fun participant member =>
      List.mem_map.mpr ⟨_, (counts.votes _ _).mpr ⟨member, unanimous participant member⟩, rfl⟩
    simpa using (List.subperm_of_subset distinct heard).length_le

theorem outcome_iff (counts : ballot.Counts participants taken) (distinct : participants.Nodup)
    (outcome : Outcome) :
    ballot.outcome? participants = some outcome ↔ Verdict participants taken outcome := by
  rw [Ballot.outcome?]
  split
  next refused =>
    have aborts := counts.refuses_iff.mp refused
    cases outcome with
    | commit => simpa using fun commits : Verdict _ _ .commit => commits.exclusive aborts
    | abort => simpa using aborts
  next accepted =>
    have unrefused : ¬ Verdict participants taken .abort := counts.refuses_iff.not.mp accepted
    have unanimous : Outcome.ofVotes (ballot.map (·.2)) = .commit := by
      simpa [Outcome.ofVotes] using accepted
    rw [unanimous]
    cases outcome with
    | commit => simpa using counts.complete_iff distinct unrefused
    | abort => simpa using unrefused

end Ballot.Counts

theorem Transaction.participants_nodup (t : Transaction) : t.participants.Nodup := by
  refine (Source.sorted_shares t.sources).imp ?_
  rintro a b before rfl
  exact String.lt_irrefl _ before

def Stage.isVoting : Stage → Bool
  | .voting _ _ => true
  | _ => false

/-- The deadline had passed when the engine, with nothing left in its inbox, had its turn. -/
def Expired (deadline : Nat) (queue : List Envelope) (occurrences : List Occurrence)
    (taken : List Envelope) : Prop :=
  ∃ front now back, occurrences = front ++ .turn now :: back ∧ deadline ≤ now ∧
    queue ++ arrivals front = taken

theorem Expired.append {deadline : Nat} {queue taken : List Envelope} {occurrences : List Occurrence}
    (expired : Expired deadline queue occurrences taken) (more : List Occurrence) :
    Expired deadline queue (occurrences ++ more) taken := by
  obtain ⟨front, now, back, rfl, passed, all⟩ := expired
  exact ⟨front, now, back ++ more, by simp, passed, all⟩

namespace Listener

variable {σ : Type}

def Resolved (l : Listener σ) (outcome : Outcome) : Prop := ∃ now, l.stage = decided now outcome

theorem Resolved.outside {l : Listener σ} {outcome : Outcome} (resolved : l.Resolved outcome) :
    l.stage.isVoting = false := by
  obtain ⟨now, same⟩ := resolved
  cases outcome <;> simp [same, decided, Stage.isVoting]

theorem Resolved.unique {l : Listener σ} {outcome other : Outcome} (resolved : l.Resolved outcome)
    (otherToo : l.Resolved other) : outcome = other := by
  obtain ⟨now, same⟩ := resolved
  obtain ⟨later, sameToo⟩ := otherToo
  rw [same] at sameToo
  cases outcome <;> cases other <;> first | rfl | cases sameToo

end Listener

section Collecting

variable {σ : Type} {config : Config} {t : Transaction} {deadline : Nat} {ballot : Ballot}
  {queue taken : List Envelope} {storage : σ} {l : Listener σ}
  {occurrences : List Occurrence}

theorem occur_voting [Journal σ Entry] [Publishing σ]
    (voting : l.stage = .voting deadline ballot) (now : Nat) :
    l.occur config t Stage.isVoting (.turn now) =
      match ballot.outcome? t.participants, l.queue with
      | some outcome, _ => { l with stage := decided now outcome }
      | none, envelope :: rest =>
        { l with stage := .voting deadline (ballot.receive t.participants envelope), queue := rest }
      | none, [] => if deadline ≤ now then { l with stage := decided now .abort } else l := by
  obtain ⟨stage, queue, storage, rounds⟩ := l
  subst voting
  simp only [Listener.occur, Stage.isVoting, if_true, step]
  cases ballot.outcome? t.participants with
  | some outcome => rfl
  | none =>
    cases queue with
    | cons envelope rest => rfl
    | nil => by_cases passed : deadline ≤ now <;> simp [passed, Listener.go]

structure Polls (t : Transaction) (deadline : Nat) (queue : List Envelope) (storage : σ)
    (occurrences : List Occurrence) (l : Listener σ) (taken : List Envelope) : Prop where
  came : queue ++ arrivals occurrences = taken ++ l.queue
  silent : l.rounds = [] ∧ l.storage = storage
  undecided : ∀ front envelope back, taken = front ++ envelope :: back →
    ∀ outcome, ¬ Verdict t.participants front outcome
  stage : (∃ ballot, l.stage = .voting deadline ballot ∧ ballot.Counts t.participants taken) ∨
    ∃ outcome, l.Resolved outcome ∧ (Verdict t.participants taken outcome ∨
      outcome = .abort ∧ (∀ other, ¬ Verdict t.participants taken other) ∧
        Expired deadline queue occurrences taken)

namespace Polls

theorem begin (queue : List Envelope) (storage : σ) :
    Polls t deadline queue storage [] ⟨.voting deadline [], queue, storage, []⟩ [] := by
  refine ⟨by simp, ⟨rfl, rfl⟩, ?_, .inl ⟨[], rfl, .none _⟩⟩
  intro front envelope back split
  simp at split

theorem undecided_of_none (counts : ballot.Counts t.participants taken)
    (none : ballot.outcome? t.participants = none) (outcome : Outcome) :
    ¬ Verdict t.participants taken outcome := by
  rw [← counts.outcome_iff t.participants_nodup, none]
  simp

theorem take (polls : Polls t deadline queue storage occurrences l taken)
    (counts : ballot.Counts t.participants taken) (none : ballot.outcome? t.participants = none)
    {envelope : Envelope} {rest : List Envelope} (next : l.queue = envelope :: rest) (now : Nat) :
    Polls t deadline queue storage (occurrences ++ [.turn now])
      { l with stage := .voting deadline (ballot.receive t.participants envelope), queue := rest }
      (taken ++ [envelope]) := by
  refine ⟨by simpa [next] using polls.came, polls.silent, ?_, .inl ⟨_, rfl, counts.receive envelope⟩⟩
  exact Ordered.snoc polls.undecided (undecided_of_none counts none)

theorem voting (polls : Polls t deadline queue storage occurrences l taken)
    (still : l.stage.isVoting) :
    ∃ ballot, l.stage = .voting deadline ballot ∧ ballot.Counts t.participants taken := by
  refine polls.stage.resolve_right ?_
  rintro ⟨outcome, resolved, _⟩
  simp [resolved.outside] at still

theorem ended (polls : Polls t deadline queue storage occurrences l taken)
    (done : ¬ l.stage.isVoting) : ∃ outcome, l.Resolved outcome ∧
      (Verdict t.participants taken outcome ∨ outcome = .abort ∧
        (∀ other, ¬ Verdict t.participants taken other) ∧
          Expired deadline queue occurrences taken) := by
  refine polls.stage.resolve_left ?_
  rintro ⟨ballot, same, _⟩
  exact done (by rw [same]; rfl)

theorem commit_iff (polls : Polls t deadline queue storage occurrences l taken) :
    l.Resolved .commit ↔ ¬ l.stage.isVoting ∧ Verdict t.participants taken .commit := by
  constructor
  · intro resolved
    have done : ¬ l.stage.isVoting := by simp [resolved.outside]
    obtain ⟨outcome, same, reason⟩ := polls.ended done
    obtain rfl := resolved.unique same
    exact ⟨done, reason.resolve_right (by simp)⟩
  · rintro ⟨done, commits⟩
    obtain ⟨outcome, resolved, verdict | ⟨_, unclear, _⟩⟩ := polls.ended done
    · exact verdict.unique commits ▸ resolved
    · exact absurd commits (unclear _)

theorem abort_iff (polls : Polls t deadline queue storage occurrences l taken) :
    l.Resolved .abort ↔ ¬ l.stage.isVoting ∧ (Verdict t.participants taken .abort ∨
      (∀ outcome, ¬ Verdict t.participants taken outcome) ∧
        Expired deadline queue occurrences taken) := by
  constructor
  · intro resolved
    have done : ¬ l.stage.isVoting := by simp [resolved.outside]
    obtain ⟨outcome, same, reason⟩ := polls.ended done
    obtain rfl := resolved.unique same
    exact ⟨done, reason.imp_right And.right⟩
  · rintro ⟨done, refused | ⟨unclear, _⟩⟩ <;>
      obtain ⟨outcome, resolved, verdict | ⟨rfl, _⟩⟩ := polls.ended done
    · exact verdict.unique refused ▸ resolved
    · exact resolved
    · exact absurd verdict (unclear _)
    · exact resolved

variable [Journal σ Entry] [Publishing σ]

theorem occur (polls : Polls t deadline queue storage occurrences l taken)
    (occurrence : Occurrence) : ∃ taken, Polls t deadline queue storage
      (occurrences ++ [occurrence]) (l.occur config t Stage.isVoting occurrence) taken := by
  obtain ⟨came, silent, undecided, stage⟩ := polls
  cases occurrence with
  | arrival envelope =>
    refine ⟨taken, ?_, silent, undecided, stage.imp_right ?_⟩
    · rw [arrivals_append, ← List.append_assoc, came, List.append_assoc]
      rfl
    · rintro ⟨outcome, resolved, reason⟩
      exact ⟨outcome, resolved, reason.imp_right fun ⟨aborts, unclear, expired⟩ =>
        ⟨aborts, unclear, expired.append _⟩⟩
  | turn now =>
    have sameCame : queue ++ arrivals (occurrences ++ [.turn now]) = taken ++ l.queue := by
      simpa using came
    rcases stage with ⟨ballot, voting, counts⟩ | ⟨outcome, resolved, reason⟩
    · rw [occur_voting voting]
      split
      next outcome decides =>
        exact ⟨taken, sameCame, silent, undecided,
          .inr ⟨outcome, ⟨now, rfl⟩, .inl ((counts.outcome_iff t.participants_nodup _).mp decides)⟩⟩
      next envelope rest none next =>
        exact ⟨_, take ⟨came, silent, undecided, .inl ⟨ballot, voting, counts⟩⟩ counts none next now⟩
      next none empty =>
        split
        next passed =>
          refine ⟨taken, sameCame, silent, undecided, .inr ⟨.abort, ⟨now, rfl⟩, .inr
            ⟨rfl, undecided_of_none counts none, occurrences, now, [], by simp, passed, ?_⟩⟩⟩
          simpa [empty] using came
        next => exact ⟨taken, sameCame, silent, undecided, .inl ⟨ballot, voting, counts⟩⟩
    · rw [Listener.occur_outside resolved.outside]
      exact ⟨taken, sameCame, silent, undecided, .inr ⟨outcome, resolved, reason.imp_right
        fun ⟨aborts, unclear, expired⟩ => ⟨aborts, unclear, expired.append _⟩⟩⟩

theorem expires (polls : Polls t deadline queue storage occurrences l taken)
    (still : l.stage.isVoting) (empty : l.queue = [])
    (unclear : ∀ outcome, ¬ Verdict t.participants taken outcome) (now : Nat) :
    l.occur config t Stage.isVoting (.turn now) =
      if deadline ≤ now then { l with stage := decided now .abort } else l := by
  obtain ⟨ballot, same, counts⟩ := polls.voting still
  have none : ballot.outcome? t.participants = none :=
    Option.eq_none_iff_forall_ne_some.mpr fun outcome decides =>
      unclear outcome ((counts.outcome_iff t.participants_nodup _).mp decides)
  rw [occur_voting same, none, empty]

end Polls

variable [Journal σ Entry] [Publishing σ]

theorem Listener.resolves {front back : List Envelope} {outcome : Outcome}
    (voting : l.stage = .voting deadline ballot) (counts : ballot.Counts t.participants taken)
    (waiting : l.queue = front ++ back) (verdict : Verdict t.participants (taken ++ front) outcome)
    {more : List Occurrence} (enough : front.length < (turns more).length) :
    (l.listen config t Stage.isVoting more).Resolved outcome := by
  induction more generalizing l ballot taken front back with
  | nil => simp at enough
  | cons occurrence more ih =>
    rw [listen_cons]
    cases occurrence with
    | arrival envelope =>
      have longer : l.queue ++ [envelope] = front ++ (back ++ [envelope]) := by simp [waiting]
      exact ih voting counts longer verdict enough
    | turn now =>
      rw [occur_voting voting]
      cases decides : ballot.outcome? t.participants with
      | some other =>
        have reached := (counts.outcome_iff t.participants_nodup _).mp decides
        obtain rfl := (reached.append front).unique verdict
        have resolved : Resolved { l with stage := decided now other } other := ⟨now, rfl⟩
        rw [listen_outside resolved.outside]
        exact resolved
      | none =>
        cases front with
        | nil =>
          rw [List.append_nil] at verdict
          exact absurd verdict (Polls.undecided_of_none counts decides outcome)
        | cons envelope front =>
          rw [List.append_cons] at verdict
          rw [waiting]
          exact ih rfl (counts.receive envelope) rfl verdict (by simpa using enough)

/-- An engine whose requests are out, with this in its inbox, after all that has occurred since. -/
def collection (config : Config) (t : Transaction) (deadline : Nat) (queue : List Envelope)
    (storage : σ) (occurrences : List Occurrence) : Listener σ :=
  Listener.listen config t Stage.isVoting ⟨.voting deadline [], queue, storage, []⟩ occurrences

theorem collection_append (occurrences more : List Occurrence) :
    collection config t deadline queue storage (occurrences ++ more) =
      (collection config t deadline queue storage occurrences).listen config t Stage.isVoting more :=
  Listener.listen_append ..

theorem collection_polls (config : Config) (t : Transaction) (deadline : Nat) (queue : List Envelope)
    (storage : σ) (occurrences : List Occurrence) : ∃ taken, Polls t deadline queue storage
      occurrences (collection config t deadline queue storage occurrences) taken := by
  induction occurrences using List.reverseRecOn with
  | nil => exact ⟨[], .begin queue storage⟩
  | append_singleton occurrences occurrence ih =>
    obtain ⟨taken, polls⟩ := ih
    rw [collection_append]
    exact polls.occur occurrence

/-- The first votes of the participants among the messages that were taken decide, or the deadline
does; nothing is taken after the message that decides, and the rest stays in the inbox. -/
theorem first_votes_decide (config : Config) (t : Transaction) (deadline : Nat)
    (queue : List Envelope) (storage : σ) (occurrences : List Occurrence) :
    let after := collection config t deadline queue storage
    let l := after occurrences
    ∃ taken, queue ++ arrivals occurrences = taken ++ l.queue ∧
      (l.rounds = [] ∧ l.storage = storage) ∧
      (∀ front envelope back, taken = front ++ envelope :: back →
        ∀ outcome, ¬ Verdict t.participants front outcome) ∧
      (l.Resolved .commit ↔ ¬ l.stage.isVoting ∧ Verdict t.participants taken .commit) ∧
      (l.Resolved .abort ↔ ¬ l.stage.isVoting ∧ (Verdict t.participants taken .abort ∨
        (∀ outcome, ¬ Verdict t.participants taken outcome) ∧
          Expired deadline queue occurrences taken)) ∧
      (l.stage.isVoting → ∀ front back outcome, l.queue = front ++ back →
        Verdict t.participants (taken ++ front) outcome →
          ∀ more, front.length < (turns more).length →
            (after (occurrences ++ more)).Resolved outcome) ∧
      (l.stage.isVoting → l.queue = [] → (∀ outcome, ¬ Verdict t.participants taken outcome) →
        ∀ now, if deadline ≤ now then (after (occurrences ++ [.turn now])).Resolved .abort
          else after (occurrences ++ [.turn now]) = l) ∧
      ∀ front envelope back, Idle t.participants front envelope → ∀ outcome,
        Verdict t.participants (front ++ envelope :: back) outcome ↔
          Verdict t.participants (front ++ back) outcome := by
  intro after l
  obtain ⟨taken, polls⟩ := collection_polls config t deadline queue storage occurrences
  have later : ∀ more, after (occurrences ++ more) = l.listen config t Stage.isVoting more :=
    collection_append occurrences
  refine ⟨taken, polls.came, polls.silent, polls.undecided, polls.commit_iff, polls.abort_iff, ?_,
    ?_, fun front envelope back idle outcome => idle.verdict_iff back outcome⟩
  · intro still front back outcome waiting verdict more enough
    obtain ⟨ballot, same, counts⟩ := polls.voting still
    rw [later]
    exact l.resolves same counts waiting verdict enough
  · intro still empty unclear now
    rw [later, Listener.listen_cons, Listener.listen_nil, polls.expires still empty unclear]
    split
    · exact ⟨now, rfl⟩
    · rfl

example :
    let l := collection {} ⟨"t", [], [⟨"p", "x"⟩, ⟨"q", "y"⟩]⟩ 6000
      [⟨"p", .vote "t" .accept⟩, ⟨"p", .vote "t" .refuse⟩, ⟨"r", .vote "t" .refuse⟩,
        ⟨"q", .vote "t" .accept⟩, ⟨"q", .ack "t"⟩]
      (⟨{}, ⟨[], {}, "draft"⟩⟩ : Beside (Ledger Entry) Publisher)
      [.turn 7000, .turn 7000, .turn 7000, .turn 7000, .turn 7000, .turn 7000]
    (l.stage, l.queue) = (.publishing, [⟨"q", .ack "t"⟩]) := by
  decide +kernel

end Collecting

end AtomicCommit.Coordinator
