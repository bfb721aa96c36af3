import AtomicCommit.Log.Faulty
import AtomicCommit.Log.Ledger
import AtomicCommit.Proofs.Participant.Consistent
import AtomicCommit.Proofs.Participant.Play

/-! A vote that cannot be logged leaves nothing behind, neither of its transaction nor with the others,
whatever these have done while the oracle was asked. -/

namespace AtomicCommit.Participant

section Blank

structure Blank (entries : List Entry) (now : Incarnation) (txn : String) : Prop where
  informed : Informed entries now.memory now.asking
  unvoted : now.memory.recordedVote txn = none
  idle : now.asking.get? txn = none

variable {entries log : List Entry} {now : Incarnation} {txn : String}

namespace Blank

theorem absent (blank : Blank entries now txn) :
    now.memory.pending.get? txn = none ∧ now.memory.resolved.get? txn = none :=
  (Memory.recordedVote_eq_none _ _).mp blank.unvoted

theorem unlocked (blank : Blank entries now txn) (resource : String) :
    now.memory.locks.owner? resource ≠ some txn :=
  blank.informed.free blank.absent.1 blank.idle resource

theorem unlogged (blank : Blank entries now txn) (kept : Kept entries log)
    (resources : List String) (vote : Vote) : .prepare txn resources vote ∉ log := by
  intro voted
  have agrees := blank.informed.agrees txn
  rw [blank.absent.1, blank.absent.2] at agrees
  have known := kept.vote txn resources vote (kept.mem_entries voted)
  rw [agrees.unvoted.2] at known
  cases known

theorem opening {σ : Type} [ResourceStore σ] (blank : Blank entries now txn) (storage : σ)
    {request : VoteRequest} (own : request.txn = txn) :
    let opening := (openVote request ⟨now.memory, storage⟩).1
    (opening = .granted ↔ ∀ resource ∈ request.resources,
      ResourceStore.holds resource storage ∧ now.memory.locks.owner? resource = none) ∧
    (opening ≠ .granted → opening = .refused) := by
  subst own
  have free : (∃ locks, now.memory.locks.lockAll request.txn request.resources = (.granted, locks)) ↔
      ∀ resource ∈ request.resources, now.memory.locks.owner? resource = none := by
    simp only [LockTable.granted_iff, exists_and_left, exists_eq, and_true,
      Option.eq_none_iff_forall_ne_some]
    refine forall₂_congr fun resource _ => forall_congr' fun holder => ⟨?_, ?_⟩
    · rintro own owned
      exact blank.unlocked resource (own owned ▸ owned)
    · exact fun foreign owned => absurd owned foreign
  by_cases there : request.resources.all fun resource => ResourceStore.holds resource storage
  · have all : ∀ resource ∈ request.resources, ResourceStore.holds resource storage :=
      List.all_eq_true.mp there
    rcases attempt : now.memory.locks.lockAll request.txn request.resources
      with ⟨_ | ⟨resource, holder⟩, locks⟩
    · have granted := free.mp ⟨locks, attempt⟩
      simp only [openVote, blank.unvoted, there, if_true, attempt]
      exact ⟨by simpa using fun resource listed => ⟨all resource listed, granted resource listed⟩,
        by simp⟩
    · have conflict := mt free.mpr (by simp [attempt])
      simp only [openVote, blank.unvoted, there, if_true, attempt]
      exact ⟨iff_of_false (by simp) fun found => conflict fun resource listed =>
        (found resource listed).2, by simp⟩
  · simp only [openVote, blank.unvoted, there, Bool.false_eq_true, if_false]
    exact ⟨iff_of_false (by simp) fun found => there (List.all_eq_true.mpr fun resource listed =>
      (found resource listed).1), by simp⟩

end Blank

end Blank

variable {τ : Type} [Journal τ Entry] [LawfulJournal τ Entry] [ResourceStore τ]
  [LawfulStore τ Entry] {history : List Event} {s left s' : Station τ}

namespace Station

/-- `s.Votes envelope left result s'`: the request for a vote that comes to `s` is handled, with this
result. The last part of that leads from `left` to `s'`. While the oracle is asked the participant goes
about other transactions. -/
inductive Votes (s : Station τ) (envelope : Envelope) :
    Station τ → Except ParticipantError Vote → Station τ → Prop where
  | repeated (now : Incarnation) (vote : Vote) (p : Participant (Recorded τ Entry)) :
      s.running = some now → now.isFree envelope.message.txn →
      openVote (requestOf envelope.message) (now.participant s.storage) = (.recorded vote, p) →
      Votes s envelope s (.ok vote)
        (afterReaction now envelope.sender (react envelope.message (now.participant s.storage)))
  | atOnce (now : Incarnation) (p : Participant (Recorded τ Entry)) :
      s.running = some now → now.isFree envelope.message.txn →
      openVote (requestOf envelope.message) (now.participant s.storage) = (.refused, p) →
      Votes s envelope s (p.castVote (requestOf envelope.message) false .refuse).1
        (afterReaction now envelope.sender (react envelope.message (now.participant s.storage)))
  | onAnswer (now later : Incarnation) (p : Participant (Recorded τ Entry)) (events : List Event)
      (left : Station τ) (approved : Bool) :
      s.running = some now → now.isFree envelope.message.txn →
      openVote (requestOf envelope.message) (now.participant s.storage) = (.granted, p) →
      Steps (afterReaction now envelope.sender
        (react envelope.message (now.participant s.storage))) events left →
      left.running = some later →
      later.asking.get? envelope.message.txn =
        some ⟨envelope.sender, requestOf envelope.message⟩ →
      Votes s envelope left
        ((later.participant left.storage).answerVote (requestOf envelope.message) approved).1
        (afterReaction { later with asking := later.asking.erase envelope.message.txn }
          envelope.sender (answerReaction (requestOf envelope.message) approved
            (later.participant left.storage)))

end Station

/-- Nothing of a transaction is there, in memory or in the log, and the next request for its vote is
treated like a first one: by the resources that it names. -/
structure Untouched (txn : String) (s : Station τ) (now : Incarnation) : Prop where
  unlocked : ∀ resource, now.memory.locks.owner? resource ≠ some txn
  absent : now.memory.pending.get? txn = none ∧ now.memory.resolved.get? txn = none
  idle : now.isFree txn
  unlogged : ∀ resources vote, .prepare txn resources vote ∉ held s.storage
  first : ∀ request : VoteRequest, request.txn = txn →
    let opening := (openVote request (now.participant s.storage)).1
    (opening = .granted ↔ ∀ resource ∈ request.resources,
      ResourceStore.holds resource s.storage ∧ now.memory.locks.owner? resource = none) ∧
    (opening ≠ .granted → opening = .refused)

structure TakesAway (txn : String) (before after : Incarnation) : Prop where
  locks : ∀ resource, after.memory.locks.owner? resource =
    if before.memory.locks.owner? resource = some txn then none
    else before.memory.locks.owner? resource
  pending : after.memory.pending = before.memory.pending
  resolved : after.memory.resolved = before.memory.resolved
  asking : ∀ other, other ≠ txn → after.asking.get? other = before.asking.get? other

section Failing

variable {request : VoteRequest} {p after : Participant (Recorded τ Entry)} {approved : Bool}
  {e : ParticipantError}

omit [LawfulJournal τ Entry] [LawfulStore τ Entry] [Journal τ Entry] in
theorem openVote_refused (refused : openVote request p = (.refused, after)) :
    p.memory.recordedVote request.txn = none ∧ after = p := by
  simp only [openVote] at refused
  split at refused
  next => cases refused
  next unvoted =>
    refine ⟨unvoted, ?_⟩
    split at refused
    · split at refused <;> cases refused
      rfl
    · cases refused
      rfl

omit [ResourceStore τ] [LawfulStore τ Entry] in
theorem castVote_fails {wasGranted : Bool} {vote : Vote} (grounds : vote = .accept → wasGranted)
    (failed : (p.castVote request wasGranted vote).1 = .error e) :
    (p.castVote request wasGranted vote).2.memory =
        (if wasGranted then p.memory.release request.txn request.resources else p.memory) ∧
      held (p.castVote request wasGranted vote).2.storage.storage = held p.storage.storage := by
  have unlogged : ∀ before : Participant (Recorded τ Entry), before.storage = p.storage →
      (∃ e s, before.append (.prepare request.txn request.resources vote) =
        (.error e, { before with storage := s }) ∧ held s.storage = held p.storage.storage) ∨
      ∃ s, before.append (.prepare request.txn request.resources vote) =
        (.ok (), { before with storage := s }) := by
    intro before same
    rcases append_does (.prepare request.txn request.resources vote) before
      with ⟨s, ⟨logged, _⟩ | ⟨e, failed, kept⟩⟩
    · exact .inr ⟨s, logged⟩
    · exact .inl ⟨_, s, failed, by simpa [same] using kept.log⟩
  cases wasGranted with
  | false =>
    obtain rfl : vote = .refuse := by
      cases vote with
      | accept => cases grounds rfl
      | refuse => rfl
    rcases unlogged p rfl with ⟨e, s, appended, kept⟩ | ⟨s, appended⟩
    · simp only [castVote, Vote.isAccept, Bool.false_and, Bool.false_eq_true, if_false, appended]
      exact ⟨trivial, kept⟩
    · simp [castVote, Vote.isAccept, appended] at failed
  | true =>
    cases vote with
    | accept =>
      rcases unlogged p rfl with ⟨e, s, appended, kept⟩ | ⟨s, appended⟩
      · simp only [castVote, Vote.isAccept, Bool.not_true, Bool.and_false, Bool.false_eq_true, if_false,
          if_true, appended]
        exact ⟨rfl, kept⟩
      · simp [castVote, Vote.isAccept, appended] at failed
    | refuse =>
      rcases unlogged (p.releaseLocks request.txn request.resources) rfl
        with ⟨e, s, appended, kept⟩ | ⟨s, appended⟩
      · simp only [castVote, Vote.isAccept, Bool.not_false, Bool.and_true, Bool.false_eq_true, if_false,
          if_true, appended]
        exact ⟨rfl, kept⟩
      · simp only [castVote, Vote.isAccept, Bool.not_false, Bool.and_true, if_true, appended] at failed
        cases failed

end Failing

structure Forgets (txn : String) (left s' : Station τ) (entries : List Entry)
    (before after : Incarnation) : Prop where
  running : left.running = some before
  up : s'.running = some after
  kept : Kept entries (held left.storage)
  same : held s'.storage = held left.storage
  blank : Blank entries after txn
  takes : TakesAway txn before after

section Forgetting

variable {envelope : Envelope} {sender : String} {request : VoteRequest} {now : Incarnation}
  {e : ParticipantError}

theorem refusal_forgotten (run : Station.Run history s) (running : s.running = some now)
    (free : now.isFree envelope.message.txn) (phase : envelope.message.phase = .prepare)
    {p : Participant (Recorded τ Entry)}
    (opened : openVote (requestOf envelope.message) (now.participant s.storage) = (.refused, p))
    (failed : (p.castVote (requestOf envelope.message) false .refuse).1 = .error e) :
    ∃ entries before after, Forgets envelope.message.txn s
      (Station.afterReaction now envelope.sender (react envelope.message (now.participant s.storage)))
      entries before after := by
  obtain ⟨new, rfl⟩ := openVote_refused opened
  have unvoted : now.memory.recordedVote envelope.message.txn = none := new
  obtain ⟨memory, kept⟩ := castVote_fails (by simp) failed
  have consistent := consistent_run run
  have informed := consistent.informed now running
  have idle := Incarnation.isFree_iff.mp free
  have reacted : react envelope.message (now.participant s.storage) =
      (.silent, ((now.participant s.storage).castVote (requestOf envelope.message) false .refuse).2) := by
    simp only [react, phase, opened, failed, voteReply]
  have unchanged : now.conclude envelope.sender (react envelope.message
      (now.participant s.storage)).2.memory (react envelope.message
      (now.participant s.storage)).1 = now := by
    simp only [reacted, memory]
    rfl
  refine ⟨_, now, now, running, congrArg some unchanged, consistent.kept, ?_,
    ⟨informed, unvoted, idle⟩, ⟨?_, rfl, rfl, fun _ _ => rfl⟩⟩
  · rw [Station.afterReaction, reacted]
    exact kept
  · intro resource
    rw [if_neg (informed.free ((Memory.recordedVote_eq_none _ _).mp unvoted).1 idle resource)]

theorem answer_forgotten (run : Station.Run history s) (running : s.running = some now)
    (asked : now.asking.get? request.txn = some ⟨sender, request⟩) {approved : Bool}
    (failed : ((now.participant s.storage).answerVote request approved).1 = .error e) :
    ∃ entries before after, Forgets request.txn s
      (Station.afterReaction { now with asking := now.asking.erase request.txn } sender
        (Station.answerReaction request approved (now.participant s.storage))) entries before after := by
  obtain ⟨memory, kept⟩ := castVote_fails (fun _ => rfl) failed
  have consistent := consistent_run run
  have informed := consistent.informed now running
  obtain ⟨_, unvoted⟩ := informed.asking _ _ asked
  let after : Incarnation :=
    ⟨now.memory.release request.txn request.resources, now.asking.erase request.txn⟩
  have answered : Station.afterReaction { now with asking := now.asking.erase request.txn } sender
      (Station.answerReaction request approved (now.participant s.storage)) =
      ⟨some after, ((now.participant s.storage).answerVote request approved).2.storage.storage⟩ := by
    rw [if_pos rfl] at memory
    simp only [Station.afterReaction, Station.answerReaction, failed, voteReply, Incarnation.conclude]
    exact congrArg (fun memory => (⟨some ⟨memory, _⟩, _⟩ : Station τ)) memory
  rw [answered]
  refine ⟨_, now, after, running, rfl, consistent.kept, kept, ⟨informed.giveUp asked, ?_, ?_⟩,
    ⟨fun resource => ?_, rfl, rfl, fun other distinct => ?_⟩⟩
  · simpa [after, Memory.recordedVote] using unvoted
  · simp [after]
  · have owner := LockTable.owner?_release request.resources now.memory.locks request.txn resource
    have owned : now.memory.locks.owner? resource = some request.txn ↔ resource ∈ request.resources := by
      simp [informed.locks, Claims, ((Memory.recordedVote_eq_none _ _).mp unvoted).1, asked]
    simpa [after, owned] using owner
  · simp [after, distinct]

theorem Station.Votes.failed (run : Station.Run history s) (phase : envelope.message.phase = .prepare)
    (votes : s.Votes envelope left (.error e) s') :
    ∃ entries before after, Forgets envelope.message.txn left s' entries before after := by
  generalize result : (Except.error e : Except ParticipantError Vote) = returned at votes
  cases votes with
  | repeated => cases result
  | atOnce now p running free opened => exact refusal_forgotten run running free phase opened result.symm
  | onAnswer now later p events left approved running free opened steps up asked =>
    have earlier := (run.step (.receive s now envelope running free)).steps steps
    exact answer_forgotten earlier up asked result.symm

end Forgetting

/-- If the handling of a request for a vote fails, whatever other transactions have done while the oracle
was asked, then its transaction has no locks, is neither pending nor resolved, and has no vote in the log;
its next request is treated like a first one. All else is as the others have left it. -/
theorem failed_vote_leaves_no_trace (run : Station.Run history s) {envelope : Envelope}
    (phase : envelope.message.phase = .prepare) {e : ParticipantError}
    (votes : s.Votes envelope left (.error e) s') : ∃ before after,
    left.running = some before ∧ s'.running = some after ∧
      Untouched envelope.message.txn s' after ∧
      TakesAway envelope.message.txn before after ∧ held s'.storage = held left.storage := by
  obtain ⟨entries, before, after, running, up, kept, same, blank, takes⟩ := votes.failed run phase
  refine ⟨before, after, running, up, ⟨blank.unlocked, blank.absent, ?_, ?_, ?_⟩, takes, same⟩
  · exact Incarnation.isFree_iff.mpr blank.idle
  · rw [same]
    exact blank.unlogged kept
  · intro request own
    exact blank.opening _ own

def forgetful (running : Option Incarnation) (log : List Entry) (failures : List Bool) :
    Station (Faulty (Beside (Ledger Entry) DirectoryStore)) :=
  ⟨running, ⟨⟨⟨log, []⟩, ⟨[], { nodes := ⟨[(["x"], .file 0), (["y"], .file 1)]⟩ }⟩⟩, failures⟩⟩

def meanwhile : List Action :=
  [.receive ⟨"c", .prepare "u" ["y", "x"] []⟩, .receive ⟨"c", .prepare "v" ["y"] []⟩]

def twoQuestions : Incarnation :=
  { memory := { locks := ⟨⟨[("x", "t"), ("y", "v")]⟩⟩, pending := ⟨[("u", ⟨["y", "x"], .refuse, none⟩)]⟩ }
    asking := ⟨[("t", ⟨"c", ⟨"t", ["x"], []⟩⟩), ("v", ⟨"c", ⟨"v", ["y"], []⟩⟩)]⟩ }

theorem acceptance_forgotten : ∃ history s left s' before after,
    (forgetful none [] [false, false, true]).playAll [.start {}] = some (history, s) ∧
    s.Votes ⟨"c", .prepare "t" ["x"] []⟩ left (.error (.log .appendRefused)) s' ∧
    left.running = some before ∧ s'.running = some after ∧
    before.memory.locks.locked = [("x", "t"), ("y", "v")] ∧
    after.memory.locks.locked = [("y", "v")] ∧
    Untouched "t" s' after ∧ TakesAway "t" before after ∧
    held s'.storage = [.prepare "u" ["y", "x"] .refuse] := by
  have begun : (forgetful none [] [false, false, true]).playAll [.start {}] =
      some ([.started, .did (.compacted []), .recovered (.ok {})],
        forgetful (some {}) [] [false, true]) := rfl
  have run := Station.playAll_run (.begin (forgetful none [] [false, false, true]).storage rfl) begun
  obtain ⟨events, others⟩ : ∃ events, (Station.afterReaction {} "c" (react (.prepare "t" ["x"] [])
      (Incarnation.participant {} (forgetful (some {}) [] [false, true]).storage))).playAll meanwhile =
        some (events, forgetful (some twoQuestions) [.prepare "u" ["y", "x"] .refuse] [true]) := ⟨_, rfl⟩
  have votes : (forgetful (some {}) [] [false, true]).Votes ⟨"c", .prepare "t" ["x"] []⟩
      (forgetful (some twoQuestions) [.prepare "u" ["y", "x"] .refuse] [true])
      (.error (.log .appendRefused)) _ :=
    .onAnswer {} twoQuestions _ _ _ true rfl rfl rfl (Station.playAll_steps .nothing others) rfl rfl
  obtain ⟨_, after, running, now, untouched, takes, same⟩ := failed_vote_leaves_no_trace run rfl votes
  cases running
  cases now
  exact ⟨_, _, _, _, twoQuestions, _, begun, votes, rfl, rfl, rfl, rfl, untouched, takes, same⟩

end AtomicCommit.Participant
