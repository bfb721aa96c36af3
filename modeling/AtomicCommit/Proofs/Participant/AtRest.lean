import AtomicCommit.Proofs.Participant.Decisions
import AtomicCommit.Proofs.Participant.Settling

/-! What a participant has in memory between two messages is what its log tells of. One thing alone can
part them: of a decision without a vote nothing is remembered, and if its end cannot be logged either,
the participant may go on without it. -/

namespace AtomicCommit.Participant

/-- Whenever a decision was logged without a vote, the end was logged directly after it, or the participant
went down. -/
def EndsOrStops (history : List Event) (txn : String) : Prop :=
  ∀ before outcome after, history = before ++ .did (.appended (.decision txn outcome)) :: after →
    (known (logged before) txn).vote = none →
      (∃ rest, after = .did (.appended (.done txn)) :: rest) ∨ ∃ rest, after = .stopped :: rest

def HeardUp (history : List Event) (txn : String) : Prop :=
  ∃ outcome, Since .stopped history (.did (.appended (.decision txn outcome)))

def wary (before : List Event) : Event → Prop
  | .did (.appended entry) => entry.isDone = false → (known (logged before) entry.txn).Orphaned →
    HeardUp before entry.txn
  | _ => True

section Orphans

variable {history events more : List Event} {txn : String}

theorem EndsOrStops.next (settles : EndsOrStops (history ++ more) txn)
    (orphaned : (known (logged history) txn).Orphaned) (heard : HeardUp history txn) :
    ∃ rest, more = .did (.appended (.done txn)) :: rest ∨ more = .stopped :: rest := by
  obtain ⟨outcome, before, after, rfl, up⟩ := heard
  have unvoted := orphaned.unvoted
  rw [logged_append] at unvoted
  have follows := settles before outcome (after ++ more) (by simp) (unvoted_of_append unvoted)
  cases after with
  | nil =>
    rcases follows with ⟨rest, ended⟩ | ⟨rest, stopped⟩
    · exact ⟨rest, .inl ended⟩
    · exact ⟨rest, .inr stopped⟩
  | cons event after =>
    exfalso
    rcases follows with ⟨rest, ended⟩ | ⟨rest, stopped⟩
    · obtain ⟨rfl, _⟩ := List.cons_eq_cons.mp ended
      exact Bool.eq_false_iff.mp orphaned.undone (isDone_known.mpr (mem_logged.mpr (by simp)))
    · obtain ⟨rfl, _⟩ := List.cons_eq_cons.mp stopped
      exact up List.mem_cons_self

theorem EndsOrStops.orphansEnd (settles : EndsOrStops history txn) (written : Ordered wary history) :
    OrphansEnd history txn := by
  rintro before entry after split rfl orphaned
  cases isEnd : entry.isDone with
  | true => exact Entry.eq_done isEnd
  | false =>
    obtain ⟨rest, ended | stopped⟩ :=
      (split ▸ settles).next orphaned (written before _ after split isEnd orphaned)
    · have same : entry = .done entry.txn := by simpa using (List.cons_eq_cons.mp ended).1
      rw [same] at isEnd
      cases isEnd
    · cases stopped

theorem heardUp_append (heard : (known (logged history) txn).Orphaned → HeardUp history txn)
    (up : .stopped ∉ events) (orphaned : (known (logged (history ++ events)) txn).Orphaned) :
    HeardUp (history ++ events) txn := by
  obtain ⟨unvoted, decided, undone⟩ := orphaned
  rw [logged_append] at unvoted decided undone
  by_cases undecided : (known (logged history) txn).decision = none
  · obtain ⟨outcome, told⟩ := decided_iff.mp decided
    have fresh : .decision txn outcome ∈ logged events :=
      (List.mem_append.mp told).resolve_left fun old => decided_iff.mpr ⟨outcome, old⟩ undecided
    obtain ⟨front, back, rfl⟩ := List.append_of_mem (mem_logged.mp fresh)
    refine ⟨outcome, history ++ front, back, by simp, fun stopped => up ?_⟩
    simp [stopped]
  · have undoneEarly : (known (logged history) txn).isDone = false := by
      rw [Bool.eq_false_iff, ne_eq, isDone_known] at undone ⊢
      exact fun ended => undone (List.mem_append_left _ ended)
    obtain ⟨outcome, since⟩ := heard ⟨unvoted_of_append unvoted, undecided, undoneEarly⟩
    exact ⟨outcome, since.later up⟩

theorem wary_restricts : Restricts (fun entry => !entry.isDone) wary := by
  intro before event free
  cases event with
  | did deed =>
    cases deed with
    | appended entry =>
      intro notEnd
      have isEnd := free entry rfl
      simp [notEnd] at isEnd
    | _ => trivial
  | _ => trivial

variable {memory after : Memory} {deeds : List (Deed Entry)} {reaction : Reaction} {cause : Cause}

theorem Finish.logs_ends {pending : Pending} {success : Bool}
    (finished : Finish txn pending memory deeds success after) :
    ∀ entry ∈ Deed.records deeds, entry.isDone := by
  intro entry member
  rw [finished.records entry member]
  rfl

theorem Handled.logs_ends (handled : Handled cause memory deeds reaction after) :
    ∀ entry ∈ Deed.records deeds.tail, entry.isDone := by
  cases handled with
  | again _ _ _ _ _ _ _ _ _ _ _ _ finished =>
    intro entry member
    have sublist : (Deed.records deeds.tail).Sublist (Deed.records deeds) :=
      (List.tail_sublist deeds).filterMap _
    exact finished.logs_ends entry (sublist.subset member)
  | decided _ _ _ _ _ _ _ _ _ _ _ finished => exact finished.logs_ends
  | _ => simp [Entry.isDone]

theorem Handled.wary (handled : Handled cause memory deeds reaction after) {first : Event}
    (up : first ≠ .stopped) (heard : ∀ txn, (known (logged history) txn).Orphaned → HeardUp history txn) :
    OrderedFrom Participant.wary (history ++ [first]) (deeds.map .did) := by
  have ends := handled.logs_ends
  cases deeds with
  | nil => trivial
  | cons deed rest =>
    refine ⟨?_, orderedFrom_free (wary_restricts.done fun entry member => by
      simp [ends entry member]) _⟩
    cases deed with
    | appended entry =>
      exact fun _ orphaned => heardUp_append (heard entry.txn) (by simpa using up.symm) orphaned
    | _ => trivial

end Orphans

variable {τ : Type} [Journal τ Entry] [LawfulJournal τ Entry] [ResourceStore τ]
  [LawfulStore τ Entry] {history events : List Event} {s s' : Station τ}

structure Wary (history : List Event) (s : Station τ) : Prop where
  written : Ordered wary history
  orphans : ∀ now, s.running = some now → ∀ txn, (known (logged history) txn).Orphaned →
    HeardUp history txn

namespace Wary

omit [Journal τ Entry] [LawfulJournal τ Entry] [ResourceStore τ] [LawfulStore τ Entry] in
theorem reacted {now next : Incarnation} {first : Event} {sender : String} {cause : Cause}
    {result : Reaction × Participant (Recorded τ Entry)} {memory after : Memory}
    {deeds : List (Deed Entry)} {reaction : Reaction} (known : Wary history s)
    (running : s.running = some now) (quiet : Eventful.deed? first = none) (up : first ≠ .stopped)
    (handled : Handled cause memory deeds reaction after) (noted : result.2.storage.deeds = deeds) :
    Wary (history ++ ([first] ++ Station.reactionEvents sender result))
      (Station.afterReaction next sender result) := by
  have heard := known.orphans now running
  refine ⟨wary_restricts.reacted known.written quiet noted (handled.wary up heard), ?_⟩
  rintro later ⟨⟩ txn
  refine heardUp_append (heard txn) ?_
  rcases reaction : result.1 <;> simp [Station.reactionEvents, Reaction.events, reaction, up.symm]

theorem start (known : Wary history s) (consistent : Consistent history s) (config : Config) :
    Wary (history ++ Station.startEvents
        (recover config (⟨{}, ⟨s.storage, []⟩⟩ : Participant (Recorded τ Entry))))
      (s.afterStart (recover config ⟨{}, ⟨s.storage, []⟩⟩)) := by
  refine ⟨wary_restricts.started (fun _ => rfl) known.written config s.storage, ?_⟩
  rintro now running txn ⟨_, decided, undone⟩
  rcases result : recover config (⟨{}, ⟨s.storage, []⟩⟩ : Participant (Recorded τ Entry))
    with ⟨e | found, after⟩
  · simp [Station.afterStart, result, Except.isOk, Except.toBool] at running
  · obtain ⟨ends, _, settled⟩ := recover_settles consistent.kept consistent.exclusive result
    rw [logged_append, logged_startEvents, result, ends] at decided undone
    exact absurd (settled.calm txn undone) decided

theorem step (known : Wary history s) (consistent : Consistent history s)
    (stepped : s.Step events s') : Wary (history ++ events) s' := by
  cases stepped with
  | disturb storage same =>
    exact ⟨known.written.snoc trivial, fun now running txn =>
      heardUp_append (known.orphans now running txn) (by simp)⟩
  | start config down => exact known.start consistent config
  | stop => exact ⟨known.written.snoc trivial, by simp⟩
  | receive now envelope running free =>
    obtain ⟨deeds, handled, does⟩ := react_handles envelope.message (now.participant s.storage)
    exact known.reacted running rfl (by simp) handled does.noted
  | answer now txn question approved running asked =>
    obtain ⟨deeds, handled, does⟩ := answer_handles question.request approved (now.participant s.storage)
    exact known.reacted running rfl (by simp) handled does.noted

end Wary

theorem wary_run (run : Station.Run history s) : Wary history s := by
  induction run with
  | begin => exact ⟨.nil _, by simp⟩
  | step run stepped ih => exact ih.step (consistent_run run) stepped

section Reproducing

variable {entries : List Entry} {memory : Memory} {txn : String}

theorem Trace.waiting?_settled {trace : Trace} {pending : Pending} :
    trace.settled.waiting? = some pending ↔
      trace.waiting? = some pending ∧ pending.decision = none := by
  obtain ⟨_ | ⟨resources, vote⟩, _ | outcome, _ | _⟩ := trace <;> simp [settled, waiting?]
  · rintro rfl
    rfl
  · rintro rfl
    simp

theorem Trace.ended?_settled {trace : Trace} (whole : ¬trace.Orphaned) {vote : Option Vote} :
    trace.settled.ended? = some vote ↔ trace.ended? = some vote ∨
      ∃ pending, trace.waiting? = some pending ∧ pending.decision ≠ none ∧ vote = some pending.vote := by
  obtain ⟨_ | ⟨resources, cast⟩, _ | outcome, _ | _⟩ := trace
  case none.some.false => exact absurd ⟨rfl, by simp, rfl⟩ whole
  all_goals simp [settled, ended?, waiting?, eq_comm]

theorem Informed.pending_told {asking : Table String Question}
    (informed : Informed entries memory asking) (heeds : Heeds entries memory)
    (inForm : InForm (Log.recordsOf txn entries)) :
    memory.pending.get? txn = (known entries txn).waiting? := by
  obtain ⟨_, ⟨decision, waits⟩, heard⟩ := informed.agrees txn
  have open_ := heeds txn
  rw [waits] at heard open_ ⊢
  rw [Trace.waiting?]
  cases done : (known entries txn).isDone with
  | true => rfl
  | false =>
    cases voted : (known entries txn).vote with
    | none => rfl
    | some cast =>
      have same : decision = (known entries txn).decision := by
        cases decision with
        | none => exact (open_ ⟨cast.1, cast.2, none⟩ (by simp [done, voted]) rfl inForm).symm
        | some outcome =>
          exact (heard ⟨cast.1, cast.2, some outcome⟩ (by simp [done, voted]) outcome rfl).symm
      rw [same]

theorem Kept.decision_iff {log : List Entry} (kept : Kept entries log)
    (inForm : InForm (Log.recordsOf txn entries)) (undone : (known entries txn).isDone = false)
    (outcome : Outcome) :
    (known entries txn).decision = some outcome ↔ .decision txn outcome ∈ log := by
  have same : known log txn = known entries txn :=
    (kept.recounts txn).resolve_right fun ⟨done, _⟩ => by simp [undone] at done
  constructor
  · intro told
    exact decision_known (same ▸ told)
  · intro logged
    have member := kept.mem_entries logged
    obtain ⟨other, told⟩ := Option.ne_none_iff_exists'.mp (decided_iff.mpr ⟨outcome, member⟩)
    rw [told, inForm.decision_unique (Log.mem_recordsOf.mpr ⟨decision_known told, rfl⟩)
      (Log.mem_recordsOf.mpr ⟨member, rfl⟩)]

end Reproducing

/-- A recovery from the log of a participant that is running reproduces what the participant has in
memory, and settles what was decided: undecided votes stay pending, and accepted ones among them keep
their locks; what was resolved stays so, and each vote whose decision was logged is resolved. Nothing
else is pending, locked or resolved. -/
theorem recovery_reproduces (run : Station.Run history s) {now : Incarnation}
    (running : s.running = some now) (settles : ∀ txn, EndsOrStops history txn) {fine : τ → Prop}
    (unfailing : Unfailing (Doomed (held s.storage)) fine) {storage : τ} (start : fine storage)
    (log : held storage = held s.storage) (config : Config) :
    ∃ found after, recover config (⟨{}, ⟨storage, []⟩⟩ : Participant (Recorded τ Entry)) =
        (.ok found, after) ∧
      (∀ txn pending, after.memory.pending.get? txn = some pending ↔
        now.memory.pending.get? txn = some pending ∧ pending.decision = none) ∧
      (∀ resource txn, after.memory.locks.owner? resource = some txn ↔
        now.memory.locks.owner? resource = some txn ∧
          ∃ pending, now.memory.pending.get? txn = some pending ∧ pending.decision = none ∧
            pending.vote = .accept) ∧
      (∀ txn vote, after.memory.resolved.get? txn = some vote ↔
        now.memory.resolved.get? txn = some vote ∨
          ∃ pending outcome, now.memory.pending.get? txn = some pending ∧
            .decision txn outcome ∈ held s.storage ∧ vote = some pending.vote) ∧
      ∀ txn pending, now.memory.pending.get? txn = some pending → ∀ outcome,
        pending.decision = some outcome ↔ .decision txn outcome ∈ held s.storage := by
  have wary := wary_run run
  have informed := (consistent_run run).informed now running
  have heedful := heedful_run run
  have inForm : ∀ txn, InForm (Log.recordsOf txn (logged history)) := fun txn =>
    inForm_logged (orderly_run run) heedful.timely ((settles txn).orphansEnd wary.written)
  have whole : ∀ txn, ¬(known (logged history) txn).Orphaned := by
    intro txn orphaned
    have settlesHere : EndsOrStops (history ++ []) txn := by simpa using settles txn
    obtain ⟨_, impossible | impossible⟩ :=
      settlesHere.next orphaned (wary.orphans now running txn orphaned) <;>
      cases impossible
  have waiting : ∀ txn, now.memory.pending.get? txn = (known (logged history) txn).waiting? :=
    fun txn => informed.pending_told (heedful.heeds now running) (inForm txn)
  have kept : Kept (logged history) (held storage) := log ▸ (consistent_run run).kept
  obtain ⟨memory, succeeded⟩ := unfailing.recover start (fun resource => by rw [log]; exact id) config
  obtain ⟨_, _, settled⟩ := recover_settles kept informed.exclusive succeeded
  have pending : ∀ txn pending, memory.pending.get? txn = some pending ↔
      now.memory.pending.get? txn = some pending ∧ pending.decision = none := by
    intro txn pending
    rw [settled.pending, known_missingEnds kept.recounts, Trace.waiting?_settled, waiting]
  have decided : ∀ txn pending, now.memory.pending.get? txn = some pending → ∀ outcome,
      pending.decision = some outcome ↔ .decision txn outcome ∈ held s.storage := by
    intro txn pending waits outcome
    rw [waiting] at waits
    obtain ⟨open_, waits⟩ := Option.ite_none_left_eq_some.mp waits
    obtain ⟨_, _, rfl⟩ := Option.map_eq_some_iff.mp waits
    rw [← log]
    exact kept.decision_iff (inForm txn) (Bool.eq_false_iff.mpr open_) outcome
  refine ⟨_, _, succeeded, pending, fun resource txn => ?_, fun txn vote => ?_, decided⟩
  · rw [settled.locks, informed.locks]
    constructor
    · rintro ⟨waits, there, accepted, listed⟩
      obtain ⟨still, undecided⟩ := (pending txn waits).mp there
      exact ⟨.inl ⟨waits, still, accepted, listed⟩, waits, still, undecided, accepted⟩
    · rintro ⟨claims, waits, there, undecided, accepted⟩
      refine ⟨waits, (pending txn waits).mpr ⟨there, undecided⟩, accepted, ?_⟩
      rcases claims with ⟨_, same, _, listed⟩ | ⟨question, asked, _⟩
      · cases there.symm.trans same
        exact listed
      · cases (informed.idle_of_pending there).symm.trans asked
  · rw [settled.resolved, known_missingEnds kept.recounts, Trace.ended?_settled (whole txn),
      (informed.agrees txn).resolved, ← waiting]
    refine or_congr Iff.rfl ⟨?_, ?_⟩
    · rintro ⟨waits, there, told, rfl⟩
      obtain ⟨outcome, told⟩ := Option.ne_none_iff_exists'.mp told
      exact ⟨waits, outcome, there, (decided txn waits there outcome).mp told, rfl⟩
    · rintro ⟨waits, outcome, there, logged, rfl⟩
      exact ⟨waits, there, by simp [(decided txn waits there outcome).mpr logged], rfl⟩

def strained : Station (Faulty (Beside (Ledger Entry) DirectoryStore)) :=
  { storage := {
      storage := ⟨{}, ⟨[], { nodes := ⟨[(["x"], .file 0), (["y"], .file 1)]⟩ }⟩⟩
      failures := [false, false, false, false, true] } }

def halfDecided : List Action :=
  [.start {}, .receive ⟨"c", .prepare "t" ["x"] []⟩, .answer "t" true,
    .receive ⟨"c", .prepare "u" ["y"] []⟩, .answer "u" true, .receive ⟨"c", .decision "u" .commit⟩,
    .receive ⟨"c", .decision "w" .abort⟩]

/-- One vote is open, one waits for its commit to take effect, and one transaction has ended without a
vote. -/
theorem half_decided_reproduced : ∃ history s now,
    strained.playAll halfDecided = some (history, s) ∧ s.running = some now ∧
    (∀ txn, EndsOrStops history txn) ∧
    now.memory.pending.get? "t" = some ⟨["x"], .accept, none⟩ ∧
    now.memory.pending.get? "u" = some ⟨["y"], .accept, some .commit⟩ ∧
    now.memory.resolved.get? "w" = some none ∧
    ∃ found after, recover {} (⟨{}, ⟨{ s.storage with failures := [] }, []⟩⟩ :
        Participant (Recorded _ Entry)) = (.ok found, after) ∧
      after.memory.pending.get? "t" = some ⟨["x"], .accept, none⟩ ∧
      after.memory.locks.owner? "x" = some "t" ∧
      after.memory.resolved.get? "u" = some (some .accept) ∧
      after.memory.resolved.get? "w" = some none := by
  have played : ((strained.playAll halfDecided).bind fun result => result.2.running.map fun now =>
      (result.1, result.2.storage.storage, now.memory)) = some (
        [.started, .did (.compacted []), .recovered (.ok {}),
          .received ⟨"c", .prepare "t" ["x"] []⟩, .asked ⟨"t", ["x"], []⟩,
          .answered ⟨"t", ["x"], []⟩ true, .did (.appended (.prepare "t" ["x"] .accept)),
          .sent "c" (.vote "t" .accept), .received ⟨"c", .prepare "u" ["y"] []⟩,
          .asked ⟨"u", ["y"], []⟩, .answered ⟨"u", ["y"], []⟩ true,
          .did (.appended (.prepare "u" ["y"] .accept)), .sent "c" (.vote "u" .accept),
          .received ⟨"c", .decision "u" .commit⟩, .did (.appended (.decision "u" .commit)),
          .received ⟨"c", .decision "w" .abort⟩, .did (.appended (.decision "w" .abort)),
          .did (.appended (.done "w")), .sent "c" (.ack "w")],
        ⟨⟨[.prepare "t" ["x"] .accept, .prepare "u" ["y"] .accept, .decision "u" .commit,
            .decision "w" .abort, .done "w"], []⟩, strained.storage.storage.other⟩,
        { locks := ⟨⟨[("x", "t"), ("y", "u")]⟩⟩
          pending := ⟨[("t", ⟨["x"], .accept, none⟩), ("u", ⟨["y"], .accept, some .commit⟩)]⟩
          resolved := ⟨[("w", none)]⟩ }) := by rfl
  obtain ⟨⟨history, s⟩, played, up⟩ := Option.bind_eq_some_iff.mp played
  obtain ⟨now, running, facts⟩ := Option.map_eq_some_iff.mp up
  simp only [Prod.mk.injEq] at facts
  obtain ⟨happened, stored, memory⟩ := facts
  have run : Station.Run history s := Station.playAll_run (.begin strained.storage rfl) played
  have settles : ∀ txn, EndsOrStops history txn := by
    intro txn before outcome after split unvoted
    have member : .did (.appended (.decision txn outcome)) ∈ history := by simp [split]
    have one : txn = "u" ∧ outcome = .commit ∨ txn = "w" ∧ outcome = .abort := by
      simpa [happened] using member
    rcases one with ⟨rfl, rfl⟩ | ⟨rfl, rfl⟩
    · have here : history = history.take 14 ++ .did (.appended (.decision "u" .commit)) ::
          history.drop 15 := by subst happened; rfl
      obtain ⟨rfl, _⟩ := (List.append_cons_inj_of_notMem (by simp [happened]) (by simp [happened])).mp
        (here.symm.trans split)
      subst happened
      cases unvoted
    · have here : history = history.take 16 ++ .did (.appended (.decision "w" .abort)) ::
          .did (.appended (.done "w")) :: history.drop 18 := by subst happened; rfl
      obtain ⟨_, _, rfl⟩ := (List.append_cons_inj_of_notMem (by simp [happened])
        (by simp [happened])).mp (here.symm.trans split)
      exact .inl ⟨_, rfl⟩
  have log : held s.storage = [.prepare "t" ["x"] .accept, .prepare "u" ["y"] .accept,
      .decision "u" .commit, .decision "w" .abort, .done "w"] := congrArg held stored
  have able : ∀ resource, Doomed (held s.storage) resource →
      s.storage.storage.other.Deletable resource := by
    rintro resource ⟨txn, resources, dooms, listed⟩
    have voted := vote_known dooms.accepted
    rw [stored]
    have one : resource = "x" ∨ resource = "y" := by
      simp only [log, List.mem_cons, Entry.prepare.injEq, reduceCtorEq, List.not_mem_nil] at voted
      grind
    rcases one with rfl | rfl <;> exact DirectoryStore.delete_ok_iff.mp (by rfl)
  let working : Faulty (Beside (Ledger Entry) DirectoryStore) := { s.storage with failures := [] }
  have works : working.failures = [] ∧ working.storage.log.failures = [] ∧
      ∀ resource, Doomed (held s.storage) resource → working.storage.other.Deletable resource :=
    ⟨rfl, congrArg (·.log.failures) stored, able⟩
  obtain ⟨found, after, recovered, pending, locks, resolved, _⟩ := recovery_reproduces run running
    settles unfailing_directory.faulty works rfl {}
  have open_ : now.memory.pending.get? "t" = some ⟨["x"], .accept, none⟩ := by rw [memory]; rfl
  have told : now.memory.pending.get? "u" = some ⟨["y"], .accept, some .commit⟩ := by
    rw [memory]
    rfl
  have ended : now.memory.resolved.get? "w" = some none := by rw [memory]; rfl
  have locked : now.memory.locks.owner? "x" = some "t" := by rw [memory]; rfl
  exact ⟨history, s, now, played, running, settles, open_, told, ended, found, after, recovered,
    (pending _ _).mpr ⟨open_, rfl⟩, (locks _ _).mpr ⟨locked, _, open_, rfl, rfl⟩,
    (resolved _ _).mpr (.inr ⟨_, .commit, told, by simp [log], rfl⟩),
    (resolved _ _).mpr (.inl ended)⟩

end AtomicCommit.Participant
