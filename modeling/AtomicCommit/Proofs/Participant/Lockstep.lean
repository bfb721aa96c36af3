import AtomicCommit.Log.Ledger
import AtomicCommit.Proofs.Participant.Compaction
import AtomicCommit.Proofs.Participant.Play

/-! Two participants whose logs differ only in what a compaction leaves out go in step: they come back
from a recovery alike, and whatever they are told then, they do and say the same. -/

namespace AtomicCommit.Participant

section Steps

variable {σ : Type} [Journal σ Entry] [ResourceStore σ]

structure Lockstep (alike : σ → σ → Prop) : Prop where
  records {s s' : σ} : alike s s' →
    (Journal.records s).map compacted = (Journal.records s').map compacted
  append {s s' : σ} (entry : Entry) : alike s s' →
    (Journal.append entry s).1 = (Journal.append entry s').1 ∧
      alike (Journal.append entry s).2 (Journal.append entry s').2
  compact {s s' : σ} (entries : List Entry) : alike s s' →
    (Journal.compact entries s).1 = (Journal.compact entries s').1 ∧
      alike (Journal.compact entries s).2 (Journal.compact entries s').2
  holds {s s' : σ} (name : String) : alike s s' →
    ResourceStore.holds name s = ResourceStore.holds name s'
  delete {s s' : σ} (name : String) : alike s s' →
    (ResourceStore.delete name s).1 = (ResourceStore.delete name s').1 ∧
      alike (ResourceStore.delete name s).2 (ResourceStore.delete name s').2

def Same {α : Type} (alike : σ → σ → Prop) (one two : α × Participant σ) : Prop :=
  ∃ result memory s s', one = (result, ⟨memory, s⟩) ∧ two = (result, ⟨memory, s'⟩) ∧ alike s s'

def AlikeRecorded (alike : σ → σ → Prop) (r r' : Recorded σ Entry) : Prop :=
  r.deeds = r'.deeds ∧ alike r.storage r'.storage

variable {alike : σ → σ → Prop} {memory : Memory} {s s' : σ}

omit [Journal σ Entry] [ResourceStore σ] in
theorem Same.pair {α : Type} (result : α) (memory : Memory) (same : alike s s') :
    Same alike (result, ⟨memory, s⟩) (result, ⟨memory, s'⟩) :=
  ⟨result, memory, s, s', rfl, rfl, same⟩

omit [Journal σ Entry] [ResourceStore σ] in
theorem split_alike {α : Type} {one two : α × σ} (same : one.1 = two.1 ∧ alike one.2 two.2) :
    ∃ result t t', one = (result, t) ∧ two = (result, t') ∧ alike t t' :=
  ⟨one.1, one.2, two.2, rfl, by rw [same.1], same.2⟩

namespace Lockstep

theorem appendEntry (lockstep : Lockstep alike) (same : alike s s') (memory : Memory) (entry : Entry) :
    Same alike (Participant.append entry ⟨memory, s⟩) (Participant.append entry ⟨memory, s'⟩) := by
  obtain ⟨e | ⟨⟨⟩⟩, t, t', one, two, next⟩ := split_alike (lockstep.append entry same) <;>
    simp only [Participant.append, one, two] <;> exact .pair _ memory next

theorem compactLog (lockstep : Lockstep alike) (same : alike s s') (memory : Memory) (config : Config)
    (entries : List Entry) : Same alike (Participant.compactLog config entries ⟨memory, s⟩)
      (Participant.compactLog config entries ⟨memory, s'⟩) := by
  by_cases compacting : config.compactOnRecovery
  · obtain ⟨e | ⟨⟨⟩⟩, t, t', one, two, next⟩ :=
      split_alike (lockstep.compact (compacted entries) same) <;>
      simp only [Participant.compactLog, compacting, if_true, one, two] <;> exact .pair _ memory next
  · simp only [Participant.compactLog, compacting, Bool.false_eq_true, if_false]
    exact .pair _ memory same

theorem deleteAll (lockstep : Lockstep alike) (same : alike s s') (memory : Memory)
    (names : List String) : Same alike (Participant.deleteAll names ⟨memory, s⟩)
      (Participant.deleteAll names ⟨memory, s'⟩) := by
  induction names generalizing s s' with
  | nil => exact .pair _ memory same
  | cons name rest ih =>
    obtain ⟨e | ⟨⟨⟩⟩, t, t', one, two, next⟩ := split_alike (lockstep.delete name same) <;>
      simp only [Participant.deleteAll, one, two]
    · exact .pair _ memory next
    · exact ih next

theorem castVote (lockstep : Lockstep alike) (same : alike s s') (memory : Memory)
    (request : VoteRequest) (wasGranted : Bool) (vote : Vote) :
    Same alike (Participant.castVote request wasGranted vote ⟨memory, s⟩)
      (Participant.castVote request wasGranted vote ⟨memory, s'⟩) := by
  obtain ⟨before, released⟩ : ∃ before, ∀ s : σ, (if wasGranted && !vote.isAccept then
      (⟨memory, s⟩ : Participant σ).releaseLocks request.txn request.resources else ⟨memory, s⟩) =
        ⟨before, s⟩ := by
    by_cases releases : wasGranted && !vote.isAccept
    · exact ⟨memory.release request.txn request.resources, fun s => if_pos releases⟩
    · exact ⟨memory, fun s => if_neg releases⟩
  obtain ⟨e | ⟨⟨⟩⟩, memory, t, t', one, two, next⟩ :=
    lockstep.appendEntry same before (.prepare request.txn request.resources vote)
  · simp only [Participant.castVote, released, one, two]
    by_cases accepts : vote.isAccept
    · simp only [accepts, if_true]
      exact .pair _ _ next
    · simp only [accepts, Bool.false_eq_true, if_false]
      exact .pair _ memory next
  · simp only [Participant.castVote, released, one, two]
    exact .pair _ _ next

theorem finish (lockstep : Lockstep alike) (same : alike s s') (memory : Memory) (txn : String)
    (pending : Pending) : Same alike (Participant.finish txn pending ⟨memory, s⟩)
      (Participant.finish txn pending ⟨memory, s'⟩) := by
  rw [Participant.finish, Participant.finish]
  split
  next => exact .pair _ memory same
  next outcome _ =>
    obtain ⟨e | ⟨⟨⟩⟩, memory, t, t', one, two, next⟩ :=
      lockstep.deleteAll same memory (pending.doomed outcome)
    · simp only [one, two]
      exact .pair _ memory next
    · obtain ⟨e | ⟨⟨⟩⟩, memory, u, u', three, four, last⟩ :=
        lockstep.appendEntry next memory (.done txn)
      · simp only [one, two, three, four]
        exact .pair _ memory last
      · simp only [one, two, three, four]
        exact .pair _ _ last

theorem resolveUnknown (lockstep : Lockstep alike) (same : alike s s') (memory : Memory) (txn : String)
    (outcome : Outcome) : Same alike (Participant.resolveUnknown txn outcome ⟨memory, s⟩)
      (Participant.resolveUnknown txn outcome ⟨memory, s'⟩) := by
  rw [Participant.resolveUnknown, Participant.resolveUnknown]
  obtain ⟨e | ⟨⟨⟩⟩, memory, t, t', one, two, next⟩ :=
    lockstep.appendEntry same memory (.decision txn outcome)
  · simp only [one, two]
    exact .pair _ memory next
  · obtain ⟨e | ⟨⟨⟩⟩, memory, u, u', three, four, last⟩ :=
      lockstep.appendEntry next memory (.done txn)
    · simp only [one, two, three, four]
      exact .pair _ memory last
    · simp only [one, two, three, four]
      exact .pair _ _ last

theorem handleDecision (lockstep : Lockstep alike) (same : alike s s') (memory : Memory) (txn : String)
    (outcome : Outcome) : Same alike (Participant.handleDecision txn outcome ⟨memory, s⟩)
      (Participant.handleDecision txn outcome ⟨memory, s'⟩) := by
  by_cases resolved : memory.resolved.contains txn
  · simp only [Participant.handleDecision, resolved, if_true]
    exact .pair _ memory same
  cases waiting : memory.pending.get? txn with
  | none =>
    simp only [Participant.handleDecision, resolved, waiting, Bool.false_eq_true, if_false]
    exact lockstep.resolveUnknown same memory txn outcome
  | some pending =>
    cases decision : pending.decision with
    | some former =>
      simp only [Participant.handleDecision, resolved, waiting, decision, Bool.false_eq_true, if_false]
      exact lockstep.finish same memory txn pending
    | none =>
      obtain ⟨e | ⟨⟨⟩⟩, after, t, t', one, two, next⟩ :=
        lockstep.appendEntry same memory (.decision txn outcome)
      · simp only [Participant.handleDecision, resolved, waiting, decision, one, two,
          Bool.false_eq_true, if_false]
        exact .pair _ after next
      · simp only [Participant.handleDecision, resolved, waiting, decision, one, two,
          Bool.false_eq_true, if_false]
        exact lockstep.finish next _ txn _

theorem openVote (lockstep : Lockstep alike) (same : alike s s') (memory : Memory)
    (request : VoteRequest) : Same alike (Participant.openVote request ⟨memory, s⟩)
      (Participant.openVote request ⟨memory, s'⟩) := by
  simp only [Participant.openVote, lockstep.holds _ same]
  split
  · exact .pair _ memory same
  split
  · split
    · exact .pair _ _ same
    · exact .pair _ memory same
  · exact .pair _ memory same

theorem react (lockstep : Lockstep alike) (same : alike s s') (memory : Memory) (message : Message) :
    Same alike (Participant.react message ⟨memory, s⟩) (Participant.react message ⟨memory, s'⟩) := by
  have decided : ∀ outcome, Same alike (Participant.react.decide message ⟨memory, s⟩ outcome)
      (Participant.react.decide message ⟨memory, s'⟩ outcome) := by
    intro outcome
    obtain ⟨e | ⟨⟨⟩⟩, memory, t, t', one, two, next⟩ :=
      lockstep.handleDecision same memory message.txn outcome <;>
      simp only [Participant.react.decide, one, two] <;> exact .pair _ memory next
  cases phase : message.phase <;> simp only [Participant.react, phase]
  case prepare =>
    obtain ⟨opening, memory, t, t', one, two, next⟩ :=
      lockstep.openVote same memory (requestOf message)
    simp only [one, two]
    cases opening with
    | recorded vote => exact .pair _ memory next
    | granted => exact .pair _ memory next
    | refused =>
      obtain ⟨result, memory, u, u', three, four, last⟩ :=
        lockstep.castVote next memory (requestOf message) false .refuse
      simp only [three, four]
      exact .pair _ memory last
  case commit => exact decided .commit
  case abort => exact decided .abort
  all_goals exact .pair _ memory same

theorem reapply (lockstep : Lockstep alike) (same : alike s s') (memory : Memory)
    (items : List (String × Option Pending)) :
    Same alike (Participant.reapply items ⟨memory, s⟩) (Participant.reapply items ⟨memory, s'⟩) := by
  induction items generalizing memory s s' with
  | nil => exact .pair _ memory same
  | cons item rest ih =>
    obtain ⟨txn, _ | pending⟩ := item
    · obtain ⟨e | ⟨⟨⟩⟩, memory, t, t', one, two, next⟩ :=
        lockstep.appendEntry same memory (.done txn)
      · simp only [Participant.reapply, one, two]
        exact .pair _ memory next
      · simp only [Participant.reapply, one, two]
        exact ih next _
    · obtain ⟨e | ⟨⟨⟩⟩, memory, t, t', one, two, next⟩ := lockstep.finish same memory txn pending
      · simp only [Participant.reapply, one, two]
        exact .pair _ memory next
      · simp only [Participant.reapply, one, two]
        exact ih next memory

omit [ResourceStore σ] in
theorem compactLog_memory (config : Config) (entries : List Entry) (p : Participant σ) :
    (p.compactLog config entries).2.memory = p.memory := by
  rw [Participant.compactLog]
  split
  · split <;> rfl
  · rfl

theorem recover (lockstep : Lockstep alike) (same : alike s s') (config : Config) :
    Same alike (Participant.recover config ⟨{}, s⟩) (Participant.recover config ⟨{}, s'⟩) := by
  have alikeRecords := lockstep.records same
  rcases read : Journal.records s with e | entries <;>
    rcases readToo : Journal.records s' with e' | others <;>
    rw [read, readToo] at alikeRecords <;>
    simp only [Except.map, Except.error.injEq, Except.ok.injEq, reduceCtorEq] at alikeRecords
  · simp only [Participant.recover, read, readToo, alikeRecords]
    exact .pair _ _ same
  · have restoring : restored (traces entries) {} = restored (traces others) {} := by
      rw [← restored_compacted, alikeRecords, restored_compacted]
    have reapplying : toReapply (traces entries) = toReapply (traces others) := by
      rw [← toReapply_compacted, alikeRecords, toReapply_compacted]
    have reporting : report (traces entries) = report (traces others) := by
      rw [← report_compacted, alikeRecords, report_compacted]
    have compacting : ∀ s : σ, Participant.compactLog config entries (⟨{}, s⟩ : Participant σ) =
        Participant.compactLog config others ⟨{}, s⟩ := by
      intro s
      rw [Participant.compactLog, Participant.compactLog, alikeRecords]
    obtain ⟨e | ⟨⟨⟩⟩, memory, t, t', one, two, next⟩ := lockstep.compactLog same {} config others
    · simp only [Participant.recover, read, readToo, compacting, one, two]
      exact .pair _ memory next
    · obtain rfl : memory = {} := by
        have kept := compactLog_memory config others (⟨{}, s⟩ : Participant σ)
        rwa [one] at kept
      obtain ⟨result, memory, u, u', three, four, last⟩ :=
        lockstep.reapply next (restored (traces others) {}) (toReapply (traces others))
      have first : Participant.reapply (toReapply (traces entries))
          (⟨restored (traces entries) {}, t⟩ : Participant σ) = (result, ⟨memory, u⟩) := by
        rw [restoring, reapplying, three]
      rw [restored] at first four
      rcases result with e | ⟨⟨⟩⟩ <;>
        simp only [Participant.recover, read, readToo, compacting, one, two, first, four, reporting] <;>
        exact .pair _ memory last

theorem recorded (lockstep : Lockstep alike) : Lockstep (AlikeRecorded alike) := by
  have noted : ∀ {ε : Type} (deed : Deed Entry) {r r' : Recorded σ Entry}
      {one two : Except ε Unit × σ}, r.deeds = r'.deeds → one.1 = two.1 ∧ alike one.2 two.2 →
      (r.note deed one).1 = (r'.note deed two).1 ∧
        (r.note deed one).2.deeds = (r'.note deed two).2.deeds ∧
        alike (r.note deed one).2.storage (r'.note deed two).2.storage := by
    intro ε deed r r' one two deeds same
    obtain ⟨e | ⟨⟨⟩⟩, t, t', rfl, rfl, next⟩ := split_alike same
    · exact ⟨rfl, deeds, next⟩
    · exact ⟨rfl, by simp [Recorded.note, deeds], next⟩
  exact {
    records := fun same => lockstep.records same.2
    append := fun entry same => noted _ same.1 (lockstep.append entry same.2)
    compact := fun entries same => noted _ same.1 (lockstep.compact entries same.2)
    holds := fun name same => lockstep.holds name same.2
    delete := fun name same => by
      obtain ⟨result, next⟩ := lockstep.delete name same.2
      refine ⟨result, ?_, next⟩
      simp only [ResourceStore.delete, Recorded.noteChange, same.1, result, lockstep.holds name next,
        lockstep.holds name same.2] }

end Lockstep

def Station.Alike (alike : σ → σ → Prop) (s s' : Station σ) : Prop :=
  s.running = s'.running ∧ alike s.storage s'.storage

namespace Lockstep

variable {s s' : Station σ}

theorem play (lockstep : Lockstep alike) (same : Station.Alike alike s s') (action : Action) :
    Option.Rel (fun one two => one.1 = two.1 ∧ Station.Alike alike one.2 two.2)
      (s.play action) (s'.play action) := by
  obtain ⟨running, storage⟩ := s
  obtain ⟨_, storage'⟩ := s'
  obtain ⟨rfl, same⟩ := same
  have recordedToo := lockstep.recorded
  have start : AlikeRecorded alike ⟨storage, []⟩ ⟨storage', []⟩ := ⟨rfl, same⟩
  cases action with
  | start config =>
    cases running with
    | some now => exact .none
    | none =>
      obtain ⟨result, memory, r, r', one, two, deeds, next⟩ := recordedToo.recover start config
      simp only [Station.play, one, two]
      exact .some ⟨by simp [Station.startEvents, deeds], rfl, next⟩
  | stop => exact .some ⟨rfl, rfl, same⟩
  | receive envelope =>
    cases running with
    | none => exact .none
    | some now =>
      obtain ⟨result, memory, r, r', one, two, deeds, next⟩ := recordedToo.react start
        now.memory envelope.message
      by_cases free : now.isFree envelope.message.txn
      · simp only [Station.play, Option.bind_eq_bind, Option.bind_some, free, if_true,
          Incarnation.participant, one, two]
        exact .some ⟨by simp [Station.reactionEvents, deeds], rfl, next⟩
      · simp only [Station.play, Option.bind_eq_bind, Option.bind_some, free]
        exact .none
  | answer txn approved =>
    cases running with
    | none => exact .none
    | some now =>
      cases asked : now.asking.get? txn with
      | none =>
        simp only [Station.play, Option.bind_eq_bind, Option.bind_some, asked, Option.bind_none]
        exact .none
      | some question =>
        obtain ⟨result, memory, r, r', one, two, deeds, next⟩ := recordedToo.castVote start
          now.memory question.request true (if approved then .accept else .refuse)
        simp only [Station.play, Option.bind_eq_bind, Option.bind_some, asked, Station.answerReaction,
          answerVote, Incarnation.participant, one, two]
        exact .some ⟨by simp [Station.reactionEvents, deeds], rfl, next⟩

theorem playAll (lockstep : Lockstep alike) (same : Station.Alike alike s s') (actions : List Action) :
    Option.Rel (fun one two => one.1 = two.1 ∧ Station.Alike alike one.2 two.2)
      (s.playAll actions) (s'.playAll actions) := by
  induction actions generalizing s s' with
  | nil => exact .some ⟨rfl, same⟩
  | cons action rest ih =>
    have first := lockstep.play same action
    simp only [Station.playAll, Option.bind_eq_bind]
    generalize s.play action = one, s'.play action = two at first
    cases first with
    | none => exact .none
    | @some one two next =>
      obtain ⟨events, t⟩ := one
      obtain ⟨_, t'⟩ := two
      obtain ⟨rfl, next⟩ := next
      have others := ih next
      simp only [Option.bind_some]
      generalize t.playAll rest = three, t'.playAll rest = four at others
      cases others with
      | none => exact .none
      | some last => exact .some ⟨congrArg (events ++ ·) last.1, last.2⟩

end Lockstep

end Steps

theorem map_eq_of_rel {α γ : Type} {related : α → α → Prop} {seen : α → γ}
    (same : ∀ one two, related one two → seen one = seen two) {one two : Option α}
    (rel : Option.Rel related one two) : one.map seen = two.map seen := by
  cases rel with
  | some next => exact congrArg some (same _ _ next)
  | none => rfl

section Ledgers

variable {β : Type} [ResourceStore β]

theorem compacted_congr {records others : List Entry} (same : compacted records = compacted others)
    (more : List Entry) : compacted (records ++ more) = compacted (others ++ more) := by
  rw [← compacted_append, same, compacted_append]

def AlikeLedgers (s s' : Beside (Ledger Entry) β) : Prop :=
  s.log.failures = s'.log.failures ∧ s.other = s'.other ∧
    compacted s.log.records = compacted s'.log.records

theorem lockstep_ledger : Lockstep (AlikeLedgers : Beside (Ledger Entry) β → _) where
  records := by
    rintro ⟨log, _⟩ ⟨log', _⟩ ⟨_, _, same⟩
    have read : ∀ (log : Ledger Entry) (other : β),
        Journal.records (⟨log, other⟩ : Beside (Ledger Entry) β) = .ok log.records :=
      fun log _ => log.records_read
    rw [read, read]
    exact congrArg Except.ok same
  append := by
    rintro ⟨⟨records, failures⟩, other⟩ ⟨⟨records', _⟩, _⟩ entry ⟨rfl, rfl, same⟩
    rcases failures with _ | ⟨_ | _, rest⟩
    · exact ⟨rfl, rfl, rfl, compacted_congr same [entry]⟩
    · exact ⟨rfl, rfl, rfl, compacted_congr same [entry]⟩
    · exact ⟨rfl, rfl, rfl, same⟩
  compact := by
    rintro ⟨⟨records, failures⟩, other⟩ ⟨⟨records', _⟩, _⟩ entries ⟨rfl, rfl, same⟩
    rcases failures with _ | ⟨_ | _, rest⟩
    · exact ⟨rfl, rfl, rfl, rfl⟩
    · exact ⟨rfl, rfl, rfl, rfl⟩
    · exact ⟨rfl, rfl, rfl, same⟩
  holds := by
    rintro ⟨_, other⟩ ⟨_, _⟩ name ⟨_, rfl, _⟩
    rfl
  delete := by
    rintro ⟨_, other⟩ ⟨_, _⟩ name ⟨failures, rfl, same⟩
    exact ⟨rfl, failures, rfl, same⟩

/-- It makes no difference to a participant that its log was compacted, however often, and whatever was in
it. A recovery has the same result, restores the same memory, and notes the same deeds in the same
order, those that fail left out; and in whatever way it goes on from there, the same happens. -/
theorem compaction_transparent (records : List Entry) (count : Nat) (failures : List Bool) (other : β) :
    let whole : Beside (Ledger Entry) β := ⟨⟨records, failures⟩, other⟩
    let fewer : Beside (Ledger Entry) β := ⟨⟨compacted^[count] records, failures⟩, other⟩
    (∀ config, ∃ result memory deeds s s',
      recover config (⟨{}, ⟨whole, []⟩⟩ : Participant (Recorded _ Entry)) =
        (result, ⟨memory, ⟨s, deeds⟩⟩) ∧
      recover config (⟨{}, ⟨fewer, []⟩⟩ : Participant (Recorded _ Entry)) =
        (result, ⟨memory, ⟨s', deeds⟩⟩) ∧ s.other = s'.other) ∧
    ∀ actions, ((Station.playAll { storage := whole } actions).map fun (events, s) =>
        (events, s.running, s.storage.other)) =
      (Station.playAll { storage := fewer } actions).map fun (events, s) =>
        (events, s.running, s.storage.other) := by
  have same : compacted records = compacted (compacted^[count] records) :=
    (compacted_iterate count records).symm
  intro whole fewer
  refine ⟨fun config => ?_, fun actions => ?_⟩
  · have start : AlikeRecorded AlikeLedgers ⟨whole, []⟩ ⟨fewer, []⟩ := ⟨rfl, rfl, rfl, same⟩
    obtain ⟨result, memory, ⟨s, deeds⟩, ⟨s', _⟩, one, two, rfl, _, others, _⟩ :=
      lockstep_ledger.recorded.recover start config
    exact ⟨result, memory, deeds, s, s', one, two, others⟩
  · have start : Station.Alike AlikeLedgers { storage := whole } { storage := fewer } :=
      ⟨rfl, rfl, rfl, same⟩
    refine map_eq_of_rel ?_ (lockstep_ledger.playAll start actions)
    rintro ⟨events, t⟩ ⟨_, t'⟩ ⟨rfl, running, _, others, _⟩
    exact congrArg (Prod.mk events) (Prod.ext running others)

end Ledgers

end AtomicCommit.Participant
