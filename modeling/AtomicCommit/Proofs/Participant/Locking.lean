import AtomicCommit.Log.Ledger
import AtomicCommit.Proofs.Participant.Consistent
import AtomicCommit.Proofs.Participant.Play

/-! In every state of a participant its locks are those of the accepted votes that wait for their
outcome and of the questions that wait for an answer, and no others. -/

namespace AtomicCommit.Participant

structure Memory.Sorted (memory : Memory) : Prop where
  locks : memory.locks.Sorted
  pending : memory.pending.Sorted
  resolved : memory.resolved.Sorted

section Listing

variable {memory after : Memory} {deeds : List (Deed Entry)} {reaction : Reaction} {cause : Cause}
  {success : Bool}

namespace Memory.Sorted

theorem empty : ({} : Memory).Sorted := ⟨LockTable.sorted_empty, Table.sorted_empty, Table.sorted_empty⟩

theorem locked (sorted : memory.Sorted) {locks : LockTable} (ordered : locks.Sorted) :
    { memory with locks := locks }.Sorted :=
  ⟨ordered, sorted.pending, sorted.resolved⟩

theorem release (sorted : memory.Sorted) (txn : String) (resources : List String) :
    (memory.release txn resources).Sorted :=
  sorted.locked (LockTable.sorted_release sorted.locks txn resources)

theorem await (sorted : memory.Sorted) (txn : String) (pending : Pending) :
    (memory.await txn pending).Sorted :=
  ⟨sorted.locks, Table.sorted_insert sorted.pending txn pending, sorted.resolved⟩

theorem resolve (sorted : memory.Sorted) (txn : String) (vote : Option Vote) :
    (memory.resolve txn vote).Sorted :=
  ⟨sorted.locks, sorted.pending, Table.sorted_insert sorted.resolved txn vote⟩

theorem retire (sorted : memory.Sorted) (txn : String) (pending : Pending) :
    (memory.retire txn pending).Sorted :=
  ⟨LockTable.sorted_release sorted.locks txn pending.resources,
    Table.sorted_erase sorted.pending txn, Table.sorted_insert sorted.resolved txn _⟩

theorem restore (sorted : memory.Sorted) (txn : String) (trace : Trace) :
    (memory.restore txn trace).Sorted := by
  obtain ⟨_ | ⟨resources, _ | _⟩, decision, _ | _⟩ := trace
  case none.false => exact sorted
  case some.accept.false =>
    exact (sorted.locked (LockTable.sorted_lockAll sorted.locks txn resources)).await txn _
  case some.refuse.false => exact sorted.await txn _
  all_goals exact sorted.resolve txn _

theorem restored (sorted : memory.Sorted) (found : List (String × Trace)) :
    (restored found memory).Sorted := by
  induction found generalizing memory with
  | nil => exact sorted
  | cons entry rest ih => exact ih (sorted.restore entry.1 entry.2)

theorem conclude {now : Incarnation} (sorted : memory.Sorted) (sender : String)
    (reaction : Reaction) : (now.conclude sender memory reaction).memory.Sorted := by
  rwa [Incarnation.memory_conclude]

end Memory.Sorted

theorem Informed.unique {entries others : List Entry} {other : Memory}
    {asking askingToo : Table String Question} (informed : Informed entries memory asking)
    (informedToo : Informed others other askingToo) (sorted : memory.Sorted) (sortedToo : other.Sorted)
    (pending : ∀ txn, memory.pending.get? txn = other.pending.get? txn)
    (resolved : ∀ txn, memory.resolved.get? txn = other.resolved.get? txn)
    (asked : ∀ txn, asking.get? txn = askingToo.get? txn) : memory = other := by
  have locks : ∀ resource, memory.locks.owner? resource = other.locks.owner? resource := by
    intro resource
    refine Option.ext fun txn => ?_
    rw [informed.locks, informedToo.locks, Claims, Claims, pending, asked]
  obtain ⟨_, _, _⟩ := memory
  obtain ⟨_, _, _⟩ := other
  rw [Memory.mk.injEq]
  exact ⟨sorted.locks.ext sortedToo.locks locks, sorted.pending.ext sortedToo.pending pending,
    sorted.resolved.ext sortedToo.resolved resolved⟩

theorem Finish.sorted {txn : String} {pending : Pending}
    (finished : Finish txn pending memory deeds success after) (sorted : memory.Sorted) :
    after.Sorted := by
  cases finished with
  | undecided | stuck => exact sorted
  | ended => exact sorted.retire txn pending

theorem Reapply.sorted {txn : String} {waiting : Option Pending}
    (applied : Reapply txn waiting memory deeds success after) (sorted : memory.Sorted) :
    after.Sorted := by
  cases applied with
  | applied _ _ _ _ _ finished => exact finished.sorted sorted
  | ended => exact sorted.resolve txn none
  | unended => exact sorted

theorem Handled.sorted (handled : Handled cause memory deeds reaction after)
    (sorted : memory.Sorted) : after.Sorted := by
  cases handled with
  | asked m _ locks _ _ granted =>
    have taken := LockTable.sorted_lockAll sorted.locks m.txn m.resources
    rw [granted] at taken
    exact sorted.locked taken
  | refused m | accepted m => exact sorted.await m.txn _
  | rejected request => exact (sorted.release request.txn request.resources).await request.txn _
  | notAccepted request | notRejected request => exact sorted.release request.txn request.resources
  | unknown m => exact sorted.resolve m.txn none
  | again _ _ _ _ _ _ _ _ _ _ _ _ finished => exact finished.sorted sorted
  | decided m _ _ _ _ _ _ _ _ _ _ finished => exact finished.sorted (sorted.await m.txn _)
  | _ => exact sorted

end Listing

variable {τ : Type} [Journal τ Entry] [LawfulJournal τ Entry] [ResourceStore τ]
  [LawfulStore τ Entry] {history : List Event} {s s' : Station τ}

theorem recover_sorted (config : Config) (storage : τ) :
    (recover config (⟨{}, ⟨storage, []⟩⟩ : Participant (Recorded τ Entry))).2.memory.Sorted := by
  rcases recover_cases config storage with ⟨e, t, result, _⟩ | ⟨t, _, result⟩
  · rw [result]
    exact .empty
  · rw [result]
    obtain ⟨_, sorted, _⟩ := reapply_induction
      (P := fun _ (p : Participant (Recorded τ Entry)) => p.memory.Sorted)
      (fun _ _ _ _ _ _ _ sorted applied _ => applied.sorted sorted)
      (toReapply (traces (held storage))) ⟨restored (traces (held storage)) {}, t⟩
      (Memory.Sorted.empty.restored _)
    exact sorted

theorem sorted_step (sorted : ∀ now, s.running = some now → now.memory.Sorted)
    {events : List Event} (stepped : s.Step events s') :
    ∀ now, s'.running = some now → now.memory.Sorted := by
  cases stepped with
  | disturb => exact sorted
  | start config down =>
    intro now running
    simp only [Station.afterStart, Option.ite_none_right_eq_some] at running
    obtain ⟨_, ⟨⟩⟩ := running
    exact recover_sorted config s.storage
  | stop => simp
  | receive now envelope running free =>
    obtain ⟨_, handled, _⟩ := react_handles envelope.message (now.participant s.storage)
    rintro later ⟨⟩
    exact (handled.sorted (sorted now running)).conclude envelope.sender _
  | answer now txn question approved running asked =>
    obtain ⟨_, handled, _⟩ := answer_handles question.request approved (now.participant s.storage)
    rintro later ⟨⟩
    exact (handled.sorted (sorted now running)).conclude question.sender _

theorem memory_sorted (run : Station.Run history s) :
    ∀ now, s.running = some now → now.memory.Sorted := by
  induction run with
  | begin => simp
  | step run stepped ih => exact sorted_step ih stepped

theorem sorted_run (run : Station.Run history s) :
    ∀ now, s.running = some now → now.memory.locks.Sorted :=
  fun now running => (memory_sorted run now running).locks

namespace Informed

variable {entries : List Entry} {memory : Memory} {asking : Table String Question}

theorem claims_exclusive (informed : Informed entries memory asking) {resource first second : String}
    (one : Claims memory asking first resource) (other : Claims memory asking second resource) :
    first = second := by
  have owned := (informed.locks resource first).mpr one
  rw [(informed.locks resource second).mpr other] at owned
  exact (Option.some.inj owned).symm

theorem unresolved_of_pending (informed : Informed entries memory asking) {txn : String}
    (waiting : memory.pending.contains txn) : memory.resolved.contains txn = false := by
  obtain ⟨pending, found⟩ := Option.isSome_iff_exists.mp waiting
  have agrees := informed.agrees txn
  rw [found] at agrees
  simp [Table.contains, agrees.resolved, agrees.voted.1]

end Informed

/-- A resource is locked by a transaction just if that has been accepted with it and waits for its
outcome, or asks for it and waits for an answer. So no two transactions have a claim on one resource,
and each is listed with one owner. What is pending is not resolved. -/
theorem locks_follow_votes (run : Station.Run history s) {now : Incarnation}
    (running : s.running = some now) :
    (∀ resource txn, now.memory.locks.owner? resource = some txn ↔
      Claims now.memory now.asking txn resource) ∧
    (∀ resource txn, (resource, txn) ∈ now.memory.locks.locked ↔
      Claims now.memory now.asking txn resource) ∧
    (now.memory.locks.locked.map (·.1)).Nodup ∧
    (∀ resource first second, Claims now.memory now.asking first resource →
      Claims now.memory now.asking second resource → first = second) ∧
    ∀ txn, now.memory.pending.contains txn → now.memory.resolved.contains txn = false := by
  have informed := (consistent_run run).informed now running
  have sorted := sorted_run run now running
  refine ⟨informed.locks, fun resource txn => ?_, Table.Sorted.nodup sorted,
    fun _ _ _ => informed.claims_exclusive, fun _ => informed.unresolved_of_pending⟩
  rw [LockTable.mem_locked sorted]
  exact informed.locks resource txn

def shelved : Station (Beside (Ledger Entry) DirectoryStore) :=
  { storage := ⟨{}, ⟨[], { nodes := ⟨[(["x"], .file 0), (["y"], .file 1)]⟩ }⟩⟩ }

def acceptedAndAsked : List Action :=
  [.start {}, .receive ⟨"c", .prepare "t" ["x"] []⟩, .answer "t" true, .stop, .start {},
    .receive ⟨"c", .prepare "u" ["y"] []⟩, .receive ⟨"c", .prepare "v" ["y", "x"] []⟩]

/-- One lock has been taken again after a restart, another is held for a question, and a request for both
resources has been refused. -/
theorem locked_by_vote_and_question : ∃ history s now,
    shelved.playAll acceptedAndAsked = some (history, s) ∧ s.running = some now ∧
    now.memory.locks.locked = [("x", "t"), ("y", "u")] ∧
    (now.memory.pending.get? "v").map (·.vote) = some .refuse ∧
    Claims now.memory now.asking "t" "x" ∧ Claims now.memory now.asking "u" "y" ∧
    (∀ resource, ¬Claims now.memory now.asking "v" resource) ∧
    now.memory.resolved.contains "t" = false := by
  have played : ((shelved.playAll acceptedAndAsked).bind fun result => result.2.running.map fun now =>
      decide (now.memory.locks.locked = [("x", "t"), ("y", "u")]) &&
      decide ((now.memory.pending.get? "v").map (·.vote) = some .refuse) &&
      now.memory.pending.contains "t") = some true := by rfl
  obtain ⟨⟨history, s⟩, played, up⟩ := Option.bind_eq_some_iff.mp played
  obtain ⟨now, running, facts⟩ := Option.map_eq_some_iff.mp up
  simp only [Bool.and_eq_true, decide_eq_true_eq] at facts
  obtain ⟨⟨locked, refused⟩, waits⟩ := facts
  have run : Station.Run history s := Station.playAll_run (.begin shelved.storage rfl) played
  obtain ⟨_, listed, _, _, unresolved⟩ := locks_follow_votes run running
  refine ⟨history, s, now, played, running, locked, refused, (listed _ _).mp (by simp [locked]),
    (listed _ _).mp (by simp [locked]), fun resource claims => ?_, unresolved "t" waits⟩
  simpa [locked] using (listed _ _).mpr claims

end AtomicCommit.Participant
