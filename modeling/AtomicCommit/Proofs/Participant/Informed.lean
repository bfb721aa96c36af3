import AtomicCommit.Proofs.Locks
import AtomicCommit.Proofs.Participant.Handled
import AtomicCommit.Proofs.Participant.Restoring

/-! What a participant has in memory agrees with what it has logged, and its locks with its votes. -/

namespace AtomicCommit.Participant

namespace Memory

variable (memory : Memory) (txn other : String)

@[simp] theorem pending_await (pending : Pending) : (memory.await txn pending).pending.get? other =
    if other = txn then some pending else memory.pending.get? other := by
  simp [await]

@[simp] theorem resolved_await (pending : Pending) :
    (memory.await txn pending).resolved = memory.resolved := rfl

@[simp] theorem locks_await (pending : Pending) :
    (memory.await txn pending).locks = memory.locks := rfl

@[simp] theorem pending_release (resources : List String) :
    (memory.release txn resources).pending = memory.pending := rfl

@[simp] theorem resolved_release (resources : List String) :
    (memory.release txn resources).resolved = memory.resolved := rfl

@[simp] theorem locks_release (resources : List String) :
    (memory.release txn resources).locks = memory.locks.release txn resources := rfl

@[simp] theorem pending_resolve (vote : Option Vote) :
    (memory.resolve txn vote).pending = memory.pending := rfl

@[simp] theorem resolved_resolve (vote : Option Vote) :
    (memory.resolve txn vote).resolved.get? other =
      if other = txn then some vote else memory.resolved.get? other := by
  simp [resolve]

@[simp] theorem locks_resolve (vote : Option Vote) :
    (memory.resolve txn vote).locks = memory.locks := rfl

@[simp] theorem pending_retire (pending : Pending) : (memory.retire txn pending).pending.get? other =
    if other = txn then none else memory.pending.get? other := by
  simp [retire]

@[simp] theorem resolved_retire (pending : Pending) :
    (memory.retire txn pending).resolved.get? other =
      if other = txn then some (some pending.vote) else memory.resolved.get? other := by
  simp [retire]

@[simp] theorem locks_retire (pending : Pending) :
    (memory.retire txn pending).locks = memory.locks.release txn pending.resources := rfl

theorem recordedVote_eq_none : memory.recordedVote txn = none ↔
    memory.pending.get? txn = none ∧ memory.resolved.get? txn = none := by
  cases waiting : memory.pending.get? txn <;> simp [recordedVote, waiting]

end Memory

structure Agrees (known : Trace) (waiting : Option Pending) (ended : Option (Option Vote)) : Prop where
  resolved : ended = if known.isDone then some (known.vote.map (·.2)) else none
  pending : ∃ decision, waiting = if known.isDone then none
    else known.vote.map fun (resources, vote) => ⟨resources, vote, decision⟩
  decision : ∀ pending, waiting = some pending → ∀ outcome, pending.decision = some outcome →
    known.decision = some outcome

namespace Agrees

variable {known : Trace} {ended : Option (Option Vote)}

theorem unvoted (agrees : Agrees known none none) : known.isDone = false ∧ known.vote = none := by
  obtain ⟨resolved, ⟨decision, waits⟩, _⟩ := agrees
  cases done : known.isDone with
  | true => simp [done] at resolved
  | false => simpa [done] using waits.symm

theorem voted {pending : Pending} (agrees : Agrees known (some pending) ended) :
    known.isDone = false ∧ known.vote = some (pending.resources, pending.vote) := by
  obtain ⟨_, ⟨decision, waits⟩, _⟩ := agrees
  cases done : known.isDone with
  | true => simp [done] at waits
  | false =>
    rw [done, if_neg Bool.false_ne_true, eq_comm, Option.map_eq_some_iff] at waits
    obtain ⟨⟨resources, vote⟩, cast, rfl⟩ := waits
    exact ⟨rfl, cast⟩

end Agrees

/-- What a transaction may lock: the resources of its pending acceptance, or those that the oracle is
being asked about. -/
def Claims (memory : Memory) (asking : Table String Question) (txn resource : String) : Prop :=
  (∃ pending, memory.pending.get? txn = some pending ∧ pending.vote = .accept ∧
    resource ∈ pending.resources) ∨
  ∃ question, asking.get? txn = some question ∧ resource ∈ question.request.resources

def Exclusive (entries : List Entry) : Prop := ∀ first second resource,
  (known entries first).Locks resource → (known entries second).Locks resource → first = second

structure Informed (entries : List Entry) (memory : Memory) (asking : Table String Question) :
    Prop where
  agrees : ∀ txn, Agrees (known entries txn) (memory.pending.get? txn) (memory.resolved.get? txn)
  locks : ∀ resource txn, memory.locks.owner? resource = some txn ↔
    Claims memory asking txn resource
  asking : ∀ txn question, asking.get? txn = some question →
    question.request.txn = txn ∧ memory.recordedVote txn = none

section FromLog

variable {entries log : List Entry} {txn resource : String}

theorem lookup_known {α : Type} (part : Trace → Option α) (blank : part {} = none) :
    (Table.lookup txn (traces log)).bind part = part (known log txn) := by
  rw [traces, Log.lookup_traces]
  by_cases none : Log.recordsOf txn log = []
  · simp [none, known, Log.traceOf, blank]
  · simp [none, known]

theorem pending_fromLog :
    (restored (traces log) {}).pending.get? txn = (known log txn).waiting? := by
  have names : ((traces log).map (·.1)).Nodup := Log.nodup_traces _ _ _
  rw [pending_restored names, lookup_known Trace.waiting? rfl, Table.get?_empty, Option.or_none]

theorem resolved_fromLog :
    (restored (traces log) {}).resolved.get? txn = (known log txn).ended? := by
  have names : ((traces log).map (·.1)).Nodup := Log.nodup_traces _ _ _
  rw [resolved_restored names, lookup_known Trace.ended? rfl, Table.get?_empty, Option.or_none]

theorem locks_fromLog (exclusive : Exclusive log) :
    (restored (traces log) {}).locks.owner? resource = some txn ↔
      (known log txn).Locks resource := by
  have traced : ∀ txn trace, (txn, trace) ∈ traces log → trace = known log txn :=
    fun txn trace member => ((Log.mem_traces _ _).mp member).2
  rw [locks_restored]
  · have owned : ({} : Memory).locks.owner? resource = none := rfl
    rw [owned]
    constructor
    · rintro (⟨trace, member, locks⟩ | ⟨⟨⟩⟩)
      exact traced txn trace member ▸ locks
    · intro locks
      refine .inl ⟨_, (Log.mem_traces _ _).mpr ⟨?_, rfl⟩, locks⟩
      intro none
      obtain ⟨_, resources, voted, _⟩ := locks
      simp [known, Log.traceOf, none] at voted
  · intro first second one other resource locks locksToo
    rw [traced _ _ one] at locks
    rw [traced _ _ other] at locksToo
    exact exclusive _ _ resource locks locksToo
  · intro entry member resource locks holder owned
    cases owned

namespace Recounts

theorem exclusive (recounts : Recounts entries log) (exclusive : Exclusive entries) :
    Exclusive log := by
  have same : ∀ txn resource, (known log txn).Locks resource →
      (known entries txn).Locks resource := by
    intro txn resource
    rcases recounts txn with whole | ⟨_, fewer⟩
    · rw [whole]
      exact id
    · rw [fewer]
      exact id
  intro first second resource one other
  exact exclusive first second resource (same _ _ one) (same _ _ other)

theorem agrees (recounts : Recounts entries log) (txn : String) :
    Agrees (known entries txn) (known log txn).waiting? (known log txn).ended? := by
  rcases recounts txn with whole | ⟨ended, fewer⟩
  · rw [whole]
    refine ⟨rfl, ⟨(known entries txn).decision, rfl⟩, ?_⟩
    intro waiting waits outcome decided
    obtain ⟨_, resources, vote, _, rfl⟩ : (known entries txn).isDone = false ∧
        ∃ resources vote, (known entries txn).vote = some (resources, vote) ∧
          ⟨resources, vote, (known entries txn).decision⟩ = waiting := by
      simpa [Trace.waiting?] using waits
    exact decided
  · simp only [fewer]
    exact ⟨rfl, ⟨none, rfl⟩, by simp [Trace.waiting?, ended]⟩

end Recounts

end FromLog

namespace Informed

variable {entries records : List Entry} {memory after : Memory}
  {asking later : Table String Question} {txn : String}

theorem frame (informed : Informed entries memory asking) (txn : String)
    (own : ∀ entry ∈ records, entry.txn = txn)
    (others : ∀ other, other ≠ txn → after.pending.get? other = memory.pending.get? other ∧
      after.resolved.get? other = memory.resolved.get? other ∧
      later.get? other = asking.get? other)
    (otherLocks : ∀ resource other, other ≠ txn →
      (after.locks.owner? resource = some other ↔ memory.locks.owner? resource = some other))
    (agrees : Agrees (known (entries ++ records) txn) (after.pending.get? txn)
      (after.resolved.get? txn))
    (locks : ∀ resource, after.locks.owner? resource = some txn ↔ Claims after later txn resource)
    (asks : ∀ question, later.get? txn = some question →
      question.request.txn = txn ∧ after.recordedVote txn = none) :
    Informed (entries ++ records) after later := by
  constructor
  · intro other
    by_cases same : other = txn
    · exact same ▸ agrees
    · obtain ⟨pending, resolved, -⟩ := others other same
      rw [known_other own same, pending, resolved]
      exact informed.agrees other
  · intro resource other
    by_cases same : other = txn
    · exact same ▸ locks resource
    · obtain ⟨pending, resolved, asked⟩ := others other same
      rw [otherLocks resource other same, informed.locks, Claims, Claims, pending, asked]
  · intro other question open_
    by_cases same : other = txn
    · exact same ▸ asks question (same ▸ open_)
    · obtain ⟨pending, resolved, asked⟩ := others other same
      rw [asked] at open_
      obtain ⟨named, unvoted⟩ := informed.asking other question open_
      refine ⟨named, ?_⟩
      rw [Memory.recordedVote_eq_none] at unvoted ⊢
      rwa [pending, resolved]

theorem free (informed : Informed entries memory asking)
    (notPending : memory.pending.get? txn = none) (idle : asking.get? txn = none)
    (resource : String) : memory.locks.owner? resource ≠ some txn := by
  simp [Ne, informed.locks, Claims, notPending, idle]

theorem idle_of_pending (informed : Informed entries memory asking) {pending : Pending}
    (waiting : memory.pending.get? txn = some pending) : asking.get? txn = none := by
  cases asked : asking.get? txn with
  | none => rfl
  | some question =>
    have unvoted := ((informed.asking txn question asked).2)
    rw [Memory.recordedVote_eq_none, waiting] at unvoted
    cases unvoted.1

theorem ask (informed : Informed entries memory asking) {question : Question} {locks : LockTable}
    (named : question.request.txn = txn) (unvoted : memory.recordedVote txn = none)
    (idle : asking.get? txn = none)
    (granted : memory.locks.lockAll txn question.request.resources = (.granted, locks)) :
    Informed entries { memory with locks := locks } (asking.insert txn question) := by
  have holders := (LockTable.granted_iff.mp granted).1
  have owner := LockTable.owner?_granted granted
  obtain ⟨notPending, notResolved⟩ := (Memory.recordedVote_eq_none _ _).mp unvoted
  rw [← List.append_nil entries]
  apply informed.frame txn
  · simp
  · intro other distinct
    simp [distinct]
  · intro resource other distinct
    by_cases listed : resource ∈ question.request.resources
    · have foreign : memory.locks.owner? resource ≠ some other := fun owned =>
        distinct (holders resource listed other owned)
      simp [owner, listed, distinct.symm, foreign]
    · simp [owner, listed]
  · simpa using informed.agrees txn
  · intro resource
    have free := informed.free notPending idle resource
    by_cases listed : resource ∈ question.request.resources <;>
      simp [owner, listed, Claims, notPending, free]
  · intro asked same
    obtain rfl : question = asked := by simpa using same
    exact ⟨named, unvoted⟩

theorem giveUp (informed : Informed entries memory asking) {question : Question}
    (asked : asking.get? txn = some question) :
    Informed entries (memory.release txn question.request.resources) (asking.erase txn) := by
  obtain ⟨_, unvoted⟩ := informed.asking txn question asked
  obtain ⟨notPending, notResolved⟩ := (Memory.recordedVote_eq_none _ _).mp unvoted
  have owner := LockTable.owner?_release question.request.resources memory.locks txn
  rw [← List.append_nil entries]
  apply informed.frame txn
  · simp
  · intro other distinct
    simp [distinct]
  · intro resource other distinct
    by_cases owned : memory.locks.owner? resource = some txn
    · by_cases listed : resource ∈ question.request.resources <;>
        simp [owner, owned, listed, distinct.symm]
    · simp [owner, owned]
  · simpa using informed.agrees txn
  · intro resource
    have owned : memory.locks.owner? resource = some txn ↔
        resource ∈ question.request.resources := by
      simp [informed.locks, Claims, notPending, asked]
    by_cases listed : resource ∈ question.request.resources
    · simp [owner, listed, owned.mpr listed, Claims, notPending]
    · have foreign := owned.not.mpr listed
      simp [owner, listed, foreign, Claims, notPending]
  · simp

theorem vote (informed : Informed entries memory asking) {resources : List String} {vote : Vote}
    (unvoted : memory.recordedVote txn = none)
    (locked : ∀ resource, memory.locks.owner? resource = some txn ↔
      vote = .accept ∧ resource ∈ resources)
    (closed : later.get? txn = none)
    (others : ∀ other, other ≠ txn → later.get? other = asking.get? other) :
    Informed (entries ++ [.prepare txn resources vote])
      (memory.await txn ⟨resources, vote, none⟩) later := by
  obtain ⟨notPending, notResolved⟩ := (Memory.recordedVote_eq_none _ _).mp unvoted
  have agrees := informed.agrees txn
  rw [notPending, notResolved] at agrees
  obtain ⟨undone, _⟩ := agrees.unvoted
  have own : ∀ entry ∈ [Entry.prepare txn resources vote], entry.txn = txn := by simp [Entry.txn]
  apply informed.frame txn own
  · intro other distinct
    simp [distinct, others other distinct]
  · simp
  · rw [known_own own]
    constructor
    · simp [Trace.note, undone, notResolved]
    · exact ⟨none, by simp [Trace.note, undone]⟩
    · simp
  · intro resource
    simp [locked, Claims, closed]
  · simp [closed]

theorem hear (informed : Informed entries memory asking) (outcome : Outcome)
    (notPending : memory.pending.get? txn = none) :
    Informed (entries ++ [.decision txn outcome]) memory asking := by
  have own : ∀ entry ∈ [Entry.decision txn outcome], entry.txn = txn := by simp [Entry.txn]
  have agrees := informed.agrees txn
  rw [notPending] at agrees
  apply informed.frame txn own
  · simp
  · simp
  · rw [known_own own, notPending]
    exact ⟨agrees.resolved, agrees.pending, by simp⟩
  · exact fun resource => informed.locks resource txn
  · exact informed.asking txn

theorem endUnvoted (informed : Informed entries memory asking)
    (notPending : memory.pending.get? txn = none) (notResolved : memory.resolved.get? txn = none)
    (idle : asking.get? txn = none) :
    Informed (entries ++ [.done txn]) (memory.resolve txn none) asking := by
  have own : ∀ entry ∈ [Entry.done txn], entry.txn = txn := by simp [Entry.txn]
  have agrees := informed.agrees txn
  rw [notPending, notResolved] at agrees
  apply informed.frame txn own
  · intro other distinct
    simp [distinct]
  · simp
  · rw [known_own own]
    simp only [List.foldl_cons, List.foldl_nil, Memory.pending_resolve, notPending,
      Memory.resolved_resolve, if_true]
    exact ⟨by simp [Trace.note, agrees.unvoted.2], ⟨none, by simp [Trace.note]⟩, by simp⟩
  · intro resource
    simpa [Claims, idle, notPending] using informed.free notPending idle resource
  · simp [idle]

variable {pending : Pending}

theorem decide (informed : Informed entries memory asking) (outcome : Outcome)
    (waiting : memory.pending.get? txn = some pending) :
    Informed (entries ++ [.decision txn outcome])
      (memory.await txn { pending with decision := some outcome }) asking := by
  have own : ∀ entry ∈ [Entry.decision txn outcome], entry.txn = txn := by simp [Entry.txn]
  have agrees := informed.agrees txn
  rw [waiting] at agrees
  obtain ⟨undone, voted⟩ := agrees.voted
  have idle := informed.idle_of_pending waiting
  apply informed.frame txn own
  · intro other distinct
    simp [distinct]
  · simp
  · rw [known_own own]
    simp only [List.foldl_cons, List.foldl_nil, Memory.pending_await, if_true, Memory.resolved_await]
    refine ⟨agrees.resolved, ⟨some outcome, by simp [Trace.note, undone, voted]⟩, ?_⟩
    rintro _ ⟨⟩ _ ⟨⟩
    rfl
  · intro resource
    simp [informed.locks, Claims, waiting, idle]
  · simp [idle]

theorem retire (informed : Informed entries memory asking)
    (waiting : memory.pending.get? txn = some pending) :
    Informed (entries ++ [.done txn]) (memory.retire txn pending) asking := by
  have own : ∀ entry ∈ [Entry.done txn], entry.txn = txn := by simp [Entry.txn]
  have agrees := informed.agrees txn
  rw [waiting] at agrees
  obtain ⟨undone, voted⟩ := agrees.voted
  have idle := informed.idle_of_pending waiting
  have owner := LockTable.owner?_release pending.resources memory.locks txn
  apply informed.frame txn own
  · intro other distinct
    simp [distinct]
  · intro resource other distinct
    by_cases owned : memory.locks.owner? resource = some txn
    · by_cases listed : resource ∈ pending.resources <;>
        simp [owner, owned, listed, distinct.symm]
    · simp [owner, owned]
  · rw [known_own own]
    exact ⟨by simp [Trace.note, voted], ⟨none, by simp [Trace.note]⟩, by simp⟩
  · intro resource
    have owned : memory.locks.owner? resource = some txn →
        resource ∈ pending.resources := by
      simp only [informed.locks, Claims, waiting, idle]
      rintro (⟨_, ⟨⟩, _, listed⟩ | ⟨_, ⟨⟩, _⟩)
      exact listed
    by_cases mine : memory.locks.owner? resource = some txn
    · simp [owner, mine, owned mine, Claims, idle]
    · simp [owner, mine, Claims, idle]
  · simp [idle]

theorem finish (informed : Informed entries memory asking) {deeds : List (Deed Entry)}
    {success : Bool} (waiting : memory.pending.get? txn = some pending)
    (finished : Finish txn pending memory deeds success after) :
    Informed (entries ++ Deed.records deeds) after asking := by
  cases finished with
  | undecided => simpa using informed
  | stuck outcome gone decision some => simpa using informed
  | ended outcome decision => simpa using informed.retire waiting

variable {now : Incarnation} {deeds : List (Deed Entry)} {reaction : Reaction}

theorem message {m : Message} (informed : Informed entries now.memory now.asking)
    (idle : now.asking.get? m.txn = none)
    (handled : Handled (.message m) now.memory deeds reaction after) (sender : String) :
    Informed (entries ++ Deed.records deeds) (now.conclude sender after reaction).memory
      (now.conclude sender after reaction).asking := by
  have unclaimed : now.memory.recordedVote m.txn = none → ∀ resource,
      now.memory.locks.owner? resource ≠ some m.txn := by
    intro unvoted
    exact informed.free ((Memory.recordedVote_eq_none _ _).mp unvoted).1 idle
  cases handled with
  | repeated _ _ vote phase recorded => simpa [Incarnation.conclude] using informed
  | asked _ _ locks phase unvoted granted =>
    have question : Informed entries { now.memory with locks := locks }
        (now.asking.insert m.txn ⟨sender, requestOf m⟩) := informed.ask rfl unvoted idle granted
    simpa [Incarnation.conclude, requestOf] using question
  | refused _ _ phase unvoted =>
    have free := unclaimed unvoted
    simpa [Incarnation.conclude] using
      informed.vote unvoted (by simp [free]) idle (fun other _ => rfl)
  | notRefused _ _ phase unvoted => simpa [Incarnation.conclude] using informed
  | settled _ outcome _ phase resolved => simpa [Incarnation.conclude] using informed
  | unheard _ outcome _ phase unresolved => simpa [Incarnation.conclude] using informed
  | unasked _ outcome _ phase unresolved notPending =>
    simpa [Incarnation.conclude] using informed.hear outcome notPending
  | unknown _ outcome _ phase unresolved notPending =>
    have notResolved : now.memory.resolved.get? m.txn = none := by
      simpa [Table.contains] using unresolved
    simpa [Incarnation.conclude] using
      (informed.hear outcome notPending).endUnvoted notPending notResolved idle
  | again _ outcome _ pending former deeds success after phase unresolved waiting decision finished =>
    have applied := informed.finish waiting finished
    cases success <;> simpa [Incarnation.conclude, ackIf] using applied
  | decided _ outcome _ pending deeds success after phase unresolved waiting decision finished =>
    have applied := (informed.decide outcome waiting).finish (by simp) finished
    cases success <;> simpa [Incarnation.conclude, ackIf] using applied
  | ignored _ _ phase outcomes => simpa [Incarnation.conclude] using informed

theorem answer {question : Question} {approved : Bool}
    (informed : Informed entries now.memory now.asking)
    (asked : now.asking.get? txn = some question)
    (handled : Handled (.answer question.request approved) now.memory deeds reaction after)
    (sender : String) :
    Informed (entries ++ Deed.records deeds)
      (Incarnation.conclude { now with asking := now.asking.erase txn } sender after reaction).memory
      (Incarnation.conclude { now with asking := now.asking.erase txn } sender after
        reaction).asking := by
  obtain ⟨named, unvoted⟩ := informed.asking txn question asked
  obtain ⟨notPending, _⟩ := (Memory.recordedVote_eq_none _ _).mp unvoted
  subst named
  have gaveUp := informed.giveUp asked
  have others : ∀ other, other ≠ question.request.txn →
      (now.asking.erase question.request.txn).get? other = now.asking.get? other := by
    intro other distinct
    simp [distinct]
  cases handled with
  | accepted =>
    have locked : ∀ resource, now.memory.locks.owner? resource = some question.request.txn ↔
        resource ∈ question.request.resources := by
      intro resource
      simp [informed.locks, Claims, notPending, asked]
    simpa [Incarnation.conclude] using
      informed.vote unvoted (by simpa using locked) (by simp) others
  | notAccepted => simpa [Incarnation.conclude] using gaveUp
  | rejected =>
    have free := gaveUp.free notPending (Table.get?_erase _ _ _ |>.trans (if_pos rfl))
    simpa [Incarnation.conclude] using
      gaveUp.vote (by simpa [Memory.recordedVote] using unvoted) (by simpa using free) (by simp)
        (fun other _ => rfl)
  | notRejected => simpa [Incarnation.conclude] using gaveUp

theorem locked (informed : Informed entries memory asking) {resource : String}
    (locks : (known entries txn).Locks resource) : memory.locks.owner? resource = some txn := by
  obtain ⟨undone, resources, voted, listed⟩ := locks
  obtain ⟨decision, waits⟩ := (informed.agrees txn).pending
  rw [undone, voted] at waits
  exact (informed.locks resource txn).mpr (.inl ⟨_, waits, rfl, listed⟩)

theorem exclusive (informed : Informed entries memory asking) : Exclusive entries := by
  intro first second resource one other
  simpa [informed.locked one] using informed.locked other

theorem fromLog {log : List Entry} (recounts : Recounts entries log) (exclusive : Exclusive entries) :
    Informed entries (restored (traces log) {}) ∅ := by
  constructor
  · intro txn
    rw [pending_fromLog, resolved_fromLog]
    exact recounts.agrees txn
  · intro resource txn
    rw [locks_fromLog (recounts.exclusive exclusive)]
    simp [Claims, pending_fromLog, Trace.locks_iff]
  · simp

theorem unresolved (informed : Informed entries memory asking)
    (notResolved : memory.resolved.get? txn = none) : (known entries txn).isDone = false := by
  have ended := (informed.agrees txn).resolved
  cases done : (known entries txn).isDone with
  | false => rfl
  | true => simp [notResolved, done] at ended

theorem ended (informed : Informed entries memory asking) {txn : String}
    (resolved : memory.resolved.contains txn) : .done txn ∈ entries := by
  have agrees := (informed.agrees txn).resolved
  rw [← isDone_known]
  cases done : (known entries txn).isDone with
  | true => rfl
  | false => simp [Table.contains, agrees, done] at resolved

theorem open_ (informed : Informed entries memory asking) {txn : String}
    (unresolved : memory.resolved.get? txn = none) : .done txn ∉ entries := by
  rw [← isDone_known, informed.unresolved unresolved]
  exact Bool.false_ne_true

theorem unlocked (informed : Informed entries memory asking) (ended : .done txn ∈ entries)
    (resource : String) : memory.locks.owner? resource ≠ some txn := by
  have resolved : memory.resolved.get? txn ≠ none := fun unresolved =>
    informed.open_ unresolved ended
  rw [Ne, informed.locks]
  rintro (⟨pending, waiting, _⟩ | ⟨question, asked, _⟩)
  · obtain ⟨undone, _⟩ := (waiting ▸ informed.agrees txn).voted
    exact isDone_known.not.mp (Bool.eq_false_iff.mp undone) ended
  · exact resolved ((Memory.recordedVote_eq_none _ _).mp (informed.asking txn question asked).2).2

theorem owner_iff (informed : Informed entries memory asking) {resources : List String} {vote : Vote}
    (open_ : .done txn ∉ entries) (voted : (known entries txn).vote = some (resources, vote))
    (resource : String) :
    memory.locks.owner? resource = some txn ↔ vote = .accept ∧ resource ∈ resources := by
  have undone := Bool.eq_false_iff.mpr (isDone_known.not.mpr open_)
  obtain ⟨decision, waits⟩ := (informed.agrees txn).pending
  rw [undone, voted] at waits
  have waiting : memory.pending.get? txn = some ⟨resources, vote, decision⟩ := waits
  simp [informed.locks, Claims, waiting, informed.idle_of_pending waiting]

theorem finish_continues (informed : Informed entries memory asking) {deeds : List (Deed Entry)}
    {success : Bool} (notResolved : memory.resolved.get? txn = none)
    {before : Memory} (finished : Finish txn pending before deeds success after) :
    Continues txn (known entries txn) (Deed.records deeds) := by
  cases finished with
  | undecided => exact .nothing
  | stuck outcome gone decision some => simpa using .nothing
  | ended outcome decision => exact .told _ (informed.unresolved notResolved) (by simp)

theorem vote_continues (informed : Informed entries memory asking)
    (unvoted : memory.recordedVote txn = none) (resources : List String) (vote : Vote) :
    Continues txn (known entries txn) [.prepare txn resources vote] := by
  obtain ⟨notPending, notResolved⟩ := (Memory.recordedVote_eq_none _ _).mp unvoted
  have agrees := informed.agrees txn
  rw [notPending, notResolved] at agrees
  exact .voted resources vote agrees.unvoted.1 agrees.unvoted.2

theorem message_continues {m : Message} (informed : Informed entries now.memory now.asking)
    (handled : Handled (.message m) now.memory deeds reaction after) :
    Continues m.txn (known entries m.txn) (Deed.records deeds) := by
  have undone : now.memory.resolved.contains m.txn = false →
      now.memory.resolved.get? m.txn = none := by
    intro unresolved
    simpa [Table.contains] using unresolved
  cases handled with
  | refused _ _ phase unvoted => exact informed.vote_continues unvoted _ _
  | unasked _ outcome _ phase unresolved notPending =>
    exact .told _ (informed.unresolved (undone unresolved)) (by simp)
  | unknown _ outcome _ phase unresolved notPending =>
    exact .told _ (informed.unresolved (undone unresolved)) (by simp)
  | again _ outcome _ pending former deeds success after phase unresolved waiting decision finished =>
    exact informed.finish_continues (undone unresolved) finished
  | decided _ outcome _ pending deeds success after phase unresolved waiting decision finished =>
    have notDone := informed.unresolved (undone unresolved)
    cases finished with
    | undecided => exact .told _ notDone (by simp)
    | stuck _ gone _ some => exact .told _ notDone (by simp)
    | ended _ _ => exact .told _ notDone (by simp)
  | _ => exact .nothing

theorem answer_continues {question : Question} {approved : Bool}
    (informed : Informed entries now.memory now.asking)
    (asked : now.asking.get? txn = some question)
    (handled : Handled (.answer question.request approved) now.memory deeds reaction after) :
    Continues txn (known entries txn) (Deed.records deeds) := by
  obtain ⟨named, unvoted⟩ := informed.asking txn question asked
  subst named
  cases handled with
  | accepted => exact informed.vote_continues unvoted _ _
  | rejected => exact informed.vote_continues unvoted _ _
  | _ => exact .nothing

end Informed

end AtomicCommit.Participant
