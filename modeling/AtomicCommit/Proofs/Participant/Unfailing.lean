import AtomicCommit.Proofs.Participant.LogForm

/-! A recovery in which nothing fails. What it does to the storage can be read off the log. -/

namespace AtomicCommit.Participant

def Pending.owed (pending : Pending) : List String :=
  match pending.decision with
  | some outcome => pending.doomed outcome
  | none => []

theorem Pending.mem_resources_of_owed {pending : Pending} {resource : String}
    (owed : resource ∈ pending.owed) : resource ∈ pending.resources := by
  obtain ⟨resources, vote, _ | outcome⟩ := pending
  · cases owed
  · exact (mem_doomed.mp owed).2.2

def amends (item : String × Option Pending) : List (Deed Entry) :=
  (item.2.elim [] Pending.owed).map .deleted ++ [.appended (.done item.1)]

def compaction (config : Config) (log : List Entry) : List (Deed Entry) :=
  if config.compactOnRecovery then [.compacted (compacted log)] else []

def recoveryDeeds (config : Config) (log : List Entry) : List (Deed Entry) :=
  compaction config log ++ (toReapply (traces log)).flatMap amends

def missingEnds (log : List Entry) : List Entry :=
  (toReapply (traces log)).map fun item => .done item.1

/-- The resources of accepted votes whose commits have been logged and have not been ended. -/
def Doomed (log : List Entry) (resource : String) : Prop :=
  ∃ txn resources, (known log txn).Dooms resources ∧ resource ∈ resources

section Deeds

variable {log : List Entry} {config : Config} {txn resource : String}

@[simp] theorem records_compaction : Deed.records (compaction config log) = [] := by
  rw [compaction]
  split <;> rfl

@[simp] theorem deleted_compaction : .deleted resource ∉ compaction config log := by
  rw [compaction]
  split <;> simp

theorem Trace.mem_owed {trace : Trace} : resource ∈ trace.waiting?.elim [] Pending.owed ↔
    ∃ resources, trace.Dooms resources ∧ resource ∈ resources := by
  constructor
  · intro owed
    obtain ⟨_ | ⟨resources, _ | _⟩, _ | _ | _, _ | _⟩ := trace
    case some.accept.some.commit.false => exact ⟨resources, ⟨rfl, rfl, rfl⟩, owed⟩
    all_goals cases owed
  · rintro ⟨resources, ⟨undone, accepted, committed⟩, listed⟩
    simpa [waiting?, undone, accepted, committed, Pending.owed, Pending.doomed, Outcome.isCommit,
      Vote.isAccept] using listed

theorem mem_toReapply_traces {waiting : Option Pending} : (txn, waiting) ∈ toReapply (traces log) ↔
    (known log txn).isDone = false ∧ (known log txn).decision ≠ none ∧
      (known log txn).waiting? = waiting := by
  have entry_of_unvoted : (known log txn).isDone = false → (known log txn).vote = none →
      Log.recordsOf txn log ≠ [] → (known log txn).decision ≠ none := by
    intro undone unvoted some undecided
    obtain ⟨entry, member⟩ := List.exists_mem_of_ne_nil _ some
    have noEnd := undone_iff.mp undone entry member
    have noVote := unvoted_iff.mp unvoted entry member
    have noDecision := undecided_iff.mp undecided entry member
    cases entry
    · cases noVote
    · cases noDecision
    · cases noEnd
  simp only [mem_toReapply, traces, Log.mem_traces, Trace.unsettled, Bool.and_eq_true,
    Bool.not_eq_true', Bool.or_eq_true, Option.isNone_iff_eq_none, Option.isSome_iff_ne_none]
  constructor
  · rintro ⟨_, ⟨some, rfl⟩, ⟨undone, kind⟩, waits⟩
    exact ⟨undone, kind.elim (fun unvoted => entry_of_unvoted undone unvoted some) id, waits⟩
  · rintro ⟨undone, decided, waits⟩
    refine ⟨_, ⟨fun none => decided ?_, rfl⟩, ⟨undone, .inr decided⟩, waits⟩
    exact undecided_iff.mpr (by simp [none])

theorem decided_of_toReapply {pending : Pending} (member : (txn, some pending) ∈ toReapply (traces log)) :
    pending.decision ≠ none := by
  obtain ⟨_, decided, waits⟩ := mem_toReapply_traces.mp member
  obtain ⟨_, _, rfl⟩ := Option.map_eq_some_iff.mp (Option.ite_none_left_eq_some.mp waits).2
  exact decided

theorem isDone_missingEnds {entry : Entry} (member : entry ∈ missingEnds log) : entry.isDone := by
  obtain ⟨item, _, rfl⟩ := List.mem_map.mp member
  rfl

theorem mem_missingEnds : .done txn ∈ missingEnds log ↔
    (known log txn).isDone = false ∧ (known log txn).decision ≠ none := by
  rw [missingEnds, List.mem_map]
  constructor
  · rintro ⟨⟨_, waiting⟩, member, ⟨⟩⟩
    obtain ⟨undone, decided, _⟩ := mem_toReapply_traces.mp member
    exact ⟨undone, decided⟩
  · rintro ⟨undone, decided⟩
    exact ⟨_, mem_toReapply_traces.mpr ⟨undone, decided, rfl⟩, rfl⟩

theorem records_amends (items : List (String × Option Pending)) :
    Deed.records (items.flatMap amends) = items.map fun item => .done item.1 := by
  induction items with
  | nil => rfl
  | cons item rest ih => simp [amends, ih]

theorem records_recoveryDeeds (config : Config) :
    Deed.records (recoveryDeeds config log) = missingEnds log := by
  rw [recoveryDeeds, Deed.records_append, records_compaction, List.nil_append, records_amends,
    missingEnds]

theorem deleted_amends :
    .deleted resource ∈ (toReapply (traces log)).flatMap amends ↔ Doomed log resource := by
  simp only [List.mem_flatMap, amends, List.mem_append, List.mem_map, Deed.deleted.injEq,
    exists_eq_right, List.mem_singleton, reduceCtorEq, or_false]
  constructor
  · rintro ⟨⟨txn, waiting⟩, member, owed⟩
    obtain ⟨_, _, rfl⟩ := mem_toReapply_traces.mp member
    exact ⟨txn, Trace.mem_owed.mp owed⟩
  · rintro ⟨txn, resources, dooms, listed⟩
    refine ⟨_, mem_toReapply_traces.mpr ⟨dooms.undone, ?_, rfl⟩,
      Trace.mem_owed.mpr ⟨resources, dooms, listed⟩⟩
    simp [dooms.committed]

theorem deleted_recoveryDeeds :
    .deleted resource ∈ recoveryDeeds config log ↔ Doomed log resource := by
  rw [recoveryDeeds, List.mem_append, deleted_amends, or_iff_right deleted_compaction]

end Deeds

variable {τ : Type} [Journal τ Entry] [ResourceStore τ]

def act (storage : τ) : Deed Entry → τ
  | .appended entry => (Journal.append entry storage).2
  | .compacted entries => (Journal.compact entries storage).2
  | .deleted resource => (ResourceStore.delete resource storage).2
  | .published _ _ | .stranded _ _ | .retracted _ => storage

def acts (deeds : List (Deed Entry)) (storage : τ) : τ := deeds.foldl act storage

@[simp] theorem acts_nil (storage : τ) : acts [] storage = storage := rfl

@[simp] theorem acts_cons (deed : Deed Entry) (deeds : List (Deed Entry)) (storage : τ) :
    acts (deed :: deeds) storage = acts deeds (act storage deed) := rfl

@[simp] theorem acts_append (deeds others : List (Deed Entry)) (storage : τ) :
    acts (deeds ++ others) storage = acts others (acts deeds storage) :=
  List.foldl_append ..

variable [LawfulJournal τ Entry]

/-- On fine storages nothing fails, and they stay fine, as long as no other resources than these are
deleted. -/
structure Unfailing (deletable : String → Prop) (fine : τ → Prop) : Prop where
  read {s : τ} : fine s → Journal.records s = .ok (held s)
  append {s : τ} (entry : Entry) : fine s →
    (Journal.append entry s).1 = .ok () ∧ fine (Journal.append entry s).2
  compact {s : τ} (entries : List Entry) : fine s →
    (Journal.compact entries s).1 = .ok () ∧ fine (Journal.compact entries s).2
  delete {s : τ} {resource : String} : deletable resource → fine s →
    (ResourceStore.delete resource s).1 = .ok () ∧ fine (ResourceStore.delete resource s).2

def perform (deeds : List (Deed Entry)) (s : Recorded τ Entry) : Recorded τ Entry :=
  ⟨acts deeds s.storage, s.deeds ++ deeds⟩

omit [LawfulJournal τ Entry] in
theorem perform_append (deeds others : List (Deed Entry)) (s : Recorded τ Entry) :
    perform (deeds ++ others) s = perform others (perform deeds s) := by
  simp [perform]

namespace Unfailing

variable {deletable : String → Prop} {fine : τ → Prop}

theorem acts (unfailing : Unfailing deletable fine) {deeds : List (Deed Entry)}
    (allowed : ∀ resource, .deleted resource ∈ deeds → deletable resource) {storage : τ}
    (start : fine storage) : fine (acts deeds storage) := by
  induction deeds generalizing storage with
  | nil => exact start
  | cons deed rest ih =>
    refine ih (fun resource member => allowed resource (List.mem_cons_of_mem _ member)) ?_
    cases deed with
    | appended entry => exact (unfailing.append entry start).2
    | compacted entries => exact (unfailing.compact entries start).2
    | deleted resource => exact (unfailing.delete (allowed resource List.mem_cons_self) start).2
    | published | stranded | retracted => exact start

variable {p : Participant (Recorded τ Entry)}

theorem appended (unfailing : Unfailing deletable fine) (start : fine p.storage.storage)
    (entry : Entry) :
    p.append entry = (.ok (), { p with storage := perform [.appended entry] p.storage }) := by
  have result := (unfailing.append entry start).1
  rcases appending : Journal.append entry p.storage.storage with ⟨_, s⟩
  rw [appending] at result
  cases result
  simp [Participant.append, Journal.append, Recorded.note, appending, perform, act]

theorem deleteAll (unfailing : Unfailing deletable fine) (start : fine p.storage.storage)
    {resources : List String} (allowed : ∀ resource ∈ resources, deletable resource) :
    p.deleteAll resources =
      (.ok (), { p with storage := perform (resources.map .deleted) p.storage }) := by
  induction resources generalizing p with
  | nil => simp [Participant.deleteAll, perform]
  | cons resource rest ih =>
    obtain ⟨here, others⟩ := List.forall_mem_cons.mp allowed
    obtain ⟨result, kept⟩ := unfailing.delete here start
    rcases deleting : ResourceStore.delete resource p.storage.storage with ⟨_, s⟩
    rw [deleting] at result kept
    cases result
    have first : ResourceStore.delete resource p.storage =
        (.ok (), perform [.deleted resource] p.storage) := by
      simp [ResourceStore.delete, Recorded.noteChange, Deed.noted, deleting, perform, act]
    have fineToo : fine (perform [.deleted resource] p.storage).storage := by
      simpa [perform, act, deleting] using kept
    have whole : perform ((resource :: rest).map .deleted) p.storage =
        perform (rest.map .deleted) (perform [.deleted resource] p.storage) :=
      perform_append [.deleted resource] _ p.storage
    simp only [Participant.deleteAll, first, whole]
    exact ih (p := { p with storage := _ }) fineToo others

theorem finish (unfailing : Unfailing deletable fine) (start : fine p.storage.storage) {txn : String}
    {pending : Pending} (decided : pending.decision ≠ none)
    (allowed : ∀ resource ∈ pending.owed, deletable resource) :
    p.finish txn pending = (.ok (), ⟨p.memory.retire txn pending,
      perform (amends (txn, some pending)) p.storage⟩) := by
  obtain ⟨outcome, decision⟩ := Option.ne_none_iff_exists'.mp decided
  have owed : pending.owed = pending.doomed outcome := by simp [Pending.owed, decision]
  rw [owed] at allowed
  have fineToo : fine (perform ((pending.doomed outcome).map .deleted) p.storage).storage :=
    unfailing.acts (by simpa using allowed) start
  simp only [Participant.finish, decision, unfailing.deleteAll start allowed]
  rw [unfailing.appended fineToo, amends, perform_append]
  simp [Participant.retire, owed]

theorem reapply (unfailing : Unfailing deletable fine) (start : fine p.storage.storage)
    {items : List (String × Option Pending)}
    (decided : ∀ txn pending, (txn, some pending) ∈ items → pending.decision ≠ none)
    (allowed : ∀ txn pending, (txn, some pending) ∈ items → ∀ resource ∈ pending.owed,
      deletable resource) :
    ∃ memory, reapply items p = (.ok (), ⟨memory, perform (items.flatMap amends) p.storage⟩) := by
  induction items generalizing p with
  | nil => exact ⟨p.memory, by simp [Participant.reapply, perform]⟩
  | cons item rest ih =>
    have later : ∀ txn pending, (txn, some pending) ∈ rest → (txn, some pending) ∈ item :: rest :=
      fun _ _ member => List.mem_cons_of_mem _ member
    obtain ⟨txn, waiting⟩ := item
    have turn : ∃ memory, Participant.reapply ((txn, waiting) :: rest) p =
        Participant.reapply rest ⟨memory, perform (amends (txn, waiting)) p.storage⟩ := by
      cases waiting with
      | none => exact ⟨p.memory.resolve txn none, by
          simp [Participant.reapply, unfailing.appended start, amends, Participant.setResolved]⟩
      | some pending => exact ⟨p.memory.retire txn pending, by
          simp [Participant.reapply, unfailing.finish start (decided txn pending List.mem_cons_self)
            (allowed txn pending List.mem_cons_self)]⟩
    obtain ⟨left, turn⟩ := turn
    have fineToo : fine (perform (amends (txn, waiting)) p.storage).storage := by
      refine unfailing.acts (fun resource member => ?_) start
      cases waiting with
      | none => simp [amends] at member
      | some pending => exact allowed txn pending List.mem_cons_self resource (by
          simpa [amends] using member)
    obtain ⟨memory, others⟩ := ih (p := ⟨left, perform (amends (txn, waiting)) p.storage⟩) fineToo
      (fun txn pending member => decided txn pending (later _ _ member))
      (fun txn pending member => allowed txn pending (later _ _ member))
    exact ⟨memory, by rw [turn, others, List.flatMap_cons, perform_append]⟩

theorem compactLog (unfailing : Unfailing deletable fine) (start : fine p.storage.storage)
    (config : Config) (entries : List Entry) :
    p.compactLog config entries = (.ok (), { p with
      storage := perform (compaction config entries) p.storage }) := by
  by_cases compacting : config.compactOnRecovery
  · have result := (unfailing.compact (compacted entries) start).1
    rcases replacing : Journal.compact (compacted entries) p.storage.storage with ⟨_, s⟩
    rw [replacing] at result
    cases result
    simp [Participant.compactLog, compaction, compacting, Journal.compact, Recorded.note, replacing,
      perform, act]
  · simp [Participant.compactLog, compaction, compacting, perform]

theorem recover (unfailing : Unfailing deletable fine) {storage : τ} (start : fine storage)
    (allowed : ∀ resource, Doomed (held storage) resource → deletable resource) (config : Config) :
    ∃ memory, recover config (⟨{}, ⟨storage, []⟩⟩ : Participant (Recorded τ Entry)) =
      (.ok (report (traces (held storage))),
        ⟨memory, perform (recoveryDeeds config (held storage)) ⟨storage, []⟩⟩) := by
  have read : Journal.records (⟨storage, []⟩ : Recorded τ Entry) = .ok (held storage) :=
    unfailing.read start
  have fineToo : fine (perform (compaction config (held storage)) ⟨storage, []⟩).storage :=
    unfailing.acts (by simp) start
  have compacted := unfailing.compactLog (p := ⟨{}, ⟨storage, []⟩⟩) start config (held storage)
  obtain ⟨memory, reapplied⟩ := unfailing.reapply
    (p := ⟨restored (traces (held storage)) {}, perform _ _⟩) fineToo
    (fun txn pending => decided_of_toReapply)
    (fun txn pending member resource owed => by
      obtain ⟨_, _, waits⟩ := mem_toReapply_traces.mp member
      exact allowed resource ⟨txn, Trace.mem_owed.mp (by rw [waits]; exact owed)⟩)
  refine ⟨memory, ?_⟩
  rw [restored] at reapplied
  simp only [Participant.recover, read, compacted, reapplied, recoveryDeeds, perform_append]

end Unfailing

section Storages

variable {deletable : String → Prop} {fine : τ → Prop}

theorem Unfailing.faulty (unfailing : Unfailing deletable fine) :
    Unfailing deletable fun s : Faulty τ => s.failures = [] ∧ fine s.storage where
  read fineHere := unfailing.read fineHere.2
  append := by
    rintro ⟨s, failures⟩ entry ⟨rfl, fineHere⟩
    obtain ⟨result, kept⟩ := unfailing.append entry fineHere
    exact ⟨result, rfl, kept⟩
  compact := by
    rintro ⟨s, failures⟩ entries ⟨rfl, fineHere⟩
    obtain ⟨result, kept⟩ := unfailing.compact entries fineHere
    exact ⟨result, rfl, kept⟩
  delete := by
    rintro ⟨s, failures⟩ resource allowed ⟨rfl, fineHere⟩
    obtain ⟨result, kept⟩ := unfailing.delete allowed fineHere
    exact ⟨result, rfl, kept⟩

theorem unfailing_directory : Unfailing deletable
    fun s : Beside (Ledger Entry) DirectoryStore =>
      s.log.failures = [] ∧ ∀ resource, deletable resource → s.other.Deletable resource where
  read {s} _ := s.log.records_read
  append := by
    rintro ⟨⟨records, failures⟩, store⟩ entry ⟨rfl, able⟩
    exact ⟨rfl, rfl, able⟩
  compact := by
    rintro ⟨⟨records, failures⟩, store⟩ entries ⟨rfl, able⟩
    exact ⟨rfl, rfl, able⟩
  delete := by
    rintro ⟨log, store⟩ resource allowed ⟨whole, able⟩
    exact ⟨DirectoryStore.delete_ok_iff.mpr (able resource allowed), whole,
      fun other allowedToo => (able other allowedToo).delete resource⟩

end Storages

end AtomicCommit.Participant
