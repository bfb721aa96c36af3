import AtomicCommit.Proofs.Locks
import AtomicCommit.Proofs.Participant.Known
import AtomicCommit.Proofs.Participant.Recovering

/-! The memory that a recovery restores: from each trace of the log a pending vote with its locks, or
an end. -/

namespace AtomicCommit.Participant

namespace Trace

def waiting? (trace : Trace) : Option Pending :=
  if trace.isDone then none
  else trace.vote.map fun (resources, vote) => ⟨resources, vote, trace.decision⟩

def ended? (trace : Trace) : Option (Option Vote) :=
  if trace.isDone then some (trace.vote.map (·.2)) else none

def unsettled (trace : Trace) : Bool :=
  !trace.isDone && (trace.vote.isNone || trace.decision.isSome)

/-- An acceptance locks its resources until the end is logged. -/
def Locks (trace : Trace) (resource : String) : Prop :=
  trace.isDone = false ∧ ∃ resources, trace.vote = some (resources, .accept) ∧
    resource ∈ resources

theorem locks_iff (trace : Trace) (resource : String) : trace.Locks resource ↔
    ∃ pending, trace.waiting? = some pending ∧ pending.vote = .accept ∧
      resource ∈ pending.resources := by
  obtain ⟨_ | ⟨resources, vote⟩, decision, _ | _⟩ := trace <;>
    simp [Locks, waiting?, and_comm]

end Trace

theorem toReapply_eq (found : List (String × Trace)) : toReapply found =
    (found.filter fun entry => entry.2.unsettled).map fun entry => (entry.1, entry.2.waiting?) := by
  induction found with
  | nil => rfl
  | cons entry rest ih =>
    obtain ⟨txn, _ | ⟨resources, vote⟩, _ | outcome, _ | _⟩ := entry <;>
      simp [toReapply, Trace.unsettled, Trace.waiting?, ih]

theorem names_toReapply (found : List (String × Trace)) :
    ((toReapply found).map (·.1)).Sublist (found.map (·.1)) := by
  rw [toReapply_eq, List.map_map]
  exact List.Sublist.map Prod.fst List.filter_sublist

theorem mem_toReapply {found : List (String × Trace)} {txn : String} {waiting : Option Pending} :
    (txn, waiting) ∈ toReapply found ↔
      ∃ trace, (txn, trace) ∈ found ∧ trace.unsettled ∧ trace.waiting? = waiting := by
  simp [toReapply_eq, and_assoc]

namespace Memory

variable (memory : Memory) (txn other : String) (trace : Trace)

theorem pending_restore : (memory.restore txn trace).pending.get? other =
    if other = txn then trace.waiting?.or (memory.pending.get? other)
    else memory.pending.get? other := by
  obtain ⟨_ | ⟨resources, vote⟩, decision, _ | _⟩ := trace <;>
    simp [restore, Trace.waiting?, await, resolve]

theorem resolved_restore : (memory.restore txn trace).resolved.get? other =
    if other = txn then trace.ended?.or (memory.resolved.get? other)
    else memory.resolved.get? other := by
  obtain ⟨_ | ⟨resources, vote⟩, decision, _ | _⟩ := trace <;>
    simp [restore, Trace.ended?, await, resolve]

theorem locks_restore {memory : Memory} {txn : String} {trace : Trace}
    (available : ∀ resource, trace.Locks resource → ∀ holder,
      memory.locks.owner? resource = some holder → holder = txn) (resource : String)
    (holder : String) :
    (memory.restore txn trace).locks.owner? resource = some holder ↔
      (trace.Locks resource ∧ holder = txn) ∨ memory.locks.owner? resource = some holder := by
  obtain ⟨_ | ⟨resources, _ | _⟩, decision, _ | _⟩ := trace
  case some.accept.false =>
    have free : ∀ resource ∈ resources, ∀ holder, memory.locks.owner? resource = some holder →
        holder = txn := fun resource listed =>
      available resource ⟨rfl, resources, rfl, listed⟩
    obtain ⟨locks, granted⟩ : ∃ locks, memory.locks.lockAll txn resources = (.granted, locks) :=
      ⟨_, LockTable.granted_iff.mpr ⟨free, rfl⟩⟩
    have owner := LockTable.owner?_granted granted resource
    by_cases listed : resource ∈ resources
    · have own := free resource listed holder
      simp only [restore, Vote.isAccept, if_true, granted, await, Trace.Locks]
      grind
    · simp [restore, Vote.isAccept, granted, await, owner, listed, Trace.Locks]
  all_goals simp [restore, Vote.isAccept, await, resolve, Trace.Locks]

end Memory

section Restored

variable {found : List (String × Trace)}

theorem lookup_head {name : String} {trace : Trace} {rest : List (String × Trace)}
    (names : (((name, trace) :: rest).map (·.1)).Nodup) : Table.lookup name rest = none := by
  obtain ⟨absent, unique⟩ := List.nodup_cons.mp names
  refine Option.eq_none_iff_forall_ne_some.mpr fun other found => ?_
  exact absent (List.mem_map.mpr ⟨_, (Table.lookup_eq_some unique _ _).mp found, rfl⟩)

theorem pending_restored (names : (found.map (·.1)).Nodup) (memory : Memory) (txn : String) :
    (restored found memory).pending.get? txn =
      ((Table.lookup txn found).bind Trace.waiting?).or (memory.pending.get? txn) := by
  induction found generalizing memory with
  | nil => rfl
  | cons entry rest ih =>
    obtain ⟨name, trace⟩ := entry
    rw [restored, List.foldl_cons]
    refine (ih (List.nodup_cons.mp names).2 _).trans ?_
    rw [Memory.pending_restore]
    by_cases same : txn = name
    · subst same
      simp [Table.lookup, lookup_head names]
    · simp [Table.lookup, same, Ne.symm same]

theorem resolved_restored (names : (found.map (·.1)).Nodup) (memory : Memory) (txn : String) :
    (restored found memory).resolved.get? txn =
      ((Table.lookup txn found).bind Trace.ended?).or (memory.resolved.get? txn) := by
  induction found generalizing memory with
  | nil => rfl
  | cons entry rest ih =>
    obtain ⟨name, trace⟩ := entry
    rw [restored, List.foldl_cons]
    refine (ih (List.nodup_cons.mp names).2 _).trans ?_
    rw [Memory.resolved_restore]
    by_cases same : txn = name
    · subst same
      simp [Table.lookup, lookup_head names]
    · simp [Table.lookup, same, Ne.symm same]

theorem locks_restored {memory : Memory}
    (exclusive : ∀ first second, first ∈ found → second ∈ found → ∀ resource,
      first.2.Locks resource → second.2.Locks resource → first.1 = second.1)
    (available : ∀ entry ∈ found, ∀ resource, entry.2.Locks resource → ∀ holder,
      memory.locks.owner? resource = some holder → holder = entry.1)
    (resource holder : String) :
    (restored found memory).locks.owner? resource = some holder ↔
      (∃ trace, (holder, trace) ∈ found ∧ trace.Locks resource) ∨
        memory.locks.owner? resource = some holder := by
  induction found generalizing memory with
  | nil => simp [restored]
  | cons entry rest ih =>
    obtain ⟨name, trace⟩ := entry
    have locked := Memory.locks_restore (available _ List.mem_cons_self)
    rw [restored, List.foldl_cons]
    refine (ih ?_ ?_).trans ?_
    · intro first second one other
      exact exclusive first second (List.mem_cons_of_mem _ one) (List.mem_cons_of_mem _ other)
    · intro later member resource locks holder owned
      rcases (locked resource holder).mp owned with ⟨locksToo, rfl⟩ | before
      · exact exclusive _ _ List.mem_cons_self (List.mem_cons_of_mem _ member) resource locksToo locks
      · exact available later (List.mem_cons_of_mem _ member) resource locks holder before
    · rw [locked]
      grind

end Restored

end AtomicCommit.Participant
