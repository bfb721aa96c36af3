import AtomicCommit.Participant.Locks
import AtomicCommit.Proofs.Tables

/-! Who owns a resource after locks have been granted or released, and how the locks are listed. -/

namespace AtomicCommit.LockTable

variable {table locks : LockTable} {txn : String} {resources : List String}

@[simp] theorem owner?_take (table : LockTable) (txn resource other : String) :
    (table.take txn resource).owner? other =
      if other = resource then some txn else table.owner? other :=
  Table.get?_insert ..

@[simp] theorem owner?_free (table : LockTable) (txn resource other : String) :
    (table.free txn resource).owner? other =
      if other = resource ∧ table.owner? resource = some txn then none
      else table.owner? other := by
  by_cases owned : table.owner? resource = some txn
  · simp only [free, owned, if_true, and_true]
    exact Table.get?_erase ..
  · simp [free, owned]

theorem owner?_takeAll (resources : List String) (table : LockTable) (txn other : String) :
    (resources.foldl (fun table resource => table.take txn resource) table).owner? other =
      if other ∈ resources then some txn else table.owner? other := by
  induction resources generalizing table with
  | nil => simp
  | cons resource rest ih =>
    rw [List.foldl_cons, ih, owner?_take]
    grind

theorem owner?_release (resources : List String) (table : LockTable) (txn other : String) :
    (table.release txn resources).owner? other =
      if other ∈ resources ∧ table.owner? other = some txn then none else table.owner? other := by
  induction resources generalizing table with
  | nil => simp [release]
  | cons resource rest ih =>
    have step := ih (table.free txn resource)
    rw [release] at step
    rw [release, List.foldl_cons, step, owner?_free]
    grind

theorem conflict?_eq_none : table.conflict? txn resources = none ↔
    ∀ resource ∈ resources, ∀ holder, table.owner? resource = some holder → holder = txn := by
  induction resources with
  | nil => simp [conflict?]
  | cons resource rest ih =>
    cases owned : table.owner? resource with
    | none => simp [conflict?, owned, ih]
    | some holder => by_cases own : holder = txn <;> simp [conflict?, owned, own, ih]

theorem granted_iff : table.lockAll txn resources = (.granted, locks) ↔
    (∀ resource ∈ resources, ∀ holder, table.owner? resource = some holder → holder = txn) ∧
      locks = resources.foldl (fun table resource => table.take txn resource) table := by
  rw [← conflict?_eq_none]
  cases conflict : table.conflict? txn resources with
  | none => simp [lockAll, conflict, eq_comm]
  | some found => simp [lockAll, conflict]

theorem owner?_granted (granted : table.lockAll txn resources = (.granted, locks))
    (other : String) :
    locks.owner? other = if other ∈ resources then some txn else table.owner? other := by
  rw [(granted_iff.mp granted).2, owner?_takeAll]

def Sorted (table : LockTable) : Prop := table.owners.Sorted

theorem sorted_empty : ({} : LockTable).Sorted := Table.sorted_empty

theorem sorted_free (sorted : table.Sorted) (txn resource : String) :
    (table.free txn resource).Sorted := by
  rw [free]
  split
  · exact Table.sorted_erase sorted resource
  · exact sorted

theorem sorted_takeAll (sorted : table.Sorted) (txn : String) (resources : List String) :
    (resources.foldl (fun table resource => table.take txn resource) table).Sorted := by
  induction resources generalizing table with
  | nil => exact sorted
  | cons resource rest ih =>
    have taken : (table.take txn resource).Sorted := Table.sorted_insert sorted resource txn
    exact ih taken

theorem sorted_lockAll (sorted : table.Sorted) (txn : String) (resources : List String) :
    (table.lockAll txn resources).2.Sorted := by
  rw [lockAll]
  split
  · exact sorted
  · exact sorted_takeAll sorted txn resources

theorem sorted_release (sorted : table.Sorted) (txn : String) (resources : List String) :
    (table.release txn resources).Sorted := by
  induction resources generalizing table with
  | nil => exact sorted
  | cons resource rest ih => exact ih (sorted_free sorted txn resource)

theorem Sorted.ext (sorted : table.Sorted) (sortedToo : locks.Sorted)
    (same : ∀ resource, table.owner? resource = locks.owner? resource) : table = locks :=
  congrArg mk (Table.Sorted.ext sorted sortedToo same)

theorem mem_locked (sorted : table.Sorted) (resource txn : String) :
    (resource, txn) ∈ table.locked ↔ table.owner? resource = some txn :=
  (Table.get?_eq_some sorted resource txn).symm

end AtomicCommit.LockTable
