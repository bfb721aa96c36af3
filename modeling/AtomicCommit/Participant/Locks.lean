import AtomicCommit.Table

/-! Exclusive locks on resources, each owned by a transaction. -/

namespace AtomicCommit

structure LockTable where
  owners : Table String String := ∅
  deriving DecidableEq, Repr

inductive LockAttempt where
  | granted
  | conflict (resource holder : String)
  deriving DecidableEq, Repr

namespace LockTable

def owner? (table : LockTable) (resource : String) : Option String := table.owners.get? resource

def conflict? (table : LockTable) (txn : String) : List String → Option (String × String)
  | [] => none
  | resource :: rest =>
    match table.owner? resource with
    | some holder => if holder = txn then table.conflict? txn rest else some (resource, holder)
    | none => table.conflict? txn rest

def take (table : LockTable) (txn resource : String) : LockTable :=
  ⟨table.owners.insert resource txn⟩

/-- Locks all listed resources or none. What the transaction owns already is no conflict. -/
def lockAll (table : LockTable) (txn : String) (resources : List String) :
    LockAttempt × LockTable :=
  match table.conflict? txn resources with
  | some (resource, holder) => (.conflict resource holder, table)
  | none => (.granted, resources.foldl (fun table resource => table.take txn resource) table)

def free (table : LockTable) (txn resource : String) : LockTable :=
  if table.owner? resource = some txn then ⟨table.owners.erase resource⟩ else table

def release (table : LockTable) (txn : String) (resources : List String) : LockTable :=
  resources.foldl (fun table resource => table.free txn resource) table

def locked (table : LockTable) : List (String × String) := table.owners.entries

def isEmpty (table : LockTable) : Bool := table.owners.isEmpty

end LockTable

end AtomicCommit
