import AtomicCommit.Proofs.Locks

/-! Locks are granted all or none, and to release what was granted undoes it exactly, whatever has been
done about other resources meanwhile. -/

namespace AtomicCommit.LockTable

variable {table other locks : LockTable} {txn resource holder : String} {resources : List String}

/-- The first of the listed resources that another transaction owns, with its owner. -/
def FirstTaken (table : LockTable) (txn : String) (resources : List String)
    (resource holder : String) : Prop :=
  ∃ before after, resources = before ++ resource :: after ∧
    table.owner? resource = some holder ∧ holder ≠ txn ∧
      ∀ earlier ∈ before, ∀ owner, table.owner? earlier = some owner → owner = txn

theorem conflict?_eq_some : table.conflict? txn resources = some (resource, holder) ↔
    table.FirstTaken txn resources resource holder := by
  induction resources with
  | nil => simp [conflict?, FirstTaken]
  | cons first rest ih =>
    have passed : (∀ owner, table.owner? first = some owner → owner = txn) →
        (table.FirstTaken txn (first :: rest) resource holder ↔
          table.FirstTaken txn rest resource holder) := by
      intro own
      constructor
      · rintro ⟨_ | ⟨head, before⟩, after, split, owned, foreign, earlier⟩
        · obtain ⟨rfl, rfl⟩ := List.cons.inj split
          exact absurd (own holder owned) foreign
        · obtain ⟨rfl, rfl⟩ := List.cons.inj split
          exact ⟨before, after, rfl, owned, foreign, (List.forall_mem_cons.mp earlier).2⟩
      · rintro ⟨before, after, rfl, owned, foreign, earlier⟩
        exact ⟨first :: before, after, rfl, owned, foreign,
          List.forall_mem_cons.mpr ⟨own, earlier⟩⟩
    cases owned : table.owner? first with
    | none => simp only [conflict?, owned, ih, passed (by simp [owned])]
    | some owner =>
      by_cases own : owner = txn
      · simp only [conflict?, owned, own, if_true, ih, passed (by simp [owned, own])]
      · simp only [conflict?, owned, own, if_false, Option.some.injEq, Prod.mk.injEq]
        constructor
        · rintro ⟨rfl, rfl⟩
          exact ⟨[], rest, rfl, owned, own, by simp⟩
        · rintro ⟨_ | ⟨head, before⟩, after, split, there, _, earlier⟩
          · obtain ⟨rfl, rfl⟩ := List.cons.inj split
            exact ⟨rfl, Option.some.inj (owned.symm.trans there)⟩
          · obtain ⟨rfl, rfl⟩ := List.cons.inj split
            exact absurd (earlier first List.mem_cons_self owner owned) own

theorem refused_iff : table.lockAll txn resources = (.conflict resource holder, locks) ↔
    table.FirstTaken txn resources resource holder ∧ locks = table := by
  rw [← conflict?_eq_some]
  cases conflict : table.conflict? txn resources with
  | none => simp [lockAll, conflict]
  | some found =>
    obtain ⟨taken, owner⟩ := found
    simp [lockAll, conflict, and_assoc, eq_comm]

inductive Operation where
  | lock (txn : String) (resources : List String)
  | release (txn : String) (resources : List String)
  deriving DecidableEq, Repr

namespace Operation

def named : Operation → List String
  | .lock _ resources => resources
  | .release _ resources => resources

def perform (table : LockTable) : Operation → Option LockAttempt × LockTable
  | .lock txn resources =>
    (some (table.lockAll txn resources).1, (table.lockAll txn resources).2)
  | .release txn resources => (none, table.release txn resources)

end Operation

def performAll (table : LockTable) : List Operation → List (Option LockAttempt) × LockTable
  | [] => ([], table)
  | operation :: rest =>
    ((operation.perform table).1 :: ((operation.perform table).2.performAll rest).1,
      ((operation.perform table).2.performAll rest).2)

theorem conflict?_congr (same : ∀ resource ∈ resources, table.owner? resource = other.owner? resource) :
    table.conflict? txn resources = other.conflict? txn resources := by
  induction resources with
  | nil => rfl
  | cons first rest ih =>
    obtain ⟨here, later⟩ := List.forall_mem_cons.mp same
    simp only [conflict?, here, ih later]

theorem owner?_lockAll (table : LockTable) (txn : String) (resources : List String)
    (resource : String) : (table.lockAll txn resources).2.owner? resource =
      if table.conflict? txn resources = none ∧ resource ∈ resources then some txn
      else table.owner? resource := by
  cases conflict : table.conflict? txn resources with
  | none =>
    simp only [lockAll, conflict, true_and]
    exact owner?_takeAll resources table txn resource
  | some found => simp [lockAll, conflict]

def SameBut (resources : List String) (table other : LockTable) : Prop :=
  ∀ resource, resource ∉ resources → table.owner? resource = other.owner? resource

section Operations

variable {operation : Operation} {operations : List Operation}

theorem SameBut.perform (same : SameBut resources table other)
    (apart : ∀ resource ∈ operation.named, resource ∉ resources) :
    (operation.perform table).1 = (operation.perform other).1 ∧
      SameBut resources (operation.perform table).2 (operation.perform other).2 := by
  cases operation with
  | lock txn named =>
    have conflict : table.conflict? txn named = other.conflict? txn named :=
      conflict?_congr fun resource member => same resource (apart resource member)
    refine ⟨?_, fun resource spared => ?_⟩
    · simp only [Operation.perform, lockAll, conflict]
      cases other.conflict? txn named <;> rfl
    · simp only [Operation.perform, owner?_lockAll, conflict, same resource spared]
  | release txn named =>
    refine ⟨rfl, fun resource spared => ?_⟩
    simp only [Operation.perform, owner?_release, same resource spared]

theorem owner?_perform (apart : resource ∉ operation.named) :
    (operation.perform table).2.owner? resource = table.owner? resource := by
  cases operation with
  | lock txn named =>
    have unnamed : resource ∉ named := apart
    simp [Operation.perform, owner?_lockAll, unnamed]
  | release txn named =>
    have unnamed : resource ∉ named := apart
    simp [Operation.perform, owner?_release, unnamed]

theorem sorted_perform (sorted : table.Sorted) : (operation.perform table).2.Sorted := by
  cases operation with
  | lock txn named => exact sorted_lockAll sorted txn named
  | release txn named => exact sorted_release sorted txn named

theorem SameBut.performAll (same : SameBut resources table other)
    (apart : ∀ operation ∈ operations, ∀ resource ∈ operation.named, resource ∉ resources) :
    (table.performAll operations).1 = (other.performAll operations).1 ∧
      SameBut resources (table.performAll operations).2 (other.performAll operations).2 := by
  induction operations generalizing table other with
  | nil => exact ⟨rfl, same⟩
  | cons operation rest ih =>
    obtain ⟨here, later⟩ := List.forall_mem_cons.mp apart
    obtain ⟨answer, between⟩ := same.perform here
    obtain ⟨answers, after⟩ := ih between later
    exact ⟨by rw [LockTable.performAll, LockTable.performAll, answer, answers], after⟩

theorem owner?_performAll
    (apart : ∀ operation ∈ operations, resource ∉ operation.named) :
    (table.performAll operations).2.owner? resource = table.owner? resource := by
  induction operations generalizing table with
  | nil => rfl
  | cons operation rest ih =>
    obtain ⟨here, later⟩ := List.forall_mem_cons.mp apart
    exact (ih later).trans (owner?_perform here)

theorem sorted_performAll (sorted : table.Sorted) : (table.performAll operations).2.Sorted := by
  induction operations generalizing table with
  | nil => exact sorted
  | cons operation rest ih => exact ih (sorted_perform sorted)

/-- A grant that is released leaves no trace: what others have done to other resources meanwhile was
answered, and stands, as without it. -/
theorem release_undoes (unowned : ∀ resource ∈ resources, table.owner? resource ≠ some txn)
    (granted : table.lockAll txn resources = (.granted, locks))
    (apart : ∀ operation ∈ operations, ∀ resource ∈ operation.named, resource ∉ resources) :
    (locks.performAll operations).1 = (table.performAll operations).1 ∧
      ∀ resource, ((locks.performAll operations).2.release txn resources).owner? resource =
        (table.performAll operations).2.owner? resource := by
  have owners := owner?_granted granted
  have same : SameBut resources locks table := fun resource unlisted => by
    rw [owners, if_neg unlisted]
  obtain ⟨answers, after⟩ := same.performAll apart
  refine ⟨answers, fun resource => ?_⟩
  rw [owner?_release]
  by_cases listed : resource ∈ resources
  · have unnamed : ∀ operation ∈ operations, resource ∉ operation.named :=
      fun operation member named => apart operation member resource named listed
    have free : table.owner? resource = none := by
      cases owned : table.owner? resource with
      | none => rfl
      | some holder =>
        have own := (granted_iff.mp granted).1 resource listed holder owned
        exact absurd (own ▸ owned) (unowned resource listed)
    rw [owner?_performAll unnamed, owner?_performAll unnamed, owners, free, if_pos listed,
      if_pos ⟨listed, rfl⟩]
  · rw [if_neg (fun both => listed both.1), after resource listed]

end Operations

/-- An attempt takes all that is listed or, if another transaction owns some of it, nothing; it then tells
the first such resource. A release gives back what is listed and owned. After a grant it leaves the
table as it would be without the grant. -/
theorem granted_all_or_none_and_undone (table : LockTable) (txn : String) (resources : List String) :
    (∀ resource holder locks, table.lockAll txn resources = (.conflict resource holder, locks) ↔
      table.FirstTaken txn resources resource holder ∧ locks = table) ∧
    (∀ locks, table.lockAll txn resources = (.granted, locks) →
      (∀ resource holder, ¬ table.FirstTaken txn resources resource holder) ∧
      ∀ resource, locks.owner? resource =
        if resource ∈ resources then some txn else table.owner? resource) ∧
    (∀ resource, (table.release txn resources).owner? resource =
      if resource ∈ resources ∧ table.owner? resource = some txn then none
      else table.owner? resource) ∧
    ∀ locks operations, (∀ resource ∈ resources, table.owner? resource ≠ some txn) →
      table.lockAll txn resources = (.granted, locks) →
      (∀ operation ∈ operations, ∀ resource ∈ operation.named, resource ∉ resources) →
      (locks.performAll operations).1 = (table.performAll operations).1 ∧
      (∀ resource, ((locks.performAll operations).2.release txn resources).owner? resource =
        (table.performAll operations).2.owner? resource) ∧
      (table.Sorted → (locks.performAll operations).2.release txn resources =
        (table.performAll operations).2) := by
  refine ⟨fun resource holder locks => refused_iff,
    fun locks granted => ⟨fun resource holder taken => ?_, owner?_granted granted⟩,
    owner?_release resources table txn, fun locks operations unowned granted apart => ?_⟩
  · have refused := refused_iff.mpr ⟨taken, rfl⟩
    cases granted.symm.trans refused
  · obtain ⟨answers, owners⟩ := release_undoes unowned granted apart
    refine ⟨answers, owners, fun sorted => ?_⟩
    have sortedLocks : locks.Sorted := by
      have kept := sorted_lockAll sorted txn resources
      rwa [granted] at kept
    exact (sorted_release (sorted_performAll sortedLocks) txn resources).ext
      (sorted_performAll sorted) owners

/-- Others get and give back locks while two are held; one of them wants what it cannot have. -/
theorem undone_among_others :
    let table : LockTable := ⟨⟨[("b", "y")]⟩⟩
    let operations : List Operation :=
      [.lock "u" ["d", "b"], .lock "u" ["d"], .release "y" ["b"], .lock "y" ["e", "b"]]
    table.lockAll "t" ["c", "a", "c"] = (.granted, ⟨⟨[("a", "t"), ("b", "y"), ("c", "t")]⟩⟩) ∧
    (performAll ⟨⟨[("a", "t"), ("b", "y"), ("c", "t")]⟩⟩ operations).2.release "t" ["c", "a", "c"] =
      (table.performAll operations).2 ∧
    (table.performAll operations).1 =
      [some (.conflict "b" "y"), some .granted, none, some .granted] ∧
    (table.performAll operations).2 = ⟨⟨[("b", "y"), ("d", "u"), ("e", "y")]⟩⟩ := by
  intro table operations
  have sorted : table.Sorted := List.pairwise_singleton _ _
  have granted : table.lockAll "t" ["c", "a", "c"] =
      (.granted, ⟨⟨[("a", "t"), ("b", "y"), ("c", "t")]⟩⟩) := by decide +kernel
  obtain ⟨_, _, undone⟩ := (granted_all_or_none_and_undone table "t" ["c", "a", "c"]).2.2.2 _ operations
    (by decide +kernel) granted (by decide +kernel)
  exact ⟨granted, undone sorted, by decide +kernel, by decide +kernel⟩

end AtomicCommit.LockTable
