import AtomicCommit.Proofs.Cluster.Frame
import AtomicCommit.Proofs.Inboxes

/-! The engines of a coordinator in a cluster and the inboxes that they hold, whatever else goes on. -/

namespace AtomicCommit.Cluster

open Coordinator (Transaction Stage)

def Job.engineOf? (incarnation : Nat) : Job → Option (Nat × Transaction × Stage)
  | .engine coordinator inbox t stage =>
    if coordinator = incarnation then some (inbox, t, stage) else none
  | _ => none

def engine? (c : Cluster) (incarnation task : Nat) : Option (Nat × Transaction × Stage) :=
  (c.job? task).bind (Job.engineOf? incarnation)

def inboxes? (c : Cluster) (incarnation : Nat) : Option (Inboxes Envelope) :=
  (c.coordinators.get? incarnation).map (·.inboxes)

structure Orderly (c : Cluster) : Prop where
  numbered : c.Numbered
  sorted : c.tasks.Sorted

structure Tended (c : Cluster) (incarnation : Nat) (inboxes : Inboxes Envelope) : Prop where
  routed : ∀ txn number, inboxes.routes.get? txn = some number →
    ∃ task t stage, c.engine? incarnation task = some (number, t, stage) ∧ t.name = txn
  reaches : ∀ task number t stage, c.engine? incarnation task = some (number, t, stage) →
    inboxes.Reaches t.name number
  single : ∀ task other number t u stage later, c.engine? incarnation task = some (number, t, stage) →
    c.engine? incarnation other = some (number, u, later) → task = other

section Engines

variable {c c' : Cluster} {i task number : Nat} {t : Transaction} {stage : Stage} {job : Job}

theorem engine?_eq_some : c.engine? i task = some (number, t, stage) ↔
    c.job? task = some (.engine i number t stage) := by
  rw [engine?, Option.bind_eq_some_iff]
  constructor
  · rintro ⟨job, there, found⟩
    cases job with
    | engine j inbox u other =>
      simp only [Job.engineOf?, Option.ite_none_right_eq_some, Option.some.injEq,
        Prod.mk.injEq] at found
      obtain ⟨rfl, rfl, rfl, rfl⟩ := found
      exact there
    | worker | voteCall | commitCall => cases found
  · intro there
    exact ⟨_, there, by simp [Job.engineOf?]⟩

theorem engine?_of_job (there : c.job? task = some job) : c.engine? i task = job.engineOf? i := by
  rw [engine?, there, Option.bind_some]

@[simp] theorem engine?_setJob (c : Cluster) (task other : Nat) (job : Job) :
    (c.setJob task job).engine? i other =
      if other = task then job.engineOf? i else c.engine? i other := by
  simp only [engine?, job?_setJob]
  split <;> rfl

@[simp] theorem engine?_removeJob (c : Cluster) (task other : Nat) :
    (c.removeJob task).engine? i other = if other = task then none else c.engine? i other := by
  simp only [engine?, job?_removeJob]
  split <;> rfl

theorem engine?_spawn (c : Cluster) (job : Job) (other : Nat) :
    (c.spawn job).2.engine? i other =
      if other = c.next then job.engineOf? i else c.engine? i other := by
  simp only [engine?, job?_spawn]
  split <;> rfl

theorem Orderly.setJob (orderly : c.Orderly) (there : (c.job? task).isSome) (job : Job) :
    (c.setJob task job).Orderly := by
  refine ⟨fun other found => ?_, Table.sorted_insert orderly.sorted _ _⟩
  rw [job?_setJob] at found
  split at found
  next same => exact same ▸ orderly.numbered task there
  next => exact orderly.numbered other found

theorem Orderly.removeJob (orderly : c.Orderly) (task : Nat) : (c.removeJob task).Orderly := by
  refine ⟨fun other found => ?_, Table.sorted_erase orderly.sorted _⟩
  rw [job?_removeJob] at found
  split at found
  · cases found
  · exact orderly.numbered other found

theorem Orderly.spawn (orderly : c.Orderly) (job : Job) : (c.spawn job).2.Orderly := by
  refine ⟨fun other found => ?_, Table.sorted_insert orderly.sorted _ _⟩
  rw [job?_spawn] at found
  split at found
  next same => exact same ▸ Nat.lt_succ_self _
  next => exact Nat.lt_succ_of_lt (orderly.numbered other found)

theorem Orderly.elsewhere (orderly : c.Orderly) (tasks : c'.tasks = c.tasks) (next : c.next ≤ c'.next) :
    c'.Orderly := by
  refine ⟨fun task there => ?_, tasks ▸ orderly.sorted⟩
  rw [job?, tasks] at there
  exact Nat.lt_of_lt_of_le (orderly.numbered task there) next

theorem Orderly.unused (orderly : c.Orderly) : c.job? c.next = none := by
  cases found : c.job? c.next with
  | none => rfl
  | some job => exact absurd (orderly.numbered c.next (by simp [found])) (Nat.lt_irrefl _)

theorem mem_tasksWith (orderly : c.Orderly) (test : Job → Bool) :
    task ∈ c.tasksWith test ↔ ∃ job, c.job? task = some job ∧ test job := by
  simp only [tasksWith, List.mem_map, List.mem_filter, job?, Option.map_eq_some_iff,
    Prod.exists, exists_and_right, exists_eq_right]
  constructor
  · rintro ⟨entry, listed, passed⟩
    exact ⟨entry.job, ⟨entry, (Table.get?_eq_some orderly.sorted _ _).mpr listed, rfl⟩, passed⟩
  · rintro ⟨_, ⟨entry, found, rfl⟩, passed⟩
    exact ⟨entry, (Table.get?_eq_some orderly.sorted _ _).mp found, passed⟩

end Engines

namespace Tended

variable {c c' : Cluster} {i task number : Nat} {t : Transaction} {stage : Stage}
  {inboxes after : Inboxes Envelope}

theorem congr (tended : Tended c i inboxes)
    (same : ∀ task, c'.engine? i task = c.engine? i task) : Tended c' i inboxes := by
  obtain ⟨routed, reaches, single⟩ := tended
  constructor <;> simpa only [same]

theorem deliver (tended : Tended c i inboxes) (txn : String) (envelope : Envelope) :
    Tended c i (inboxes.deliver txn envelope).2 where
  routed := by
    rw [Inboxes.routes_deliver]
    exact tended.routed
  reaches task number t stage there := (tended.reaches task number t stage there).deliver _ _
  single := tended.single

theorem setQueue (tended : Tended c i inboxes) (number : Nat) (queue : List Envelope) :
    Tended c i (inboxes.setQueue number queue) where
  routed := tended.routed
  reaches task number t stage there := (tended.reaches task number t stage there).setQueue _ _
  single := tended.single

theorem goOn (tended : Tended c i inboxes) (later : Stage)
    (there : c.engine? i task = some (number, t, stage)) (now : ∀ other, c'.engine? i other =
      if other = task then some (number, t, later) else c.engine? i other) : Tended c' i inboxes := by
  have former : ∀ {other place u last}, c'.engine? i other = some (place, u, last) →
      ∃ stage, c.engine? i other = some (place, u, stage) := by
    intro other place u last found
    rw [now] at found
    split at found
    next same =>
      cases found
      exact ⟨stage, same ▸ there⟩
    next => exact ⟨last, found⟩
  constructor
  · intro txn place route
    obtain ⟨other, u, last, found, named⟩ := tended.routed txn place route
    by_cases same : other = task
    · subst same
      cases there.symm.trans found
      exact ⟨other, t, later, by rw [now, if_pos rfl], named⟩
    · exact ⟨other, u, last, by rw [now, if_neg same, found], named⟩
  · intro other place u last found
    obtain ⟨_, before⟩ := former found
    exact tended.reaches _ _ _ _ before
  · intro one two place u v last lastToo found foundToo
    obtain ⟨_, before⟩ := former found
    obtain ⟨_, beforeToo⟩ := former foundToo
    exact tended.single _ _ _ _ _ _ _ before beforeToo

theorem leave (tended : Tended c i inboxes) (there : c.engine? i task = some (number, t, stage))
    (now : ∀ other, c'.engine? i other = if other = task then none else c.engine? i other) :
    Tended c' i (inboxes.drop number) := by
  have owned := tended.reaches _ _ _ _ there
  have former : ∀ {other place u last}, c'.engine? i other = some (place, u, last) →
      other ≠ task ∧ c.engine? i other = some (place, u, last) := by
    intro other place u last found
    rwa [now, Option.ite_none_left_eq_some] at found
  constructor
  · intro txn place route
    rw [owned.routes_drop, Table.get?_erase, Option.ite_none_left_eq_some] at route
    obtain ⟨other, u, last, found, rfl⟩ := tended.routed txn place route.2
    refine ⟨other, u, last, ?_, rfl⟩
    rw [now, if_neg, found]
    rintro rfl
    cases there.symm.trans found
    exact route.1 rfl
  · intro other place u last found
    obtain ⟨distinct, before⟩ := former found
    have reaches := tended.reaches _ _ _ _ before
    refine reaches.drop owned fun same => distinct ?_
    obtain rfl : place = number := by
      have route := reaches.route
      rw [same, owned.route] at route
      exact (Option.some.inj route).symm
    exact tended.single _ _ _ _ _ _ _ before there
  · intro one two place u v last lastToo found foundToo
    exact tended.single _ _ _ _ _ _ _ (former found).2 (former foundToo).2

theorem launch (tended : Tended c i inboxes) (stage : Stage) (unused : c.engine? i task = none)
    (created : inboxes.create t.name = some (number, after)) (now : ∀ other, c'.engine? i other =
      if other = task then some (number, t, stage) else c.engine? i other) : Tended c' i after := by
  have own := Inboxes.reaches_created created
  have old : ∀ {other place u last}, c.engine? i other = some (place, u, last) →
      after.Reaches u.name place ∧ u.name ≠ t.name := fun found =>
    have reaches := tended.reaches _ _ _ _ found
    ⟨reaches.create created, reaches.ne_of_create created⟩
  have cases : ∀ {other place u last}, c'.engine? i other = some (place, u, last) →
      other = task ∧ place = number ∧ u = t ∨ c.engine? i other = some (place, u, last) := by
    intro other place u last found
    rw [now] at found
    split at found
    next same =>
      cases found
      exact .inl ⟨same, rfl, rfl⟩
    next => exact .inr found
  constructor
  · intro txn place route
    rw [Inboxes.routes_create created, Table.get?_insert] at route
    split at route
    next same =>
      cases route
      exact ⟨task, t, stage, by rw [now, if_pos rfl], same.symm⟩
    next =>
      obtain ⟨other, u, last, found, named⟩ := tended.routed txn place route
      refine ⟨other, u, last, ?_, named⟩
      rw [now, if_neg, found]
      rintro rfl
      cases unused.symm.trans found
  · intro other place u last found
    rcases cases found with ⟨-, rfl, rfl⟩ | before
    · exact own
    · exact (old before).1
  · -- The new inbox is nobody else's.
    have apart : ∀ {other u last}, c.engine? i other ≠ some (number, u, last) := by
      intro other u last found
      obtain ⟨queue, box⟩ := (old found).1.inbox
      obtain ⟨ownQueue, ownBox⟩ := own.inbox
      exact (old found).2 (congrArg Inbox.txn (Option.some.inj (box.symm.trans ownBox)))
    intro one two place u v last lastToo found foundToo
    rcases cases found with ⟨rfl, rfl, -⟩ | before <;>
      rcases cases foundToo with ⟨rfl, same, -⟩ | beforeToo
    · rfl
    · exact absurd beforeToo apart
    · subst same
      exact absurd before apart
    · exact tended.single _ _ _ _ _ _ _ before beforeToo

end Tended

end AtomicCommit.Cluster
