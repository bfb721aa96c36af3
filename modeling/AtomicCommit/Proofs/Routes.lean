import AtomicCommit.Proofs.Queues

/-! Inboxes whose holders close them before they let go: a route for each inbox, and an inbox for each
route. -/

namespace AtomicCommit

namespace Inboxes

structure Paired {α : Type} (t : Inboxes α) : Prop where
  route_iff : ∀ txn number, t.routes.get? txn = some number ↔
    ∃ queue, t.inboxes.get? number = some ⟨txn, queue⟩
  known : ∀ number inbox, t.inboxes.get? number = some inbox → number < t.next

def queued {α : Type} (t : Inboxes α) (txn : String) : List α :=
  match t.routes.get? txn with
  | none => []
  | some number => t.queue number

section Paired

variable {α : Type} {t : Inboxes α} {txn : String} {number : Nat} {queue : List α}

theorem queue_of_inbox (there : t.inboxes.get? number = some ⟨txn, queue⟩) :
    t.queue number = queue := by
  rw [Inboxes.queue, there]

theorem Paired.queued_of_inbox (paired : t.Paired)
    (there : t.inboxes.get? number = some ⟨txn, queue⟩) : t.queued txn = queue := by
  rw [queued, (paired.route_iff txn number).mpr ⟨queue, there⟩]
  exact queue_of_inbox there

theorem Paired.named (paired : t.Paired) : t.Named :=
  fun txn number route => (paired.route_iff txn number).mp route

theorem Paired.elsewhere (paired : t.Paired) (there : t.inboxes.get? number = some ⟨txn, queue⟩)
    {other : String} {place : Nat} (distinct : other ≠ txn)
    (route : t.routes.get? other = some place) : place ≠ number := by
  rintro rfl
  obtain ⟨messages, found⟩ := paired.named other place route
  cases there.symm.trans found
  exact distinct rfl

theorem paired_empty : ({} : Inboxes α).Paired := ⟨by simp, by simp⟩

def created (t : Inboxes α) (txn : String) : Inboxes α where
  routes := t.routes.insert txn t.next
  inboxes := t.inboxes.insert t.next ⟨txn, []⟩
  next := t.next + 1

theorem create_of_unrouted (unrouted : t.routes.get? txn = none) :
    t.create txn = some (t.next, t.created txn) := by
  simp [create, has, Table.contains, unrouted, created]

theorem create_of_routed (route : t.routes.get? txn = some number) : t.create txn = none := by
  simp [create, has, Table.contains, route]

theorem Paired.created (paired : t.Paired) (unrouted : t.routes.get? txn = none) :
    (t.created txn).Paired := by
  have unused : t.inboxes.get? t.next = none := by
    cases found : t.inboxes.get? t.next with
    | none => rfl
    | some inbox => exact absurd (paired.known _ _ found) (Nat.lt_irrefl _)
  constructor
  · intro other place
    simp only [Inboxes.created, Table.get?_insert]
    by_cases same : other = txn
    · subst same
      by_cases here : place = t.next
      · simp [here]
      · have nowhere : ¬ ∃ queue, t.inboxes.get? place = some ⟨other, queue⟩ := by
          rw [← paired.route_iff, unrouted]
          simp
        simpa [here, Ne.symm here] using nowhere
    · by_cases here : place = t.next
      · subst here
        have elsewhere : t.routes.get? other ≠ some t.next := by
          rw [Ne, paired.route_iff, unused]
          simp
        simpa [same, Ne.symm same] using elsewhere
      · simpa [same, here] using paired.route_iff other place
  · intro place inbox found
    simp only [Inboxes.created, Table.get?_insert] at found ⊢
    split at found
    next here => exact here ▸ Nat.lt_succ_self _
    next => exact Nat.lt_succ_of_lt (paired.known place inbox found)

theorem Paired.queued_created (paired : t.Paired) (unrouted : t.routes.get? txn = none)
    (other : String) : (t.created txn).queued other = t.queued other := by
  simp only [queued, Inboxes.created, Table.get?_insert]
  by_cases same : other = txn
  · simp [same, unrouted, Inboxes.queue]
  · simp only [same, if_false]
    cases route : t.routes.get? other with
    | none => rfl
    | some place =>
      obtain ⟨queue, there⟩ := paired.named other place route
      have known := paired.known place _ there
      simp [Inboxes.queue, Nat.ne_of_lt known]

def withQueue (t : Inboxes α) (number : Nat) (txn : String) (queue : List α) : Inboxes α :=
  { t with inboxes := t.inboxes.insert number ⟨txn, queue⟩ }

theorem Paired.withQueue (paired : t.Paired) (there : t.inboxes.get? number = some ⟨txn, queue⟩)
    (messages : List α) : (t.withQueue number txn messages).Paired := by
  constructor
  · intro other place
    simp only [Inboxes.withQueue, Table.get?_insert, paired.route_iff]
    split
    next same => simp [same, there]
    next => exact Iff.rfl
  · intro place inbox found
    simp only [Inboxes.withQueue, Table.get?_insert] at found
    split at found
    next same => exact same ▸ paired.known number _ there
    next => exact paired.known place inbox found

theorem Paired.queued_withQueue (paired : t.Paired)
    (there : t.inboxes.get? number = some ⟨txn, queue⟩) (messages : List α) (other : String) :
    (t.withQueue number txn messages).queued other =
      if other = txn then messages else t.queued other := by
  split
  next same =>
    subst same
    have placed : (t.withQueue number other messages).inboxes.get? number = some ⟨other, messages⟩ := by
      simp [Inboxes.withQueue]
    exact (paired.withQueue there messages).queued_of_inbox placed
  next distinct =>
    simp only [queued, Inboxes.withQueue]
    cases route : t.routes.get? other with
    | none => rfl
    | some place => simp [Inboxes.queue, paired.elsewhere there distinct route]

theorem Paired.deliver_eq (paired : t.Paired)
    (there : t.inboxes.get? number = some ⟨txn, queue⟩) (message : α) :
    t.deliver txn message = (.ok number, t.withQueue number txn (queue ++ [message])) := by
  simp only [deliver, (paired.route_iff txn number).mpr ⟨queue, there⟩, there]
  rfl

theorem receive_eq {message : α} (there : t.inboxes.get? number = some ⟨txn, message :: queue⟩) :
    t.receive number = (some message, t.withQueue number txn queue) :=
  receive_cons there

theorem of_receive_some {message : α} {after : Inboxes α}
    (there : t.inboxes.get? number = some ⟨txn, queue⟩)
    (received : t.receive number = (some message, after)) :
    ∃ rest, queue = message :: rest ∧ after = t.withQueue number txn rest := by
  cases queue with
  | nil =>
    rw [receive_nil there] at received
    cases received
  | cons first rest =>
    rw [receive_eq there] at received
    cases received
    exact ⟨rest, rfl, rfl⟩

theorem of_receive_none {after : Inboxes α} (there : t.inboxes.get? number = some ⟨txn, queue⟩)
    (received : t.receive number = (none, after)) : queue = [] := by
  cases queue with
  | nil => rfl
  | cons first rest =>
    rw [receive_eq there] at received
    cases received

def without (t : Inboxes α) (number : Nat) (txn : String) : Inboxes α :=
  { t with routes := t.routes.erase txn, inboxes := t.inboxes.erase number }

theorem Paired.close_eq (paired : t.Paired) (there : t.inboxes.get? number = some ⟨txn, queue⟩) :
    t.close number = (queue, t.without number txn) := by
  rw [close_of_inbox paired.named there]
  simp [unregister, there, (paired.route_iff txn number).mpr ⟨queue, there⟩, without]

theorem Paired.without (paired : t.Paired) (there : t.inboxes.get? number = some ⟨txn, queue⟩) :
    (t.without number txn).Paired := by
  constructor
  · intro other place
    simp only [Inboxes.without, Table.get?_erase]
    by_cases same : other = txn
    · subst same
      by_cases here : place = number
      · simp [here]
      · have elsewhere : ¬ ∃ queue, t.inboxes.get? place = some ⟨other, queue⟩ := by
          rw [← paired.route_iff, (paired.route_iff other number).mpr ⟨queue, there⟩]
          simpa using Ne.symm here
        simpa [here] using elsewhere
    · by_cases here : place = number
      · subst here
        have elsewhere : t.routes.get? other ≠ some place := by
          rw [Ne, paired.route_iff, there]
          simpa using Ne.symm same
        simpa [same] using elsewhere
      · simpa [same, here] using paired.route_iff other place
  · intro place inbox found
    simp only [Inboxes.without, Table.get?_erase, Option.ite_none_left_eq_some] at found
    exact paired.known place inbox found.2

theorem Paired.queued_without (paired : t.Paired)
    (there : t.inboxes.get? number = some ⟨txn, queue⟩) (other : String) :
    (t.without number txn).queued other = if other = txn then [] else t.queued other := by
  simp only [queued, Inboxes.without, Table.get?_erase]
  by_cases distinct : other = txn
  · simp [distinct]
  · simp only [distinct, if_false]
    cases route : t.routes.get? other with
    | none => rfl
    | some place => simp [Inboxes.queue, paired.elsewhere there distinct route]

end Paired

end Inboxes

end AtomicCommit
