import AtomicCommit.Inboxes
import AtomicCommit.Proofs.Tables

/-! Which inbox a transaction reaches, and what the operations on inboxes do to the others. -/

namespace AtomicCommit.Inboxes

variable {α : Type} {t after : Inboxes α} {txn other : String} {number place : Nat}

structure Reaches (t : Inboxes α) (txn : String) (number : Nat) : Prop where
  route : t.routes.get? txn = some number
  inbox : ∃ queue, t.inboxes.get? number = some ⟨txn, queue⟩
  known : number < t.next

theorem Reaches.ne_of_create (reaches : t.Reaches other place)
    (created : t.create txn = some (number, after)) : other ≠ txn := by
  rintro rfl
  simp [create, has, Table.contains, reaches.route] at created

theorem Reaches.apart (reaches : t.Reaches other place) (owned : t.Reaches txn number)
    (distinct : other ≠ txn) : place ≠ number := by
  rintro rfl
  obtain ⟨queue, inbox⟩ := reaches.inbox
  obtain ⟨messages, box⟩ := owned.inbox
  exact distinct (congrArg Inbox.txn (Option.some.inj (inbox.symm.trans box)))

theorem reaches_created (created : t.create txn = some (number, after)) :
    after.Reaches txn number := by
  simp only [create] at created
  split at created
  · cases created
  · cases created
    exact ⟨by simp, ⟨[], by simp⟩, by simp⟩

theorem create_of_free (free : t.has txn = false) :
    ∃ after, t.create txn = some (t.next, after) ∧
      ∀ other, other ≠ txn → after.has other = t.has other := by
  simp only [create, free]
  refine ⟨_, rfl, fun other distinct => ?_⟩
  simp [has, Table.contains, distinct]

theorem Reaches.create (reaches : t.Reaches other place)
    (created : t.create txn = some (number, after)) : after.Reaches other place := by
  have distinct := reaches.ne_of_create created
  obtain ⟨route, ⟨queue, inbox⟩, known⟩ := reaches
  simp only [Inboxes.create] at created
  split at created
  · cases created
  · cases created
    exact ⟨by simp [distinct, route], ⟨queue, by simp [Nat.ne_of_lt known, inbox]⟩,
      Nat.lt_succ_of_lt known⟩

theorem Reaches.deliver (reaches : t.Reaches other place) (txn : String) (message : α) :
    (t.deliver txn message).2.Reaches other place := by
  obtain ⟨route, ⟨queue, inbox⟩, known⟩ := reaches
  simp only [Inboxes.deliver]
  split
  · exact ⟨route, ⟨queue, inbox⟩, known⟩
  split
  · exact ⟨route, ⟨queue, inbox⟩, known⟩
  next target _ _ box found =>
    refine ⟨route, ?_, known⟩
    by_cases same : place = target
    · subst same
      obtain rfl : box = ⟨other, queue⟩ := by simpa [inbox] using found.symm
      exact ⟨queue ++ [message], by simp⟩
    · exact ⟨queue, by simp [same, inbox]⟩

theorem Reaches.setQueue (reaches : t.Reaches other place) (number : Nat) (messages : List α) :
    (t.setQueue number messages).Reaches other place := by
  obtain ⟨route, ⟨queue, inbox⟩, known⟩ := reaches
  refine ⟨route, ?_, known⟩
  by_cases same : place = number
  · subst same
    exact ⟨messages, by simp [Inboxes.setQueue, inbox]⟩
  · exact ⟨queue, by simp [Inboxes.setQueue, same, inbox]⟩

theorem Reaches.drop (reaches : t.Reaches other place) (owned : t.Reaches txn number)
    (distinct : other ≠ txn) : (t.drop number).Reaches other place := by
  have apart := reaches.apart owned distinct
  obtain ⟨route, ⟨queue, inbox⟩, known⟩ := reaches
  obtain ⟨own, ⟨messages, box⟩, _⟩ := owned
  simp only [Inboxes.drop, unregister, box, own, if_true]
  exact ⟨by simp [distinct, route], ⟨queue, by simp [apart, inbox]⟩, known⟩

theorem routes_create (created : t.create txn = some (number, after)) :
    after.routes = t.routes.insert txn number := by
  simp only [create] at created
  split at created
  · cases created
  · cases created
    rfl

theorem create_eq_none : t.create txn = none ↔ txn ∈ t.transactions := by
  rw [transactions, ← Table.contains_iff]
  by_cases taken : t.routes.contains txn <;> simp [create, has, taken]

theorem create_of_absent (absent : txn ∉ t.transactions) :
    ∃ number after, t.create txn = some (number, after) := by
  obtain ⟨⟨number, after⟩, created⟩ := Option.ne_none_iff_exists'.mp (mt create_eq_none.mp absent)
  exact ⟨number, after, created⟩

theorem has_of_empty (empty : t.transactions = []) (txn : String) : t.has txn = false := by
  have keys : t.routes.keys = [] := empty
  rw [has, Bool.eq_false_iff, Ne, Table.contains_iff, keys]
  exact List.not_mem_nil

theorem routes_deliver (t : Inboxes α) (txn : String) (message : α) :
    (t.deliver txn message).2.routes = t.routes := by
  simp only [deliver]
  split
  · rfl
  split <;> rfl

theorem Reaches.routes_drop (reaches : t.Reaches txn number) :
    (t.drop number).routes = t.routes.erase txn := by
  obtain ⟨route, ⟨queue, inbox⟩, _⟩ := reaches
  simp [Inboxes.drop, unregister, inbox, route]

section Queues

theorem queue_created (created : t.create txn = some (number, after)) : after.queue number = [] := by
  simp only [create] at created
  split at created
  · cases created
  · cases created
    simp [queue]

theorem Reaches.queue_create (reaches : t.Reaches other place)
    (created : t.create txn = some (number, after)) : after.queue place = t.queue place := by
  simp only [Inboxes.create] at created
  split at created
  · cases created
  · cases created
    simp [queue, Nat.ne_of_lt reaches.known]

theorem Reaches.queue_deliver (reaches : t.Reaches other place)
    (owned : ∀ number, t.routes.get? txn = some number → t.Reaches txn number) (message : α) :
    (t.deliver txn message).2.queue place =
      if other = txn then t.queue place ++ [message] else t.queue place := by
  simp only [Inboxes.deliver]
  split
  next absent =>
    rw [if_neg]
    rintro rfl
    cases absent.symm.trans reaches.route
  next target found =>
    obtain ⟨messages, box⟩ := (owned target found).inbox
    simp only [box, Inboxes.queue, Table.get?_insert]
    by_cases same : other = txn
    · subst same
      obtain rfl : place = target := Option.some.inj (reaches.route.symm.trans found)
      simp [box]
    · simp [same, reaches.apart (owned target found) same]

theorem Reaches.queue_setQueue (reaches : t.Reaches other place) (number : Nat) (messages : List α) :
    (t.setQueue number messages).queue place =
      if place = number then messages else t.queue place := by
  obtain ⟨queue, inbox⟩ := reaches.inbox
  simp only [Inboxes.queue, Inboxes.setQueue, Table.get?_adjust]
  by_cases same : place = number
  · subst same
    simp [inbox]
  · simp [same, inbox]

theorem Reaches.queue_drop (reaches : t.Reaches other place) (owned : t.Reaches txn number)
    (distinct : other ≠ txn) : (t.drop number).queue place = t.queue place := by
  have apart := reaches.apart owned distinct
  obtain ⟨messages, box⟩ := owned.inbox
  simp [Inboxes.drop, unregister, box, owned.route, Inboxes.queue, apart]

end Queues

structure Tidy (t : Inboxes α) (right : String → α → Prop) : Prop where
  known : ∀ txn number, t.routes.get? txn = some number → number < t.next
  named : ∀ txn number inbox, t.routes.get? txn = some number → t.inboxes.get? number = some inbox →
    inbox.txn = txn
  queued : ∀ number inbox, t.inboxes.get? number = some inbox → ∀ message ∈ inbox.queue,
    right inbox.txn message

namespace Tidy

variable {right : String → α → Prop}

theorem empty (right : String → α → Prop) : ({} : Inboxes α).Tidy right :=
  ⟨by simp, by simp, by simp⟩

theorem imp {wrong : String → α → Prop} (tidy : t.Tidy right)
    (weaker : ∀ txn message, right txn message → wrong txn message) : t.Tidy wrong :=
  ⟨tidy.known, tidy.named, fun number inbox found message member =>
    weaker _ _ (tidy.queued number inbox found message member)⟩

theorem create (tidy : t.Tidy right) (created : t.create txn = some (number, after)) :
    after.Tidy right := by
  simp only [Inboxes.create] at created
  split at created
  · cases created
  · cases created
    constructor
    · intro name place route
      simp only [Table.get?_insert] at route
      split at route
      · cases route
        exact Nat.lt_succ_self _
      · exact Nat.lt_succ_of_lt (tidy.known name place route)
    · intro name place inbox route found
      simp only [Table.get?_insert] at route found
      split at route
      next same =>
        cases route
        obtain rfl : ⟨txn, []⟩ = inbox := by simpa using found
        exact same.symm
      next =>
        have old := tidy.known name place route
        rw [if_neg (Nat.ne_of_lt old)] at found
        exact tidy.named name place inbox route found
    · intro place inbox found message member
      simp only [Table.get?_insert] at found
      split at found
      · cases found
        cases member
      · exact tidy.queued place inbox found message member

theorem deliver (tidy : t.Tidy right) {message : α} (fits : right txn message) :
    (t.deliver txn message).2.Tidy right := by
  simp only [Inboxes.deliver]
  split
  · exact tidy
  next number route =>
    split
    · exact tidy
    next box found =>
      obtain rfl := tidy.named txn number box route found
      constructor
      · exact tidy.known
      · intro name place inbox route there
        simp only [Table.get?_insert] at there
        split at there
        next same =>
          cases there
          exact tidy.named name number box (same ▸ route) found
        next => exact tidy.named name place inbox route there
      · intro place inbox there other member
        simp only [Table.get?_insert] at there
        split at there
        · cases there
          rcases List.mem_append.mp member with old | new
          · exact tidy.queued number box found other old
          · obtain rfl := List.mem_singleton.mp new
            exact fits
        · exact tidy.queued place inbox there other member

theorem setQueue (tidy : t.Tidy right) {queue : List α} (fewer : queue ⊆ t.queue number) :
    (t.setQueue number queue).Tidy right := by
  have changed : ∀ place inbox, (t.setQueue number queue).inboxes.get? place = some inbox →
      ∃ former, t.inboxes.get? place = some former ∧ inbox.txn = former.txn ∧
        inbox.queue ⊆ former.queue := by
    intro place inbox found
    simp only [Inboxes.setQueue, Table.get?_adjust] at found
    split at found
    next same =>
      subst same
      obtain ⟨former, there, rfl⟩ := Option.map_eq_some_iff.mp found
      exact ⟨former, there, rfl, by simpa [Inboxes.queue, there] using fewer⟩
    next => exact ⟨inbox, found, rfl, fun _ => id⟩
  constructor
  · exact tidy.known
  · intro name place inbox route found
    obtain ⟨former, there, named, _⟩ := changed place inbox found
    exact named.trans (tidy.named name place former route there)
  · intro place inbox found message member
    obtain ⟨former, there, named, part⟩ := changed place inbox found
    exact named ▸ tidy.queued place former there message (part member)

theorem drop (tidy : t.Tidy right) (number : Nat) : (t.drop number).Tidy right := by
  have routes : ∀ name place, (t.drop number).routes.get? name = some place →
      t.routes.get? name = some place := by
    intro name place route
    simp only [Inboxes.drop, unregister] at route
    split at route
    · split at route
      · simp only [Table.get?_erase, Option.ite_none_left_eq_some] at route
        exact route.2
      · exact route
    · exact route
  have inboxes : ∀ place inbox, (t.drop number).inboxes.get? place = some inbox →
      t.inboxes.get? place = some inbox := by
    intro place inbox found
    have same : (t.unregister number).inboxes = t.inboxes := by
      grind [unregister]
    simp only [Inboxes.drop, same, Table.get?_erase, Option.ite_none_left_eq_some] at found
    exact found.2
  have next : (t.drop number).next = t.next := by
    grind [Inboxes.drop, unregister]
  exact ⟨fun name place route => next ▸ tidy.known name place (routes name place route),
    fun name place inbox route found =>
      tidy.named name place inbox (routes name place route) (inboxes place inbox found),
    fun place inbox found => tidy.queued place inbox (inboxes place inbox found)⟩

theorem reached (tidy : t.Tidy right) (reaches : t.Reaches txn number) :
    ∀ message ∈ t.queue number, right txn message := by
  obtain ⟨_, ⟨queue, inbox⟩, _⟩ := reaches
  intro message member
  rw [Inboxes.queue, inbox] at member
  exact tidy.queued number _ inbox message member

end Tidy

end AtomicCommit.Inboxes
