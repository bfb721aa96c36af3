import AtomicCommit.Deeds

/-! Histories: what has happened, in order. Among other things deeds happen, and so a history tells what
has been logged. -/

namespace AtomicCommit

/-- Events of which some are deeds. -/
class Eventful (ε : Type) (ρ : outParam Type) where
  deed : Deed ρ → ε
  deed? : ε → Option (Deed ρ)
  deed?_eq (event : ε) (d : Deed ρ) : deed? event = some d ↔ event = deed d

section Deeds

variable {ε ρ : Type} [Eventful ε ρ]

def deedsOf (history : List ε) : List (Deed ρ) := history.filterMap Eventful.deed?

@[simp] theorem deedsOf_nil : deedsOf ([] : List ε) = [] := rfl

@[simp] theorem deedsOf_append (history events : List ε) :
    deedsOf (history ++ events) = deedsOf history ++ deedsOf events :=
  List.filterMap_append ..

theorem deedsOf_eq_nil {events : List ε} (quiet : ∀ event ∈ events, Eventful.deed? event = none) :
    deedsOf events = [] :=
  List.filterMap_eq_nil_iff.mpr quiet

theorem deedsOf_deeds (deeds : List (Deed ρ)) :
    deedsOf (deeds.map (Eventful.deed : Deed ρ → ε)) = deeds := by
  induction deeds with
  | nil => rfl
  | cons d deeds ih =>
    rw [List.map_cons, deedsOf, List.filterMap_cons_some ((Eventful.deed?_eq _ d).mpr rfl),
      ← deedsOf, ih]

end Deeds

/-- The records that were ever appended to the log. -/
def logged {ε ρ : Type} [Eventful ε ρ] (history : List ε) : List ρ :=
  Deed.records (deedsOf history)

section Logged

variable {ε ρ : Type} [Eventful ε ρ]

@[simp] theorem logged_nil : logged ([] : List ε) = [] := rfl

@[simp] theorem logged_append (history events : List ε) :
    logged (history ++ events) = logged history ++ logged events := by
  simp [logged]

theorem logged_quiet (history : List ε) {event : ε} (quiet : Eventful.deed? event = none) :
    logged (history ++ [event]) = logged history := by
  simp [logged, deedsOf, quiet]

theorem logged_deeds (deeds : List (Deed ρ)) :
    logged (deeds.map (Eventful.deed : Deed ρ → ε)) = Deed.records deeds := by
  rw [logged, deedsOf_deeds]

theorem mem_logged {history : List ε} {record : ρ} :
    record ∈ logged history ↔ Eventful.deed (.appended record) ∈ history := by
  simp only [logged, deedsOf, Deed.mem_records, List.mem_filterMap, Eventful.deed?_eq,
    exists_eq_right]

end Logged

variable {ε : Type}

theorem split_append {history events before after : List ε} {event : ε}
    (split : history ++ events = before ++ event :: after) :
    (∃ more, history = before ++ event :: more ∧ after = more ++ events) ∨
      ∃ more, before = history ++ more ∧ events = more ++ event :: after := by
  rcases List.append_eq_append_iff.mp split with ⟨more, rfl, rest⟩ | ⟨more, rfl, rest⟩
  · exact .inr ⟨more, rfl, rest⟩
  · cases more with
    | nil => exact .inr ⟨[], by simp, by simpa using rest.symm⟩
    | cons first more =>
      obtain ⟨rfl, rfl⟩ : event = first ∧ after = more ++ events := by simpa using rest
      exact .inl ⟨more, rfl, rfl⟩

/-- Each event was allowed by what had happened before it. -/
def Ordered (allowed : List ε → ε → Prop) (history : List ε) : Prop :=
  ∀ before event after, history = before ++ event :: after → allowed before event

theorem Ordered.nil (allowed : List ε → ε → Prop) : Ordered allowed [] := by
  intro before event after split
  simp at split

theorem Ordered.append {allowed : List ε → ε → Prop} {history events : List ε}
    (ordered : Ordered allowed history)
    (new : ∀ before event after, events = before ++ event :: after →
      allowed (history ++ before) event) :
    Ordered allowed (history ++ events) := by
  intro before event after split
  rcases split_append split with ⟨more, old, _⟩ | ⟨more, rfl, rest⟩
  · exact ordered before event more old
  · exact new more event after rest

theorem Ordered.snoc {allowed : List ε → ε → Prop} {history : List ε} {event : ε}
    (ordered : Ordered allowed history) (new : allowed history event) :
    Ordered allowed (history ++ [event]) := by
  apply ordered.append
  intro before other after split
  rcases before with _ | ⟨first, before⟩
  · obtain ⟨rfl, _⟩ := List.cons_eq_cons.mp split
    simpa using new
  · obtain ⟨_, impossible⟩ := List.cons_eq_cons.mp split
    simp at impossible

theorem Ordered.of_append {allowed : List ε → ε → Prop} {history events : List ε}
    (ordered : Ordered allowed (history ++ events)) : Ordered allowed history := by
  rintro before event after rfl
  exact ordered before event (after ++ events) (by simp)

def OrderedFrom (allowed : List ε → ε → Prop) (before : List ε) : List ε → Prop
  | [] => True
  | event :: rest => allowed before event ∧ OrderedFrom allowed (before ++ [event]) rest

theorem orderedFrom_iff {allowed : List ε → ε → Prop} {before history : List ε} :
    OrderedFrom allowed before history ↔ ∀ earlier event after,
      history = earlier ++ event :: after → allowed (before ++ earlier) event := by
  induction history generalizing before with
  | nil => simp [OrderedFrom]
  | cons first rest ih =>
    rw [OrderedFrom, ih]
    constructor
    · rintro ⟨here, later⟩ earlier event after split
      rcases earlier with _ | ⟨_, earlier⟩
      · obtain ⟨rfl, rfl⟩ := List.cons_eq_cons.mp split
        simpa using here
      · obtain ⟨rfl, rfl⟩ := List.cons_eq_cons.mp split
        simpa using later earlier event after rfl
    · intro all
      refine ⟨by simpa using all [] first rest rfl, ?_⟩
      rintro earlier event after rfl
      simpa using all (first :: earlier) event after rfl

instance instDecidableOrderedFrom (allowed : List ε → ε → Prop)
    [∀ before event, Decidable (allowed before event)] :
    ∀ before history, Decidable (OrderedFrom allowed before history)
  | _, [] => .isTrue trivial
  | before, event :: rest =>
    have := instDecidableOrderedFrom allowed (before ++ [event]) rest
    inferInstanceAs (Decidable (allowed before event ∧ OrderedFrom allowed (before ++ [event]) rest))

instance (allowed : List ε → ε → Prop) [∀ before event, Decidable (allowed before event)]
    (history : List ε) : Decidable (Ordered allowed history) :=
  decidable_of_iff (OrderedFrom allowed [] history) (by simp [orderedFrom_iff, Ordered])

theorem orderedFrom_append {allowed : List ε → ε → Prop} {before first second : List ε} :
    OrderedFrom allowed before (first ++ second) ↔
      OrderedFrom allowed before first ∧ OrderedFrom allowed (before ++ first) second := by
  induction first generalizing before with
  | nil => simp [OrderedFrom]
  | cons event rest ih => simp [OrderedFrom, ih, and_assoc]

theorem ordered_append {allowed : List ε → ε → Prop} {history events : List ε} :
    Ordered allowed (history ++ events) ↔
      Ordered allowed history ∧ OrderedFrom allowed history events := by
  have whole : ∀ history, Ordered allowed history ↔ OrderedFrom allowed [] history := by
    simp [orderedFrom_iff, Ordered]
  rw [whole, whole, orderedFrom_append, List.nil_append]

theorem orderedFrom_free {allowed : List ε → ε → Prop} {events : List ε}
    (free : ∀ event ∈ events, ∀ before, allowed before event) (before : List ε) :
    OrderedFrom allowed before events := by
  rw [orderedFrom_iff]
  intro earlier event after split
  exact free event (by simp [split]) _

theorem Ordered.append_free {allowed : List ε → ε → Prop} {history events : List ε}
    (ordered : Ordered allowed history) (free : ∀ event ∈ events, ∀ before, allowed before event) :
    Ordered allowed (history ++ events) :=
  ordered_append.mpr ⟨ordered, orderedFrom_free free history⟩

/-- It has happened, and nothing like the mark after it. -/
def Since (mark : ε) (history : List ε) (event : ε) : Prop :=
  ∃ before after, history = before ++ event :: after ∧ mark ∉ after

namespace Since

variable {mark event : ε} {history events : List ε}

theorem now (mark : ε) (history : List ε) (event : ε) : Since mark (history ++ [event]) event :=
  ⟨history, [], rfl, by simp⟩

theorem later (since : Since mark history event) (unmarked : mark ∉ events) :
    Since mark (history ++ events) event := by
  obtain ⟨before, after, rfl, none⟩ := since
  exact ⟨before, after ++ events, by simp, by simp [none, unmarked]⟩

theorem cases (since : Since mark (history ++ events) event) :
    event ∈ events ∨ Since mark history event ∧ mark ∉ events := by
  obtain ⟨before, after, split, none⟩ := since
  rcases List.append_eq_append_iff.mp split with ⟨more, _, rest⟩ | ⟨more, old, rest⟩
  · exact .inl (by simp [rest])
  · rcases more with _ | ⟨first, more⟩
    · rw [List.nil_append] at rest
      exact .inl (rest ▸ List.mem_cons_self)
    · obtain ⟨rfl, others⟩ : event = first ∧ after = more ++ events := by simpa using rest
      rw [others, List.mem_append, not_or] at none
      exact .inr ⟨⟨before, more, old, none.1⟩, none.2⟩

theorem mem (since : Since mark (history ++ mark :: events) event) (other : event ≠ mark) :
    event ∈ events := by
  rcases since.cases with new | ⟨_, unmarked⟩
  · exact (List.mem_cons.mp new).resolve_left other
  · exact absurd List.mem_cons_self unmarked

end Since

def Lasting (allowed : List ε → ε → Prop) : Prop :=
  ∀ before more event, allowed before event → allowed (before ++ more) event

theorem Ordered.of_mem {allowed : List ε → ε → Prop} (lasting : Lasting allowed)
    {history : List ε} (ordered : Ordered allowed history) {event : ε}
    (member : event ∈ history) : allowed history event := by
  obtain ⟨before, after, rfl⟩ := List.append_of_mem member
  exact lasting before (event :: after) event (ordered before event after rfl)

theorem Ordered.append_all {allowed : List ε → ε → Prop} (lasting : Lasting allowed)
    {history events : List ε} (ordered : Ordered allowed history)
    (new : ∀ event ∈ events, allowed history event) : Ordered allowed (history ++ events) := by
  apply ordered.append
  intro before event after split
  exact lasting history before event (new event (by simp [split]))

end AtomicCommit
