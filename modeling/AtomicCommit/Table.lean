/-! Finite maps kept in key order, so that listing one needs no sorting. -/

namespace AtomicCommit

structure Table (κ α : Type) where
  entries : List (κ × α)
  deriving DecidableEq, Repr

namespace Table

variable {κ α : Type}

instance : EmptyCollection (Table κ α) := ⟨⟨[]⟩⟩

instance : Inhabited (Table κ α) := ⟨∅⟩

def keys (t : Table κ α) : List κ := t.entries.map (·.1)

def values (t : Table κ α) : List α := t.entries.map (·.2)

def isEmpty (t : Table κ α) : Bool := t.entries.isEmpty

def size (t : Table κ α) : Nat := t.entries.length

section Lookup

variable [DecidableEq κ]

def lookup (key : κ) : List (κ × α) → Option α
  | [] => none
  | (k, a) :: rest => if k = key then some a else lookup key rest

def get? (t : Table κ α) (key : κ) : Option α := lookup key t.entries

def contains (t : Table κ α) (key : κ) : Bool := (t.get? key).isSome

def erase (t : Table κ α) (key : κ) : Table κ α :=
  ⟨t.entries.filter fun entry => entry.1 ≠ key⟩

def restrict (keep : κ → Bool) (t : Table κ α) : Table κ α :=
  ⟨t.entries.filter fun entry => keep entry.1⟩

def adjust (change : α → α) (key : κ) (t : Table κ α) : Table κ α :=
  ⟨t.entries.map fun entry => if entry.1 = key then (entry.1, change entry.2) else entry⟩

variable [LT κ] [DecidableLT κ]

def place (key : κ) (value : α) : List (κ × α) → List (κ × α)
  | [] => [(key, value)]
  | (k, a) :: rest =>
    if k = key then (key, value) :: rest
    else if key < k then (key, value) :: (k, a) :: rest
    else (k, a) :: place key value rest

def insert (t : Table κ α) (key : κ) (value : α) : Table κ α :=
  ⟨place key value t.entries⟩

def ofList (entries : List (κ × α)) : Table κ α :=
  entries.foldl (fun t entry => t.insert entry.1 entry.2) ∅

end Lookup

section Lemmas

variable [DecidableEq κ]

@[simp] theorem get?_empty (key : κ) : (∅ : Table κ α).get? key = none := rfl

theorem lookup_filter (keep : κ → Bool) (entries : List (κ × α)) (key : κ) :
    lookup key (entries.filter fun entry => keep entry.1) =
      if keep key then lookup key entries else none := by
  induction entries with
  | nil => simp [lookup]
  | cons entry rest ih =>
    obtain ⟨k, a⟩ := entry
    by_cases same : k = key
    · subst same
      by_cases kept : keep k <;> simp [lookup, kept, ih]
    · by_cases kept : keep k <;> simp [lookup, kept, ih, same]

@[simp] theorem get?_restrict (keep : κ → Bool) (t : Table κ α) (key : κ) :
    (t.restrict keep).get? key = if keep key then t.get? key else none :=
  lookup_filter keep t.entries key

@[simp] theorem get?_erase (t : Table κ α) (key other : κ) :
    (t.erase key).get? other = if other = key then none else t.get? other := by
  have found := lookup_filter (fun k => decide (k ≠ key)) t.entries other
  simp only [erase, get?]
  by_cases same : other = key <;> simp_all

@[simp] theorem get?_adjust (change : α → α) (key other : κ) (t : Table κ α) :
    (t.adjust change key).get? other =
      if other = key then (t.get? other).map change else t.get? other := by
  obtain ⟨entries⟩ := t
  simp only [adjust, get?]
  induction entries with
  | nil => simp [lookup]
  | cons entry rest ih =>
    obtain ⟨k, a⟩ := entry
    by_cases here : k = key <;> by_cases found : k = other <;> simp_all [lookup]

variable [LT κ] [DecidableLT κ]

theorem lookup_place (key other : κ) (value : α) (entries : List (κ × α)) :
    lookup other (place key value entries) =
      if other = key then some value else lookup other entries := by
  induction entries with
  | nil => simp [place, lookup, eq_comm]
  | cons entry rest ih =>
    obtain ⟨k, a⟩ := entry
    grind [place, lookup]

@[simp] theorem get?_insert (t : Table κ α) (key other : κ) (value : α) :
    (t.insert key value).get? other = if other = key then some value else t.get? other :=
  lookup_place key other value t.entries

theorem filter_place (key : κ) (value : α) (entries : List (κ × α)) :
    (place key value entries).filter (fun entry => decide (entry.1 ≠ key)) =
      entries.filter fun entry => decide (entry.1 ≠ key) := by
  induction entries with
  | nil => simp [place]
  | cons entry rest ih =>
    obtain ⟨k, a⟩ := entry
    simp only [place]
    split
    next same => simp [same]
    split
    · simp
    · simp only [List.filter_cons, ih]

@[simp] theorem erase_insert (t : Table κ α) (key : κ) (value : α) :
    (t.insert key value).erase key = t.erase key :=
  congrArg Table.mk (filter_place key value t.entries)

end Lemmas

end Table

end AtomicCommit
