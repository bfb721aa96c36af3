import AtomicCommit.Table
import Mathlib.Data.List.Nodup

/-! The order of the keys of a table, which no insertion breaks. -/

namespace AtomicCommit.Table

theorem lookup_eq_some {κ α : Type} [DecidableEq κ] {entries : List (κ × α)}
    (unique : (entries.map (·.1)).Nodup) (key : κ) (value : α) :
    lookup key entries = some value ↔ (key, value) ∈ entries := by
  induction entries with
  | nil => simp [lookup]
  | cons entry rest ih =>
    obtain ⟨k, a⟩ := entry
    simp only [List.map_cons, List.nodup_cons, List.mem_map, not_exists, not_and] at unique
    by_cases same : k = key
    · subst same
      have absent : (k, value) ∉ rest := fun member => unique.1 _ member rfl
      simp [lookup, absent, eq_comm]
    · simp [lookup, same, ih unique.2, Ne.symm same]

theorem mem_of_get? {κ α : Type} [DecidableEq κ] {t : Table κ α} {key : κ} {value : α}
    (found : t.get? key = some value) : (key, value) ∈ t.entries := by
  obtain ⟨entries⟩ := t
  simp only [get?] at found ⊢
  induction entries with
  | nil => cases found
  | cons entry rest ih =>
    simp only [lookup] at found
    split at found
    next same =>
      cases found
      exact List.mem_cons.mpr (.inl (by rw [← same]))
    next => exact List.mem_cons_of_mem _ (ih found)

def Sorted {κ α : Type} [LT κ] (t : Table κ α) : Prop := t.keys.Pairwise (· < ·)

section Keys

variable {κ α : Type}

@[simp] theorem keys_empty : (∅ : Table κ α).keys = [] := rfl

theorem sorted_empty [LT κ] : (∅ : Table κ α).Sorted := .nil

variable [DecidableEq κ]

theorem mem_keys_erase (t : Table κ α) (key other : κ) :
    other ∈ (t.erase key).keys ↔ other ≠ key ∧ other ∈ t.keys := by
  simp only [keys, erase, List.mem_map, List.mem_filter, decide_eq_true_eq]
  constructor
  · rintro ⟨entry, ⟨member, distinct⟩, rfl⟩
    exact ⟨distinct, entry, member, rfl⟩
  · rintro ⟨distinct, entry, member, rfl⟩
    exact ⟨entry, ⟨member, distinct⟩, rfl⟩

theorem contains_iff (t : Table κ α) (key : κ) : t.contains key ↔ key ∈ t.keys := by
  obtain ⟨entries⟩ := t
  simp only [contains, get?, keys]
  induction entries with
  | nil => simp [lookup]
  | cons entry rest ih =>
    by_cases same : entry.1 = key
    · simp [lookup, same]
    · simp [lookup, same, ih, Ne.symm same]

variable [LT κ]

theorem sorted_erase {t : Table κ α} (sorted : t.Sorted) (key : κ) : (t.erase key).Sorted :=
  List.Pairwise.sublist (List.filter_sublist.map _) sorted

variable [DecidableLT κ]

theorem mem_keys_place (key other : κ) (value : α) (entries : List (κ × α)) :
    other ∈ (place key value entries).map (·.1) ↔ other = key ∨ other ∈ entries.map (·.1) := by
  induction entries with
  | nil => simp [place]
  | cons entry rest ih =>
    obtain ⟨k, a⟩ := entry
    simp only [place]
    split
    · simp_all
    split
    · simp
    · simp only [List.map_cons, List.mem_cons, ih]
      exact or_left_comm

theorem mem_keys_insert (t : Table κ α) (key other : κ) (value : α) :
    other ∈ (t.insert key value).keys ↔ other = key ∨ other ∈ t.keys :=
  mem_keys_place key other value t.entries

end Keys

section Order

variable {κ α : Type} [DecidableEq κ] [LT κ] [DecidableLT κ] [LE κ] [Std.IsLinearOrder κ]
  [Std.LawfulOrderLT κ] {t : Table κ α}

omit [DecidableEq κ] [DecidableLT κ] [Std.IsLinearOrder κ] in
theorem Sorted.nodup (sorted : t.Sorted) : (t.entries.map (·.1)).Nodup := by
  refine List.Pairwise.imp ?_ sorted
  rintro first second before rfl
  exact Std.lt_irrefl before

theorem sorted_place {entries : List (κ × α)}
    (sorted : (entries.map (·.1)).Pairwise (· < ·)) (key : κ) (value : α) :
    ((place key value entries).map (·.1)).Pairwise (· < ·) := by
  induction entries with
  | nil => exact List.pairwise_singleton _ _
  | cons entry rest ih =>
    obtain ⟨k, a⟩ := entry
    obtain ⟨first, others⟩ := List.pairwise_cons.mp sorted
    simp only [place]
    split
    next same => exact same ▸ sorted
    next distinct =>
      split
      next before =>
        refine List.pairwise_cons.mpr ⟨?_, sorted⟩
        intro other member
        rcases List.mem_cons.mp member with rfl | later
        · exact before
        · exact Std.lt_trans before (first other later)
      next notBefore =>
        refine List.pairwise_cons.mpr ⟨?_, ih others⟩
        intro other member
        rcases (mem_keys_place key other value rest).mp member with rfl | later
        · exact Std.lt_of_le_of_ne (Std.not_lt.mp notBefore) distinct
        · exact first other later

theorem sorted_insert (sorted : t.Sorted) (key : κ) (value : α) : (t.insert key value).Sorted :=
  sorted_place sorted key value

omit [DecidableLT κ] [Std.IsLinearOrder κ] in
theorem get?_eq_some (sorted : t.Sorted) (key : κ) (value : α) :
    t.get? key = some value ↔ (key, value) ∈ t.entries :=
  lookup_eq_some sorted.nodup key value

omit [DecidableLT κ] in
theorem Sorted.ext {other : Table κ α} (sorted : t.Sorted) (sortedToo : other.Sorted)
    (same : ∀ key, t.get? key = other.get? key) : t = other := by
  have members : ∀ entry, entry ∈ t.entries ↔ entry ∈ other.entries := by
    rintro ⟨key, value⟩
    rw [← get?_eq_some sorted, ← get?_eq_some sortedToo, same]
  have alike : t.entries.Perm other.entries := (List.perm_ext_iff_of_nodup
    (List.Nodup.of_map _ sorted.nodup) (List.Nodup.of_map _ sortedToo.nodup)).mpr members
  have ordered : ∀ u : Table κ α, u.Sorted →
      u.entries.Pairwise fun first second => first.1 < second.1 :=
    fun u sorted => List.pairwise_map.mp sorted
  have equal : t.entries = other.entries := alike.eq_of_pairwise
    (fun first second _ _ before after => absurd (Std.lt_trans before after) Std.lt_irrefl)
    (ordered t sorted) (ordered other sortedToo)
  obtain ⟨entries⟩ := t
  exact congrArg mk equal

end Order

end AtomicCommit.Table
