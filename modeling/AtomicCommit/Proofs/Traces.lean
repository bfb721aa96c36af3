import AtomicCommit.Log.Trace
import AtomicCommit.Proofs.Tables
import Mathlib.Data.List.Induction

/-! The traces of a log: each is made from the records of its own transaction, in their order, and no
transaction has two. -/

namespace AtomicCommit

namespace Log

variable {ρ α : Type} [Record ρ] (note : α → ρ → α) (blank : α)

def recordsOf (txn : String) (records : List ρ) : List ρ :=
  records.filter fun record => Record.txn record = txn

def traceOf (txn : String) (records : List ρ) : α := (recordsOf txn records).foldl note blank

theorem lookup_noteIn (record : ρ) (found : List (String × α)) (txn : String) :
    Table.lookup txn (noteIn note blank record found) =
      if Record.txn record = txn then
        some (note ((Table.lookup txn found).getD blank) record)
      else Table.lookup txn found := by
  induction found with
  | nil => simp [noteIn, Table.lookup]
  | cons entry rest ih =>
    obtain ⟨other, trace⟩ := entry
    grind [noteIn, Table.lookup]

theorem keys_noteIn (record : ρ) (found : List (String × α)) :
    (noteIn note blank record found).map (·.1) =
      if Record.txn record ∈ found.map (·.1) then found.map (·.1)
      else found.map (·.1) ++ [Record.txn record] := by
  induction found with
  | nil => simp [noteIn]
  | cons entry rest ih =>
    obtain ⟨other, trace⟩ := entry
    by_cases same : other = Record.txn record
    · simp [noteIn, same]
    · simp only [noteIn, same, if_false, List.map_cons, ih, List.mem_cons, Ne.symm same, false_or]
      split <;> rfl

theorem traces_snoc (records : List ρ) (record : ρ) :
    traces note blank (records ++ [record]) =
      noteIn note blank record (traces note blank records) := by
  simp [traces]

theorem noteIn_filter (keep : String → Bool) (record : ρ) (found : List (String × α)) :
    (noteIn note blank record found).filter (fun entry => keep entry.1) =
      if keep (Record.txn record) then
        noteIn note blank record (found.filter fun entry => keep entry.1)
      else found.filter fun entry => keep entry.1 := by
  induction found with
  | nil => by_cases kept : keep (Record.txn record) <;> simp [noteIn, kept]
  | cons entry rest ih =>
    obtain ⟨txn, trace⟩ := entry
    by_cases own : txn = Record.txn record
    · by_cases kept : keep (Record.txn record) <;> simp [noteIn, own, kept]
    · by_cases here : keep txn <;> by_cases kept : keep (Record.txn record) <;>
        simp_all [noteIn]

theorem traces_filter (keep : String → Bool) (records : List ρ) :
    (traces note blank records).filter (fun entry => keep entry.1) =
      traces note blank (records.filter fun record => keep (Record.txn record)) := by
  induction records using List.reverseRecOn with
  | nil => rfl
  | append_singleton records record ih =>
    rw [traces_snoc, noteIn_filter, ih, List.filter_append]
    by_cases kept : keep (Record.txn record)
    · simp [kept, traces_snoc]
    · simp [kept]

theorem nodup_traces (records : List ρ) : ((traces note blank records).map (·.1)).Nodup := by
  induction records using List.reverseRecOn with
  | nil => simp [traces]
  | append_singleton records record ih =>
    rw [traces_snoc, keys_noteIn]
    split
    · exact ih
    · rename_i absent
      exact List.nodup_append.mpr ⟨ih, by simp, by grind⟩

theorem recordsOf_append (txn : String) (records others : List ρ) :
    recordsOf txn (records ++ others) = recordsOf txn records ++ recordsOf txn others :=
  List.filter_append ..

theorem recordsOf_snoc (txn : String) (records : List ρ) (record : ρ) :
    recordsOf txn (records ++ [record]) =
      if Record.txn record = txn then recordsOf txn records ++ [record]
      else recordsOf txn records := by
  by_cases own : Record.txn record = txn <;> simp [recordsOf, own]

theorem recordsOf_own {txn : String} {records : List ρ}
    (own : ∀ record ∈ records, Record.txn record = txn) : recordsOf txn records = records :=
  List.filter_eq_self.mpr fun record member => by simp [own record member]

theorem recordsOf_other {txn other : String} {records : List ρ}
    (own : ∀ record ∈ records, Record.txn record = txn) (distinct : other ≠ txn) :
    recordsOf other records = [] :=
  List.filter_eq_nil_iff.mpr fun record member => by simp [own record member, distinct.symm]

theorem mem_recordsOf {txn : String} {records : List ρ} {record : ρ} :
    record ∈ recordsOf txn records ↔ record ∈ records ∧ Record.txn record = txn := by
  simp [recordsOf]

theorem isFinished_iff {txn : String} {records : List ρ} : isFinished records txn ↔
    ∃ record ∈ recordsOf txn records, Record.isTerminal record := by
  simp only [isFinished, List.any_eq_true, Bool.and_eq_true, beq_iff_eq, mem_recordsOf]
  constructor
  · rintro ⟨record, member, ended, own⟩
    exact ⟨record, ⟨member, own⟩, ended⟩
  · rintro ⟨record, ⟨member, own⟩, ended⟩
    exact ⟨record, member, ended, own⟩

theorem recordsOf_unfinished (txn : String) (records : List ρ) :
    recordsOf txn (unfinished records) =
      if isFinished records txn then [] else recordsOf txn records := by
  by_cases finished : isFinished records txn
  · simp only [finished, if_true]
    refine List.filter_eq_nil_iff.mpr fun record member => ?_
    have open_ := (List.mem_filter.mp member).2
    intro same
    simp_all
  · simp only [finished, recordsOf, unfinished, List.filter_filter]
    refine List.filter_congr fun record _ => ?_
    by_cases same : Record.txn record = txn <;> simp_all

theorem lookup_traces (records : List ρ) (txn : String) :
    Table.lookup txn (traces note blank records) =
      if recordsOf txn records = [] then none else some (traceOf note blank txn records) := by
  induction records using List.reverseRecOn with
  | nil => rfl
  | append_singleton records record ih =>
    rw [traces_snoc, lookup_noteIn, ih]
    simp only [traceOf, recordsOf_snoc]
    by_cases own : Record.txn record = txn
    · by_cases first : recordsOf txn records = []
      · simp [own, first]
      · simp [own, first]
    · simp [own]

theorem mem_traces {records : List ρ} {txn : String} {trace : α} :
    (txn, trace) ∈ traces note blank records ↔
      recordsOf txn records ≠ [] ∧ trace = traceOf note blank txn records := by
  rw [← Table.lookup_eq_some (nodup_traces note blank records), lookup_traces]
  by_cases none : recordsOf txn records = []
  · simp [none]
  · simp only [none, if_false, Option.some.injEq, ne_eq, not_false_eq_true, true_and]
    exact eq_comm

section Reordered

/-- The same records, in an order that is the same for those of each transaction. -/
def Reordered (records others : List ρ) : Prop :=
  ∀ txn, recordsOf txn records = recordsOf txn others

variable {records others : List ρ}

theorem Reordered.traceOf (reordered : Reordered records others) (txn : String) :
    traceOf note blank txn records = Log.traceOf note blank txn others := by
  rw [Log.traceOf, Log.traceOf, reordered]

theorem Reordered.traces (reordered : Reordered records others) :
    (traces note blank records).Perm (Log.traces note blank others) := by
  refine (List.perm_ext_iff_of_nodup (.of_map _ (nodup_traces note blank records))
    (.of_map _ (nodup_traces note blank others))).mpr ?_
  rintro ⟨txn, trace⟩
  rw [mem_traces, mem_traces, reordered, reordered.traceOf]

end Reordered

end Log

end AtomicCommit
