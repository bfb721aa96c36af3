import AtomicCommit.Log.Record

/-! What a log says about each of its transactions. A trace is what is known of one transaction; each
record adds to the trace of its own. -/

namespace AtomicCommit.Log

variable {ρ α : Type} [Record ρ]

def noteIn (note : α → ρ → α) (blank : α) (record : ρ) : List (String × α) → List (String × α)
  | [] => [(Record.txn record, note blank record)]
  | (txn, trace) :: rest =>
    if txn = Record.txn record then (txn, note trace record) :: rest
    else (txn, trace) :: noteIn note blank record rest

def traces (note : α → ρ → α) (blank : α) (records : List ρ) : List (String × α) :=
  records.foldl (fun found record => noteIn note blank record found) []

end AtomicCommit.Log
