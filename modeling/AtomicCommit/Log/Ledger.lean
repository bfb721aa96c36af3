import AtomicCommit.Log.Lawful

/-! The plainest lawful storage: a list of records, next to anything that is no log. It is settled
beforehand which operations on the list fail. -/

namespace AtomicCommit

/-- Each append and each compaction takes one entry of `failures`; when none is left, all succeed. -/
structure Ledger (ρ : Type) where
  records : List ρ := []
  failures : List Bool := []
  deriving DecidableEq, Repr

namespace Ledger

variable {ρ : Type}

def change (records : List ρ) (ledger : Ledger ρ) : Except LogError Unit × Ledger ρ :=
  match ledger.failures with
  | true :: failures => (.error .appendRefused, { ledger with failures := failures })
  | _ :: failures => (.ok (), ⟨records, failures⟩)
  | [] => (.ok (), ⟨records, []⟩)

instance : Journal (Ledger ρ) ρ where
  append record ledger := ledger.change (ledger.records ++ [record])
  replay ledger := .ok ⟨ledger.records.map .ok, none⟩
  compact records ledger := ledger.change records

theorem records_change_ok {records : List ρ} {ledger after : Ledger ρ}
    (changed : ledger.change records = (.ok (), after)) : after.records = records := by
  grind [change]

theorem records_change_error {records : List ρ} {ledger after : Ledger ρ} {e : LogError}
    (failed : ledger.change records = (.error e, after)) : after.records = ledger.records := by
  grind [change]

theorem mapM_ok (records : List ρ) :
    (records.map (Except.ok (ε := LogError))).mapM id = .ok records := by
  induction records with
  | nil => rfl
  | cons record rest ih => simp_all [List.mapM_cons, bind, Except.bind, pure, Except.pure]

theorem records_read (ledger : Ledger ρ) : Journal.records ledger = .ok ledger.records := by
  simp only [Journal.records, Journal.replay, Log.Replay.records, mapM_ok, bind, Except.bind,
    pure, Except.pure]

instance : LawfulJournal (Ledger ρ) ρ where
  held := records
  records_ok found := by
    rw [records_read, Except.ok.injEq] at found
    exact found.symm
  append_ok := records_change_ok
  append_error := records_change_error
  compact_ok := records_change_ok
  compact_error failed := .inl (records_change_error failed)

end Ledger

structure Beside (σ β : Type) where
  log : σ
  other : β
  deriving DecidableEq, Repr

namespace Beside

variable {σ β ρ : Type}

def onLog {α : Type} (s : Beside σ β) (result : α × σ) : α × Beside σ β :=
  (result.1, { s with log := result.2 })

def onOther {α : Type} (s : Beside σ β) (result : α × β) : α × Beside σ β :=
  (result.1, { s with other := result.2 })

instance [Journal σ ρ] : Journal (Beside σ β) ρ where
  append record s := s.onLog (Journal.append record s.log)
  replay s := Journal.replay s.log
  compact records s := s.onLog (Journal.compact records s.log)

instance [Publishing β] : Publishing (Beside σ β) where
  artifact? name s := Publishing.artifact? name s.other
  publish name payload s := s.onOther (Publishing.publish name payload s.other)
  retract name s := s.onOther (Publishing.retract name s.other)

instance [ResourceStore β] : ResourceStore (Beside σ β) where
  holds name s := ResourceStore.holds name s.other
  delete name s := s.onOther (ResourceStore.delete name s.other)

theorem onLog_eq {α : Type} {s after : Beside σ β} {result : α × σ} {a : α}
    (same : s.onLog result = (a, after)) : result = (a, after.log) := by
  cases same
  rfl

instance [Journal σ ρ] [LawfulJournal σ ρ] : LawfulJournal (Beside σ β) ρ where
  held s := held s.log
  records_ok found := LawfulJournal.records_ok (σ := σ) found
  append_ok appended := LawfulJournal.append_ok (onLog_eq appended)
  append_error failed := LawfulJournal.append_error (onLog_eq failed)
  compact_ok compacted := LawfulJournal.compact_ok (onLog_eq compacted)
  compact_error failed := LawfulJournal.compact_error (onLog_eq failed)

instance [Journal σ ρ] [LawfulJournal σ ρ] [Publishing β] : LawfulPublishing (Beside σ β) ρ :=
  ⟨fun _ _ _ => rfl, fun _ _ => rfl⟩

instance [Journal σ ρ] [LawfulJournal σ ρ] [ResourceStore β] : LawfulStore (Beside σ β) ρ :=
  ⟨fun _ _ => rfl⟩

end Beside

end AtomicCommit
