import AtomicCommit.Coordinator.Site
import AtomicCommit.Log.Ledger
import AtomicCommit.Participant.Site
import AtomicCommit.Proofs.Log.Sessions

/-! The logs that actors run on are lawful: one in memory always, and one in a file as long as the file
can be opened and the directory that it lies in be synced. -/

namespace AtomicCommit

open FileLog (Flush regained written)
open Log (Replay)

namespace ActorLog

section Holds

variable {ρ : Type} [Record ρ]

/-- The log holds these records and nothing else, and can be opened again where it is. -/
def Holds (log : ActorLog) (records : List ρ) : Prop :=
  match log.handle with
  | .memory => log.medium.inFile = false ∧ log.medium.memory.lines = records.map Log.line
  | .file file => log.medium.inFile = true ∧ file.path = LogMedium.filePath ∧
      regained LogMedium.filePath log.medium.disk = .ok () ∧
      Flush file log.medium.disk (written records)

variable {log : ActorLog} {medium : LogMedium} {file : FileLog} {records : List ρ}

@[simp] theorem holds_memory : Holds ⟨medium, .memory⟩ records ↔
    medium.inFile = false ∧ medium.memory.lines = records.map Log.line := Iff.rfl

@[simp] theorem holds_file : Holds ⟨medium, .file file⟩ records ↔
    medium.inFile = true ∧ file.path = LogMedium.filePath ∧
      regained LogMedium.filePath medium.disk = .ok () ∧
      Flush file medium.disk (written records) := Iff.rfl

theorem access_of_regained {path : Path} {disk : Disk} (free : regained path disk = .ok ()) :
    disk.access path = .ok () := by
  rw [regained] at free
  cases synced : disk.sync path.dropLast with
  | error e =>
    rw [synced] at free
    cases free
  | ok =>
    rw [synced] at free
    exact free

namespace Holds

theorem compact (holds : log.Holds records) (others : List ρ) : (log.compact others).2.Holds
    (if (log.compact others).1.isOk then others else records) := by
  obtain ⟨medium, _ | file⟩ := log
  · exact ⟨holds.1, rfl⟩
  · obtain ⟨inFile, path, free, flush⟩ := holds_file.mp holds
    rcases FileLog.compact_cases flush.sound flush.fileAt? others
      with ⟨-, fault, refused⟩ | ⟨file', after, applied, same, further, compacted | ⟨e, caught, -⟩⟩
    · simpa [ActorLog.compact, refused, Except.isOk, Except.toBool] using holds
    · have closed := (Disk.Stopped.of_applyAll applied).closed
      have still := (FileLog.regained_congr closed LogMedium.filePath).trans free
      simpa [ActorLog.compact, compacted, Except.isOk, Except.toBool] using
        ⟨inFile, same.trans path, still, further⟩
    · cases caught.symm.trans (path ▸ free)

theorem append (holds : log.Holds records) (record : ρ) : (log.append record).2.Holds
    (if (log.append record).1.isOk then records ++ [record] else records) := by
  obtain ⟨medium, _ | file⟩ := log
  · obtain ⟨inMemory, lines⟩ := holds_memory.mp holds
    cases refusing : medium.memory.refusing <;>
      simp [ActorLog.append, MemoryLog.append, refusing, inMemory, lines, Except.isOk, Except.toBool]
  · obtain ⟨inFile, path, free, flush⟩ := holds_file.mp holds
    obtain ⟨same, further⟩ := flush.append record
    have closed := file.tear_closed (Utf8.encode (Log.terminatedLine record)) medium.disk
    have still := (FileLog.regained_congr closed LogMedium.filePath).trans free
    have more : written (records ++ [record]) =
        written records ++ Utf8.encode (Log.terminatedLine record) := by simp [written]
    rw [← more] at further
    simpa [ActorLog.append, Except.isOk, Except.toBool] using
      ⟨inFile, same.trans path, still, further⟩

variable [LawfulRecord ρ]

theorem replay (holds : log.Holds records) : log.replay = .ok (Replay.of records) := by
  obtain ⟨medium, _ | file⟩ := log
  · have shown := MemoryLog.replay_lines records medium.memory.refusing
    rw [← (holds_memory.mp holds).2] at shown
    exact congrArg Except.ok shown
  · obtain ⟨-, -, -, flush⟩ := holds_file.mp holds
    exact flush.toAttached.replay.trans (by rw [FileLog.replayed_written, Replay.of])

theorem openLog (holds : log.Holds records) :
    log.medium.openLog ρ = (.ok log.handle, log.medium) := by
  obtain ⟨medium, _ | file⟩ := log
  · obtain ⟨inMemory, -⟩ := holds_memory.mp holds
    simp [LogMedium.openLog, inMemory]
  · obtain ⟨inFile, path, free, flush⟩ := holds_file.mp holds
    have opened := flush.openAt (path ▸ access_of_regained free)
    rw [path] at opened
    obtain ⟨memory, disk, _⟩ := medium
    cases inFile
    simp [LogMedium.openLog, opened, Except.map]

end Holds

theorem holds_new [LawfulRecord ρ] {after : LogMedium} {handle : LogHandle}
    (blank : medium.memory.lines = []) (sound : medium.disk.Sound)
    (new : (medium.disk.fileAt? LogMedium.filePath).getD [] = [])
    (free : regained LogMedium.filePath medium.disk = .ok ())
    (opened : medium.openLog ρ = (.ok handle, after)) : Holds ⟨after, handle⟩ ([] : List ρ) := by
  rw [LogMedium.openLog] at opened
  split at opened
  next inFile =>
    rcases FileLog.openAt_blank (ρ := ρ) sound new
      with ⟨file, disk, done, path, flush⟩ | ⟨fault, disk, failed⟩
    · simp only [done, Except.map, Prod.mk.injEq, Except.ok.injEq] at opened
      obtain ⟨rfl, rfl⟩ := opened
      have closed := (FileLog.access_of_openAt done).2
      exact ⟨inFile, path, (FileLog.regained_congr closed _).trans free, flush⟩
    · simp [failed, Except.map] at opened
  next inMemory =>
    cases opened
    exact ⟨by simpa using inMemory, by simpa using blank⟩

end Holds

end ActorLog

/-- A log that holds its records, and nothing else. -/
structure KeptLog (ρ : Type) [Record ρ] where
  log : ActorLog
  records : List ρ
  holds : log.Holds records

namespace KeptLog

variable {ρ : Type} [Record ρ] [LawfulRecord ρ]

instance : Journal (KeptLog ρ) ρ where
  append record s :=
    ((s.log.append record).1, ⟨(s.log.append record).2, _, s.holds.append record⟩)
  replay s := s.log.replay
  compact records s :=
    ((s.log.compact records).1, ⟨(s.log.compact records).2, _, s.holds.compact records⟩)

instance : LawfulJournal (KeptLog ρ) ρ where
  held := records
  records_ok {s records} found := by
    have read : Journal.replay s = .ok (Replay.of s.records) := s.holds.replay
    simp only [Journal.records, read, Replay.of, Replay.records, Ledger.mapM_ok, bind, Except.bind, pure,
      Except.pure, Except.ok.injEq] at found
    exact found.symm
  append_ok appended := by
    obtain ⟨result, rfl⟩ := Prod.mk.inj appended
    simp [result, Except.isOk, Except.toBool]
  append_error failed := by
    obtain ⟨result, rfl⟩ := Prod.mk.inj failed
    simp [result, Except.isOk, Except.toBool]
  compact_ok compacted := by
    obtain ⟨result, rfl⟩ := Prod.mk.inj compacted
    simp [result, Except.isOk, Except.toBool]
  compact_error failed := by
    obtain ⟨result, rfl⟩ := Prod.mk.inj failed
    simp [result, Except.isOk, Except.toBool]

theorem held_reopened (s : KeptLog ρ) :
    s.log.medium.openLog ρ = (.ok s.log.handle, s.log.medium) ∧
      s.log.replay = .ok (Replay.of (held s)) :=
  ⟨s.holds.openLog, s.holds.replay⟩

end KeptLog

def Coordinator.Storage.ofKept (s : Beside (KeptLog Entry) Publisher) : Storage :=
  ⟨s.log.log, s.other⟩

theorem Coordinator.Storage.works_as_kept (s : Beside (KeptLog Entry) Publisher) :
    (∀ entry, Journal.append entry (ofKept s) = (Journal.append entry s).map id ofKept) ∧
    Journal.replay (ofKept s) = Journal.replay s ∧
    (∀ entries, Journal.compact entries (ofKept s) = (Journal.compact entries s).map id ofKept) ∧
    (∀ name payload, Publishing.publish name payload (ofKept s) =
      (Publishing.publish name payload s).map id ofKept) ∧
    ∀ name, Publishing.retract name (ofKept s) = (Publishing.retract name s).map id ofKept :=
  ⟨fun _ => rfl, rfl, fun _ => rfl, fun _ _ => rfl, fun _ => rfl⟩

def Participant.Storage.ofKept (s : Beside (KeptLog Entry) DirectoryStore) : Storage :=
  ⟨s.log.log, s.other⟩

theorem Participant.Storage.works_as_kept (s : Beside (KeptLog Entry) DirectoryStore) :
    (∀ entry, Journal.append entry (ofKept s) = (Journal.append entry s).map id ofKept) ∧
    Journal.replay (ofKept s) = Journal.replay s ∧
    (∀ entries, Journal.compact entries (ofKept s) = (Journal.compact entries s).map id ofKept) ∧
    (∀ name, ResourceStore.holds name (ofKept s) = ResourceStore.holds name s) ∧
    ∀ name, ResourceStore.delete name (ofKept s) = (ResourceStore.delete name s).map id ofKept :=
  ⟨fun _ => rfl, rfl, fun _ => rfl, fun _ => rfl, fun _ => rfl⟩

end AtomicCommit
