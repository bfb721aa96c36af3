import AtomicCommit.Log.Memory
import AtomicCommit.Proofs.Log.Compacting

/-! A record as a line, and a log as a list: what is written for a record reads back as this record, and
a log in memory and a log in a file both replay what a plain list of records would hold. -/

namespace AtomicCommit

open Disk (Sound OnlyFiles)

namespace Log

section Lines

variable {ρ : Type} [Record ρ]

/-- One line of text that ends in its newline, is not blank, and reads as the record without it. -/
structure IsLineOf (record : ρ) (line : String) : Prop where
  ends : line.toList.getLast? = some '\n'
  single : line.toList.count '\n' = 1
  shown : Text.isBlank line = false
  decodes : ∀ number, decodeLine (String.ofList line.toList.dropLast) number = .ok record

variable [LawfulRecord ρ] (record : ρ)

theorem newline_not_mem_line : '\n' ∉ (line record).toList := by
  intro member
  have encoded : FileLog.newline ∈ Utf8.encode (line record) :=
    List.mem_flatMap.mpr ⟨'\n', member, List.mem_singleton.mpr rfl⟩
  exact FileLog.unprinted_not_mem record (by decide) encoded

theorem decodeLine_line (number : Nat) : decodeLine (line record) number = .ok record := by
  have read : Json.readAll Record.read ([] ++ Utf8.encode (line record)) = .ok record :=
    FileLog.readAll_line record (by simp)
  rw [List.nil_append] at read
  rw [decodeLine, read]

theorem isLineOf_terminatedLine : IsLineOf record (terminatedLine record) := by
  have parts : (terminatedLine record).toList = (line record).toList ++ ['\n'] :=
    String.toList_append
  constructor
  · rw [parts, List.getLast?_concat]
  · rw [parts, List.count_append, List.count_eq_zero.mpr (newline_not_mem_line record)]
    rfl
  · rw [terminatedLine, Text.isBlank_append, Bool.and_eq_false_imp]
    exact fun blank => absurd blank (FileLog.not_blank_line record)
  · intro number
    rw [parts, List.dropLast_concat, String.ofList_toList, decodeLine_line]

/-- What either log writes for a record is a line of it, for the records of both actors. -/
theorem records_are_written_as_lines :
    (∀ entry : Coordinator.Entry, IsLineOf entry (terminatedLine entry)) ∧
      ∀ entry : Participant.Entry, IsLineOf entry (terminatedLine entry) :=
  ⟨isLineOf_terminatedLine, isLineOf_terminatedLine⟩

end Lines

section Sessions

variable {ρ : Type}

/-- What is done with a log. After a restart an actor finds the log that it left. -/
inductive Operation (ρ : Type) where
  | append (record : ρ)
  | compact (records : List ρ)
  | replay
  | restart
  deriving DecidableEq, Repr

def Replay.of (records : List ρ) : Replay ρ := ⟨records.map .ok, none⟩

def Operation.turn : Operation ρ → List ρ → List (Replay ρ) × List ρ
  | .append record, records => ([], records ++ [record])
  | .compact others, _ => ([], others)
  | .replay, records => ([.of records], records)
  | .restart, records => ([], records)

def listed : List (Operation ρ) → List ρ → List (Replay ρ)
  | [], _ => []
  | operation :: rest, records =>
    let (shown, records) := operation.turn records
    shown ++ listed rest records

/-- Does one operation after the other, and gives what the replays among them yield. The first fault is
the end of it. -/
def session {σ : Type} (perform : Operation ρ → σ → Except LogError (List (Replay ρ) × σ)) :
    List (Operation ρ) → σ → Except LogError (List (Replay ρ))
  | [], _ => .ok []
  | operation :: rest, log => do
    let (shown, log) ← perform operation log
    return shown ++ (← session perform rest log)

/-- Where each operation does what it does to a list, or there is a reason to fail, so does a session. -/
theorem session_cases {σ : Type} {perform : Operation ρ → σ → Except LogError (List (Replay ρ) × σ)}
    {holds : List ρ → σ → Prop} {hindered : Prop}
    (turns : ∀ records log operation, holds records log →
      (∃ after, perform operation log = .ok ((operation.turn records).1, after) ∧
        holds (operation.turn records).2 after) ∨
      hindered ∧ ∃ fault, perform operation log = .error fault)
    (operations : List (Operation ρ)) {records : List ρ} {log : σ} (start : holds records log) :
    session perform operations log = .ok (listed operations records) ∨
      hindered ∧ ∃ fault, session perform operations log = .error fault := by
  induction operations generalizing records log with
  | nil => exact .inl rfl
  | cons operation rest ih =>
    rcases turns records log operation start with ⟨after, done, further⟩ | ⟨reason, fault, failed⟩
    · rcases ih further with listed_ | ⟨reason, fault, failed⟩
      · refine .inl ?_
        simp only [session, listed, done, listed_, bind, Except.bind, pure, Except.pure]
      · refine .inr ⟨reason, fault, ?_⟩
        simp only [session, done, failed, bind, Except.bind]
    · refine .inr ⟨reason, fault, ?_⟩
      simp only [session, failed, bind, Except.bind]

end Sessions

end Log

open Log (Operation Replay)

namespace MemoryLog

variable {ρ : Type} [Record ρ]

def perform : Operation ρ → MemoryLog → Except LogError (List (Replay ρ) × MemoryLog)
  | .append record, log =>
    match log.append record with
    | (.ok (), log) => .ok ([], log)
    | (.error fault, _) => .error fault
  | .compact records, log => .ok ([], log.compact records)
  | .replay, log => .ok ([log.replay], log)
  | .restart, log => .ok ([], log)

variable [LawfulRecord ρ]

theorem replay_lines (records : List ρ) (refusing : Bool) :
    (⟨records.map Log.line, refusing⟩ : MemoryLog).replay = Replay.of records := by
  have each : ∀ number, (Log.recordsFrom number ((records.map Log.line).map .ok) :
      List (Except LogError ρ)) = records.map .ok := by
    induction records with
    | nil => exact fun _ => rfl
    | cons record records ih =>
      intro number
      rw [List.map_cons, List.map_cons, Log.recordsFrom, if_neg (FileLog.not_blank_line record),
        Log.decodeLine_line, ih, List.map_cons]
  rw [replay, Replay.ofLines, each, Replay.of]

theorem session_eq (operations : List (Operation ρ)) :
    Log.session perform operations {} = .ok (Log.listed operations []) := by
  have turns : ∀ (records : List ρ) (log : MemoryLog) (operation : Operation ρ),
      log = ⟨records.map Log.line, false⟩ →
      (∃ after, perform operation log = .ok ((operation.turn records).1, after) ∧
        after = ⟨(operation.turn records).2.map Log.line, false⟩) ∨
      False ∧ ∃ fault, perform operation log = .error fault := by
    rintro records _ operation rfl
    refine .inl ?_
    cases operation with
    | append record => exact ⟨_, rfl, by simp [Operation.turn]⟩
    | compact others => exact ⟨_, rfl, rfl⟩
    | replay => exact ⟨_, by rw [perform, replay_lines]; rfl, rfl⟩
    | restart => exact ⟨_, rfl, rfl⟩
  have start : ({} : MemoryLog) = ⟨([] : List ρ).map Log.line, false⟩ := rfl
  exact (Log.session_cases turns operations start).resolve_right And.left

end MemoryLog

namespace FileLog

variable {ρ : Type} [Record ρ]

def perform : Operation ρ → FileLog × Disk → Except LogError (List (Replay ρ) × FileLog × Disk)
  | .append record, (log, disk) => .ok ([], log.append record disk)
  | .compact records, (log, disk) =>
    match log.compact records disk with
    | (.ok (), log, disk) => .ok ([], log, disk)
    | (.error fault, _) => .error fault
  | .replay, (log, disk) => (log.replay disk).map fun replay => ([replay], log, disk)
  | .restart, (log, disk) =>
    match openAt ρ log.path disk with
    | (.ok log, disk) => .ok ([], log, disk)
    | (.error fault, _) => .error fault

def session (path : Path) (disk : Disk) (operations : List (Operation ρ)) :
    Except LogError (List (Replay ρ)) :=
  match openAt ρ path disk with
  | (.ok log, disk) => Log.session perform operations (log, disk)
  | (.error fault, _) => .error fault

/-- There can be a file where a compaction writes the new log, and the log can be opened again then. -/
def CanCompact (path : Path) (disk : Disk) : Prop :=
  (∃ made, disk.create (draftPath path) = .ok made) ∧ regained path disk = .ok ()

section Turns

variable {log : FileLog} {disk after : Disk} {place : Path} {name : String}

theorem create_ok_iff : (∃ made, disk.create (place ++ [name]) = .ok made) ↔
    ∃ found, disk.find (place ++ [name]) = .ok found ∧ found ≠ some .directory := by
  rw [Disk.create, Disk.openFile]
  rcases disk.find (place ++ [name]) with _ | _ | _ | file <;> simp [Except.map]

theorem create_ok_of_onlyFiles (only : OnlyFiles place disk after)
    (creatable : ∃ made, disk.create (place ++ [name]) = .ok made) :
    ∃ made, after.create (place ++ [name]) = .ok made := by
  rw [create_ok_iff] at creatable ⊢
  obtain ⟨found, result, free⟩ := creatable
  have same := (Disk.find_ok result).1
  have above : ∀ part, part <+: place → disk.node? ([] ++ part) = after.node? ([] ++ part) := by
    intro part ahead
    refine ((only _).resolve_right ?_).symm
    rintro ⟨⟨other, rfl⟩, -⟩
    have short := ahead.length_le
    rw [List.length_append, List.length_singleton] at short
    omega
  rw [Disk.find] at result
  split at result
  · cases result
  next clean =>
    refine ⟨after.node? (place ++ [name]), ?_, ?_⟩
    · rw [Disk.find, if_neg clean, Disk.walk_last above result, List.nil_append]
    · rcases only (place ++ [name]) with kept | ⟨-, other⟩
      · rw [kept, ← same]
        exact free
      · exact other

theorem regained_congr (closed : after.closed = disk.closed) (path : Path) :
    regained path after = regained path disk := by
  rw [regained, regained, Disk.sync_congr closed, Disk.access_congr closed]

theorem canCompact_of_onlyFiles {content : Bytes} (attached : Attached log disk content)
    (only : ∀ place name, log.path = place ++ [name] → OnlyFiles place disk after)
    (closed : after.closed = disk.closed) (can : CanCompact log.path disk) :
    CanCompact log.path after := by
  obtain ⟨⟨made, created⟩, free⟩ := can
  obtain ⟨place, name, draft, same, beside⟩ :=
    draft_beside attached.sound attached.fileAt? created
  refine ⟨?_, (regained_congr closed _).trans free⟩
  rw [beside] at created ⊢
  exact create_ok_of_onlyFiles (only place name same) ⟨made, created⟩

theorem compaction_within {path : Path} {draft : String} (same : path = place ++ [name])
    (beside : draftPath path = place ++ [draft]) (records : List ρ) :
    ∀ change ∈ compaction records path, change.Within place := by
  intro change member
  rw [compaction_eq, beside] at member
  rcases List.mem_cons.mp member with rfl | member
  · exact ⟨draft, rfl⟩
  rcases List.mem_append.mp member with written | renamed
  · obtain ⟨record, -, rfl⟩ := List.mem_map.mp written
    exact ⟨draft, rfl⟩
  · obtain rfl := List.mem_singleton.mp renamed
    exact ⟨⟨draft, rfl⟩, name, same⟩

def Remains (path : Path) (first : Disk) (records : List ρ) (opened : FileLog × Disk) : Prop :=
  opened.1.path = path ∧ Flush opened.1 opened.2 (written records) ∧
    opened.2.access path = .ok () ∧ (CanCompact path first → CanCompact path opened.2)

variable [LawfulRecord ρ] {records : List ρ}

theorem Flush.openAt (flush : Flush log disk (written records))
    (access : disk.access log.path = .ok ()) :
    openAt ρ log.path disk = (.ok log, disk) := by
  have repaired : repair ρ log.path disk = .ok disk := by
    rw [repair, flush.sound.lookup_of_node flush.legal flush.node]
    dsimp only
    rw [flush.held, (kept_written records).torn_eq]
  rw [FileLog.openAt, flush.sound.makeDirectories_of_node flush.legal flush.node]
  dsimp only
  rw [repaired]
  dsimp only
  rw [openTail_of_attached flush.toAttached access, ← flush.length]

theorem Flush.turn (flush : Flush log disk (written records))
    (access : disk.access log.path = .ok ()) (operation : Operation ρ) :
    (∃ opened, perform operation (log, disk) = .ok ((operation.turn records).1, opened) ∧
      Remains log.path disk (operation.turn records).2 opened) ∨
    ¬CanCompact log.path disk ∧ ∃ fault, perform operation (log, disk) = .error fault := by
  cases operation with
  | append record =>
    obtain ⟨same, further⟩ := flush.append record
    have closed := log.tear_closed (Utf8.encode (Log.terminatedLine record)) disk
    refine .inl ⟨log.append record disk, rfl, same, ?_, (Disk.access_congr closed _).trans access, ?_⟩
    · simpa [Operation.turn, written] using further
    · refine canCompact_of_onlyFiles flush.toAttached (fun place name _ => .of_nodes ?_) closed
      rw [append_eq, tear]
      dsimp only
      split <;> rfl
  | compact others =>
    rcases created : disk.create (draftPath log.path) with e | made
    · refine .inr ⟨?_, .file e, ?_⟩
      · rintro ⟨⟨made, can⟩, -⟩
        cases created.symm.trans can
      · rw [perform, compact_refused created]
    obtain ⟨log', after, applied, same, further, compacted⟩ :=
      compact_created flush.sound flush.fileAt? created others
    rcases found : regained log.path disk with e | ⟨⟨⟩⟩ <;> rw [found] at compacted
    · refine .inr ⟨?_, .file e, by rw [perform, compacted]⟩
      rintro ⟨-, can⟩
      cases found.symm.trans can
    · have closed := (Disk.Stopped.of_applyAll applied).closed
      refine .inl ⟨(log', after), by rw [perform, compacted]; rfl, same, further,
        (Disk.access_congr closed _).trans access, fun can => ?_⟩
      obtain ⟨place, name, draft, path, beside⟩ := draft_beside flush.sound flush.fileAt? created
      refine canCompact_of_onlyFiles flush.toAttached (fun above last same => ?_) closed can
      obtain ⟨rfl, -⟩ := List.append_inj' (path.symm.trans same) rfl
      have only := disk.applyAll_onlyFiles (compaction_within path beside others)
      rwa [applied] at only
  | replay =>
    refine .inl ⟨(log, disk), ?_, rfl, flush, access, id⟩
    rw [perform, flush.toAttached.replay, replayed_written]
    rfl
  | restart =>
    refine .inl ⟨(log, disk), ?_, rfl, flush, access, id⟩
    rw [perform, flush.openAt access]
    rfl

theorem session_of_flush (flush : Flush log disk (written records))
    (access : disk.access log.path = .ok ()) (operations : List (Operation ρ)) :
    Log.session perform operations (log, disk) = .ok (Log.listed operations records) ∨
      ¬CanCompact log.path disk ∧
        ∃ fault, Log.session perform operations (log, disk) = .error fault := by
  have start : Remains log.path disk records (log, disk) := ⟨rfl, flush, access, id⟩
  refine Log.session_cases ?_ operations start
  rintro records ⟨other, between⟩ operation ⟨same, flush, access, can⟩
  rcases flush.turn (same ▸ access) operation
    with ⟨opened, done, stays, further, accessToo, canToo⟩ | ⟨cannot, failed⟩
  · exact .inl ⟨opened, done, stays.trans same, further, same ▸ accessToo,
      fun first => same ▸ canToo (same ▸ can first)⟩
  · exact .inr ⟨fun first => cannot (same ▸ can first), failed⟩

theorem openAt_blank {path : Path} (sound : disk.Sound) (new : (disk.fileAt? path).getD [] = []) :
    (∃ log after, FileLog.openAt ρ path disk = (.ok log, after) ∧ log.path = path ∧
      Flush log after (written ([] : List ρ))) ∨
    ∃ fault after, FileLog.openAt ρ path disk = (.error fault, after) := by
  rcases opened : FileLog.openAt ρ path disk with ⟨result, after⟩
  rcases there : disk.fileAt? path with _ | content
  · rcases openAt_new sound there opened with ⟨log, rfl, same, flush⟩ | ⟨fault, rfl, -⟩
    · exact .inl ⟨log, after, rfl, same, flush⟩
    · exact .inr ⟨fault, after, rfl⟩
  · rw [there] at new
    obtain rfl : content = written ([] : List ρ) := new
    rcases result with fault | log
    · exact .inr ⟨fault, after, rfl⟩
    · obtain ⟨kept, mended, same, flush⟩ := openAt_inv sound there opened
      rw [(kept_written ([] : List ρ)).mended_self] at mended
      cases mended
      exact .inl ⟨log, after, rfl, same, flush⟩

theorem session_cases {path : Path} (sound : disk.Sound) (new : (disk.fileAt? path).getD [] = [])
    (operations : List (Operation ρ)) :
    session path disk operations = .ok (Log.listed operations []) ∨
      (∀ log after, FileLog.openAt ρ path disk = (.ok log, after) → ¬CanCompact path after) ∧
        ∃ fault, session path disk operations = .error fault := by
  rcases openAt_blank (ρ := ρ) sound new
    with ⟨log, after, opened, rfl, flush⟩ | ⟨fault, after, refused⟩
  · rw [session, opened]
    obtain ⟨access, closed⟩ := access_of_openAt opened
    have still := (Disk.access_congr closed log.path).trans access
    refine (session_of_flush flush still operations).imp_right fun ⟨cannot, failed⟩ => ⟨?_, failed⟩
    rintro _ _ ⟨⟩
    exact cannot
  · rw [session, refused]
    exact .inr ⟨nofun, fault, rfl⟩

end Turns

end FileLog

namespace Log

/-- Both logs, when they are new, replay what a list would hold: the one in memory always, and the one in
a file as long as no operation fails. None does where it could be opened, and compacted if it were
compacted at once. -/
def BothAreLists (ρ : Type) [Record ρ] : Prop :=
  ∀ operations : List (Operation ρ),
    session MemoryLog.perform operations {} = .ok (listed operations []) ∧
    ∀ (path : Path) (disk : Disk), disk.Sound → (disk.fileAt? path).getD [] = [] →
      (∀ shown, FileLog.session path disk operations = .ok shown → shown = listed operations []) ∧
      ∀ log after, FileLog.openAt ρ path disk = (.ok log, after) → FileLog.CanCompact path after →
        FileLog.session path disk operations = .ok (listed operations [])

theorem bothAreLists (ρ : Type) [Record ρ] [LawfulRecord ρ] : BothAreLists ρ := by
  intro operations
  refine ⟨MemoryLog.session_eq operations, fun path disk sound new => ?_⟩
  rcases FileLog.session_cases sound new operations with listed_ | ⟨cannot, fault, failed⟩
  · refine ⟨fun shown done => ?_, fun _ _ _ _ => listed_⟩
    rw [listed_] at done
    exact (Except.ok.inj done).symm
  · refine ⟨fun shown done => ?_, fun log after opened can => absurd can (cannot log after opened)⟩
    rw [failed] at done
    cases done

theorem both_logs_are_lists :
    BothAreLists Coordinator.Entry ∧ BothAreLists Participant.Entry :=
  ⟨bothAreLists _, bothAreLists _⟩

theorem log_reread_after_compaction : FileLog.session ["log.txt"] {}
    [.append (.done "t"), .restart, .append (.done "u"), .replay, .compact [.done "v"], .restart,
      .replay] =
    .ok [Replay.of [Coordinator.Entry.done "t", .done "u"], Replay.of [.done "v"]] :=
  ((both_logs_are_lists.1 _).2 ["log.txt"] {} Sound.empty rfl).2 ⟨["log.txt"], 0, 0⟩ _ rfl ⟨⟨_, rfl⟩, rfl⟩

end Log

end AtomicCommit
