import AtomicCommit.Proofs.Log.Compacting

/-! What becomes of acknowledged records when a write is torn: by the end of the process, or while the
process lives on. A compaction that fails behind its last change leaves an open log whose file has lost
its name; what is appended to that is acknowledged, and gone when the log is opened again. -/

namespace AtomicCommit.FileLog

open Disk (Sound Legal Alike)

variable {ρ : Type} [Record ρ]

/-- What happens around a log file. An append that fails, or is cut short by the end of the process, has
written so many bytes of its line, but never all. -/
inductive Event (ρ : Type) [Record ρ] where
  | opened
  | appended (record : ρ)
  | compacted (records : List ρ)
  | torn (record : ρ) (count : Fin (Utf8.encode (Log.terminatedLine record)).length)
  | stopped
  /-- Other things than before cannot be opened from now on. -/
  | closed (closed : Table Path FileError)

/-- The disk, and the log that a running process has open. A compaction may have left that log behind;
something may have been written to one left behind. -/
structure History (ρ : Type) where
  disk : Disk
  log : Option FileLog := none
  behind : Bool := false
  strayed : Bool := false
  /-- The records that the process was told are safe. -/
  acknowledged : List ρ := []
  /-- Those of them that were written to a log that was not left behind. -/
  kept : List ρ := []

namespace History

def step (path : Path) (history : History ρ) : Event ρ → History ρ
  | .opened =>
    match openAt ρ path history.disk with
    | (.ok log, disk) => { history with disk := disk, log := some log, behind := false }
    | (.error _, disk) => { history with disk := disk, log := none, behind := false }
  | .appended record =>
    match history.log with
    | some log =>
      let (log, disk) := log.append record history.disk
      { history with
        disk := disk
        log := some log
        strayed := history.strayed || history.behind
        acknowledged := history.acknowledged ++ [record]
        kept := if history.behind then history.kept else history.kept ++ [record] }
    | none => history
  | .compacted records =>
    match history.log with
    | some log =>
      let renewed := { history with acknowledged := records, kept := records }
      match log.compact records history.disk with
      | (.ok (), log, disk) => { renewed with disk := disk, log := some log, behind := false }
      | (.error _, log, disk) =>
        if (history.disk.applyAll (compaction records path)).1.isOk then
          { renewed with disk := disk, log := some log, behind := true }
        else { history with disk := disk, log := some log }
    | none => history
  | .torn record count =>
    match history.log with
    | some log =>
      let part := (Utf8.encode (Log.terminatedLine record)).take count
      { history with
        disk := log.tear part history.disk
        strayed := history.strayed || history.behind }
    | none => history
  | .stopped => { history with log := none, behind := false }
  | .closed closed => { history with disk := { history.disk with closed := closed } }

def run (path : Path) (history : History ρ) (events : List (Event ρ)) : History ρ :=
  events.foldl (step path) history

variable {path : Path} {history : History ρ}

theorem strayed_of_step {event : Event ρ} (fine : (history.step path event).strayed = false) :
    history.strayed = false := by
  cases event with
  | opened | appended | torn => grind [step]
  | compacted => grind [step]
  | stopped | closed => exact fine

theorem strayed_of_run {events : List (Event ρ)} (fine : (history.run path events).strayed = false) :
    history.strayed = false := by
  induction events generalizing history with
  | nil => exact fine
  | cons event events ih => exact strayed_of_step (ih fine)

theorem kept_of_step (kept : history.strayed = false → history.kept = history.acknowledged)
    (event : Event ρ) (fine : (history.step path event).strayed = false) :
    (history.step path event).kept = (history.step path event).acknowledged := by
  have before := kept (strayed_of_step fine)
  cases event with
  | opened | compacted | torn => grind [step]
  | appended => grind [step]
  | stopped | closed => exact before

theorem kept_of_run (kept : history.strayed = false → history.kept = history.acknowledged)
    {events : List (Event ρ)} (fine : (history.run path events).strayed = false) :
    (history.run path events).kept = (history.run path events).acknowledged := by
  induction events generalizing history with
  | nil => exact kept fine
  | cons event events ih => exact ih (kept_of_step kept event) fine

end History

section Astray

variable {log : FileLog} {disk after : Disk} {path place : Path} {draft name : String}
  {content : Bytes} {file number : Nat}

def OnlyAt (path : Path) (file : Nat) (disk : Disk) : Prop :=
  ∀ other, disk.node? other = some (.file file) → other = path

def Astray (file : Nat) (disk : Disk) : Prop := ∀ path, disk.node? path ≠ some (.file file)

theorem OnlyAt.setContent (only : OnlyAt path file disk) (number : Nat) (bytes : Bytes) :
    OnlyAt path file (disk.setContent number bytes) := by
  intro other there
  rw [Disk.node?_setContent] at there
  exact only other there

theorem Astray.setContent (astray : Astray file disk) (number : Nat) (bytes : Bytes) :
    Astray file (disk.setContent number bytes) := by
  intro path
  rw [Disk.node?_setContent]
  exact astray path

theorem create_onlyAt (created : disk.create (place ++ [draft]) = .ok (number, after))
    (given : file < disk.nextFile) (only : OnlyAt path file disk) :
    file < after.nextFile ∧ OnlyAt path file after := by
  obtain ⟨between, opened, rfl⟩ := Disk.create_eq_ok.mp created
  rw [Disk.openFile] at opened
  split at opened <;> cases opened
  · exact ⟨given, only.setContent _ _⟩
  · refine ⟨Nat.lt_succ_of_lt given, fun other there => ?_⟩
    rw [Disk.node?_setContent] at there
    have nodes := there.symm.trans (disk.newFile.node?_insert (.file disk.nextFile)
      (Disk.child_ne_nil place draft) other)
    split at nodes
    · cases nodes
      exact absurd given (Nat.lt_irrefl _)
    · rw [Disk.node?_newFile] at nodes
      exact only other nodes.symm

theorem rename_astray (distinct : draft ≠ name) (only : OnlyAt (place ++ [name]) file disk)
    (renamed : disk.rename (place ++ [draft]) (place ++ [name]) = .ok after) :
    after.nextFile = disk.nextFile ∧ Astray file after := by
  obtain ⟨number, _, found, -, -, rfl⟩ := Disk.rename_eq_ok.mp renamed
  have there := (Disk.lookup_ok found).1
  refine ⟨rfl, fun other here => ?_⟩
  have moved := Disk.node?_insert { disk with nodes := disk.nodes.erase (place ++ [draft]) }
    (.file number) (Disk.child_ne_nil place name) other
  rw [here, Disk.node?_erase _ (Disk.child_ne_nil place draft)] at moved
  split at moved
  · cases moved
    exact distinct (by simpa using only _ there)
  next elsewhere =>
    split at moved
    · cases moved
    · exact elsewhere (only other moved.symm)

theorem writes_astray (distinct : draft ≠ name) (given : file < disk.nextFile)
    (only : OnlyAt (place ++ [name]) file disk) (records : List ρ)
    (applied : disk.applyAll (lineWrites (place ++ [draft]) records ++
      [.rename (place ++ [draft]) (place ++ [name])]) = (.ok (), after)) :
    file < after.nextFile ∧ Astray file after := by
  induction records generalizing disk with
  | nil =>
    obtain ⟨last, renamed, ⟨⟩⟩ := Disk.applyAll_cons_eq_ok.mp applied
    obtain ⟨same, astray⟩ := rename_astray distinct only renamed
    exact ⟨same ▸ given, astray⟩
  | cons record records ih =>
    obtain ⟨between, wrote, further⟩ := Disk.applyAll_cons_eq_ok.mp applied
    obtain ⟨number, -, rfl⟩ := Disk.apply_write_eq_ok.mp wrote
    refine ih ?_ (only.setContent _ _) further
    exact given

theorem compaction_astray (sound : disk.Sound) (there : disk.fileAt? path = some content)
    (distinct : draftPath path ≠ path) (given : file < disk.nextFile)
    (only : OnlyAt path file disk) {records : List ρ}
    (applied : disk.applyAll (compaction records path) = (.ok (), after)) :
    file < after.nextFile ∧ Astray file after := by
  rw [compaction_eq] at applied
  obtain ⟨first, made, further⟩ := Disk.applyAll_cons_eq_ok.mp applied
  obtain ⟨number, created⟩ := Disk.apply_create_eq_ok.mp made
  obtain ⟨place, name, draft, rfl, beside⟩ := draft_beside sound there created
  rw [beside] at created further distinct
  obtain ⟨givenToo, onlyToo⟩ := create_onlyAt created given only
  exact writes_astray (by simpa using distinct) givenToo onlyToo records further

theorem setContent_astray (sound : disk.Sound) (astray : Astray file disk) (bytes : Bytes) :
    Alike (fun _ => False) disk (disk.setContent file bytes) := by
  refine ⟨sound.setContent bytes, fun path _ =>
    Disk.fileAt?_congr sound (sound.setContent bytes) Iff.rfl (fun number => ?_) ?_⟩
  · rw [Disk.node?_setContent]
  · intro number there
    rw [Disk.content_setContent, if_neg]
    rintro rfl
    exact astray path there

theorem tear_astray (sound : disk.Sound) (astray : Astray log.file disk) (bytes : Bytes) :
    Alike (fun _ => False) disk (log.tear bytes disk) ∧ Astray log.file (log.tear bytes disk) ∧
      (log.tear bytes disk).nextFile = disk.nextFile := by
  rw [tear]
  split
  · exact ⟨setContent_astray sound astray _, astray.setContent _ _, rfl⟩
  · have still : Astray log.file (disk.resize log.file log.length) := astray.setContent _ _
    have first : Alike (fun _ => False) disk (disk.resize log.file log.length) :=
      setContent_astray sound astray _
    exact ⟨first.trans (setContent_astray first.sound still _), still.setContent _ _, rfl⟩

end Astray

def Leftover (ρ : Type) [Record ρ] (part : Bytes) : Prop :=
  part = [] ∨ ∃ record : ρ, part <+: Utf8.encode (Log.terminatedLine record) ∧
    part ≠ Utf8.encode (Log.terminatedLine record)

/-- The open log knows where the records end, unless it has been left behind. Then its file is another
one, if not even the new one of the compaction. -/
structure Working (path : Path) (history : History ρ) (log : FileLog) : Prop where
  same : log.path = path
  inPlace : history.behind = false → log.length = (written history.kept).length ∧
    history.disk.node? path = some (.file log.file)
  left : history.behind → draftPath path ≠ path →
    log.file < history.disk.nextFile ∧ Astray log.file history.disk

/-- The file holds the records that were kept and nothing else but a leftover. Before the log was first
opened there is no file. -/
inductive Keeps (path : Path) : History ρ → Prop
  | new {disk : Disk} (sound : disk.Sound) (nothing : disk.fileAt? path = none) :
      Keeps path { disk := disk }
  | file {history : History ρ} {part : Bytes} (leftover : Leftover ρ part) (sound : history.disk.Sound)
      (there : history.disk.fileAt? path = some (written history.kept ++ part))
      (working : ∀ log, history.log = some log → Working path history log) : Keeps path history

section Keeping

variable {path : Path} {history : History ρ} {log : FileLog} {disk : Disk}

theorem Keeps.of_flush (same : log.path = path) (inPlace : history.behind = false)
    (running : history.log = some log) (flush : Flush log history.disk (written history.kept)) :
    Keeps path history := by
  refine .file (.inl rfl : Leftover ρ []) flush.sound ?_ ?_
  · rw [List.append_nil, ← same]
    exact flush.fileAt?
  · intro other runningToo
    obtain rfl := Option.some.inj (running.symm.trans runningToo)
    refine ⟨same, fun _ => ⟨flush.length, same ▸ flush.node⟩, ?_⟩
    rw [inPlace]
    nofun

theorem leftover_take (record : ρ) (count : Fin (Utf8.encode (Log.terminatedLine record)).length) :
    Leftover ρ ((Utf8.encode (Log.terminatedLine record)).take count) := by
  refine .inr ⟨record, List.take_prefix _ _, fun whole => ?_⟩
  have lengths := congrArg List.length whole
  rw [List.length_take] at lengths
  omega

theorem Keeps.stopped (keeps : Keeps path history) : Keeps path (history.step path .stopped) := by
  cases keeps with
  | new sound nothing => exact .new sound nothing
  | file leftover sound there _ => exact .file leftover sound there (by rintro _ ⟨⟩)

theorem Keeps.closed (keeps : Keeps path history) (closed : Table Path FileError) :
    Keeps path (history.step path (.closed closed)) := by
  cases keeps with
  | new sound nothing =>
    have alike := sound.closed_alike closed
    exact .new alike.sound ((alike.files path not_false).trans nothing)
  | file leftover sound there working =>
    have alike := sound.closed_alike closed
    refine .file leftover alike.sound ((alike.files path not_false).trans there) fun log running => ?_
    obtain ⟨named, inPlace, left⟩ := working log running
    refine ⟨named, fun here => ?_, fun behind distinct => ?_⟩
    · exact ⟨(inPlace here).1, (Disk.node?_closed ..).trans (inPlace here).2⟩
    · obtain ⟨given, astray⟩ := left behind distinct
      exact ⟨given, fun other found => astray other ((Disk.node?_closed ..).symm.trans found)⟩

theorem Keeps.inPlace (keeps : Keeps path history) (running : history.log = some log)
    (here : history.behind = false) : ∃ part, Leftover ρ part ∧ log.path = path ∧
      log.length = (written history.kept).length ∧
        Attached log history.disk (written history.kept ++ part) := by
  cases keeps with
  | new => cases running
  | file leftover sound there working =>
    obtain ⟨same, inPlace, -⟩ := working log running
    obtain ⟨length, node⟩ := inPlace here
    obtain ⟨legal, file, nodeToo, held⟩ := sound.fileAt?_eq_some.mp there
    obtain rfl : log.file = file := by simpa [node] using nodeToo
    exact ⟨_, leftover, same, length, sound, same ▸ legal, same ▸ node, held⟩

theorem append_behind {kept : List ρ} {rest : Bytes}
    (attached : Attached log disk (written kept ++ rest))
    (known : log.length = (written kept).length) (record : ρ) :
    (log.append record disk).1.path = log.path ∧
      Flush (log.append record disk).1 (log.append record disk).2 (written (kept ++ [record])) := by
  have appended := attached.append (by simp [known]) record
  rw [known, List.take_left] at appended
  simpa [written] using appended

theorem tear_behind {kept : List ρ} {rest : Bytes}
    (attached : Attached log disk (written kept ++ rest))
    (known : log.length = (written kept).length) (part : Bytes) :
    Attached log (log.tear part disk) (written kept ++ part) := by
  have torn := attached.tear (by simp [known]) part
  rwa [known, List.take_left] at torn

theorem Keeps.astray (keeps : Keeps path history) (running : history.log = some log)
    (behind : history.behind) (distinct : draftPath path ≠ path) (part : Bytes) {after : History ρ}
    (disk : after.disk = log.tear part history.disk) (kept : after.kept = history.kept)
    (behindToo : after.behind) (left : ∀ other, after.log = some other →
      other.path = log.path ∧ other.file = log.file) : Keeps path after := by
  cases keeps with
  | new => cases running
  | file leftover sound there working =>
    obtain ⟨same, -, gone⟩ := working log running
    obtain ⟨given, astray⟩ := gone behind distinct
    obtain ⟨alike, still, next⟩ := tear_astray sound astray part
    refine .file leftover (disk ▸ alike.sound) ?_ fun other runningToo => ?_
    · rw [disk, alike.files path not_false, there, kept]
    · obtain ⟨sameToo, file⟩ := left other runningToo
      refine ⟨sameToo.trans same, ?_, fun _ _ => ?_⟩
      · rw [behindToo]
        nofun
      · rw [disk, file, next]
        exact ⟨given, still⟩

theorem Keeps.compacted (keeps : Keeps path history) (records : List ρ) :
    Keeps path (history.step path (.compacted records)) := by
  cases keeps with
  | new sound nothing => exact .new sound nothing
  | file leftover sound there working =>
    rw [History.step]
    split
    swap
    · exact .file leftover sound there working
    next log running =>
      obtain ⟨same, inPlace, left⟩ := working log running
      rcases compact_cases sound (same ▸ there) records
        with ⟨unmade, fault, failed⟩ | ⟨log', after, applied, sameToo, flush, done | ⟨e, -, failed⟩⟩
      · rw [same] at unmade
        simp only [failed, unmade, ← running]
        exact .file leftover sound there working
      · rw [done]
        exact .of_flush (sameToo.trans same) rfl rfl flush
      · rw [same] at applied
        simp only [failed, applied, Except.isOk, Except.toBool, if_true]
        refine .file (.inl rfl : Leftover ρ []) flush.sound ?_ ?_
        · rw [List.append_nil, ← same, ← sameToo]
          exact flush.fileAt?
        · rintro _ ⟨⟩
          refine ⟨same, nofun, fun _ distinct => ?_⟩
          obtain ⟨given, only⟩ : log.file < history.disk.nextFile ∧
              OnlyAt path log.file history.disk := by
            cases here : history.behind with
            | false =>
              have node := (inPlace here).2
              exact ⟨sound.given _ _ node, fun other found => sound.single _ _ _ found node⟩
            | true =>
              obtain ⟨given, astray⟩ := left here distinct
              exact ⟨given, fun other found => absurd found (astray other)⟩
          exact compaction_astray sound there distinct given only applied

structure Unhindered (history : History ρ) : Prop where
  open_ : history.disk.closed = ∅
  here : history.behind = false
  fine : history.strayed = false

theorem Unhindered.step (free : Unhindered history) (keeps : Keeps path history) {event : Event ρ}
    (allowed : ∀ closed, event ≠ .closed closed) : Unhindered (history.step path event) := by
  obtain ⟨open_, here, fine⟩ := free
  cases event with
  | closed closed => exact absurd rfl (allowed closed)
  | stopped => exact ⟨open_, rfl, fine⟩
  | opened =>
    have closed := openAt_closed ρ path history.disk
    rw [History.step]
    split <;> next found =>
      rw [found] at closed
      exact ⟨closed.trans open_, rfl, fine⟩
  | appended record =>
    rw [History.step]
    split
    next log running => exact ⟨(log.tear_closed _ _).trans open_, here, by simp [here, fine]⟩
    next => exact ⟨open_, here, fine⟩
  | torn record count =>
    rw [History.step]
    split
    next log running => exact ⟨(log.tear_closed _ _).trans open_, here, by simp [here, fine]⟩
    next => exact ⟨open_, here, fine⟩
  | compacted records =>
    cases keeps with
    | new sound nothing => exact ⟨open_, rfl, rfl⟩
    | file leftover sound there working =>
      rw [History.step]
      split
      swap
      · exact ⟨open_, here, fine⟩
      next log running =>
        have same := (working log running).same
        rcases compact_cases sound (same ▸ there) records
          with ⟨unmade, fault, failed⟩ | ⟨log', after, applied, -, -, done | ⟨e, lost, -⟩⟩
        · rw [same] at unmade
          simp only [failed, unmade]
          exact ⟨open_, here, fine⟩
        · rw [done]
          exact ⟨(Disk.Stopped.of_applyAll applied).closed.trans open_, rfl, fine⟩
        · simp [regained, Disk.sync, Disk.access, open_, Except.bind] at lost

variable [LawfulRecord ρ]

theorem mended_leftover (records : List ρ) {part : Bytes} (leftover : Leftover ρ part) :
    mended ρ (written records ++ part) = .ok (written records) := by
  rcases leftover with rfl | ⟨record, ahead, short⟩
  · rw [List.append_nil]
    exact (kept_written records).mended_self
  · exact mended_torn record records ahead short

theorem Keeps.opened (keeps : Keeps path history) : Keeps path (history.step path .opened) := by
  rw [History.step]
  cases keeps with
  | new sound nothing =>
    split
    next log after opened =>
      rcases openAt_new sound nothing opened with ⟨_, ⟨⟩, same, flush⟩ | ⟨_, ⟨⟩, _⟩
      exact .of_flush same rfl rfl flush
    next after opened =>
      rcases openAt_new sound nothing opened with ⟨_, ⟨⟩, _⟩ | ⟨_, ⟨⟩, alike⟩
      exact .new alike.sound ((alike.files path not_false).trans nothing)
  | file leftover sound there working =>
    split
    next log after opened =>
      obtain ⟨content, mended, same, flush⟩ := openAt_inv sound there opened
      rw [mended_leftover history.kept leftover] at mended
      cases mended
      exact .of_flush same rfl rfl flush
    next after refused =>
      rw [openAt_error sound there refused]
      exact .file leftover sound there (by rintro _ ⟨⟩)

theorem Keeps.step (keeps : Keeps path history) (event : Event ρ)
    (fair : draftPath path ≠ path ∨ (history.step path event).strayed = false) :
    Keeps path (history.step path event) := by
  cases event with
  | opened => exact keeps.opened
  | stopped => exact keeps.stopped
  | closed closed => exact keeps.closed closed
  | compacted records => exact keeps.compacted records
  | appended record =>
    rw [History.step] at fair ⊢
    split
    next log running =>
      cases here : history.behind with
      | false =>
        obtain ⟨part, -, same, known, attached⟩ := keeps.inPlace running here
        obtain ⟨sameToo, flush⟩ := append_behind attached known record
        exact .of_flush (sameToo.trans same) rfl rfl (by simpa using flush)
      | true =>
        have distinct := fair.resolve_right (by simp [running, here])
        refine keeps.astray running here distinct _ rfl (by simp) rfl ?_
        rintro _ ⟨⟩
        exact ⟨rfl, rfl⟩
    next => exact keeps
  | torn record count =>
    rw [History.step] at fair ⊢
    split
    next log running =>
      cases here : history.behind with
      | false =>
        obtain ⟨part, -, same, known, attached⟩ := keeps.inPlace running here
        have torn := tear_behind attached known ((Utf8.encode (Log.terminatedLine record)).take count)
        refine .file (leftover_take record count) torn.sound (same ▸ torn.fileAt?) ?_
        intro other runningToo
        obtain rfl := Option.some.inj (running.symm.trans runningToo)
        refine ⟨same, fun _ => ⟨known, same ▸ torn.node⟩, ?_⟩
        nofun
      | true =>
        have distinct := fair.resolve_right (by simp [running, here])
        refine keeps.astray running here distinct _ rfl rfl rfl fun other runningToo => ?_
        obtain rfl := Option.some.inj (running.symm.trans runningToo)
        exact ⟨rfl, rfl⟩
    next => exact keeps

theorem Keeps.run (keeps : Keeps path history) {events : List (Event ρ)}
    (fair : draftPath path ≠ path ∨ (history.run path events).strayed = false) :
    Keeps path (history.run path events) := by
  induction events generalizing history with
  | nil => exact keeps
  | cons event events ih => exact ih (keeps.step event (fair.imp_right History.strayed_of_run)) fair

theorem Keeps.read (keeps : Keeps path history) (running : history.log = some log)
    (access : history.disk.access path = .ok ()) :
    reopened ρ path history.disk = .ok ⟨history.kept.map .ok, none⟩ := by
  cases keeps with
  | new => cases running
  | file leftover sound there _ =>
    rw [reopened_eq sound access there, mended_leftover _ leftover, Except.map, replayed_written]

theorem Unhindered.run (free : Unhindered history) (keeps : Keeps path history)
    {events : List (Event ρ)} (allowed : ∀ closed, .closed closed ∉ events) :
    Unhindered (history.run path events) := by
  induction events generalizing history with
  | nil => exact free
  | cons event events ih =>
    simp only [List.mem_cons, not_or] at allowed
    have further := free.step keeps fun closed same => (allowed closed).1 same.symm
    exact ih further (keeps.step event (.inr further.fine)) fun closed => (allowed closed).2

end Keeping

section Survival

variable {path : Path} {history : History ρ} {log : FileLog} {disk : Disk}

/-- Who has the log open reads these records, and who opens it again, too. -/
def Replays (path : Path) (records : List ρ) (opened : FileLog × Disk) : Prop :=
  opened.1.replay opened.2 = .ok ⟨records.map .ok, none⟩ ∧
    reopened ρ path opened.2 = .ok ⟨records.map .ok, none⟩

/-- Whatever an append leaves that does not complete, these records are read, and behind them what is
appended next: by a process that opens the log again, and by one that lives on. -/
def Survive (path : Path) (records : List ρ) (log : FileLog) (disk : Disk) : Prop :=
  (∀ (record : ρ) (count : Fin (Utf8.encode (Log.terminatedLine record)).length), ∃ again after,
    openAt ρ path (log.tear ((Utf8.encode (Log.terminatedLine record)).take count) disk) =
      (.ok again, after) ∧ ∀ more, Replays path (records ++ more) (again.appendAll more after)) ∧
  ∀ (rest : Bytes) (record : ρ) (more : List ρ), Replays path (records ++ record :: more)
    (log.appendAll (record :: more) (disk.extend log.file rest))

theorem eq_of_reopened {records others : List ρ}
    (one : reopened ρ path disk = .ok ⟨records.map .ok, none⟩)
    (other : reopened ρ path disk = .ok ⟨others.map .ok, none⟩) : records = others := by
  have same := Except.ok.inj (one.symm.trans other)
  exact List.map_injective_iff.mpr (fun _ _ => Except.ok.inj) (congrArg Log.Replay.items same)

theorem Survive.read [Nonempty ρ] {records : List ρ} (survive : Survive path records log disk) :
    ∃ (record : ρ) (count : Fin (Utf8.encode (Log.terminatedLine record)).length),
      reopened ρ path (log.tear ((Utf8.encode (Log.terminatedLine record)).take count) disk) =
        .ok ⟨records.map .ok, none⟩ := by
  obtain ⟨record⟩ := ‹Nonempty ρ›
  have some : 0 < (Utf8.encode (Log.terminatedLine record)).length := by
    rw [Log.terminatedLine, Utf8.encode_append, List.length_append]
    exact Nat.add_pos_right _ (by decide)
  obtain ⟨again, after, opened, replays⟩ := survive.1 record ⟨0, some⟩
  refine ⟨record, ⟨0, some⟩, ?_⟩
  have read := (replays []).1
  rw [List.append_nil] at read
  rw [reopened, opened]
  exact read

variable [LawfulRecord ρ]

theorem Keeps.survive (keeps : Keeps path history) (running : history.log = some log)
    (here : history.behind = false) (access : history.disk.access path = .ok ()) :
    Survive path history.kept log history.disk := by
  obtain ⟨part, -, same, known, attached⟩ := keeps.inPlace running here
  constructor
  · intro record count
    have torn := tear_behind attached known ((Utf8.encode (Log.terminatedLine record)).take count)
    have closed := log.tear_closed ((Utf8.encode (Log.terminatedLine record)).take count) history.disk
    have accessToo := (Disk.access_congr closed path).trans access
    obtain ⟨again, after, opened, sameToo, flush⟩ :=
      openAt_of_fileAt? torn.sound accessToo (same ▸ torn.fileAt?)
        (mended_leftover history.kept (leftover_take record count))
    refine ⟨again, after, opened, fun more => ?_⟩
    obtain ⟨stays, all⟩ := flush.appendAll more
    rw [← written_append] at all
    have open_ := (again.appendAll_closed more after).trans (access_of_openAt opened).2
    exact all.replays (stays.trans sameToo) ((Disk.access_congr open_ path).trans accessToo)
  · intro rest record more
    have littered := attached.extend rest
    rw [List.append_assoc] at littered
    obtain ⟨stays, flush⟩ := append_behind littered known record
    obtain ⟨staysToo, all⟩ := flush.appendAll more
    rw [← written_append, List.append_assoc] at all
    have open_ := log.appendAll_closed (record :: more) (history.disk.extend log.file rest)
    exact all.replays ((staysToo.trans stays).trans same) ((Disk.access_congr open_ path).trans access)

theorem Keeps.read_torn (keeps : Keeps path history) (running : history.log = some log)
    (distinct : draftPath path ≠ path) (access : history.disk.access path = .ok ()) (record : ρ)
    (count : Fin (Utf8.encode (Log.terminatedLine record)).length) :
    reopened ρ path (log.tear ((Utf8.encode (Log.terminatedLine record)).take count) history.disk) =
      .ok ⟨history.kept.map .ok, none⟩ := by
  have further := keeps.step (.torn record count) (.inl distinct)
  simp only [History.step, running] at further
  exact further.read rfl ((Disk.access_congr (log.tear_closed _ _) path).trans access)

theorem Keeps.unread (keeps : Keeps path history) (running : history.log = some log)
    (behind : history.behind) (distinct : draftPath path ≠ path)
    (access : history.disk.access path = .ok ()) (rest : Bytes) (record : ρ) :
    reopened ρ path (log.append record (history.disk.extend log.file rest)).2 =
      .ok ⟨history.kept.map .ok, none⟩ := by
  cases keeps with
  | new => cases running
  | file leftover sound there working =>
    obtain ⟨-, astray⟩ := (working log running).left behind distinct
    have still : Astray log.file (history.disk.extend log.file rest) := astray.setContent _ _
    have littered : Alike (fun _ => False) history.disk (history.disk.extend log.file rest) :=
      setContent_astray sound astray _
    obtain ⟨alike, -⟩ :=
      tear_astray littered.sound still (Utf8.encode (Log.terminatedLine record))
    have thereToo := ((littered.trans alike).files path not_false).trans there
    have accessToo := (Disk.access_congr
      (log.tear_closed (Utf8.encode (Log.terminatedLine record))
        (history.disk.extend log.file rest)) path).trans access
    rw [append_eq, reopened_eq alike.sound accessToo thereToo, mended_leftover _ leftover, Except.map,
      replayed_written]

theorem survive_of_fine (sound : disk.Sound) (new : disk.fileAt? path = none) {events : List (Event ρ)}
    (running : (({ disk := disk } : History ρ).run path events).log = some log)
    (access : (({ disk := disk } : History ρ).run path events).disk.access path = .ok ())
    (fine : (({ disk := disk } : History ρ).run path events).strayed = false)
    (here : (({ disk := disk } : History ρ).run path events).behind = false) :
    Survive path (({ disk := disk } : History ρ).run path events).acknowledged log
      (({ disk := disk } : History ρ).run path events).disk := by
  have start : Keeps path ({ disk := disk } : History ρ) := .new sound new
  have same := History.kept_of_run (fun _ => rfl) fine
  have survive := (start.run (.inr fine)).survive running here access
  rwa [same] at survive

/-- As long as everything can be opened, no acknowledged record is lost. -/
theorem survive_of_unhindered (sound : disk.Sound) (new : disk.fileAt? path = none)
    (open_ : disk.closed = ∅) {events : List (Event ρ)} (allowed : ∀ closed, .closed closed ∉ events)
    (running : (({ disk := disk } : History ρ).run path events).log = some log) :
    Survive path (({ disk := disk } : History ρ).run path events).acknowledged log
      (({ disk := disk } : History ρ).run path events).disk := by
  have free : Unhindered (({ disk := disk } : History ρ).run path events) :=
    Unhindered.run ⟨open_, rfl, rfl⟩ (.new sound new) allowed
  refine survive_of_fine sound new running ?_ free.fine free.here
  rw [Disk.access, free.open_]
  rfl

/-- After a torn append the log is read with all acknowledged records, and with what is appended then,
unless a compaction that failed behind its last change has left an open log behind: then it is read
without the records that were acknowledged by that one. -/
theorem acknowledged_records_survive_iff [Nonempty ρ] (sound : disk.Sound)
    (new : disk.fileAt? path = none) (events : List (Event ρ))
    (running : (({ disk := disk } : History ρ).run path events).log = some log)
    (access : (({ disk := disk } : History ρ).run path events).disk.access path = .ok ()) :
    let history := ({ disk := disk } : History ρ).run path events
    (history.strayed = false → history.behind = false →
      Survive path history.acknowledged log history.disk) ∧
    (draftPath path ≠ path →
      (Survive path history.acknowledged log history.disk ↔
        history.behind = false ∧ history.kept = history.acknowledged) ∧
      ∀ (record : ρ) (count : Fin (Utf8.encode (Log.terminatedLine record)).length),
        reopened ρ path (log.tear ((Utf8.encode (Log.terminatedLine record)).take count) history.disk) =
          .ok ⟨history.kept.map .ok, none⟩) := by
  intro history
  have start : Keeps path ({ disk := disk } : History ρ) := .new sound new
  constructor
  · exact survive_of_fine sound new running access
  · intro distinct
    have keeps : Keeps path (({ disk := disk } : History ρ).run path events) :=
      start.run (.inl distinct)
    have torn := keeps.read_torn running distinct access
    refine ⟨⟨fun survive => ?_, fun ⟨here, same⟩ => ?_⟩, torn⟩
    · obtain ⟨record, count, read⟩ := survive.read
      have same := eq_of_reopened (torn record count) read
      refine ⟨?_, same⟩
      cases behind : history.behind with
      | false => rfl
      | true =>
        have further := (survive.2 [] record []).2
        have unread := keeps.unread running behind distinct access [] record
        have longer := congrArg List.length (eq_of_reopened further unread)
        rw [same, List.length_append, List.length_singleton] at longer
        omega
    · rw [← same]
      exact keeps.survive running here access

/-- A compaction that cannot sync the directory leaves the log behind; the record that is appended then
is acknowledged, and is not there when the log is opened again. Otherwise it would be. -/
theorem record_lost_behind_compaction :
    let path := ["d", "log.txt"]
    let unsynced : Table Path FileError := (∅ : Table Path FileError).insert ["d"] .notDirectory
    let done : Coordinator.Entry := .done "t"
    let safe := ({ disk := {} } : History Coordinator.Entry).run path [.opened, .appended done]
    let lost := ({ disk := {} } : History Coordinator.Entry).run path
      [.opened, .closed unsynced, .compacted [], .appended done, .closed ∅]
    (∃ log, safe.log = some log ∧ Survive path [done] log safe.disk) ∧
      ∃ log, lost.log = some log ∧ lost.acknowledged = [done] ∧
        ¬Survive path [done] log lost.disk := by
  intro path unsynced done safe lost
  have : Nonempty Coordinator.Entry := ⟨done⟩
  have new : ({} : Disk).fileAt? path = none := rfl
  constructor
  · refine ⟨_, rfl, ?_⟩
    exact (acknowledged_records_survive_iff Disk.Sound.empty new [.opened, .appended done] rfl rfl).1
      rfl rfl
  · refine ⟨_, rfl, rfl, fun survive => ?_⟩
    have distinct : draftPath path ≠ path := by decide
    have kept := ((acknowledged_records_survive_iff Disk.Sound.empty new
      [.opened, .closed unsynced, .compacted [], .appended done, .closed ∅] rfl rfl).2
        distinct).1.mp survive
    cases kept.2

end Survival

end AtomicCommit.FileLog
