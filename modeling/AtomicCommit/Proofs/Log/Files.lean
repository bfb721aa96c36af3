import AtomicCommit.Proofs.Files
import AtomicCommit.Proofs.Log.Replays

/-! What the operations on a log file do, in terms of the content that the file at its path has. -/

namespace AtomicCommit

namespace Disk

variable {disk after : Disk} {path : Path} {content : Bytes} {file : Nat}

theorem Legal.dropLast (legal : Legal path) : Legal path.dropLast :=
  ⟨fun name member => legal.1 name ((List.dropLast_sublist path).subset member),
    fun name member => legal.2 name ((List.dropLast_sublist path).subset member)⟩

theorem path_of_file (there : disk.node? path = some (.file file)) :
    ∃ place name, path = place ++ [name] := by
  rcases List.eq_nil_or_concat path with rfl | ⟨place, name, rfl⟩
  · cases there
  · exact ⟨place, name, List.concat_eq_append⟩

theorem Sound.lookup_of_node (sound : disk.Sound) (legal : Legal path)
    (there : disk.node? path = some (.file file)) : disk.lookup path = .ok file := by
  rw [lookup, sound.find_of_node there legal]

theorem Sound.openFile_of_node (sound : disk.Sound) (legal : Legal path)
    (there : disk.node? path = some (.file file)) : disk.openFile path = .ok (file, disk) := by
  rw [openFile, sound.find_of_node there legal]

theorem Sound.makeDirectories_of_node (sound : disk.Sound) (legal : Legal path)
    (there : disk.node? path = some (.file file)) :
    disk.makeDirectories path.dropLast = (.ok (), disk) := by
  obtain ⟨place, name, rfl⟩ := path_of_file there
  have parent : disk.node? (place ++ [name]).dropLast = some .directory := by
    rw [List.dropLast_concat]
    exact sound.parents place name (by simp [there])
  exact makeDirectories_of_find (sound.find_of_node parent legal.dropLast)

theorem rename_self (sound : disk.Sound) (legal : Legal path)
    (there : disk.node? path = some (.file file)) :
    ∃ after, disk.rename path path = .ok after ∧ Alike (fun _ => False) disk after := by
  obtain ⟨place, name, rfl⟩ := path_of_file there
  let after : Disk := { disk with
    nodes := (disk.nodes.erase (place ++ [name])).insert (place ++ [name]) (.file file) }
  have renamed : disk.rename (place ++ [name]) (place ++ [name]) = .ok after := by
    simp only [rename, sound.lookup_of_node legal there, sound.find_of_node there legal, bind,
      Except.bind]
    rfl
  have nodes : ∀ other, after.node? other = disk.node? other := by
    intro other
    have inserted := node?_insert { disk with nodes := disk.nodes.erase (place ++ [name]) }
      (.file file) (child_ne_nil place name) other
    rw [node?_erase _ (child_ne_nil place name)] at inserted
    refine inserted.trans ?_
    by_cases here : other = place ++ [name]
    · rw [if_pos here, here, there]
    · rw [if_neg here, if_neg here]
  have soundToo : after.Sound := by
    constructor <;> simp only [nodes]
    · exact sound.parents
    · exact sound.given
    · exact sound.single
  refine ⟨after, renamed, soundToo, fun other _ => ?_⟩
  exact fileAt?_congr sound soundToo Iff.rfl (fun number => by rw [nodes]) fun _ _ => rfl

end Disk

open Disk (Sound Legal Alike)

namespace FileLog

variable {ρ : Type} [Record ρ]

/-- The log has the file at its path open, and this is its content. -/
structure Attached (log : FileLog) (disk : Disk) (content : Bytes) : Prop where
  sound : disk.Sound
  legal : Legal log.path
  node : disk.node? log.path = some (.file log.file)
  held : disk.content log.file = content

structure Flush (log : FileLog) (disk : Disk) (content : Bytes) : Prop
    extends Attached log disk content where
  length : log.length = content.length

/-- An append that got only as far as these bytes. -/
def tear (log : FileLog) (bytes : Bytes) (disk : Disk) : Disk :=
  let disk := if (disk.content log.file).length = log.length then disk
    else disk.resize log.file log.length
  disk.extend log.file bytes

theorem append_eq (log : FileLog) (record : ρ) (disk : Disk) : log.append record disk =
    ({ log with length := log.length + (Utf8.encode (Log.terminatedLine record)).length },
      log.tear (Utf8.encode (Log.terminatedLine record)) disk) := rfl

section Operations

variable {log : FileLog} {disk : Disk} {path : Path} {content kept : Bytes}

theorem Attached.fileAt? (attached : Attached log disk content) :
    disk.fileAt? log.path = some content :=
  attached.sound.fileAt?_eq_some.mpr ⟨attached.legal, log.file, attached.node, attached.held⟩

theorem Attached.replay (attached : Attached log disk content) :
    log.replay disk = .ok (replayed ρ content) := by
  rw [FileLog.replay, attached.sound.lookup_of_node attached.legal attached.node]
  dsimp only
  rw [attached.held, replayed]

theorem Attached.setContent (attached : Attached log disk content) (bytes : Bytes) :
    Attached log (disk.setContent log.file bytes) bytes := by
  refine ⟨attached.sound.setContent bytes, attached.legal, ?_, ?_⟩
  · rw [Disk.node?_setContent, attached.node]
  · rw [Disk.content_setContent, if_pos rfl]

theorem Attached.extend (attached : Attached log disk content) (bytes : Bytes) :
    Attached log (disk.extend log.file bytes) (content ++ bytes) := by
  rw [Disk.extend, attached.held]
  exact attached.setContent _

theorem Attached.resize (attached : Attached log disk content) {length : Nat}
    (within : length ≤ content.length) :
    Attached log (disk.resize log.file length) (content.take length) := by
  rw [Disk.resize, attached.held, Nat.sub_eq_zero_of_le within, List.replicate_zero, List.append_nil]
  exact attached.setContent _

theorem Attached.tear (attached : Attached log disk content) (within : log.length ≤ content.length)
    (bytes : Bytes) : Attached log (log.tear bytes disk) (content.take log.length ++ bytes) := by
  have clean : Attached log (if (disk.content log.file).length = log.length then disk
      else disk.resize log.file log.length) (content.take log.length) := by
    rw [attached.held]
    split
    next whole =>
      rw [← whole, List.take_length]
      exact attached
    next => exact attached.resize within
  exact clean.extend bytes

theorem Attached.append (attached : Attached log disk content) (within : log.length ≤ content.length)
    (record : ρ) : (log.append record disk).1.path = log.path ∧
      Flush (log.append record disk).1 (log.append record disk).2
        (content.take log.length ++ Utf8.encode (Log.terminatedLine record)) := by
  have further := attached.tear within (Utf8.encode (Log.terminatedLine record))
  rw [append_eq]
  refine ⟨rfl, ⟨further.sound, further.legal, further.node, further.held⟩, ?_⟩
  rw [List.length_append, List.length_take_of_le within]

theorem Flush.append (flush : Flush log disk content) (record : ρ) :
    (log.append record disk).1.path = log.path ∧
      Flush (log.append record disk).1 (log.append record disk).2
        (content ++ Utf8.encode (Log.terminatedLine record)) := by
  have appended := flush.toAttached.append (Nat.le_of_eq flush.length) record
  rwa [flush.length, List.take_length] at appended

def appendAll (log : FileLog) (records : List ρ) (disk : Disk) : FileLog × Disk :=
  records.foldl (fun (log, disk) record => log.append record disk) (log, disk)

theorem Flush.appendAll (flush : Flush log disk content) (records : List ρ) :
    (log.appendAll records disk).1.path = log.path ∧
      Flush (log.appendAll records disk).1 (log.appendAll records disk).2
        (content ++ written records) := by
  induction records generalizing log disk content with
  | nil => exact ⟨rfl, by simpa [FileLog.appendAll, written] using flush⟩
  | cons record records ih =>
    obtain ⟨path, further⟩ := flush.append record
    obtain ⟨pathToo, all⟩ := ih further
    refine ⟨pathToo.trans path, ?_⟩
    rw [List.append_assoc] at all
    exact all

theorem tear_closed (log : FileLog) (bytes : Bytes) (disk : Disk) :
    (log.tear bytes disk).closed = disk.closed := by
  rw [tear]
  split <;> rfl

theorem appendAll_closed (log : FileLog) (records : List ρ) (disk : Disk) :
    (log.appendAll records disk).2.closed = disk.closed := by
  induction records generalizing log disk with
  | nil => rfl
  | cons record records ih => exact (ih _ _).trans (tear_closed log _ disk)

theorem Attached.repair_ok (attached : Attached log disk content)
    (access : disk.access log.path = .ok ()) (opened : mended ρ content = .ok kept) :
    ∃ after, repair ρ log.path disk = .ok after ∧ Attached log after kept := by
  rw [repair, attached.sound.lookup_of_node attached.legal attached.node]
  dsimp only
  rw [attached.held]
  cases scanned : torn ρ content with
  | error fault =>
    rw [mended, scanned] at opened
    cases opened
  | ok found =>
    cases found with
    | none =>
      rw [mended, scanned] at opened
      cases opened
      exact ⟨disk, rfl, attached⟩
    | some offset =>
      rw [mended, scanned] at opened
      cases opened
      obtain ⟨whole, rest, parts, -, rfl⟩ := torn_some scanned
      exact ⟨_, by simp only [access], attached.resize (by simp [parts])⟩

theorem repair_error {file : Nat} (found : disk.lookup path = .ok file)
    (held : disk.content file = content) {fault : LogError}
    (refused : mended ρ content = .error fault) : repair ρ path disk = .error fault := by
  rw [repair, found]
  dsimp only
  rw [held]
  cases scanned : torn ρ content with
  | error other =>
    rw [mended, scanned] at refused
    cases refused
    rfl
  | ok found =>
    rw [mended, scanned] at refused
    cases found <;> cases refused

theorem openTail_of_attached (attached : Attached log disk content)
    (access : disk.access log.path = .ok ()) :
    openTail log.path disk = .ok (⟨log.path, log.file, content.length⟩, disk) := by
  rw [openTail, access]
  dsimp only
  rw [attached.sound.openFile_of_node attached.legal attached.node]
  dsimp only
  rw [attached.held]

theorem repair_closed {after : Disk} (repaired : repair ρ path disk = .ok after) :
    after.closed = disk.closed := by
  rw [repair] at repaired
  split at repaired
  · cases repaired
    rfl
  · cases repaired
  split at repaired
  · cases repaired
  · cases repaired
    rfl
  split at repaired <;> cases repaired
  rfl

theorem openAt_of_fileAt? (sound : disk.Sound) (access : disk.access path = .ok ())
    (there : disk.fileAt? path = some content)
    (opened : mended ρ content = .ok kept) : ∃ log after, openAt ρ path disk = (.ok log, after) ∧
      log.path = path ∧ Flush log after kept := by
  obtain ⟨legal, file, node, held⟩ := sound.fileAt?_eq_some.mp there
  have attached : Attached ⟨path, file, 0⟩ disk content := ⟨sound, legal, node, held⟩
  obtain ⟨after, repaired, left⟩ := attached.repair_ok access opened
  rw [openAt, sound.makeDirectories_of_node legal node]
  dsimp only at repaired ⊢
  rw [repaired]
  dsimp only
  rw [openTail_of_attached left ((Disk.access_congr (repair_closed repaired) path).trans access)]
  exact ⟨_, _, rfl, rfl, ⟨left.sound, left.legal, left.node, left.held⟩, rfl⟩

theorem openAt_refused (sound : disk.Sound) (there : disk.fileAt? path = some content)
    {fault : LogError} (refused : mended ρ content = .error fault) :
    openAt ρ path disk = (.error fault, disk) := by
  obtain ⟨legal, file, node, held⟩ := sound.fileAt?_eq_some.mp there
  have repaired := repair_error (sound.lookup_of_node legal node) held refused
  rw [openAt, sound.makeDirectories_of_node legal node]
  dsimp only at repaired ⊢
  rw [repaired]

theorem repair_of_nothing (nothing : disk.fileAt? path = none) :
    repair ρ path disk = .ok disk ∨ ∃ fault, repair ρ path disk = .error fault := by
  rw [repair]
  split
  · exact .inl rfl
  · exact .inr ⟨_, rfl⟩
  next file found => simp [Disk.fileAt?, Disk.read, found, Except.map, Except.toOption] at nothing

theorem openTail_ok {after : Disk} (opened : openTail path disk = .ok (log, after)) :
    disk.access path = .ok () ∧ ∃ file, disk.openFile path = .ok (file, after) ∧
      log = ⟨path, file, (after.content file).length⟩ := by
  rw [openTail] at opened
  split at opened
  · cases opened
  next access =>
    split at opened
    · cases opened
    next file between found =>
      cases opened
      exact ⟨access, file, found, rfl⟩

theorem openTail_of_nothing (sound : disk.Sound) (nothing : disk.fileAt? path = none) {after : Disk}
    (opened : openTail path disk = .ok (log, after)) : log.path = path ∧ Flush log after [] := by
  obtain ⟨-, file, found, rfl⟩ := openTail_ok opened
  obtain ⟨place, name, rfl⟩ : ∃ place name, path = place ++ [name] := by
    rcases List.eq_nil_or_concat path with rfl | ⟨place, name, same⟩
    · cases found
    · exact ⟨place, name, same.trans List.concat_eq_append⟩
  obtain ⟨alike, there, legal⟩ := Disk.openFile_spec sound found
  have empty : after.content file = [] := by
    rw [Disk.openFile] at found
    split at found
    · cases found
    · cases found
    next node =>
      cases found
      have held := sound.fileAt?_eq_some.mpr ⟨legal, file, there, rfl⟩
      rw [nothing] at held
      cases held
    · cases found
      simp [Disk.content]
  exact ⟨rfl, ⟨alike.sound, legal, there, empty⟩, congrArg List.length empty⟩

theorem openAt_new (sound : disk.Sound) (nothing : disk.fileAt? path = none)
    {result : Except LogError FileLog} {after : Disk} (opened : openAt ρ path disk = (result, after)) :
    (∃ log, result = .ok log ∧ log.path = path ∧ Flush log after []) ∨
      ∃ fault, result = .error fault ∧ Alike (fun _ => False) disk after := by
  have alike := Disk.makeDirectories_alike sound path.dropLast
  rw [openAt] at opened
  rcases made : disk.makeDirectories path.dropLast with ⟨_ | _, between⟩
  · rw [made] at opened alike
    cases opened
    exact .inr ⟨_, rfl, alike⟩
  rw [made] at opened alike
  dsimp only at opened alike
  have still : between.fileAt? path = none := (alike.files path not_false).trans nothing
  rcases repair_of_nothing (ρ := ρ) still with repaired | ⟨fault, repaired⟩
  · rw [repaired] at opened
    dsimp only at opened
    split at opened
    · cases opened
      exact .inr ⟨_, rfl, alike⟩
    next found =>
      cases opened
      exact .inl ⟨_, rfl, openTail_of_nothing alike.sound still found⟩
  · rw [repaired] at opened
    cases opened
    exact .inr ⟨_, rfl, alike⟩

theorem openAt_closed (ρ : Type) [Record ρ] (path : Path) (disk : Disk) :
    (openAt ρ path disk).2.closed = disk.closed := by
  have made := disk.makeDirectories_closed path.dropLast
  rw [openAt]
  split
  next e between making =>
    rw [making] at made
    exact made
  next between making =>
    rw [making] at made
    split
    · exact made
    next mended repaired =>
      have same := (repair_closed repaired).trans made
      split
      · exact same
      next found =>
        obtain ⟨-, file, here, -⟩ := openTail_ok found
        exact (Disk.openFile_closed here).trans same

theorem access_of_openAt {after : Disk} (opened : openAt ρ path disk = (.ok log, after)) :
    disk.access path = .ok () ∧ after.closed = disk.closed := by
  have same := openAt_closed ρ path disk
  rw [opened] at same
  refine ⟨?_, same⟩
  have made := disk.makeDirectories_closed path.dropLast
  rw [openAt] at opened
  split at opened
  · cases opened
  next between making =>
    rw [making] at made
    split at opened
    · cases opened
    next mended repaired =>
      split at opened
      · cases opened
      next found =>
        rw [← (openTail_ok found).1, Disk.access_congr ((repair_closed repaired).trans made)]

theorem openAt_inv (sound : disk.Sound) (there : disk.fileAt? path = some content) {after : Disk}
    (opened : openAt ρ path disk = (.ok log, after)) :
    ∃ kept, mended ρ content = .ok kept ∧ log.path = path ∧ Flush log after kept := by
  cases scanned : mended ρ content with
  | error fault =>
    rw [openAt_refused sound there scanned] at opened
    cases opened
  | ok kept =>
    obtain ⟨other, _, openedToo, same, flush⟩ :=
      openAt_of_fileAt? sound (access_of_openAt opened).1 there scanned
    rw [openedToo] at opened
    cases opened
    exact ⟨kept, rfl, same, flush⟩

theorem repair_of_closed {e : FileError} (closed : disk.access path = .error e) :
    repair ρ path disk = .ok disk ∨ ∃ fault, repair ρ path disk = .error fault := by
  rw [repair]
  split
  · exact .inl rfl
  · exact .inr ⟨_, rfl⟩
  split
  · exact .inr ⟨_, rfl⟩
  · exact .inl rfl
  · rw [closed]
    exact .inr ⟨_, rfl⟩

theorem openAt_error (sound : disk.Sound) (there : disk.fileAt? path = some content) {fault : LogError}
    {after : Disk} (refused : openAt ρ path disk = (.error fault, after)) : after = disk := by
  rcases access : disk.access path with e | ⟨⟨⟩⟩
  · obtain ⟨legal, file, node, -⟩ := sound.fileAt?_eq_some.mp there
    rw [openAt, sound.makeDirectories_of_node legal node] at refused
    rcases repair_of_closed (ρ := ρ) access with repaired | ⟨other, repaired⟩
    · simp only [repaired, openTail, access] at refused
      cases refused
      rfl
    · simp only [repaired] at refused
      cases refused
      rfl
  · cases scanned : mended ρ content with
    | error other =>
      rw [openAt_refused sound there scanned] at refused
      cases refused
      rfl
    | ok kept =>
      obtain ⟨log, _, opened, -⟩ := openAt_of_fileAt? sound access there scanned
      rw [opened] at refused
      cases refused

end Operations

section Reopening

variable {log : FileLog} {disk : Disk} {path : Path} {content : Bytes}

/-- What a process reads that opens the log at this path. -/
def reopened (ρ : Type) [Record ρ] (path : Path) (disk : Disk) : Except LogError (Log.Replay ρ) :=
  match openAt ρ path disk with
  | (.ok log, disk) => log.replay disk
  | (.error fault, _) => .error fault

theorem reopened_eq (sound : disk.Sound) (access : disk.access path = .ok ())
    (there : disk.fileAt? path = some content) :
    reopened ρ path disk = (mended ρ content).map (replayed ρ) := by
  rw [reopened]
  cases opened : mended ρ content with
  | error fault =>
    rw [openAt_refused sound there opened]
    rfl
  | ok kept =>
    obtain ⟨log, after, opens, -, flush⟩ := openAt_of_fileAt? sound access there opened
    rw [opens]
    exact flush.toAttached.replay

variable [LawfulRecord ρ]

theorem reopened_written (sound : disk.Sound) (access : disk.access path = .ok ()) {records : List ρ}
    (there : disk.fileAt? path = some (written records)) :
    reopened ρ path disk = .ok ⟨records.map .ok, none⟩ := by
  rw [reopened_eq sound access there, (kept_written records).mended_self, Except.map, replayed_written]

theorem Flush.replays {records : List ρ} (same : log.path = path)
    (access : disk.access path = .ok ()) (flush : Flush log disk (written records)) :
    log.replay disk = .ok ⟨records.map .ok, none⟩ ∧
      reopened ρ path disk = .ok ⟨records.map .ok, none⟩ := by
  constructor
  · rw [flush.toAttached.replay, replayed_written]
  · exact reopened_written flush.sound access (same ▸ flush.toAttached.fileAt?)

end Reopening

end FileLog

end AtomicCommit
