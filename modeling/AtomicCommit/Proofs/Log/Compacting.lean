import AtomicCommit.Proofs.Log.Files

/-! Compacting a log in a file: the records are written next to the log, which then changes hands in one
step. What a stop on the way leaves of the log, and where the new file is not next to it. -/

namespace AtomicCommit

open Disk (Sound Legal Alike Change)

/-- A disk as a process has left it that was stopped on its way through these changes. Of a write it may
have made a part. -/
inductive Disk.Stopped : List Change → Disk → Disk → Prop
  | here (changes : List Change) (disk : Disk) : Stopped changes disk disk
  | within {disk : Disk} {path : Path} {file : Nat} {bytes part : Bytes} {rest : List Change}
      (found : disk.lookup path = .ok file) (ahead : part <+: bytes) :
      Stopped (.write path bytes :: rest) disk (disk.extend file part)
  | next {disk between after : Disk} {change : Change} {rest : List Change}
      (made : disk.apply change = .ok between) (stopped : Stopped rest between after) :
      Stopped (change :: rest) disk after

namespace Disk.Stopped

variable {disk after : Disk} {changes : List Change}

theorem of_applyAll (applied : disk.applyAll changes = (.ok (), after)) : Stopped changes disk after := by
  induction changes generalizing disk with
  | nil =>
    cases applied
    exact .here [] _
  | cons change rest ih =>
    obtain ⟨between, made, further⟩ := applyAll_cons_eq_ok.mp applied
    exact .next made (ih further)

theorem closed (stopped : Stopped changes disk after) : after.closed = disk.closed := by
  induction stopped with
  | here => rfl
  | within => rfl
  | next made _ ih => exact ih.trans (apply_closed made)

end Disk.Stopped

open Disk (Stopped)

namespace FileLog

variable {ρ : Type} [Record ρ]

section Drafts

def lineWrites (draft : Path) (records : List ρ) : List Change :=
  records.map fun record => .write draft (Utf8.encode (Log.terminatedLine record))

theorem compaction_eq (records : List ρ) (path : Path) : compaction records path =
    .create (draftPath path) ::
      (lineWrites (draftPath path) records ++ [.rename (draftPath path) path]) := rfl

theorem draftPath_cases (place : Path) (name : String) :
    draftPath (place ++ [name]) = place.dropLast ∨
      draftPath (place ++ [name]) = place ++ [String.ofList (stem name.toList) ++ ".compact"] := by
  simp only [draftPath, List.getLast?_concat, List.dropLast_concat]
  split
  · exact .inl rfl
  · exact .inr rfl

variable {disk after : Disk} {place : Path} {name draft : String} {content former : Bytes}

theorem create_above (sound : disk.Sound) (inside : disk.node? place = some .directory) :
    ∃ e, disk.create place.dropLast = .error e := by
  have above : disk.node? place.dropLast = some .directory := by
    rcases List.eq_nil_or_concat place with rfl | ⟨upper, last, rfl⟩
    · rfl
    · rw [List.concat_eq_append] at inside ⊢
      simpa using sound.parents upper last (by simp [inside])
  rw [Disk.create, Disk.openFile]
  split
  next e _ => exact ⟨e, rfl⟩
  · exact ⟨_, rfl⟩
  all_goals
    next found =>
      have same := (Disk.find_ok found).1
      rw [above] at same
      cases same

theorem write_spec (sound : disk.Sound) (held : disk.fileAt? (place ++ [draft]) = some former) :
    ∃ file, disk.lookup (place ++ [draft]) = .ok file ∧
      ∀ part, Alike (· = place ++ [draft]) disk (disk.extend file part) ∧
        (disk.extend file part).fileAt? (place ++ [draft]) = some (former ++ part) := by
  obtain ⟨legal, file, there, _⟩ := sound.fileAt?_eq_some.mp held
  have found := sound.lookup_of_node legal there
  refine ⟨file, found, fun part => ?_⟩
  obtain ⟨alike, extended⟩ := Disk.extend_spec sound found part
  exact ⟨alike, extended former held⟩

theorem lineWrites_spec (sound : disk.Sound) (held : disk.fileAt? (place ++ [draft]) = some former)
    (records : List ρ) (rest : List Change) : ∃ between,
      disk.applyAll (lineWrites (place ++ [draft]) records ++ rest) = between.applyAll rest ∧
      Alike (· = place ++ [draft]) disk between ∧
        between.fileAt? (place ++ [draft]) = some (former ++ written records) := by
  induction records generalizing disk former with
  | nil => exact ⟨disk, rfl, .refl sound, by simpa [written] using held⟩
  | cons record records ih =>
    obtain ⟨file, found, extended⟩ := write_spec sound held
    obtain ⟨alike, longer⟩ := extended (Utf8.encode (Log.terminatedLine record))
    obtain ⟨between, applied, further, all⟩ := ih alike.sound longer
    refine ⟨between, ?_, alike.trans further, ?_⟩
    · rw [← applied, lineWrites, List.map_cons, List.cons_append, Disk.applyAll]
      simp only [Disk.apply, found, Except.map]
      rfl
    · rw [all, List.append_assoc]
      rfl

theorem rename_ok (sound : disk.Sound) (held : disk.fileAt? (place ++ [draft]) = some former)
    (there : disk.fileAt? (place ++ [name]) = some content) : ∃ after,
      disk.rename (place ++ [draft]) (place ++ [name]) = .ok after ∧ after.Sound ∧
        after.fileAt? (place ++ [name]) = some former := by
  obtain ⟨legal, file, node, -⟩ := sound.fileAt?_eq_some.mp held
  by_cases same : draft = name
  · subst same
    obtain ⟨after, renamed, alike⟩ := Disk.rename_self sound legal node
    exact ⟨after, renamed, alike.sound, (alike.files _ not_false).trans held⟩
  · obtain ⟨legalToo, other, nodeToo, -⟩ := sound.fileAt?_eq_some.mp there
    obtain ⟨after, renamed⟩ : ∃ after, disk.rename (place ++ [draft]) (place ++ [name]) = .ok after := by
      simp only [Disk.rename, sound.lookup_of_node legal node, sound.find_of_node nodeToo legalToo, bind,
        Except.bind]
      exact ⟨_, rfl⟩
    obtain ⟨alike, moved⟩ := Disk.rename_spec sound same renamed
    exact ⟨after, renamed, alike.sound, moved.trans held⟩

theorem compact_refused {log : FileLog} {e : FileError}
    (refused : disk.create (draftPath log.path) = .error e) (records : List ρ) :
    log.compact records disk = (.error (.file e), log, disk) := by
  rw [FileLog.compact, compaction_eq, Disk.applyAll, Disk.apply, refused]
  rfl

theorem draft_beside {path : Path} (sound : disk.Sound) (there : disk.fileAt? path = some content)
    {made : Nat × Disk} (created : disk.create (draftPath path) = .ok made) :
    ∃ place name draft, path = place ++ [name] ∧ draftPath path = place ++ [draft] := by
  obtain ⟨-, file, node, -⟩ := sound.fileAt?_eq_some.mp there
  obtain ⟨place, name, same⟩ := Disk.path_of_file node
  refine ⟨place, name, String.ofList (stem name.toList) ++ ".compact", same, ?_⟩
  rw [same]
  refine (draftPath_cases place name).resolve_left fun above => ?_
  have inside := sound.parents place name (by simp [← same, node])
  obtain ⟨e, refused⟩ := create_above sound inside
  rw [same, above, refused] at created
  cases created

/-- Whether the log can be opened again when it has been compacted. -/
def regained (path : Path) (disk : Disk) : Except FileError Unit :=
  (disk.sync path.dropLast).bind fun _ => disk.access path

/-- A compaction that can begin makes all its changes. Only then may it still fail, when the log cannot
be opened again. -/
theorem compact_created {log : FileLog} (sound : disk.Sound)
    (there : disk.fileAt? log.path = some content) {made : Nat × Disk}
    (created : disk.create (draftPath log.path) = .ok made) (records : List ρ) :
    ∃ log' after, disk.applyAll (compaction records log.path) = (.ok (), after) ∧
      log'.path = log.path ∧ Flush log' after (written records) ∧ log.compact records disk =
        match regained log.path disk with
        | .ok () => (.ok (), log', after)
        | .error e => (.error (.file e), log, after) := by
  obtain ⟨number, first⟩ := made
  obtain ⟨place, name, draft, same, beside⟩ := draft_beside sound there created
  rw [same] at there
  rw [beside] at created
  obtain ⟨alike, empty⟩ := Disk.create_spec sound created
  obtain ⟨between, applied, further, full⟩ := lineWrites_spec alike.sound empty records
    [.rename (place ++ [draft]) (place ++ [name])]
  have stillThere : ∃ bytes, between.fileAt? (place ++ [name]) = some bytes := by
    by_cases other : place ++ [name] = place ++ [draft]
    · exact ⟨_, by rw [other, full]⟩
    · exact ⟨content, by rw [(alike.trans further).files _ other, there]⟩
  obtain ⟨bytes, stillThere⟩ := stillThere
  obtain ⟨after, renamed, soundToo, moved⟩ := rename_ok further.sound full stillThere
  obtain ⟨legal, file, node, new⟩ := soundToo.fileAt?_eq_some.mp moved
  have done : disk.applyAll (compaction records log.path) = (.ok (), after) := by
    rw [compaction_eq, beside, same, Disk.applyAll, Disk.apply, created, Except.map]
    dsimp only
    rw [applied, Disk.applyAll, Disk.apply, renamed]
    rfl
  have closed := (Stopped.of_applyAll done).closed
  have reattached : Attached ⟨log.path, file, 0⟩ after (written records) :=
    ⟨soundToo, same ▸ legal, same ▸ node, new⟩
  refine ⟨⟨log.path, file, (written records).length⟩, after, done, rfl,
    ⟨⟨soundToo, same ▸ legal, same ▸ node, new⟩, rfl⟩, ?_⟩
  rw [FileLog.compact, done, regained]
  dsimp only
  rw [Disk.sync_congr closed]
  rcases disk.sync log.path.dropLast with e | ⟨⟨⟩⟩
  · rfl
  dsimp only [Except.bind]
  rcases allowed : disk.access log.path with e | ⟨⟨⟩⟩
  · simp [openTail, Disk.access_congr closed, allowed]
  · rw [openTail_of_attached reattached ((Disk.access_congr closed _).trans allowed)]

theorem compact_cases {log : FileLog} (sound : disk.Sound)
    (there : disk.fileAt? log.path = some content) (records : List ρ) :
    ((disk.applyAll (compaction records log.path)).1.isOk = false ∧
      ∃ fault, log.compact records disk = (.error fault, log, disk)) ∨
    ∃ log' after, disk.applyAll (compaction records log.path) = (.ok (), after) ∧
      log'.path = log.path ∧ Flush log' after (written records) ∧
      (log.compact records disk = (.ok (), log', after) ∨
        ∃ e, regained log.path disk = .error e ∧
          log.compact records disk = (.error (.file e), log, after)) := by
  rcases created : disk.create (draftPath log.path) with e | made
  · refine .inl ⟨?_, _, compact_refused created records⟩
    rw [compaction_eq, Disk.applyAll, Disk.apply, created]
    rfl
  · obtain ⟨log', after, applied, same, flush, compacted⟩ := compact_created sound there created records
    refine .inr ⟨log', after, applied, same, flush, ?_⟩
    rcases found : regained log.path disk with e | ⟨⟨⟩⟩ <;> rw [found] at compacted
    · exact .inr ⟨e, rfl, compacted⟩
    · exact .inl compacted

end Drafts

section Stops

variable {disk after : Disk} {place : Path} {name draft : String} {content former : Bytes}

theorem stopped_writing (sound : disk.Sound) (distinct : draft ≠ name)
    (held : disk.fileAt? (place ++ [draft]) = some former)
    (there : disk.fileAt? (place ++ [name]) = some content) {records : List ρ}
    (stopped : Stopped (lineWrites (place ++ [draft]) records ++
      [.rename (place ++ [draft]) (place ++ [name])]) disk after) :
    after.Sound ∧ (after.fileAt? (place ++ [name]) = some content ∨
      after.fileAt? (place ++ [name]) = some (former ++ written records)) := by
  have apart : place ++ [name] ≠ place ++ [draft] := by simpa using distinct.symm
  induction records generalizing disk former with
  | nil =>
    cases stopped with
    | here => exact ⟨sound, .inl there⟩
    | next made stopped =>
      obtain ⟨alike, moved⟩ := Disk.rename_spec sound distinct made
      cases stopped
      exact ⟨alike.sound, .inr (by rw [moved, held]; simp [written])⟩
  | cons record records ih =>
    obtain ⟨file, found, extended⟩ := write_spec sound held
    cases stopped with
    | here => exact ⟨sound, .inl there⟩
    | within foundToo ahead =>
      obtain rfl : file = _ := Except.ok.inj (found.symm.trans foundToo)
      obtain ⟨alike, -⟩ := extended _
      exact ⟨alike.sound, .inl ((alike.files _ apart).trans there)⟩
    | next made stopped =>
      obtain ⟨alike, longer⟩ := extended (Utf8.encode (Log.terminatedLine record))
      simp only [Disk.apply, found, Except.map, Except.ok.injEq] at made
      obtain rfl := made
      obtain ⟨soundToo, left⟩ :=
        ih alike.sound longer ((alike.files _ apart).trans there) stopped
      exact ⟨soundToo, by simpa [written] using left⟩

theorem stopped_compaction {log : FileLog} (attached : Attached log disk content)
    (distinct : draftPath log.path ≠ log.path) {records : List ρ}
    (stopped : Stopped (compaction records log.path) disk after) :
    after.Sound ∧ (after.fileAt? log.path = some content ∨
      after.fileAt? log.path = some (written records)) := by
  obtain ⟨place, name, same⟩ := Disk.path_of_file attached.node
  have sound := attached.sound
  have there := attached.fileAt?
  rw [compaction_eq] at stopped
  cases stopped with
  | here => exact ⟨sound, .inl there⟩
  | next made stopped =>
    rw [same] at made stopped there distinct ⊢
    obtain ⟨number, created⟩ := Disk.apply_create_eq_ok.mp made
    rcases draftPath_cases place name with above | beside
    · obtain ⟨e, refused⟩ :=
        create_above sound (sound.parents place name (by simp [← same, attached.node]))
      rw [above, refused] at created
      cases created
    · rw [beside] at created stopped distinct
      obtain ⟨alike, empty⟩ := Disk.create_spec sound created
      have apart : String.ofList (stem name.toList) ++ ".compact" ≠ name := by simpa using distinct
      have elsewhere :=
        (alike.files (place ++ [name]) fun here => apart (by simpa using here.symm)).trans there
      exact stopped_writing alike.sound apart empty elsewhere stopped

end Stops

section Atomicity

/-- How a compaction may end before its time: the process stops, or the compaction returns an error. -/
def Interrupted (records : List ρ) (log : FileLog) (disk after : Disk) : Prop :=
  Stopped (compaction records log.path) disk after ∨
    ∃ fault left, log.compact records disk = (.error fault, left, after)

variable {log : FileLog} {disk after : Disk} {path : Path} {content : Bytes}

theorem Interrupted.stopped (attached : Attached log disk content) {records : List ρ}
    (interrupted : Interrupted records log disk after) :
    Stopped (compaction records log.path) disk after := by
  rcases interrupted with stopped | ⟨fault, left, failed⟩
  · exact stopped
  · rcases compact_cases attached.sound attached.fileAt? records
      with ⟨-, _, refused⟩ | ⟨_, _, applied, -, -, compacted | ⟨_, -, left⟩⟩
    · rw [refused] at failed
      cases failed
      exact .here _ disk
    · rw [compacted] at failed
      cases failed
    · rw [left] at failed
      cases failed
      exact .of_applyAll applied

theorem stem_compact {front : String} (some : front ≠ "") :
    stem (front ++ ".compact").toList = front.toList := by
  obtain ⟨c, rest, back⟩ : ∃ c rest, front.toList.reverse = c :: rest :=
    List.exists_cons_of_ne_nil (by simpa using some)
  have reversed : (front ++ ".compact").toList.reverse.dropWhile (· ≠ '.') = '.' :: c :: rest := by
    rw [String.toList_append, List.reverse_append, back]
    rfl
  rw [stem, reversed, ← List.reverse_reverse front.toList, back]

theorem draftPath_eq_self_iff (place : Path) (name : String) :
    draftPath (place ++ [name]) = place ++ [name] ↔
      ∃ front, name = front ++ ".compact" ∧ front ≠ "" ∧ front ≠ "." := by
  constructor
  · intro itself
    rw [draftPath, List.getLast?_concat] at itself
    dsimp only at itself
    split at itself
    next => simpa using congrArg List.length itself
    next undotted =>
      rw [List.dropLast_concat, List.append_right_inj, List.singleton_inj] at itself
      refine ⟨_, itself.symm, fun empty => ?_, fun dot => undotted ?_⟩
      · have bare : name = ".compact" := by rw [← itself, empty]; rfl
        rw [bare] at itself
        exact absurd itself (by decide)
      · rw [← String.toList_ofList (l := stem name.toList), dot]
        rfl
  · rintro ⟨front, rfl, some, plain⟩
    have stemmed := stem_compact some
    have undotted : stem (front ++ ".compact").toList ≠ ['.'] := by
      rw [stemmed]
      exact fun dot => plain (String.toList_inj.mp dot)
    rw [draftPath, List.getLast?_concat]
    dsimp only
    rw [if_neg undotted, List.dropLast_concat, stemmed, String.ofList_toList]

variable [LawfulRecord ρ]

theorem stopped_over_itself (attached : Attached log disk content)
    (access : disk.access log.path = .ok ()) (itself : draftPath log.path = log.path) (record : ρ)
    (more : List ρ) :
    (∃ after, Stopped (compaction (record :: more) log.path) disk after ∧
      reopened ρ log.path after = .ok ⟨[], none⟩) ∧
    ∃ after, Stopped (compaction (record :: more) log.path) disk after ∧
      reopened ρ log.path after = .ok ⟨[.ok record], none⟩ := by
  have created : disk.create log.path = .ok (log.file, disk.setContent log.file []) := by
    rw [Disk.create, attached.sound.openFile_of_node attached.legal attached.node, Except.map]
  have made : disk.apply (.create log.path) = .ok (disk.setContent log.file []) := by
    rw [Disk.apply, created, Except.map]
  have emptied := attached.setContent []
  have found := emptied.sound.lookup_of_node emptied.legal emptied.node
  rw [compaction_eq, itself]
  refine ⟨⟨_, .next made (.here _ _), ?_⟩, _, .next made (.within found List.prefix_rfl), ?_⟩
  · exact reopened_written emptied.sound access (show _ = some (written ([] : List ρ)) from emptied.fileAt?)
  · have first := emptied.extend (Utf8.encode (Log.terminatedLine record))
    have alone : written [record] = [] ++ Utf8.encode (Log.terminatedLine record) := by simp [written]
    rw [← alone] at first
    exact reopened_written first.sound access first.fileAt?

/-- An interrupted compaction leaves a log that reads as before or has just the new records, unless the
name of the log has the extension of the new file. -/
theorem compaction_is_atomic_iff [Nonempty ρ] (attached : Attached log disk content)
    (access : disk.access log.path = .ok ()) :
    (∀ (records : List ρ) (after : Disk), Interrupted records log disk after →
        reopened ρ log.path after = reopened ρ log.path disk ∨
          reopened ρ log.path after = .ok ⟨records.map .ok, none⟩) ↔
      ¬∃ place front, log.path = place ++ [front ++ ".compact"] ∧ front ≠ "" ∧ front ≠ "." := by
  obtain ⟨place, name, same⟩ := Disk.path_of_file attached.node
  have itself := draftPath_eq_self_iff place name
  rw [← same] at itself
  constructor
  · rintro atomic ⟨place', front, same', some, plain⟩
    obtain ⟨record⟩ := ‹Nonempty ρ›
    have onItself : draftPath log.path = log.path := by
      rw [same', draftPath_eq_self_iff]
      exact ⟨front, rfl, some, plain⟩
    obtain ⟨⟨empty, stopped, nothing⟩, one, stoppedToo, first⟩ :=
      stopped_over_itself attached access onItself record [record]
    have lost := atomic _ _ (.inl stopped)
    have mixed := atomic _ _ (.inl stoppedToo)
    rw [nothing] at lost
    rw [first] at mixed
    have before := lost.resolve_right (by simp)
    rw [← before] at mixed
    simp at mixed
  · intro other records after interrupted
    have distinct : draftPath log.path ≠ log.path := by
      intro onItself
      obtain ⟨front, rfl, some, plain⟩ := itself.mp onItself
      exact other ⟨place, front, same, some, plain⟩
    have stopped := interrupted.stopped attached
    have accessToo := (Disk.access_congr stopped.closed log.path).trans access
    obtain ⟨sound, kept | renewed⟩ := stopped_compaction attached distinct stopped
    · refine .inl ?_
      rw [reopened_eq sound accessToo kept, reopened_eq attached.sound access attached.fileAt?]
    · exact .inr (reopened_written sound accessToo renewed)

theorem compaction_of_named_logs :
    (∃ log disk, openAt Coordinator.Entry ["log.txt"] {} = (.ok log, disk) ∧
      ∀ (records : List Coordinator.Entry) (after : Disk), Interrupted records log disk after →
        reopened Coordinator.Entry log.path after = reopened Coordinator.Entry log.path disk ∨
          reopened Coordinator.Entry log.path after = .ok ⟨records.map .ok, none⟩) ∧
    ∃ log disk, openAt Coordinator.Entry ["x.compact"] {} = (.ok log, disk) ∧
      ¬∀ (records : List Coordinator.Entry) (after : Disk), Interrupted records log disk after →
        reopened Coordinator.Entry log.path after = reopened Coordinator.Entry log.path disk ∨
          reopened Coordinator.Entry log.path after = .ok ⟨records.map .ok, none⟩ := by
  have : Nonempty Coordinator.Entry := ⟨.done ""⟩
  have attached : ∀ {path log disk}, openAt Coordinator.Entry path {} = (.ok log, disk) →
      ({} : Disk).fileAt? path = none → Attached log disk [] := by
    intro path log disk opened nothing
    rcases openAt_new Disk.Sound.empty nothing opened with ⟨_, ⟨⟩, -, flush⟩ | ⟨_, ⟨⟩, _⟩
    exact flush.toAttached
  constructor
  · have opened : openAt Coordinator.Entry ["log.txt"] {} = (.ok ⟨["log.txt"], 0, 0⟩, _) := rfl
    refine ⟨_, _, opened, (compaction_is_atomic_iff (attached opened rfl) rfl).mpr ?_⟩
    rintro ⟨place, front, same, -⟩
    have named : [] ++ ["log.txt"] = place ++ [front ++ ".compact"] := same
    obtain ⟨-, last⟩ := List.append_inj' named rfl
    have lengths := congrArg String.length (List.singleton_inj.mp last)
    rw [String.length_append, show "log.txt".length = 7 by decide,
      show ".compact".length = 8 by decide] at lengths
    omega
  · have opened : openAt Coordinator.Entry ["x.compact"] {} = (.ok ⟨["x.compact"], 0, 0⟩, _) := rfl
    refine ⟨_, _, opened, fun atomic => ?_⟩
    exact (compaction_is_atomic_iff (attached opened rfl) rfl).mp atomic
      ⟨[], "x", rfl, by decide, by decide⟩

end Atomicity

end FileLog

end AtomicCommit
