import AtomicCommit.Proofs.Log.Files

/-! When a log that could be opened can be read. Opening takes replacement characters for text and any
white space for an empty line; a replay and the next append do not. -/

namespace AtomicCommit.FileLog

variable {ρ : Type} [Record ρ]

/-- Text, in which a last line without its newline has nothing but white space of JSON. -/
def isClean (content : Bytes) : Bool :=
  (Utf8.decode? content).isSome && (lines content).all fun line => line.2 || line.1.all Json.isSpace

section Contents

variable {content : Bytes} {whole : List Bytes} {tail : Bytes}

theorem Kept.isClean_iff (kept : Kept ρ content whole tail) : isClean content ↔
    (∀ line ∈ whole, (Utf8.decode? line).isSome) ∧ ∀ b ∈ tail, Json.isSpace b := by
  have legible : (Utf8.decode? content).isSome ↔
      (∀ line ∈ whole, (Utf8.decode? line).isSome) ∧ (Utf8.decode? tail).isSome := by
    rw [kept.parts]
    exact isSome_decode?_joined tail
  have split : lines content = whole.map (·, true) ++ lastLine tail := by
    rw [kept.parts, lines_joined kept.unbroken_whole, lines_tail kept.unbroken]
  have last : (lastLine tail).all (fun line => line.2 || line.1.all Json.isSpace) =
      tail.all Json.isSpace := by
    rw [lastLine]
    split
    next none => rw [none]; rfl
    next => simp
  rw [isClean, split, List.all_append, last, Bool.and_eq_true, Bool.and_eq_true, legible]
  simp [kept.legible_tail]

variable [LawfulRecord ρ]

theorem Kept.readable_iff [Nonempty ρ] (kept : Kept ρ content whole tail) :
    (∃ records : List ρ, ∀ more, replayed ρ (content ++ written more) =
        ⟨(records ++ more).map .ok, none⟩ ∧
      (mended ρ (content ++ written more)).map (replayed ρ) = .ok ⟨(records ++ more).map .ok, none⟩) ↔
      isClean content := by
  rw [kept.isClean_iff]
  constructor
  · rintro ⟨records, readable⟩
    have read := (readable []).1
    simp only [written, List.flatMap_nil, List.append_nil] at read
    obtain ⟨record⟩ := ‹Nonempty ρ›
    exact ⟨kept.legible_of_replayed read, kept.white_of_replayed read (readable [record]).1⟩
  · rintro ⟨legible, white⟩
    refine ⟨whole.flatMap (recordsOf ρ), fun more => ?_⟩
    obtain ⟨read, unchanged⟩ := kept.replayed_append white legible more
    exact ⟨read, by rw [unchanged, Except.map, read]⟩

end Contents

section Logs

/-- A log that holds records and no damage, and behind them whatever is appended to it, both for who has
it open and for who opens it again. -/
def Readable (ρ : Type) [Record ρ] (path : Path) (log : FileLog) (disk : Disk) : Prop :=
  ∃ records : List ρ, ∀ more : List ρ,
    let last := log.appendAll more disk
    last.1.replay last.2 = .ok ⟨(records ++ more).map .ok, none⟩ ∧
      reopened ρ path last.2 = .ok ⟨(records ++ more).map .ok, none⟩

variable [LawfulRecord ρ] {path : Path} {disk after : Disk} {log : FileLog} {content : Bytes}

/-- A log that could be opened is readable just when what opening has left of it is clean. -/
theorem opened_log_is_readable_iff [Nonempty ρ] (sound : disk.Sound)
    (there : disk.fileAt? path = some content) (opened : openAt ρ path disk = (.ok log, after)) :
    Readable ρ path log after ↔ ∃ left, after.fileAt? path = some left ∧ isClean left := by
  obtain ⟨kept, mended, same, flush⟩ := openAt_inv sound there opened
  obtain ⟨whole, tail, parts⟩ := kept_of_mended mended
  have leaves : after.fileAt? path = some kept := same ▸ flush.toAttached.fileAt?
  have reads : ∀ more : List ρ,
      (log.appendAll more after).1.replay (log.appendAll more after).2 =
          .ok (replayed ρ (kept ++ written more)) ∧
        reopened ρ path (log.appendAll more after).2 =
          (FileLog.mended ρ (kept ++ written more)).map (replayed ρ) := by
    intro more
    obtain ⟨stays, longer⟩ := flush.appendAll more
    have accessible := (Disk.access_congr
      ((log.appendAll_closed more after).trans (access_of_openAt opened).2) path).trans
        (access_of_openAt opened).1
    exact ⟨longer.toAttached.replay,
      reopened_eq longer.sound accessible
        ((stays.trans same) ▸ longer.toAttached.fileAt?)⟩
  simp only [Readable, leaves, Option.some.injEq, exists_eq_left', reads, Except.ok.injEq]
  exact parts.readable_iff

theorem opened_blank {blank : UInt8} (other : newline ≠ blank)
    (unseen : Text.isBlank (Utf8.decodeLossy [blank])) : ∃ disk : Disk, disk.Sound ∧
      disk.fileAt? ["log.txt"] = some [blank] ∧ ∃ log after,
        openAt Coordinator.Entry ["log.txt"] disk = (.ok log, after) ∧
          after.fileAt? ["log.txt"] = some [blank] := by
  have kept : Kept Coordinator.Entry [blank] [] [blank] := ⟨rfl, by simp, by simpa using other, unseen⟩
  have nothing : ({} : Disk).fileAt? ["log.txt"] = none := rfl
  have new : openAt Coordinator.Entry ["log.txt"] {} = (.ok ⟨["log.txt"], 0, 0⟩, _) := rfl
  rcases openAt_new Disk.Sound.empty nothing new with ⟨_, ⟨⟩, -, flush⟩ | ⟨_, ⟨⟩, _⟩
  have there := flush.toAttached.setContent [blank]
  obtain ⟨log, after, opened, same, flush⟩ :=
    openAt_of_fileAt? there.sound rfl there.fileAt? kept.mended_self
  have left := flush.toAttached.fileAt?
  rw [same] at left
  exact ⟨_, there.sound, there.fileAt?, log, after, opened, left⟩

/-- A space and a vertical tab both look blank to opening. Only of the space, the next record is none
the worse for having it at its front. -/
theorem readable_after_space_not_after_tab :
    (∃ disk log after, disk.fileAt? ["log.txt"] = some [0x20] ∧
      openAt Coordinator.Entry ["log.txt"] disk = (.ok log, after) ∧
        Readable Coordinator.Entry ["log.txt"] log after) ∧
    ∃ disk log after, disk.fileAt? ["log.txt"] = some [0x0B] ∧
      openAt Coordinator.Entry ["log.txt"] disk = (.ok log, after) ∧
        ¬Readable Coordinator.Entry ["log.txt"] log after := by
  have : Nonempty Coordinator.Entry := ⟨.done ""⟩
  constructor
  · obtain ⟨disk, sound, there, log, after, opened, left⟩ :=
      opened_blank (show newline ≠ 0x20 by decide) (by decide)
    refine ⟨disk, log, after, there, opened, ?_⟩
    exact (opened_log_is_readable_iff sound there opened).mpr ⟨_, left, by decide⟩
  · obtain ⟨disk, sound, there, log, after, opened, left⟩ :=
      opened_blank (show newline ≠ 0x0B by decide) (by decide)
    refine ⟨disk, log, after, there, opened, fun readable => ?_⟩
    obtain ⟨bytes, same, clean⟩ := (opened_log_is_readable_iff sound there opened).mp readable
    cases left.symm.trans same
    exact absurd clean (by decide)

end Logs

end AtomicCommit.FileLog
