import AtomicCommit.Proofs.Log.Lines

/-! What a replay reads in the content of a log file. It reads strictly where opening reads with
replacement characters, and it takes a carriage return before a newline for part of the line end. -/

namespace AtomicCommit

open Json (readAll)

namespace Utf8

theorem decode?_split {b : UInt8} (ascii : b < 0x80) {bytes more : Bytes} {text : String}
    (decoded : decode? (bytes ++ b :: more) = some text) : ∃ before after, decode? bytes = some before ∧
      decode? more = some after ∧
      text = before ++ String.singleton (Char.ofNat b.toNat) ++ after := by
  rw [decode?_eq_some, scalars_split ascii] at decoded
  obtain ⟨front, back, parts, frontToo, backToo⟩ := List.append_eq_map_iff.mp decoded
  obtain ⟨c, after, rfl, mark, afterToo⟩ := List.map_eq_cons_iff.mp backToo
  refine ⟨.ofList front, .ofList after, ?_, ?_, ?_⟩
  · rw [decode?_eq_some, ← frontToo, String.toList_ofList]
  · rw [decode?_eq_some, ← afterToo, String.toList_ofList]
  · cases mark
    rw [← String.toList_inj, parts]
    simp

theorem decode?_joins {b : UInt8} (ascii : b < 0x80) {bytes more : Bytes} {before after : String}
    (decoded : decode? bytes = some before) (decodedToo : decode? more = some after) :
    decode? (bytes ++ b :: more) =
      some (before ++ String.singleton (Char.ofNat b.toNat) ++ after) := by
  rw [decode?_eq_some] at decoded decodedToo ⊢
  rw [scalars_split ascii, decoded, decodedToo]
  simp

theorem isSome_decode?_split {b : UInt8} (ascii : b < 0x80) (bytes more : Bytes) :
    (decode? (bytes ++ b :: more)).isSome ↔ (decode? bytes).isSome ∧ (decode? more).isSome := by
  simp only [Option.isSome_iff_exists]
  constructor
  · rintro ⟨text, decoded⟩
    obtain ⟨before, after, one, two, -⟩ := decode?_split ascii decoded
    exact ⟨⟨before, one⟩, after, two⟩
  · rintro ⟨⟨before, one⟩, after, two⟩
    exact ⟨_, decode?_joins ascii one two⟩

theorem encode_append (text other : String) : encode (text ++ other) = encode text ++ encode other := by
  simp [encode]

end Utf8

namespace Text

theorem isBlank_append (text other : String) :
    isBlank (text ++ other) = (isBlank text && isBlank other) := by
  simp [isBlank]

theorem decode?_of_blank {bytes : Bytes} (blank : isBlank (Utf8.decodeLossy bytes)) :
    Utf8.decode? bytes = some (Utf8.decodeLossy bytes) := by
  have whole : ∀ found : List (Option Char), (found.map fun c => c.getD '\uFFFD').all isSpace →
      found = (found.map fun c => c.getD '\uFFFD').map some := by
    intro found blank
    induction found with
    | nil => rfl
    | cons c found ih =>
      rw [List.map_cons, List.all_cons, Bool.and_eq_true] at blank
      obtain ⟨first, others⟩ := blank
      cases c with
      | none => cases first
      | some c => rw [List.map_cons, List.map_cons, ← ih others]; rfl
  rw [isBlank, Utf8.decodeLossy, String.toList_ofList] at blank
  rw [Utf8.decode?_eq_some, Utf8.decodeLossy, String.toList_ofList]
  exact whole _ blank

end Text

namespace FileLog

variable {ρ : Type} [Record ρ]

def carriageReturn : UInt8 := 0x0D

def replayed (ρ : Type) [Record ρ] (content : Bytes) : Log.Replay ρ :=
  .ofLines ((lines content).map lineText)

def recordsOf (ρ : Type) [Record ρ] (line : Bytes) : List ρ :=
  (recordsIn ρ (Utf8.decodeLossy line)).getD []

section Reading

variable {line tail : Bytes} {whole : List Bytes} {text : String} {records : List ρ}

theorem lineText_return (front : Bytes) :
    lineText (front ++ [carriageReturn], true) = (Utf8.decode? front).elim (.error .notText) .ok := by
  have body : (if True ∧ (front ++ [carriageReturn]).getLast? = some 0x0D then
      (front ++ [carriageReturn]).dropLast else front ++ [carriageReturn]) = front := by
    simp [carriageReturn]
  simp only [lineText, body]
  cases Utf8.decode? front <;> rfl

theorem lineText_plain {complete : Bool}
    (plain : complete = true → line.getLast? ≠ some carriageReturn) :
    lineText (line, complete) = (Utf8.decode? line).elim (.error .notText) .ok := by
  have kept : ¬(complete = true ∧ line.getLast? = some 0x0D) := fun both => plain both.1 both.2
  rw [lineText, if_neg kept]
  cases Utf8.decode? line <;> rfl

theorem lineText_error {complete : Bool} (garbled : Utf8.decode? line = none) :
    lineText (line, complete) = .error .notText := by
  by_cases returned : complete = true ∧ line.getLast? = some carriageReturn
  · obtain ⟨rfl, returned⟩ := returned
    obtain ⟨front, rfl⟩ := List.getLast?_eq_some_iff.mp returned
    have split := Utf8.isSome_decode?_split (show carriageReturn < 0x80 by decide) front []
    have frontToo : Utf8.decode? front = none := by
      simpa [garbled, show Utf8.decode? [] = some "" from rfl] using split
    rw [lineText_return, frontToo]
    rfl
  · rw [lineText_plain fun complete returns => returned ⟨complete, returns⟩, garbled]
    rfl

theorem Kept.legible_tail {content : Bytes} (kept : Kept ρ content whole tail) :
    (Utf8.decode? tail).isSome := by
  rw [Text.decode?_of_blank kept.blank]
  rfl

theorem recordsFrom_lastLine {number : Nat} (blank : Text.isBlank (Utf8.decodeLossy tail)) :
    (Log.recordsFrom number ((lastLine tail).map lineText) : List (Except LogError ρ)) = [] := by
  rw [lastLine]
  split
  · rfl
  · rw [List.map_singleton, lineText_plain (by simp), Text.decode?_of_blank blank, Option.elim,
      Log.recordsFrom, if_pos blank, Log.recordsFrom]

theorem replayed_joined (unbroken : ∀ line ∈ whole, newline ∉ line) (tailToo : newline ∉ tail)
    (blank : Text.isBlank (Utf8.decodeLossy tail)) : replayed ρ (joined whole ++ tail) =
      ⟨Log.recordsFrom 1 ((whole.map (·, true)).map lineText), none⟩ := by
  rw [replayed, Log.Replay.ofLines, lines_joined unbroken, lines_tail tailToo, List.map_append,
    recordsFrom_append, recordsFrom_lastLine blank, List.append_nil]

theorem Kept.replayed_eq {content : Bytes} (kept : Kept ρ content whole tail) :
    replayed ρ content = ⟨Log.recordsFrom 1 ((whole.map (·, true)).map lineText), none⟩ := by
  rw [kept.parts, replayed_joined kept.unbroken_whole kept.unbroken kept.blank]

theorem Kept.legible_of_replayed {content : Bytes} (kept : Kept ρ content whole tail)
    (read : replayed ρ content = ⟨records.map .ok, none⟩) :
    ∀ line ∈ whole, (Utf8.decode? line).isSome := by
  have faulty : ∀ {number} {texts : List (Except LogError String)} {fault}, .error fault ∈ texts →
      .error fault ∈ (Log.recordsFrom number texts : List (Except LogError ρ)) := by
    intro number texts fault member
    induction texts generalizing number with
    | nil => cases member
    | cons text texts ih =>
      rw [List.mem_cons] at member
      cases text with
      | error other =>
        rw [Log.recordsFrom, List.mem_cons]
        exact member.imp (by rintro ⟨⟩; rfl) ih
      | ok text =>
        have further := member.resolve_left (by rintro ⟨⟩)
        rw [Log.recordsFrom]
        split
        · exact ih further
        · exact List.mem_cons_of_mem _ (ih further)
  intro line member
  by_contra garbled
  have error : lineText (line, true) = .error .notText :=
    lineText_error (Option.not_isSome_iff_eq_none.mp garbled)
  rw [kept.replayed_eq, Log.Replay.mk.injEq] at read
  have text : .error .notText ∈ (whole.map (·, true)).map lineText :=
    List.mem_map.mpr ⟨_, List.mem_map.mpr ⟨line, member, rfl⟩, error⟩
  have item : .error .notText ∈ (Log.recordsFrom 1 ((whole.map (·, true)).map lineText) :
      List (Except LogError ρ)) := faulty text
  rw [read.1] at item
  obtain ⟨_, _, same⟩ := List.mem_map.mp item
  cases same

theorem isSome_decode?_joined (tail : Bytes) : (Utf8.decode? (joined whole ++ tail)).isSome ↔
    (∀ line ∈ whole, (Utf8.decode? line).isSome) ∧ (Utf8.decode? tail).isSome := by
  induction whole with
  | nil => simp
  | cons line whole ih =>
    rw [joined_cons, List.append_assoc, List.cons_append,
      Utf8.isSome_decode?_split (show newline < 0x80 by decide), ih, List.forall_mem_cons, and_assoc]

variable [LawfulRecord ρ]

theorem recordsIn_return (held : recordsIn ρ (text ++ "\r") = some records) :
    recordsIn ρ text = some records := by
  have space : Text.isBlank "\r" := by decide
  have ended : Utf8.encode (text ++ "\r") = Utf8.encode text ++ [carriageReturn] :=
    Utf8.encode_append text "\r"
  rw [recordsIn, Text.isBlank_append, space, Bool.and_true, ended] at held
  rw [recordsIn]
  split at held
  next blank => rw [if_pos blank, held]
  next written =>
    rw [if_neg written]
    cases read : readAll (Record.read : Json.Reader ρ) (Utf8.encode text ++ [carriageReturn]) with
    | error fault => simp [read, Except.toOption] at held
    | ok record =>
      rw [Json.readAll_trailing LawfulRecord.spares (by decide) read, ← held, read]

theorem recordsIn_lineText (decoded : Utf8.decode? line = some text)
    (held : recordsIn ρ text = some records) :
    ∃ read, lineText (line, true) = .ok read ∧ recordsIn ρ read = some records := by
  by_cases returned : line.getLast? = some carriageReturn
  · obtain ⟨front, rfl⟩ := List.getLast?_eq_some_iff.mp returned
    obtain ⟨before, after, decodedFront, none, rfl⟩ :=
      Utf8.decode?_split (show carriageReturn < 0x80 by decide) decoded
    cases none
    have ended : before ++ String.singleton (Char.ofNat carriageReturn.toNat) ++ "" =
        before ++ "\r" := by
      rw [String.append_empty]
      rfl
    rw [ended] at held
    exact ⟨before, by rw [lineText_return, decodedFront]; rfl, recordsIn_return held⟩
  · exact ⟨text, by rw [lineText_plain fun _ => returned, decoded]; rfl, held⟩

theorem recordsFrom_whole {number : Nat} (accepted : ∀ line ∈ whole, Accepted ρ line)
    (legible : ∀ line ∈ whole, (Utf8.decode? line).isSome) :
    Log.recordsFrom number ((whole.map (·, true)).map lineText) =
      (whole.flatMap (recordsOf ρ)).map .ok := by
  induction whole generalizing number with
  | nil => rfl
  | cons line whole ih =>
    obtain ⟨⟨_, held⟩, others⟩ := List.forall_mem_cons.mp accepted
    obtain ⟨decoded, othersToo⟩ := List.forall_mem_cons.mp legible
    obtain ⟨text, decoded⟩ := Option.isSome_iff_exists.mp decoded
    obtain ⟨records, held⟩ := Option.isSome_iff_exists.mp held
    have same : recordsOf ρ line = records := by rw [recordsOf, held]; rfl
    rw [Utf8.decodeLossy_of_decode? decoded] at held
    obtain ⟨read, isText, held⟩ := recordsIn_lineText decoded held
    have first := recordsFrom_append (ρ := ρ) number [.ok read] ((whole.map (·, true)).map lineText)
    rw [recordsFrom_line.mpr held, ih others othersToo] at first
    rw [List.map_cons, List.map_cons, isText, List.flatMap_cons, same, List.map_append]
    exact first

theorem Kept.replayed_whole {content : Bytes} (kept : Kept ρ content whole tail)
    (legible : ∀ line ∈ whole, (Utf8.decode? line).isSome) :
    replayed ρ content = ⟨(whole.flatMap (recordsOf ρ)).map .ok, none⟩ := by
  rw [kept.replayed_eq, recordsFrom_whole kept.whole legible]

end Reading

section Writing

def written (records : List ρ) : Bytes :=
  records.flatMap fun record => Utf8.encode (Log.terminatedLine record)

theorem encode_terminatedLine (record : ρ) :
    Utf8.encode (Log.terminatedLine record) = Utf8.encode (Log.line record) ++ [newline] :=
  Utf8.encode_append _ "\n"

theorem written_eq (records : List ρ) :
    written records = joined (records.map fun record => Utf8.encode (Log.line record)) := by
  simp [written, joined, encode_terminatedLine, List.flatMap_map]

theorem written_append (records others : List ρ) :
    written (records ++ others) = written records ++ written others :=
  List.flatMap_append

variable [LawfulRecord ρ] (record : ρ)

theorem unprinted_not_mem {b : UInt8} (control : b < 0x20) : b ∉ Utf8.encode (Log.line record) :=
  fun member => absurd (LawfulRecord.line_printed record b member) (UInt8.not_le.mpr control)

theorem not_blank_of_mem {b : UInt8} {bytes : Bytes} (opens : b = Json.listOpen ∨ b = Json.objectOpen)
    (member : b ∈ bytes) : ¬Text.isBlank (Utf8.decodeLossy bytes) := by
  obtain ⟨front, back, rfl⟩ := List.append_of_mem member
  have ascii : b < 0x80 := by rcases opens with rfl | rfl <;> decide
  have dark : Text.isSpace (Char.ofNat b.toNat) = false := by rcases opens with rfl | rfl <;> decide
  simp [Text.isBlank, Utf8.decodeLossy, Utf8.scalars_split ascii, dark]

theorem readAll_line {spaces : Bytes} (white : ∀ b ∈ spaces, Json.isSpace b) :
    readAll Record.read (spaces ++ Utf8.encode (Log.line record)) = .ok record := by
  have skipped : (Record.read (spaces ++ Utf8.encode (Log.line record)) :
      Except Json.Fault (ρ × Bytes)) = .ok (record, []) := by
    induction spaces with
    | nil => simpa using LawfulRecord.read_line record []
    | cons b spaces ih =>
      obtain ⟨first, others⟩ := List.forall_mem_cons.mp white
      rw [List.cons_append, LawfulRecord.read_leading _ first, ih others]
  rw [readAll, skipped]
  rfl

theorem not_blank_line : ¬Text.isBlank (Log.line record) := by
  obtain ⟨more, opens⟩ := LawfulRecord.line_opens record
  have dark : ¬Text.isBlank (Utf8.decodeLossy (Utf8.encode (Log.line record))) :=
    not_blank_of_mem (.inr rfl) (by rw [opens]; exact List.mem_cons_self)
  rwa [Utf8.decodeLossy_of_decode? (Utf8.decode?_encode _)] at dark

theorem legible_line {front : Bytes} (legible : (Utf8.decode? front).isSome) :
    (Utf8.decode? (front ++ Utf8.encode (Log.line record))).isSome := by
  have ascii : Json.objectOpen < 0x80 := by decide
  obtain ⟨more, opens⟩ := LawfulRecord.line_opens record
  have alone := Utf8.isSome_decode?_split ascii [] more
  rw [List.nil_append, ← opens, Utf8.decode?_encode] at alone
  rw [opens, Utf8.isSome_decode?_split ascii]
  exact ⟨legible, (alone.mp rfl).2⟩

theorem lineText_line {front : Bytes} {text : String}
    (decoded : Utf8.decode? (front ++ Utf8.encode (Log.line record)) = some text) :
    lineText (front ++ Utf8.encode (Log.line record), true) = .ok text := by
  have plain : (front ++ Utf8.encode (Log.line record)).getLast? ≠ some carriageReturn := by
    intro returned
    obtain ⟨more, opens⟩ := LawfulRecord.line_opens record
    have last : (front ++ Utf8.encode (Log.line record)).getLast? =
        (Utf8.encode (Log.line record)).getLast? := by
      rw [List.getLast?_append, opens, List.getLast?_cons, Option.some_or]
    rw [last] at returned
    exact unprinted_not_mem record (by decide) (List.mem_of_getLast? returned)
  rw [lineText_plain fun _ => plain, decoded]
  rfl

theorem line_after {spaces : Bytes} (white : ∀ b ∈ spaces, Json.isSpace b) (unbroken : newline ∉ spaces)
    (legible : (Utf8.decode? spaces).isSome) :
    Accepted ρ (spaces ++ Utf8.encode (Log.line record)) ∧
      recordsOf ρ (spaces ++ Utf8.encode (Log.line record)) = [record] ∧
      (Utf8.decode? (spaces ++ Utf8.encode (Log.line record))).isSome := by
  obtain ⟨more, opens⟩ := LawfulRecord.line_opens record
  have decoded := legible_line record legible
  obtain ⟨text, same⟩ := Option.isSome_iff_exists.mp decoded
  have held : recordsIn ρ (Utf8.decodeLossy (spaces ++ Utf8.encode (Log.line record))) =
      some [record] := by
    have dark : ¬Text.isBlank (Utf8.decodeLossy (spaces ++ Utf8.encode (Log.line record))) :=
      not_blank_of_mem (.inr rfl) (by rw [opens]; simp)
    rw [recordsIn, if_neg dark, Utf8.decodeLossy_of_decode? same, Utf8.encode_of_decode? same,
      readAll_line record white]
    rfl
  have clean : newline ∉ spaces ++ Utf8.encode (Log.line record) := by
    rw [List.mem_append, not_or]
    exact ⟨unbroken, unprinted_not_mem record (by decide)⟩
  exact ⟨⟨clean, by rw [held]; rfl⟩, by rw [recordsOf, held]; rfl, decoded⟩

theorem line_spec : Accepted ρ (Utf8.encode (Log.line record)) ∧
    recordsOf ρ (Utf8.encode (Log.line record)) = [record] ∧
    (Utf8.decode? (Utf8.encode (Log.line record))).isSome :=
  @line_after ρ _ _ record [] (by simp) (by simp) rfl

theorem kept_written (records : List ρ) :
    Kept ρ (written records) (records.map fun record => Utf8.encode (Log.line record)) [] :=
  ⟨by rw [written_eq, List.append_nil],
    List.forall_mem_map.mpr fun record _ => (line_spec record).1, by simp, rfl⟩

theorem legible_written (records : List ρ) :
    ∀ line ∈ records.map fun record => Utf8.encode (Log.line record), (Utf8.decode? line).isSome :=
  List.forall_mem_map.mpr fun record _ => (line_spec record).2.2

theorem recordsOf_written (records : List ρ) :
    (records.map fun record => Utf8.encode (Log.line record)).flatMap (recordsOf ρ) = records := by
  simp [List.flatMap_map, (line_spec _).2.1]

theorem replayed_written (records : List ρ) :
    replayed ρ (written records) = ⟨records.map .ok, none⟩ := by
  rw [(kept_written records).replayed_whole (legible_written records), recordsOf_written]

theorem mended_torn (records : List ρ) {part : Bytes}
    (ahead : part <+: Utf8.encode (Log.terminatedLine record))
    (short : part ≠ Utf8.encode (Log.terminatedLine record)) :
    mended ρ (written records ++ part) = .ok (written records) := by
  rw [encode_terminatedLine] at ahead short
  have inLine : part <+: Utf8.encode (Log.line record) :=
    (List.prefix_concat_iff.mp ahead).resolve_left short
  rcases part with _ | ⟨b, part⟩
  · rw [List.append_nil]
    exact (kept_written records).mended_self
  · obtain ⟨more, opens⟩ := LawfulRecord.line_opens record
    obtain ⟨rfl, -⟩ : b = Json.objectOpen ∧ _ := List.cons_prefix_cons.mp (opens ▸ inLine)
    have unbroken : newline ∉ Json.objectOpen :: part := fun member =>
      unprinted_not_mem record (by decide) (inLine.subset member)
    rw [written_eq]
    exact mended_tail (kept_written records).whole unbroken
      (not_blank_of_mem (.inr rfl) List.mem_cons_self)

end Writing

section Appending

variable [LawfulRecord ρ] {content : Bytes} {whole : List Bytes} {tail : Bytes}

theorem Kept.append (kept : Kept ρ content whole tail) (white : ∀ b ∈ tail, Json.isSpace b)
    (record : ρ) (more : List ρ) :
    Kept ρ (content ++ written (record :: more))
      (whole ++ (tail ++ Utf8.encode (Log.line record)) ::
        more.map fun record => Utf8.encode (Log.line record)) [] := by
  refine ⟨?_, ?_, by simp, rfl⟩
  · rw [kept.parts, written_eq, joined_append, joined_cons]
    simp
  · simp only [List.mem_append, List.mem_cons]
    rintro line (member | rfl | member)
    · exact kept.whole line member
    · exact (line_after record white kept.unbroken kept.legible_tail).1
    · exact (kept_written more).whole line member

theorem Kept.white_of_replayed (kept : Kept ρ content whole tail) {records : List ρ} {record : ρ}
    (read : replayed ρ content = ⟨records.map .ok, none⟩)
    (readMore : replayed ρ (content ++ written [record]) = ⟨(records ++ [record]).map .ok, none⟩) :
    ∀ b ∈ tail, Json.isSpace b := by
  obtain ⟨text, glued⟩ := Option.isSome_iff_exists.mp (legible_line record kept.legible_tail)
  have item : recordsIn ρ text = some [record] := by
    have unbroken : ∀ line ∈ whole ++ [tail ++ Utf8.encode (Log.line record)], newline ∉ line := by
      simp only [List.mem_append, List.mem_singleton]
      rintro line (member | rfl)
      · exact (kept.whole line member).1
      · rw [List.mem_append, not_or]
        exact ⟨kept.unbroken, unprinted_not_mem record (by decide)⟩
    have parts : content ++ written [record] =
        joined (whole ++ [tail ++ Utf8.encode (Log.line record)]) ++ [] := by
      simp [kept.parts, written_eq]
    rw [kept.replayed_eq, Log.Replay.mk.injEq] at read
    rw [parts, replayed_joined unbroken (by simp) rfl, Log.Replay.mk.injEq, List.map_append,
      List.map_append, recordsFrom_append, read.1, List.map_append, List.append_right_inj] at readMore
    rw [List.map_singleton, List.map_singleton, lineText_line record glued] at readMore
    exact recordsFrom_line.mp readMore.1
  have decoded : (readAll Record.read (tail ++ Utf8.encode (Log.line record)) : Except Json.Fault ρ) =
      .ok record := by
    rw [recordsIn, Utf8.encode_of_decode? glued] at item
    split at item
    · cases item
    · cases read : (readAll Record.read (tail ++ Utf8.encode (Log.line record)) :
        Except Json.Fault ρ) with
      | error fault => simp [read, Except.toOption] at item
      | ok other => simpa [read, Except.toOption] using item
  obtain ⟨⟨_, rest⟩, started, _⟩ := Json.bind_ok decoded
  obtain ⟨b, others, found, opens⟩ := LawfulRecord.read_opens started
  rw [Json.skipSpace, List.dropWhile_append] at found
  split at found
  next none => simpa using none
  next some =>
    have member : b ∈ tail := by
      cases dark : tail.dropWhile Json.isSpace with
      | nil => simp [dark] at some
      | cons c dark' =>
        rw [dark, List.cons_append, List.cons.injEq] at found
        rw [← found.1]
        exact (List.dropWhile_sublist _).subset (by rw [dark]; exact List.mem_cons_self)
    exact absurd kept.blank (not_blank_of_mem opens member)

theorem Kept.replayed_append (kept : Kept ρ content whole tail) (white : ∀ b ∈ tail, Json.isSpace b)
    (legible : ∀ line ∈ whole, (Utf8.decode? line).isSome) (more : List ρ) :
    replayed ρ (content ++ written more) = ⟨(whole.flatMap (recordsOf ρ) ++ more).map .ok, none⟩ ∧
      mended ρ (content ++ written more) = .ok (content ++ written more) := by
  cases more with
  | nil =>
    simp only [written, List.flatMap_nil, List.append_nil]
    exact ⟨kept.replayed_whole legible, kept.mended_self⟩
  | cons record more =>
    have further := kept.append white record more
    refine ⟨?_, further.mended_self⟩
    have glued := line_after record white kept.unbroken kept.legible_tail
    rw [further.replayed_whole, List.flatMap_append, List.flatMap_cons, glued.2.1, recordsOf_written]
    · rfl
    · simp only [List.mem_append, List.mem_cons]
      rintro line (member | rfl | member)
      · exact legible line member
      · exact glued.2.2
      · exact legible_written more line member

end Appending

end FileLog

end AtomicCommit
