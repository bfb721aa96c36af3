import AtomicCommit.Coordinator.Record
import AtomicCommit.Participant.Record
import AtomicCommit.Proofs.Json.Trailing

/-! Records as lines: what a log expects of its records, and that both logs get it. -/

namespace AtomicCommit

open Json
open Utf8 (encodeChar encodeChars encodeChars_cons encodeChars_append byte)

/-- A record has a line without control characters, which reads back. Whatever reads as a record is a
JSON list or object, between white space. -/
class LawfulRecord (ρ : Type) [Record ρ] : Prop where
  read_line (record : ρ) (rest : Bytes) :
    Record.read (Utf8.encode (Log.line record) ++ rest) = .ok (record, rest)
  line_opens (record : ρ) : ∃ more, Utf8.encode (Log.line record) = objectOpen :: more
  line_printed (record : ρ) : ∀ b ∈ Utf8.encode (Log.line record), 0x20 ≤ b
  spares : Spares 1 (Record.read : Reader ρ)
  read_opens {input rest : Bytes} {record : ρ} : Record.read input = .ok (record, rest) →
    ∃ b more, skipSpace input = b :: more ∧ (b = listOpen ∨ b = objectOpen)
  read_leading {space : UInt8} (input : Bytes) : Json.isSpace space →
    (Record.read (space :: input) : Except Fault (ρ × Bytes)) = Record.read input

section Printed

def Printed (json : Json) : Prop := ∀ c ∈ json.write, 0x20 ≤ c.toNat

theorem printed_escapedChar (c : Char) : ∀ e ∈ escapedChar c, 0x20 ≤ e.toNat := by
  have digit : ∀ d < 16, 0x20 ≤ (Nat.digitChar d).toNat := by decide
  fun_cases escapedChar c with
  | case1 special => rcases special with rfl | rfl <;> simp
  | case2 | case3 | case4 | case5 | case6 => simp
  | case7 =>
    have upper := digit (c.toNat / 16) (by omega)
    have lower := digit (c.toNat % 16) (by omega)
    simpa using ⟨upper, lower⟩
  | case8 _ _ _ _ _ _ plain => simpa using plain

theorem printed_writeString (text : String) : ∀ c ∈ writeString text, 0x20 ≤ c.toNat := by
  intro c member
  simp only [writeString, List.mem_append, List.mem_singleton, List.mem_flatMap] at member
  rcases member with (rfl | ⟨source, _, member⟩) | rfl
  · decide
  · exact printed_escapedChar source c member
  · decide

theorem Printed.string (text : String) : Printed (.string text) := by
  intro c member
  rw [write] at member
  exact printed_writeString text c member

theorem Printed.array {items : List Json} (each : ∀ item ∈ items, Printed item) :
    Printed (.array items) := by
  have others : ∀ items : List Json, (∀ item ∈ items, Printed item) →
      ∀ c ∈ writeItems items, 0x20 ≤ c.toNat := by
    intro items each
    induction items with
    | nil => simp [writeItems]
    | cons item items ih =>
      obtain ⟨first, following⟩ := List.forall_mem_cons.mp each
      intro c member
      simp only [writeItems, List.mem_append, List.mem_singleton] at member
      rcases member with (rfl | member) | member
      · decide
      · exact first c member
      · exact ih following c member
  cases items with
  | nil =>
    simp [Printed, write]
  | cons item items =>
    obtain ⟨first, following⟩ := List.forall_mem_cons.mp each
    intro c member
    simp only [write, List.mem_append, List.mem_singleton] at member
    rcases member with ((rfl | member) | member) | rfl
    · decide
    · exact first c member
    · exact others items following c member
    · decide

theorem Printed.object {members : List (String × Json)} (each : ∀ m ∈ members, Printed m.2) :
    Printed (.object members) := by
  have others : ∀ members : List (String × Json), (∀ m ∈ members, Printed m.2) →
      ∀ c ∈ writeMembers members, 0x20 ≤ c.toNat := by
    intro members each
    induction members with
    | nil => simp [writeMembers]
    | cons m members ih =>
      obtain ⟨first, following⟩ := List.forall_mem_cons.mp each
      intro c member
      simp only [writeMembers, List.mem_append, List.mem_singleton] at member
      rcases member with (((rfl | member) | rfl) | member) | member
      · decide
      · exact printed_writeString m.1 c member
      · decide
      · exact first c member
      · exact ih following c member
  cases members with
  | nil =>
    simp [Printed, write]
  | cons m members =>
    obtain ⟨first, following⟩ := List.forall_mem_cons.mp each
    intro c member
    simp only [write, List.mem_append, List.mem_singleton] at member
    rcases member with ((((rfl | member) | rfl) | member) | member) | rfl
    · decide
    · exact printed_writeString m.1 c member
    · decide
    · exact first c member
    · exact others members following c member
    · decide

theorem encodeChar_printed {c : Char} (printed : 0x20 ≤ c.toNat) : ∀ b ∈ encodeChar c, 0x20 ≤ b := by
  have high : ∀ n, 0x20 ≤ n → n < 0x100 → 0x20 ≤ byte n := by
    intro n low high
    rw [UInt8.le_iff_toNat_le, Utf8.toNat_byte high]
    exact low
  have range := Utf8.toNat_char c
  intro b member
  simp only [encodeChar] at member
  split at member
  · obtain rfl := List.mem_singleton.mp member
    exact high _ printed (by omega)
  split at member
  · simp only [List.mem_cons, List.not_mem_nil, or_false] at member
    rcases member with rfl | rfl <;> exact high _ (by omega) (by omega)
  split at member
  · simp only [List.mem_cons, List.not_mem_nil, or_false] at member
    rcases member with rfl | rfl | rfl <;> exact high _ (by omega) (by omega)
  · simp only [List.mem_cons, List.not_mem_nil, or_false] at member
    rcases member with rfl | rfl | rfl | rfl <;> exact high _ (by omega) (by omega)

end Printed

section Tagged

variable {ρ κ : Type} [Record ρ]

theorem readTagged_opens {what tag : String} {kinds : List (String × κ)} {input rest : Bytes}
    {value : κ × Json} (read : readTagged what tag kinds input = .ok (value, rest)) :
    ∃ b more, skipSpace input = b :: more ∧ (b = listOpen ∨ b = objectOpen) := by
  obtain ⟨⟨b, more⟩, started, read⟩ := bind_ok read
  refine ⟨b, more, ?_, ?_⟩
  · rw [valueStart] at started
    split at started
    · cases started
    next found =>
      cases started
      exact found
  · dsimp only at read
    split at read
    next isList => exact .inl isList
    split at read
    next isObject => exact .inr isObject
    next => cases read

theorem readTagged_leading (what tag : String) (kinds : List (String × κ)) {space : UInt8}
    (white : Json.isSpace space) (input : Bytes) :
    readTagged what tag kinds (space :: input) = readTagged what tag kinds input := by
  have same : valueStart (space :: input) = valueStart input := by
    simp [valueStart, skipSpace, white]
  rw [readTagged, readTagged, same]

theorem LawfulRecord.of_tagged (what : String) (kinds : List (String × κ))
    (ofJson : κ → Json → Except Fault ρ)
    (reads : (Record.read : Reader ρ) = fun input => do
      let ((kind, value), rest) ← readTagged what "kind" kinds input
      return (← ofJson kind value, rest))
    (told : ∀ record : ρ, ∃ name kind members,
      Record.json record = .object (("kind", .string name) :: members) ∧
      kinds.lookup name = some kind ∧
      (∀ m ∈ members, m.1 ≠ "kind" ∧ Legible (depthLimit - 1) m.2 ∧ Printed m.2) ∧
      ofJson kind (.object members) = .ok record) : LawfulRecord ρ := by
  have line : ∀ record : ρ, Utf8.encode (Log.line record) = encodeChars (Record.json record).write := by
    intro record
    rw [Log.line, Json.text, Utf8.encode, String.toList_ofList]
  constructor
  · intro record rest
    obtain ⟨name, kind, members, same, known, each, meant⟩ := told record
    have read := readTagged_written what known (fun m member => (each m member).1)
      (fun m member => (each m member).2.1) rest
    rw [line, same]
    simp only [reads, bind, Except.bind, read, meant, pure, Except.pure]
  · intro record
    obtain ⟨name, kind, members, same, -⟩ := told record
    rw [line, same, write_object]
    exact ⟨_, rfl⟩
  · intro record b member
    obtain ⟨name, kind, members, same, -, each, -⟩ := told record
    have printed : Printed (Record.json record) := by
      rw [same]
      refine .object fun m member => ?_
      rcases List.mem_cons.mp member with rfl | member
      · exact .string name
      · exact (each m member).2.2
    rw [line] at member
    obtain ⟨c, written, member⟩ := List.mem_flatMap.mp member
    exact encodeChar_printed (printed c written) b member
  · rw [reads]
    exact (spares_readTagged kinds what "kind").bind _
      fun tagged => spares_pure (ofJson tagged.1 tagged.2)
  · intro input rest record read
    rw [reads] at read
    obtain ⟨⟨_, _⟩, tagged, _⟩ := bind_ok read
    exact readTagged_opens tagged
  · intro space input white
    simp only [reads, readTagged_leading what "kind" kinds white input]

theorem asList_map {α : Type} {json : α → Json} {item : Json → Except Fault α}
    (each : ∀ a, item (json a) = .ok a) (items : List α) :
    asList item (.array (items.map json)) = .ok items := by
  rw [asList]
  induction items with
  | nil => rfl
  | cons a items ih =>
    simp only [List.map_cons, List.mapM_cons, each, ih, bind, Except.bind, pure, Except.pure]

end Tagged

theorem Source.ofJson_json (s : Source) : Source.ofJson s.json = .ok s := rfl

theorem Source.legible_json (depth : Nat) (s : Source) : Legible (depth + 1) s.json :=
  .object (by simpa [json] using ⟨Legible.string depth _, Legible.string depth _⟩)

theorem Source.printed_json (s : Source) : Printed s.json :=
  .object (by simpa [json] using ⟨Printed.string _, Printed.string _⟩)

namespace Coordinator.Entry

theorem told (entry : Entry) : ∃ name kind members,
    entry.json = .object (("kind", .string name) :: members) ∧ kinds.lookup name = some kind ∧
    (∀ m ∈ members, m.1 ≠ "kind" ∧ Legible (depthLimit - 1) m.2 ∧ Printed m.2) ∧
    ofJson kind (.object members) = .ok entry := by
  have text (text : String) : Legible (depthLimit - 1) (.string text) ∧ Printed (.string text) :=
    ⟨.string _ text, .string text⟩
  cases entry with
  | prepare txn sources =>
    have listed : Legible (depthLimit - 1) (.array (sources.map Source.json)) ∧
        Printed (.array (sources.map Source.json)) :=
      ⟨.array (List.forall_mem_map.mpr fun s _ => s.legible_json 124),
        .array (List.forall_mem_map.mpr fun s _ => s.printed_json)⟩
    refine ⟨"PREPARE", .prepare, _, rfl, rfl, by simp [text, listed], ?_⟩
    simp [ofJson, structure2, Field.offer, Field.demand, txnField, asString,
      asList_map Source.ofJson_json, bind, Except.bind, pure, Except.pure, Except.map]
  | decision txn outcome =>
    refine ⟨"DECISION", .decision, _, rfl, rfl, by simp [text, Outcome.json], ?_⟩
    cases outcome <;> rfl
  | done txn => exact ⟨"DONE", .done, _, rfl, rfl, by simp [text], rfl⟩

instance : LawfulRecord Entry := .of_tagged _ kinds ofJson rfl told

end Coordinator.Entry

namespace Participant.Entry

theorem told (entry : Entry) : ∃ name kind members,
    entry.json = .object (("kind", .string name) :: members) ∧ kinds.lookup name = some kind ∧
    (∀ m ∈ members, m.1 ≠ "kind" ∧ Legible (depthLimit - 1) m.2 ∧ Printed m.2) ∧
    ofJson kind (.object members) = .ok entry := by
  have text (text : String) : Legible (depthLimit - 1) (.string text) ∧ Printed (.string text) :=
    ⟨.string _ text, .string text⟩
  cases entry with
  | prepare txn resources vote =>
    have listed : Legible (depthLimit - 1) (.array (resources.map .string)) ∧
        Printed (.array (resources.map .string)) :=
      ⟨.array (List.forall_mem_map.mpr fun r _ => .string 125 r),
        .array (List.forall_mem_map.mpr fun r _ => .string r)⟩
    have named : asVariant Vote.names vote.json = .ok vote := by cases vote <;> rfl
    refine ⟨"PREPARE", .prepare, _, rfl, rfl, by simp [text, listed, Vote.json], ?_⟩
    simp [ofJson, structure3, Field.offer, Field.demand, txnField, asString, named,
      asList_map (fun _ => rfl : ∀ r, asString (.string r) = .ok r), bind, Except.bind, pure,
      Except.pure, Except.map]
  | decision txn outcome =>
    refine ⟨"DECISION", .decision, _, rfl, rfl, by simp [text, Outcome.json], ?_⟩
    cases outcome <;> rfl
  | done txn => exact ⟨"DONE", .done, _, rfl, rfl, by simp [text], rfl⟩

instance : LawfulRecord Entry := .of_tagged _ kinds ofJson rfl told

end Participant.Entry

end AtomicCommit
