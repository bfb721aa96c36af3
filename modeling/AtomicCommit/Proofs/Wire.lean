import AtomicCommit.Proofs.Json.Numbers

/-! A message that has been encoded decodes to itself. -/

namespace AtomicCommit

open Json
open Utf8 (encodeChars encodeChars_nil encodeChars_cons encodeChars_append)

section Bytes

def byteBody (b : UInt8) : Bytes := encodeChars (Message.byteJson b).write

def byteDigits (n : Nat) : Bytes := encodeChars (toString (n : Int)).toList

theorem byteDigits_whole : ∀ n < 256, (spanDigits (byteDigits n)).2 = [] ∧
    isWhole (spanDigits (byteDigits n)).1 ∧ natural (spanDigits (byteDigits n)).1 = n := by
  decide +kernel

theorem byteBody_eq (b : UInt8) : byteBody b = byteDigits b.toNat := by
  simp [byteBody, byteDigits, Message.byteJson, write, Number.text]

theorem byteBody_digits (b : UInt8) : ∃ values, spanDigits (byteBody b) = (values, []) ∧
    isWhole values ∧ natural values = b.toNat := by
  obtain ⟨none, whole, value⟩ := byteDigits_whole b.toNat b.toNat_lt
  rw [byteBody_eq]
  exact ⟨_, Prod.ext rfl none, whole, value⟩

theorem byteBody_start (b : UInt8) : ∃ first more, byteBody b = first :: more ∧ isDigit first := by
  obtain ⟨values, all, whole, -⟩ := byteBody_digits b
  exact starts_with_digit all whole

theorem readByte_body (b : UInt8) {mark : UInt8} (may : mayFollow mark) (rest : Bytes) :
    Message.readByte (byteBody b ++ mark :: rest) = .ok (b, mark :: rest) := by
  obtain ⟨values, all, whole, value⟩ := byteBody_digits b
  obtain ⟨first, more, written, digit⟩ := byteBody_start b
  have small : natural values < wordLimit := by
    rw [value]
    exact Nat.lt_trans b.toNat_lt (by decide)
  have read := readNumber_append all whole small may rest
  rw [written] at read ⊢
  simp only [Message.readByte, List.cons_append, valueStart_cons (noSpace_of_digit digit), digit,
    or_true, if_true, bind, Except.bind] at read ⊢
  rw [read]
  have fits : (0 : Int) ≤ b.toNat ∧ (b.toNat : Int) ≤ 255 := by
    have below := b.toNat_lt
    omega
  simp only [value, Int.toNat_natCast, UInt8.ofNat_toNat, if_pos fits]
  rfl

theorem restores_byte : Restores Message.readByte byteBody := by
  constructor
  · intro b
    obtain ⟨first, more, written, digit⟩ := byteBody_start b
    refine ⟨first, more, written, noSpace_of_digit digit, ?_⟩
    rintro rfl
    cases digit
  · intro b mark rest isMark
    exact readByte_body b (by rcases isMark with rfl | rfl <;> rfl) rest

end Bytes

namespace Message

section Members

variable (draft : Draft) (rest : Bytes)

theorem readMember_txn (txn : String) (new : draft.txn = none) :
    readMember "txn" draft (colon :: (stringBody txn ++ rest)) =
      .ok ({ draft with txn := some txn }, rest) := by
  have read : readText (stringBody txn ++ rest) = .ok (txn, rest) := expectString_body _ txn rest
  simp [readMember, readNew, new, afterColon_colon, read, bind, Except.bind, pure, Except.pure]

theorem readMember_resources (resources : List String) (new : draft.resources = none) :
    readMember "resources" draft (colon :: listOpen :: (listBody stringBody resources ++ rest)) =
      .ok ({ draft with resources := some resources }, rest) := by
  have read : readResources (listOpen :: (listBody stringBody resources ++ rest)) =
      .ok (resources, rest) := by
    have items := (restores_string "a string").readList_body resources rest
    simpa [readResources, expectList, valueStart_cons (show isSpace listOpen = false by decide),
      bind, Except.bind, readText] using items
  simp [readMember, readNew, new, afterColon_colon, read, bind, Except.bind, pure, Except.pure]

theorem readMember_payload (payload : Bytes) (new : draft.payload = none) :
    readMember "payload" draft (colon :: listOpen :: (listBody byteBody payload ++ rest)) =
      .ok ({ draft with payload := some (some payload) }, rest) := by
  have read : readPayload (listOpen :: (listBody byteBody payload ++ rest)) =
      .ok (some payload, rest) := by
    have items := restores_byte.readList_body payload rest
    simp [readPayload, expectList, valueStart_cons (show isSpace listOpen = false by decide),
      show listOpen ≠ 0x6E by decide, bind, Except.bind, pure, Except.pure, items]
  simp [readMember, readNew, new, afterColon_colon, read, bind, Except.bind, pure, Except.pure]

theorem parse_tag (phase : Phase) : Phase.parse phase.tag = .ok phase := by
  cases phase <;> rfl

theorem readMember_phase (phase : Phase) (new : draft.phase = none) :
    readMember "phase" draft (colon :: (stringBody phase.tag ++ rest)) =
      .ok ({ draft with phase := some phase }, rest) := by
  have read : readText (stringBody phase.tag ++ rest) = .ok (phase.tag, rest) :=
    expectString_body _ phase.tag rest
  simp [readMember, readNew, new, afterColon_colon, readPhase, read, parse_tag, bind, Except.bind,
    pure, Except.pure]

end Members

def payloadBody : Option Bytes → Bytes
  | some payload =>
    comma :: (stringBody "payload" ++ colon :: listOpen :: listBody byteBody payload)
  | none => []

def phaseBody (phase : Phase) : Bytes :=
  comma :: (stringBody "phase" ++ colon :: (stringBody phase.tag ++ [objectClose]))

def membersBody (m : Message) : Bytes :=
  stringBody "txn" ++ colon :: (stringBody m.txn ++
    comma :: (stringBody "resources" ++ colon :: listOpen :: (listBody stringBody m.resources ++
      (payloadBody m.payload ++ phaseBody m.phase))))

theorem encode_eq (m : Message) : m.encode = objectOpen :: m.membersBody := by
  obtain ⟨txn, resources, payload, phase⟩ := m
  have listed : encodeChars (write (.array (resources.map .string))) =
      listOpen :: listBody stringBody resources := write_array (fun _ => rfl) resources
  have bytesListed : ∀ payload : Bytes, encodeChars (write (.array (payload.map byteJson))) =
      listOpen :: listBody byteBody payload := write_array (fun _ => rfl)
  cases payload <;>
    simp only [encode, json, bytes, List.cons_append, List.nil_append, write, writeMembers,
      encodeChars_append, encodeChars_cons, encodeChars_nil, encodeChar_marks, listed, bytesListed,
      membersBody, payloadBody, phaseBody, stringBody, List.append_assoc, List.append_nil]

theorem readMembers_written (m : Message) : readMembers readMember {} m.membersBody =
    .ok (⟨some m.txn, some m.resources, m.payload.map some, some m.phase⟩, []) := by
  obtain ⟨bound, length⟩ : ∃ bound, m.membersBody.length + 1 = bound + 5 := by
    have key : (stringBody "txn").length = 5 := rfl
    refine ⟨m.membersBody.length - 4, ?_⟩
    simp only [membersBody, List.length_append, key]
    omega
  rw [readMembers, length, membersBody]
  simp only [readMembersFrom_first, readMember_txn, bind, Except.bind, readMembersFrom_next,
    readMember_resources, phaseBody]
  cases m.payload with
  | none =>
    simp only [payloadBody, List.nil_append, readMembersFrom_next, readMember_phase, bind, Except.bind,
      readMembersFrom_end, Option.map_none]
  | some payload =>
    simp only [payloadBody, List.cons_append, List.append_assoc, readMembersFrom_next,
      readMember_payload, readMember_phase, bind, Except.bind, readMembersFrom_end, Option.map_some]

theorem decode_encode (m : Message) : decode m.encode = .ok m := by
  simp only [encode_eq, decode, readAll, read, valueStart_cons (show isSpace objectOpen = false by decide),
    show objectOpen ≠ listOpen by decide, if_false, if_true, readMembers_written, bind, Except.bind]
  obtain ⟨txn, resources, payload, phase⟩ := m
  cases payload <;> rfl

/-- A message reads back as it was, so its form on the wire is that of no other message. In particular
no payload is something else than an empty one. -/
theorem decode_inverts_encode : (∀ m : Message, decode m.encode = .ok m) ∧
    (∀ m other : Message, m.encode = other.encode → m = other) ∧
    ∀ m other : Message, m.payload = none → other.payload = some [] → m.encode ≠ other.encode := by
  have injective : ∀ m other : Message, m.encode = other.encode → m = other := by
    intro m other same
    have read := decode_encode m
    rw [same, decode_encode other] at read
    exact (Except.ok.inj read).symm
  refine ⟨decode_encode, injective, fun m other absent empty same => ?_⟩
  rw [injective m other same, empty] at absent
  cases absent

end Message

end AtomicCommit
