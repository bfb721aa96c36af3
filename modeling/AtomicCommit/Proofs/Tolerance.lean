import AtomicCommit.Proofs.Json.Texts
import AtomicCommit.Proofs.Wire

/-! A message is read of every text that it has as an object: with its members in any order among any
others, spelled and spaced in any way. -/

namespace AtomicCommit

open Json
open Utf8 (encodeChar encodeChars encodeChars_nil encodeChars_cons encodeChars_append)

def IsByteOf (b : UInt8) (text : List Char) : Prop := text = (toString b.toNat).toList

theorem isByteOf_written (b : UInt8) : IsByteOf b (Message.byteJson b).write := rfl

namespace Message

variable (m : Message)

def fields : List String := ["txn", "resources", "payload", "phase"]

/-- What may stand under a name in a text of the message. -/
inductive Holds : String → List Char → Prop
  | txn {value : List Char} (isTxn : IsStringOf m.txn value) : Holds "txn" value
  | resources {value : List Char} (listed : IsListOf IsStringOf m.resources value) :
      Holds "resources" value
  | payload {bytes : Bytes} {value : List Char} (given : m.payload = some bytes)
      (listed : IsListOf IsByteOf bytes value) : Holds "payload" value
  | noPayload (absent : m.payload = none) : Holds "payload" ['n', 'u', 'l', 'l']
  | phase {value : List Char} (isPhase : IsStringOf m.phase.tag value) : Holds "phase" value
  | other {name : String} {value : List Char} (other : name ∉ fields) (isValue : IsValue value) :
      Holds name value

inductive IsMember (name : String) : List Char → Prop
  | pair {key value : List Char} (isKey : Spaced (IsStringOf name) key)
      (holds : Spaced (m.Holds name) value) : IsMember name (key ++ ':' :: value)

def needed : List String :=
  ["txn", "phase"] ++ (if m.resources = [] then [] else ["resources"]) ++
    (if m.payload = none then [] else ["payload"])

/-- The members stand in any order; each of the message's own stands there once at most, others as
often as they like. -/
inductive HasText : List Char → Prop
  | object {names : List String} {members : List (List Char)} {before after : List Char}
      (blank : IsBlank before) (blankToo : IsBlank after)
      (each : List.Forall₂ m.IsMember names members)
      (once : ∀ name ∈ fields, names.count name ≤ 1) (complete : ∀ name ∈ m.needed, name ∈ names) :
      HasText (before ++ '\x7b' :: ([','].intercalate members ++ '\x7d' :: after))

def draft (names : List String) : Draft where
  txn := if "txn" ∈ names then some m.txn else none
  resources := if "resources" ∈ names then some m.resources else none
  payload := if "payload" ∈ names then some m.payload else none
  phase := if "phase" ∈ names then some m.phase else none

section Values

variable {b : UInt8} {value : List Char}

theorem reads_byte (isByte : IsByteOf b value) : ReadsAs readByte value b := by
  have written : encodeChars value = byteBody b := by
    rw [byteBody_eq, isByte]
    rfl
  obtain ⟨first, more, start, digit⟩ := byteBody_start b
  constructor
  · intro rest
    rw [written, start, List.cons_append, skipSpace_cons (noSpace_of_digit digit)]
    refine ⟨_, _, rfl, ?_⟩
    rintro rfl
    cases digit
  · intro input rest follows alike
    obtain ⟨mark, rest, rfl, may⟩ := follows
    have read := readByte_body b may rest
    rw [written] at alike
    refine ⟨mark :: rest, ?_, rfl⟩
    simpa only [readByte, alike.valueStart] using read

theorem reads_resources {resources : List String} (listed : IsListOf IsStringOf resources value) :
    ReadsAs readResources value resources :=
  reads_list listed fun _ _ isString => reads_string _ isString

theorem reads_payload {bytes : Bytes} (listed : IsListOf IsByteOf bytes value) :
    ReadsAs readPayload value (some bytes) := by
  obtain ⟨start, read⟩ := reads_list listed fun _ _ isByte => reads_byte isByte
  obtain ⟨inside, written, -⟩ := readList_listed listed fun _ _ isByte => reads_byte isByte
  have noSpace : isSpace listOpen = false := by decide
  refine ⟨start, fun input rest follows alike => ?_⟩
  obtain ⟨left, readBytes, alikeLeft⟩ := read (encodeChars value ++ rest) rest follows rfl
  rw [written, List.cons_append] at alike readBytes
  refine ⟨left, ?_, alikeLeft⟩
  simp only [readPayload, alike.valueStart, valueStart_cons noSpace, bind, Except.bind,
    show listOpen ≠ 0x6E by decide, if_false, readBytes]
  rfl

theorem reads_noPayload : ReadsAs readPayload ['n', 'u', 'l', 'l'] none := by
  constructor
  · intro rest
    exact ⟨_, _, rfl, by decide⟩
  · intro input rest _ alike
    refine ⟨rest, ?_, rfl⟩
    simp only [readPayload, alike.valueStart]
    rfl

theorem reads_phase {phase : Phase} (isPhase : IsStringOf phase.tag value) :
    ReadsAs readPhase value phase := by
  obtain ⟨start, read⟩ := reads_string "a string" isPhase
  refine ⟨start, fun input rest follows alike => ?_⟩
  obtain ⟨left, readTag, alikeLeft⟩ := read input rest follows alike
  exact ⟨left, by simp only [readPhase, readText, readTag, parse_tag, bind, Except.bind]; rfl, alikeLeft⟩

end Values

section Members

variable {m} {name : String} {seen : List String} {value : List Char}

theorem reads_new {α : Type} {reader : Reader α} {a : α} {held : Option α} {known : Draft}
    (keep : α → Draft) (reads : ReadsAs reader value a) (new : held = none)
    (dispatch : ∀ input, readMember name known input = (do
      let (a, rest) ← readNew name held reader input
      return (keep a, rest))) :
    ReadsAs (fun input => readMember name known (colon :: input)) value (keep a) := by
  refine reads.map keep fun input => ?_
  simp only [dispatch, readNew, new, Option.isSome_none, afterColon_colon, bind, Except.bind, if_false,
    Bool.false_eq_true]
  cases reader input <;> rfl

theorem reads_value (holds : m.Holds name value) (new : name ∈ fields → name ∉ seen) :
    ReadsAs (fun input => readMember name (m.draft seen) (colon :: input)) value
      (m.draft (name :: seen)) := by
  cases holds with
  | txn isTxn =>
    have next : m.draft ("txn" :: seen) = { m.draft seen with txn := some m.txn } := by
      simp [draft]
    rw [next]
    exact reads_new (fun txn => { m.draft seen with txn := some txn })
      (reads_string "a string" isTxn) (if_neg (new (by decide))) fun input => rfl
  | resources listed =>
    have next : m.draft ("resources" :: seen) =
        { m.draft seen with resources := some m.resources } := by
      simp [draft]
    rw [next]
    exact reads_new (fun resources => { m.draft seen with resources := some resources })
      (reads_resources listed) (if_neg (new (by decide))) fun input => rfl
  | @payload bytes _ given listed =>
    have next : m.draft ("payload" :: seen) =
        { m.draft seen with payload := some (some bytes) } := by
      simp [draft, given]
    rw [next]
    exact reads_new (fun payload => { m.draft seen with payload := some payload })
      (reads_payload listed) (if_neg (new (by decide))) fun input => rfl
  | noPayload absent =>
    have next : m.draft ("payload" :: seen) = { m.draft seen with payload := some none } := by
      simp [draft, absent]
    rw [next]
    exact reads_new (fun payload => { m.draft seen with payload := some payload })
      reads_noPayload (if_neg (new (by decide))) fun input => rfl
  | phase isPhase =>
    have next : m.draft ("phase" :: seen) = { m.draft seen with phase := some m.phase } := by
      simp [draft]
    rw [next]
    exact reads_new (fun phase => { m.draft seen with phase := some phase })
      (reads_phase isPhase) (if_neg (new (by decide))) fun input => rfl
  | other other isValue =>
    simp only [fields, List.mem_cons, List.not_mem_nil, or_false, not_or] at other
    obtain ⟨noTxn, noResources, noPayload, noPhase⟩ := other
    have next : m.draft (name :: seen) = m.draft seen := by
      simp [draft, Ne.symm noTxn, Ne.symm noResources, Ne.symm noPayload, Ne.symm noPhase]
    rw [next]
    refine (reads_skipped isValue).map (fun _ => m.draft seen) fun input => ?_
    simp only [readMember, noTxn, noResources, noPayload, noPhase, if_false, afterColon_colon, bind,
      Except.bind, asReader]
    cases skipValue input <;> rfl

theorem readMember_alike {known : Draft} {input other : Bytes} (alike : Alike input other) :
    readMember name known input = readMember name known other := by
  have same : afterColon input = afterColon other := by rw [afterColon, alike, ← afterColon]
  simp only [readMember, readNew, same]

theorem reads_member {text : List Char} {rest : Bytes} (isMember : m.IsMember name text)
    (new : name ∈ fields → name ∉ seen) (follows : Follows rest) : ∃ opened keyed left,
      skipSpace (encodeChars text ++ rest) = quoteMark :: opened ∧
        readString opened = .ok (name, keyed) ∧
        readMember name (m.draft seen) keyed = .ok (m.draft (name :: seen), left) ∧
        Alike left rest := by
  obtain @⟨key, value, isKey, holds⟩ := isMember
  obtain @⟨before, inside, after, blank, isName, blankToo⟩ := isKey
  have mark : encodeChar ':' = [colon] := rfl
  have noSpace : isSpace quoteMark = false := by decide
  have reads := ReadsAs.spaced (fun _ holds => reads_value holds new) holds
  obtain ⟨left, read, alike⟩ := reads.read (encodeChars value ++ rest) rest follows rfl
  obtain ⟨opened, written, readName⟩ :=
    readString_spelled isName (encodeChars after ++ colon :: (encodeChars value ++ rest))
  refine ⟨opened, _, left, ?_, readName, ?_, alike⟩
  · simp only [encodeChars_append, encodeChars_cons, mark, List.append_assoc, List.cons_append,
      List.nil_append, skipSpace_blank blank, written, skipSpace_cons noSpace]
  · rw [← read]
    exact readMember_alike (blank_alike blankToo _)

variable {names : List String} {members : List (List Char)}

theorem readMembersFrom_texts (each : List.Forall₂ m.IsMember names members)
    (once : ∀ name ∈ fields, (names ++ seen).count name ≤ 1) {input rest : Bytes}
    (alike : Alike input (commaed members ++ objectClose :: rest)) {bound : Nat}
    (enough : (commaed members).length < bound) :
    readMembersFrom readMember bound false (m.draft seen) input =
      .ok (m.draft (names.reverse ++ seen), rest) := by
  induction each generalizing seen input bound with
  | nil =>
    obtain ⟨bound, rfl⟩ := Nat.exists_eq_succ_of_ne_zero (Nat.ne_of_gt enough)
    rw [commaed_nil, List.nil_append, Alike, skipSpace_cons (by decide)] at alike
    have found : nextMember false input = .ok (false, rest) :=
      nextMember_ok.mpr (.inl ⟨rfl, alike⟩)
    simp only [readMembersFrom, found, bind, Except.bind, Bool.false_eq_true, if_false]
    rfl
  | @cons name text names members first _ ih =>
    obtain ⟨bound, rfl⟩ := Nat.exists_eq_succ_of_ne_zero (Nat.ne_of_gt (Nat.zero_lt_of_lt enough))
    rw [commaed_cons, List.cons_append, Alike, skipSpace_cons (by decide), List.append_assoc] at alike
    rw [commaed_cons, List.length_cons, List.length_append] at enough
    have new : name ∈ fields → name ∉ seen := by
      intro known before
      have twice := once name known
      have positive := List.count_pos_iff.mpr before
      simp only [List.cons_append, List.count_cons_self, List.count_append] at twice
      omega
    have onceToo : ∀ other ∈ fields, (names ++ name :: seen).count other ≤ 1 := by
      intro other known
      have perm : (names ++ name :: seen).Perm (name :: names ++ seen) := List.perm_middle
      rw [perm.count_eq]
      exact once other known
    obtain ⟨opened, keyed, left, start, readName, read, alikeLeft⟩ :=
      reads_member first new (follows_commaed members objectClose_follows rest)
    have found : nextMember false input = .ok (true, opened) :=
      nextMember_ok.mpr (.inr (.inr ⟨rfl, rfl, _, alike, start⟩))
    have others := ih onceToo alikeLeft (show (commaed members).length < bound by omega)
    simp only [readMembersFrom, found, bind, Except.bind, if_true, readName, read, others,
      List.reverse_cons, List.append_assoc, List.cons_append, List.nil_append]

theorem readMembers_texts (some : names ≠ []) (each : List.Forall₂ m.IsMember names members)
    (once : ∀ name ∈ fields, names.count name ≤ 1) (rest : Bytes) :
    readMembers readMember {} (encodeChars ([','].intercalate members) ++ objectClose :: rest) =
      .ok (m.draft names.reverse, rest) := by
  cases each with
  | nil => contradiction
  | @cons name text names members first others =>
    have start : m.draft [] = {} := by simp [draft]
    have onceToo : ∀ other ∈ fields, (names ++ [name]).count other ≤ 1 := by
      intro other known
      rw [List.perm_append_singleton name names |>.count_eq]
      exact once other known
    obtain ⟨opened, keyed, left, foundKey, readName, read, alike⟩ :=
      reads_member first (fun _ => List.not_mem_nil) (follows_commaed members objectClose_follows rest)
    have found : nextMember true (encodeChars text ++ (commaed members ++ objectClose :: rest)) =
        .ok (true, opened) := nextMember_ok.mpr (.inr (.inl ⟨rfl, rfl, foundKey⟩))
    rw [start] at read
    have enough : (commaed members).length <
        (encodeChars text ++ (commaed members ++ objectClose :: rest)).length := by
      simp only [List.length_append, List.length_cons]
      omega
    have readOthers := readMembersFrom_texts others onceToo alike enough
    rw [encodeChars_intercalate, List.append_assoc, readMembers]
    simp only [readMembersFrom, found, bind, Except.bind, if_true, readName, read, readOthers,
      List.reverse_cons]

theorem finish_draft (complete : ∀ name ∈ m.needed, name ∈ names) :
    (m.draft names).finish = .ok m := by
  have txn : "txn" ∈ names := complete _ (by simp [needed])
  have phase : "phase" ∈ names := complete _ (by simp [needed])
  have resources : (m.draft names).resources.getD [] = m.resources := by
    by_cases given : "resources" ∈ names
    · simp [draft, given]
    · by_cases none : m.resources = []
      · simp [draft, given, none]
      · exact absurd (complete _ (by simp [needed, none])) given
  have payload : (m.draft names).payload.getD none = m.payload := by
    by_cases given : "payload" ∈ names
    · simp [draft, given]
    · by_cases none : m.payload = none
      · simp [draft, given, none]
      · exact absurd (complete _ (by simp [needed, none])) given
  rw [Draft.finish]
  simp only [draft, txn, phase, if_true] at resources payload ⊢
  rw [resources, payload]

end Members

theorem hasText_written (m : Message) : m.HasText m.json.write := by
  have txn : m.Holds "txn" (write (.string m.txn)) := .txn (isStringOf_written _)
  have resources : m.Holds "resources" (write (.array (m.resources.map .string))) :=
    .resources (isListOf_written isStringOf_written _)
  have phase : m.Holds "phase" (write (.string m.phase.tag)) := .phase (isStringOf_written _)
  have member : ∀ {name value}, m.Holds name (write value) →
      m.IsMember name (writeString name ++ ':' :: write value) :=
    fun holds => .pair (.bare (isStringOf_written _)) (.bare holds)
  have blank : IsBlank [] := by decide
  rw [json, write_members]
  cases given : m.payload with
  | none =>
    refine @HasText.object m ["txn", "resources", "phase"] _ [] [] blank blank
      (.cons (member txn) (.cons (member resources) (.cons (member phase) .nil))) (by decide) ?_
    simp [needed, given]
  | some bytes =>
    have payload : m.Holds "payload" (write (.array (bytes.map byteJson))) :=
      .payload given (isListOf_written isByteOf_written _)
    refine @HasText.object m ["txn", "resources", "payload", "phase"] _ [] [] blank blank
      (.cons (member txn) (.cons (member resources) (.cons (member payload)
        (.cons (member phase) .nil)))) (by decide) ?_
    simp only [needed, given, List.mem_append, List.mem_cons, List.mem_ite_nil_left]
    grind

/-- However it is put, a message is read as itself. -/
theorem decode_every_text (m : Message) {text : List Char} (hasText : m.HasText text) :
    decode (encodeChars text) = .ok m := by
  cases hasText with
  | @object names members before after blank blankToo each once complete =>
    have marks : encodeChar '\x7b' = [objectOpen] ∧ encodeChar '\x7d' = [objectClose] := by decide
    have noSpace : isSpace objectOpen = false := by decide
    have some : names ≠ [] := List.ne_nil_of_mem (complete "txn" (by simp [needed]))
    have start : valueStart (encodeChars before ++ objectOpen ::
        (encodeChars ([','].intercalate members) ++ objectClose :: encodeChars after)) =
        .ok (objectOpen, encodeChars ([','].intercalate members) ++ objectClose :: encodeChars after) := by
      rw [valueStart, skipSpace_blank blank, skipSpace_cons noSpace]
    have ended : skipSpace (encodeChars after) = [] := by
      simpa [skipSpace] using skipSpace_blank blankToo []
    have finished : (m.draft names.reverse).finish = .ok m :=
      finish_draft fun name known => List.mem_reverse.mpr (complete name known)
    simp only [decode, readAll, read, encodeChars_append, encodeChars_cons, marks, List.cons_append,
      List.nil_append, start, show objectOpen ≠ listOpen by decide, if_false, if_true, bind,
      Except.bind, readMembers_texts some each once, finished, pure, Except.pure, ended,
      List.isEmpty_nil]

def note : List Char := "[\x7b\"\":-1.5e+400\x7d,\"\\uDEAD\" ]".toList

def disordered : List Char :=
  "\t\x7b\"note\":".toList ++ note ++
    ",\"phase\":\"AC\\u004b\",\"payload\" : null,\"txn\":\"\\ud83d\\uDE00\"\x7d\n".toList

theorem isValue_note : IsValue note := by
  have number : IsNumber "-1.5e+400".toList :=
    @IsNumber.parts ['-'] ['1'] ['.', '5'] ['e', '+', '4', '0', '0'] (by decide) (by decide)
      (.some (by decide)) (@IsExponent.some 'e' ['+'] _ (by decide) (by decide) (by decide))
  have key : IsString "\"\"".toList := @IsString.quoted [] (by simp)
  have object : IsValue "\x7b\"\":-1.5e+400\x7d".toList :=
    @IsValue.object [("\"\"".toList, "-1.5e+400".toList)] (by simpa using .bare key)
      (by simpa using .number number)
  have lone : IsString "\"\\uDEAD\"".toList :=
    @IsString.quoted ["\\uDEAD".toList]
      (by simpa using @IsLetter.unit 0xDEAD ['D', 'E', 'A', 'D'] (by decide))
  have spaced : IsValue "\"\\uDEAD\" ".toList :=
    @IsValue.spaced [] _ [' '] (by decide) (.string lone) (by decide)
  exact @IsValue.list [_, _] (by simpa using ⟨object, spaced⟩)

theorem decode_disordered : (bare "😀" .ack).HasText disordered ∧
    decode (encodeChars disordered) = .ok (bare "😀" .ack) := by
  have hasText : (bare "😀" .ack).HasText disordered := by
    have noted : IsMember (bare "😀" .ack) "note" ("\"note\":".toList ++ note) :=
      .pair (.bare (isStringOf_written "note")) (.bare (.other (by decide) isValue_note))
    have phase : IsStringOf "ACK" "\"AC\\u004b\"".toList :=
      @IsStringOf.quoted "ACK" [['A'], ['C'], "\\u004b".toList]
        (.cons (.plain (by decide)) (.cons (.plain (by decide)) (.cons (.unit (by decide)) .nil)))
    have phased : IsMember (bare "😀" .ack) "phase" "\"phase\":\"AC\\u004b\"".toList :=
      .pair (.bare (isStringOf_written "phase")) (.bare (.phase phase))
    have unpaid : IsMember (bare "😀" .ack) "payload" "\"payload\" : null".toList :=
      .pair (@Spaced.around _ [] _ [' '] (by decide) (isStringOf_written "payload") (by decide))
        (@Spaced.around _ [' '] _ [] (by decide) (Holds.noPayload rfl) (by decide))
    have txn : IsStringOf "😀" "\"\\ud83d\\uDE00\"".toList :=
      @IsStringOf.quoted "😀" ["\\ud83d\\uDE00".toList]
        (.cons (@Spells.pair '😀' ['d', '8', '3', 'd'] ['D', 'E', '0', '0'] (by decide) (by decide)
          (by decide)) .nil)
    have named : IsMember (bare "😀" .ack) "txn" "\"txn\":\"\\ud83d\\uDE00\"".toList :=
      .pair (.bare (isStringOf_written "txn")) (.bare (.txn txn))
    exact @HasText.object _ ["note", "phase", "payload", "txn"] [_, _, _, _] ['\t'] ['\n']
      (by decide) (by decide) (.cons noted (.cons phased (.cons unpaid (.cons named .nil))))
      (by decide) (by decide)
  exact ⟨hasText, decode_every_text _ hasText⟩

end Message

end AtomicCommit
