import AtomicCommit.Json.Field
import AtomicCommit.Proofs.Json.Lists

/-! Values that have been written read back: strings, and whatever lists and objects are made of them. -/

namespace AtomicCommit.Json

open Utf8 (encodeChars encodeChars_nil encodeChars_cons encodeChars_append encodeChars_flatMap)

theorem encodeChar_marks : Utf8.encodeChar '\x7b' = [objectOpen] ∧
    Utf8.encodeChar '\x7d' = [objectClose] ∧ Utf8.encodeChar ',' = [comma] ∧
    Utf8.encodeChar ':' = [colon] := by
  decide

section Written

variable {α : Type} {json : α → Json} {body : α → Bytes}

theorem writeItems_eq (items : List Json) :
    writeItems items = items.flatMap fun item => ',' :: write item := by
  induction items with
  | nil => rfl
  | cons item items ih =>
    simp only [writeItems, ih, List.flatMap_cons, List.cons_append, List.nil_append]

theorem write_array (written : ∀ a, encodeChars (json a).write = body a) (items : List α) :
    encodeChars (write (.array (items.map json))) = listOpen :: listBody body items := by
  cases items with
  | nil => rfl
  | cons a items =>
    simp only [List.map_cons, write, encodeChars_append, written, writeItems_eq, listBody,
      List.append_assoc, encodeChars_flatMap, List.flatMap_map, encodeChars_cons, encodeChar_marks]
    rfl

def writeMember (member : String × Json) : List Char :=
  writeString member.1 ++ ':' :: write member.2

theorem writeMembers_eq (members : List (String × Json)) :
    writeMembers members = members.flatMap fun member => ',' :: writeMember member := by
  induction members with
  | nil => rfl
  | cons member members ih =>
    obtain ⟨key, value⟩ := member
    simp only [writeMembers, writeMember, ih, List.flatMap_cons, List.append_assoc, List.cons_append,
      List.nil_append]

def memberBody (member : String × Json) : Bytes :=
  stringBody member.1 ++ colon :: encodeChars member.2.write

theorem encodeChars_writeMember (member : String × Json) :
    encodeChars (writeMember member) = memberBody member := by
  simp only [writeMember, memberBody, stringBody, encodeChars_append, encodeChars_cons,
    encodeChar_marks, List.cons_append, List.nil_append]

theorem write_object (member : String × Json) (members : List (String × Json)) :
    encodeChars (write (.object (member :: members))) =
      objectOpen :: (memberBody member ++
        (members.flatMap fun member => comma :: memberBody member) ++ [objectClose]) := by
  obtain ⟨key, value⟩ := member
  simp only [write, encodeChars_append, writeMembers_eq, encodeChars_flatMap, encodeChars_cons,
    encodeChars_nil, encodeChar_marks, encodeChars_writeMember, memberBody, stringBody,
    List.append_assoc, List.cons_append, List.nil_append]

end Written

theorem afterColon_colon (rest : Bytes) : afterColon (colon :: rest) = .ok rest := rfl

section Members

variable {β : Type} {member : String → β → Reader β} {step : β → String × Json → β}
  {members : List (String × Json)}

theorem readMembersFrom_written (each : ∀ m ∈ members, ∀ acc rest,
      member m.1 acc (colon :: (encodeChars m.2.write ++ rest)) = .ok (step acc m, rest))
    (acc : β) (rest : Bytes) {bound : Nat} (enough : members.length < bound) :
    readMembersFrom member bound false acc
        ((members.flatMap fun m => comma :: memberBody m) ++ objectClose :: rest) =
      .ok (members.foldl step acc, rest) := by
  induction members generalizing acc bound with
  | nil =>
    obtain ⟨bound, rfl⟩ := Nat.exists_eq_succ_of_ne_zero (Nat.ne_of_gt enough)
    rfl
  | cons m members ih =>
    obtain ⟨bound, rfl⟩ := Nat.exists_eq_succ_of_ne_zero (Nat.ne_of_gt (Nat.zero_lt_of_lt enough))
    obtain ⟨first, others⟩ := List.forall_mem_cons.mp each
    simp only [List.flatMap_cons, memberBody, List.append_assoc, List.cons_append,
      readMembersFrom_next, first, bind, Except.bind]
    exact ih others _ (by simpa using enough)

theorem readMembers_written {m : String × Json} {start acc : β}
    (first : ∀ rest, member m.1 start (colon :: (encodeChars m.2.write ++ rest)) = .ok (acc, rest))
    (each : ∀ m ∈ members, ∀ acc rest,
      member m.1 acc (colon :: (encodeChars m.2.write ++ rest)) = .ok (step acc m, rest))
    (rest : Bytes) :
    readMembers member start (memberBody m ++
        (members.flatMap fun m => comma :: memberBody m) ++ objectClose :: rest) =
      .ok (members.foldl step acc, rest) := by
  have enough : members.length < (memberBody m ++
      (members.flatMap fun m => comma :: memberBody m) ++ objectClose :: rest).length := by
    have spread := length_le_flatMap memberBody members
    simp only [List.length_append, List.length_cons]
    omega
  rw [readMembers]
  generalize (memberBody m ++ (members.flatMap fun m => comma :: memberBody m) ++
    objectClose :: rest).length = bound at enough ⊢
  simp only [memberBody, List.append_assoc, List.cons_append, readMembersFrom_first, first, bind,
    Except.bind]
  exact readMembersFrom_written each acc rest enough

end Members

theorem foldl_snoc {α : Type} (items former : List α) :
    items.foldl (fun acc a => acc ++ [a]) former = former ++ items := by
  simp [← List.flatMap_def, List.flatMap_singleton']

structure Legible (depth : Nat) (json : Json) : Prop where
  start : ∃ b more, encodeChars json.write = b :: more ∧ isSpace b = false ∧ b ≠ listClose
  read : ∀ rest, readValue depth (encodeChars json.write ++ rest) = .ok (json, rest)

def valueMember (depth : Nat) (key : String) (before : List (String × Json)) :
    Reader (List (String × Json)) := fun input => do
  let (v, rest) ← readValue depth (← afterColon input)
  return (before ++ [(key, v)], rest)

theorem readValue_object (depth : Nat) (rest : Bytes) :
    readValue (depth + 1) (objectOpen :: rest) = (do
      let (pairs, rest) ← readMembers (valueMember depth) [] rest
      return (.object pairs, rest)) := rfl

namespace Legible

variable {depth : Nat} {members : List (String × Json)}

theorem string (depth : Nat) (text : String) : Legible depth (.string text) := by
  have body := stringBody_append text
  constructor
  · have written := body []
    rw [List.append_nil] at written
    exact ⟨_, _, written, by decide, by decide⟩
  · intro rest
    have noSpace : isSpace quoteMark = false := by decide
    rw [write, ← stringBody, body]
    cases depth <;>
      simp only [readValue, valueStart_cons noSpace, bind, Except.bind, readScalar,
        show quoteMark ≠ listOpen by decide, show quoteMark ≠ objectOpen by decide,
        show quoteMark ≠ 0x6E by decide, show quoteMark ≠ 0x74 by decide,
        show quoteMark ≠ 0x66 by decide, show quoteMark ≠ minusSign by decide,
        show isDigit quoteMark = false by decide, or_self, if_false, if_true, readString_written,
        Except.map, Bool.false_eq_true]

theorem array {items : List Json} (each : ∀ item ∈ items, Legible depth item) :
    Legible (depth + 1) (.array items) := by
  have written : encodeChars (write (.array items)) =
      listOpen :: listBody (fun item => encodeChars item.write) items := by
    have listed := @write_array Json id (fun item => encodeChars item.write) (fun _ => rfl) items
    rwa [List.map_id] at listed
  have restored : ∀ item ∈ items,
      Restored (readValue depth) (fun item => encodeChars item.write) item :=
    fun item member => ⟨(each item member).start, fun mark rest _ => (each item member).read _⟩
  constructor
  · exact ⟨_, _, written, by decide, by decide⟩
  · intro rest
    have noSpace : isSpace listOpen = false := by decide
    simp only [written, List.cons_append, readValue, valueStart_cons noSpace, bind, Except.bind,
      if_true, readList_restored restored]
    rfl

theorem valueMember (legible : ∀ m ∈ members, Legible depth m.2) : ∀ m ∈ members, ∀ before rest,
    Json.valueMember depth m.1 before (colon :: (encodeChars m.2.write ++ rest)) =
      .ok (before ++ [m], rest) := by
  intro m member before rest
  simp only [Json.valueMember, afterColon_colon, bind, Except.bind, (legible m member).read]
  rfl

theorem object (each : ∀ m ∈ members, Legible depth m.2) : Legible (depth + 1) (.object members) := by
  have noSpace : isSpace objectOpen = false := by decide
  cases members with
  | nil => exact ⟨⟨objectOpen, [objectClose], rfl, noSpace, by decide⟩, fun rest => rfl⟩
  | cons m members =>
    refine ⟨⟨objectOpen, _, write_object m members, noSpace, by decide⟩, fun rest => ?_⟩
    have read := valueMember each
    obtain ⟨first, others⟩ := List.forall_mem_cons.mp read
    have body := readMembers_written (first []) others rest
    simp only [write_object, List.cons_append, readValue_object, List.append_assoc, List.nil_append,
      bind, Except.bind] at body ⊢
    rw [body, foldl_snoc]
    rfl

end Legible

section Tagged

variable {κ : Type} {kinds : List (String × κ)} {tag name : String} {kind : κ}
  {members : List (String × Json)}

theorem taggedMember_tag (known : kinds.lookup name = some kind) (rest : Bytes) :
    taggedMember tag kinds tag (none, []) (colon :: (stringBody name ++ rest)) =
      .ok ((some kind, []), rest) := by
  simp [taggedMember, afterColon_colon, readVariant, expectString_body, variantNamed, known, bind,
    Except.bind, pure, Except.pure]

theorem taggedMember_other (other : ∀ m ∈ members, m.1 ≠ tag)
    (legible : ∀ m ∈ members, Legible (depthLimit - 1) m.2) : ∀ m ∈ members, ∀ before rest,
    taggedMember tag kinds m.1 before (colon :: (encodeChars m.2.write ++ rest)) =
      .ok ((before.1, before.2 ++ [m]), rest) := by
  intro m member before rest
  simp only [taggedMember, other m member, if_false, bind, Except.bind, afterColon_colon,
    (legible m member).read]
  rfl

theorem foldl_snoc_beside {α : Type} (a : α) (former : List (String × Json)) :
    members.foldl (fun (before : α × List (String × Json)) m => (before.1, before.2 ++ [m]))
      (a, former) = (a, former ++ members) := by
  induction members generalizing former with
  | nil => simp
  | cons m members ih => simp [ih]

theorem readTagged_written (what : String) (known : kinds.lookup name = some kind)
    (other : ∀ m ∈ members, m.1 ≠ tag) (legible : ∀ m ∈ members, Legible (depthLimit - 1) m.2)
    (rest : Bytes) :
    readTagged what tag kinds (encodeChars (write (.object ((tag, .string name) :: members))) ++ rest) =
      .ok ((kind, .object members), rest) := by
  have noSpace : isSpace objectOpen = false := by decide
  have body := readMembers_written (m := (tag, .string name)) (taggedMember_tag known)
    (taggedMember_other other legible) rest
  have marks : objectOpen ≠ listOpen := by decide
  simp only [write_object, List.cons_append, List.append_assoc, List.nil_append, readTagged,
    valueStart_cons noSpace, marks, if_false, if_true, bind, Except.bind] at body ⊢
  rw [body, foldl_snoc_beside]
  rfl

end Tagged

end AtomicCommit.Json
