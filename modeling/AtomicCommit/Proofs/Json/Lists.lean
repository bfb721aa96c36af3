import AtomicCommit.Json.Value
import AtomicCommit.Proofs.Json.Strings

/-! Lists and objects that have been written read back element by element and member by member. -/

namespace AtomicCommit.Json

open Utf8 (byte encodeChars)

variable {α β : Type}

theorem skipSpace_cons {b : UInt8} (noSpace : isSpace b = false) (rest : Bytes) :
    skipSpace (b :: rest) = b :: rest := by
  simp [skipSpace, noSpace]

theorem valueStart_cons {b : UInt8} (noSpace : isSpace b = false) (rest : Bytes) :
    valueStart (b :: rest) = .ok (b, rest) := by
  simp [valueStart, skipSpace_cons noSpace]

structure Restored (element : Reader α) (writes : α → Bytes) (a : α) : Prop where
  start : ∃ b more, writes a = b :: more ∧ isSpace b = false ∧ b ≠ listClose
  read : ∀ mark rest, mark = comma ∨ mark = listClose →
    element (writes a ++ mark :: rest) = .ok (a, mark :: rest)

structure Restores (element : Reader α) (writes : α → Bytes) : Prop where
  start : ∀ a, ∃ b more, writes a = b :: more ∧ isSpace b = false ∧ b ≠ listClose
  read : ∀ a mark rest, mark = comma ∨ mark = listClose →
    element (writes a ++ mark :: rest) = .ok (a, mark :: rest)

def listBody (writes : α → Bytes) : List α → Bytes
  | [] => [listClose]
  | a :: others => writes a ++ (others.flatMap fun a => comma :: writes a) ++ [listClose]

theorem after_element (writes : α → Bytes) (items : List α) (rest : Bytes) :
    ∃ mark more, (items.flatMap fun a => comma :: writes a) ++ listClose :: rest = mark :: more ∧
      (mark = comma ∨ mark = listClose) := by
  cases items with
  | nil => exact ⟨listClose, rest, rfl, .inr rfl⟩
  | cons a items => exact ⟨comma, _, rfl, .inl rfl⟩

theorem length_le_flatMap (writes : α → Bytes) (items : List α) :
    items.length ≤ (items.flatMap fun a => comma :: writes a).length := by
  induction items with
  | nil => simp
  | cons a items ih =>
    simp only [List.flatMap_cons, List.length_append, List.length_cons]
    omega

section Elements

variable {element : Reader α} {writes : α → Bytes} {items : List α}

theorem readElementsFrom_restored (each : ∀ a ∈ items, Restored element writes a) (rest : Bytes)
    {bound : Nat} (enough : items.length < bound) :
    readElementsFrom element bound false
        ((items.flatMap fun a => comma :: writes a) ++ listClose :: rest) =
      .ok (items, listClose :: rest) := by
  induction items generalizing bound with
  | nil =>
    obtain ⟨bound, rfl⟩ := Nat.exists_eq_succ_of_ne_zero (Nat.ne_of_gt enough)
    rfl
  | cons a items ih =>
    obtain ⟨bound, rfl⟩ := Nat.exists_eq_succ_of_ne_zero (Nat.ne_of_gt (Nat.zero_lt_of_lt enough))
    obtain ⟨first, following⟩ := List.forall_mem_cons.mp each
    obtain ⟨b, more, written, noSpace, noClose⟩ := first.start
    obtain ⟨mark, after, follows, isMark⟩ := after_element writes items rest
    have others := ih following (by simpa using enough)
    have read := first.read mark after isMark
    rw [follows] at others
    rw [written] at read
    simp only [List.flatMap_cons, List.append_assoc, follows, written, List.cons_append,
      readElementsFrom, nextElement, skipSpace_cons (show isSpace comma = false by decide),
      skipSpace_cons noSpace, noClose, show comma ≠ listClose by decide, if_false, if_true,
      bind, Except.bind, Bool.false_eq_true] at read ⊢
    rw [read]
    simp only [others, pure, Except.pure]

theorem readList_restored (each : ∀ a ∈ items, Restored element writes a) (rest : Bytes) :
    readList element (listBody writes items ++ rest) = .ok (items, rest) := by
  cases items with
  | nil => rfl
  | cons a items =>
    obtain ⟨first, following⟩ := List.forall_mem_cons.mp each
    obtain ⟨b, more, written, noSpace, noClose⟩ := first.start
    obtain ⟨mark, after, follows, isMark⟩ := after_element writes items rest
    have read := first.read mark after isMark
    have body : listBody writes (a :: items) ++ rest = b :: (more ++ mark :: after) := by
      simp only [listBody, List.append_assoc, ← follows, written]
      rfl
    have enough : items.length < (listBody writes (a :: items) ++ rest).length := by
      have spread := length_le_flatMap writes items
      simp only [listBody, List.length_append, List.length_singleton]
      omega
    have others := readElementsFrom_restored following rest enough
    rw [follows] at others
    rw [body] at others ⊢
    rw [written, List.cons_append] at read
    simp only [readList, readElements, readElementsFrom, nextElement, skipSpace_cons noSpace, noClose,
      if_false, if_true, bind, Except.bind, read, others]
    rfl

theorem Restores.readList_body (restores : Restores element writes) (items : List α) (rest : Bytes) :
    readList element (listBody writes items ++ rest) = .ok (items, rest) :=
  readList_restored (fun a _ => ⟨restores.start a, restores.read a⟩) rest

end Elements

def stringBody (text : String) : Bytes := encodeChars (writeString text)

theorem stringBody_append (text : String) (rest : Bytes) :
    stringBody text ++ rest =
      quoteMark :: (encodeChars (text.toList.flatMap escapedChar) ++ quoteMark :: rest) := by
  have quote : Utf8.encodeChar '"' = [quoteMark] := rfl
  simp [stringBody, writeString, encodeChars, quote]

theorem expectString_body (expected text : String) (rest : Bytes) :
    expectString expected (stringBody text ++ rest) = .ok (text, rest) := by
  rw [stringBody_append]
  simp only [expectString, valueStart_cons (show isSpace quoteMark = false by decide), if_true, bind,
    Except.bind, readString_written]

theorem restores_string (expected : String) : Restores (expectString expected) stringBody := by
  constructor
  · intro text
    have body := stringBody_append text []
    rw [List.append_nil] at body
    exact ⟨_, _, body, by decide, by decide⟩
  · intro text mark rest _
    exact expectString_body expected text (mark :: rest)

section Members

variable (member : String → β → Reader β) (bound : Nat) (acc : β)

theorem readMembersFrom_first (key : String) (rest : Bytes) :
    readMembersFrom member (bound + 1) true acc (stringBody key ++ rest) = (do
      let (acc, rest) ← member key acc rest
      readMembersFrom member bound false acc rest) := by
  rw [stringBody_append]
  simp only [readMembersFrom, nextMember, skipSpace_cons (show isSpace quoteMark = false by decide),
    show quoteMark ≠ objectClose by decide, if_false, if_true, bind, Except.bind,
    readString_written]

theorem readMembersFrom_next (key : String) (rest : Bytes) :
    readMembersFrom member (bound + 1) false acc (comma :: (stringBody key ++ rest)) = (do
      let (acc, rest) ← member key acc rest
      readMembersFrom member bound false acc rest) := by
  rw [stringBody_append]
  simp only [readMembersFrom, nextMember, skipSpace_cons (show isSpace quoteMark = false by decide),
    skipSpace_cons (show isSpace comma = false by decide), show comma ≠ objectClose by decide,
    if_false, if_true, bind, Except.bind, readString_written, Bool.false_eq_true]

theorem readMembersFrom_end (isFirst : Bool) (rest : Bytes) :
    readMembersFrom member (bound + 1) isFirst acc (objectClose :: rest) = .ok (acc, rest) := by
  rfl

end Members

end AtomicCommit.Json
