import AtomicCommit.Proofs.Json.Skipped

/-! Values are read of every text that they have: strings and lists, with white space around them. -/

namespace AtomicCommit.Json

open Utf8 (encodeChar encodeChars encodeChars_nil encodeChars_cons encodeChars_append)

variable {α : Type}

/-- Of this text the value is read, and nothing but white space is left of it. -/
structure ReadsAs (reader : Reader α) (text : List Char) (a : α) : Prop where
  start : ∀ rest, ∃ b more, skipSpace (encodeChars text ++ rest) = b :: more ∧ b ≠ listClose
  read : ∀ input rest, Follows rest → Alike input (encodeChars text ++ rest) →
    ∃ left, reader input = .ok (a, left) ∧ Alike left rest

section Readers

variable {reader element : Reader α} {a : α} {text : List Char} {items : List α}
  {texts : List (List Char)}

theorem ReadsAs.spaced {inner : List Char → Prop}
    (reads : ∀ inside, inner inside → ReadsAs reader inside a) (isText : Spaced inner text) :
    ReadsAs reader text a := by
  cases isText with
  | @around before inside after blank holds blankToo =>
    have within := reads inside holds
    constructor
    · intro rest
      simp only [encodeChars_append, List.append_assoc, skipSpace_blank blank]
      exact within.start _
    · intro input rest follows alike
      simp only [Alike, encodeChars_append, List.append_assoc, skipSpace_blank blank] at alike
      obtain ⟨left, read, alikeLeft⟩ := within.read input _ (follows.blank blankToo) alike
      exact ⟨left, read, alikeLeft.trans (blank_alike blankToo rest)⟩

theorem ReadsAs.map {β : Type} {other : Reader β} (reads : ReadsAs reader text a) (f : α → β)
    (same : ∀ input, other input = (reader input).map fun (a, rest) => (f a, rest)) :
    ReadsAs other text (f a) := by
  refine ⟨reads.start, fun input rest follows alike => ?_⟩
  obtain ⟨left, read, alikeLeft⟩ := reads.read input rest follows alike
  exact ⟨left, by rw [same, read]; rfl, alikeLeft⟩

theorem reads_string (expected : String) {value : String} (isString : IsStringOf value text) :
    ReadsAs (expectString expected) text value := by
  have noSpace : isSpace quoteMark = false := by decide
  constructor
  · intro rest
    obtain ⟨opened, written, -⟩ := readString_spelled isString rest
    rw [written, skipSpace_cons noSpace]
    exact ⟨_, _, rfl, by decide⟩
  · intro input rest _ alike
    obtain ⟨opened, written, read⟩ := readString_spelled isString rest
    rw [written] at alike
    refine ⟨rest, ?_, rfl⟩
    simp only [expectString, alike.valueStart, valueStart_cons noSpace, if_true, read, bind,
      Except.bind]

theorem readElementsFrom_texts (each : List.Forall₂ (fun a text => ReadsAs element text a) items texts)
    {input rest : Bytes} (alike : Alike input (commaed texts ++ listClose :: rest)) {bound : Nat}
    (enough : (commaed texts).length < bound) :
    readElementsFrom element bound false input = .ok (items, listClose :: rest) := by
  induction each generalizing input bound with
  | nil =>
    obtain ⟨bound, rfl⟩ := Nat.exists_eq_succ_of_ne_zero (Nat.ne_of_gt enough)
    rw [commaed_nil, List.nil_append, Alike, skipSpace_cons (by decide)] at alike
    simp only [readElementsFrom, nextElement, alike, if_true, bind, Except.bind, Bool.false_eq_true,
      if_false, pure, Except.pure]
  | @cons a text items texts first _ ih =>
    obtain ⟨bound, rfl⟩ := Nat.exists_eq_succ_of_ne_zero (Nat.ne_of_gt (Nat.zero_lt_of_lt enough))
    rw [commaed_cons, List.cons_append, Alike, skipSpace_cons (by decide), List.append_assoc] at alike
    rw [commaed_cons, List.length_cons, List.length_append] at enough
    obtain ⟨b, more, start, noClose⟩ := first.start (commaed texts ++ listClose :: rest)
    obtain ⟨left, read, alikeLeft⟩ := first.read _ _ (follows_commaed texts listClose_follows rest)
      (skipSpace_alike _)
    have others := ih alikeLeft (show (commaed texts).length < bound by omega)
    rw [start] at read
    simp only [readElementsFrom, nextElement, alike, start, noClose, show comma ≠ listClose by decide,
      if_true, if_false, Bool.false_eq_true, bind, Except.bind, read, others, pure, Except.pure]

theorem readList_texts (each : List.Forall₂ (fun a text => ReadsAs element text a) items texts)
    (rest : Bytes) :
    readList element (encodeChars ([','].intercalate texts) ++ listClose :: rest) =
      .ok (items, rest) := by
  cases each with
  | nil => rfl
  | @cons a text items texts first others =>
    obtain ⟨b, more, start, noClose⟩ := first.start (commaed texts ++ listClose :: rest)
    obtain ⟨left, read, alikeLeft⟩ := first.read _ _ (follows_commaed texts listClose_follows rest)
      (skipSpace_alike _)
    rw [encodeChars_intercalate, List.append_assoc]
    have enough : (commaed texts).length <
        (encodeChars text ++ (commaed texts ++ listClose :: rest)).length := by
      simp only [List.length_append, List.length_cons]
      omega
    have found := readElementsFrom_texts others alikeLeft enough
    rw [start] at read
    simp only [readList, readElements, readElementsFrom, nextElement, start, noClose, if_false, if_true,
      bind, Except.bind, read, found, pure, Except.pure]
    rfl

theorem readList_blank {inside : List Char} (blank : IsBlank inside) (rest : Bytes) :
    readList element (encodeChars inside ++ listClose :: rest) = .ok ([], rest) := by
  have found : skipSpace (encodeChars inside ++ listClose :: rest) = listClose :: rest := by
    rw [skipSpace_blank blank, skipSpace_cons (by decide)]
  simp only [readList, readElements, readElementsFrom, nextElement, found, if_true, bind, Except.bind,
    Bool.false_eq_true, if_false, pure, Except.pure]
  rfl

theorem readList_listed {holds : α → List Char → Prop} (isList : IsListOf holds items text)
    (each : ∀ a text, holds a text → ReadsAs element text a) :
    ∃ inside, encodeChars text = listOpen :: inside ∧
      ∀ rest, readList element (inside ++ rest) = .ok (items, rest) := by
  have mark : encodeChar '[' = [listOpen] ∧ encodeChar ']' = [listClose] := by decide
  cases isList with
  | @none inside blank =>
    refine ⟨encodeChars inside ++ [listClose], by simp [mark], fun rest => ?_⟩
    simpa using readList_blank blank rest
  | @some _ texts spaced =>
    refine ⟨encodeChars ([','].intercalate texts) ++ [listClose], by simp [mark], fun rest => ?_⟩
    have reads : List.Forall₂ (fun a text => ReadsAs element text a) items texts :=
      spaced.imp fun a text isText => .spaced (each a) isText
    simpa using readList_texts reads rest

theorem reads_list {holds : α → List Char → Prop} (isList : IsListOf holds items text)
    (each : ∀ a text, holds a text → ReadsAs element text a) :
    ReadsAs (expectList element) text items := by
  obtain ⟨inside, written, read⟩ := readList_listed isList each
  have noSpace : isSpace listOpen = false := by decide
  constructor
  · intro rest
    rw [written, List.cons_append, skipSpace_cons noSpace]
    exact ⟨_, _, rfl, by decide⟩
  · intro input rest _ alike
    rw [written, List.cons_append] at alike
    refine ⟨rest, ?_, rfl⟩
    simp only [expectList, alike.valueStart, valueStart_cons noSpace, if_true, read, bind, Except.bind]

end Readers

theorem reads_skipped {text : List Char} (isValue : IsValue text) :
    ReadsAs (asReader skipValue) text () := by
  refine ⟨(skipped_value isValue).start, fun input rest follows alike => ?_⟩
  obtain ⟨left, skipped, alikeLeft⟩ := skipValue_text isValue follows alike
  exact ⟨left, asReader_ok.mpr skipped, alikeLeft⟩

section Written

theorem write_items (items : List Json) :
    write (.array items) = '[' :: ([','].intercalate (items.map write) ++ [']']) := by
  cases items with
  | nil => rfl
  | cons item items => simp [write, writeItems_eq, intercalate_cons, List.flatMap_map]

theorem write_members (members : List (String × Json)) :
    write (.object members) = '\x7b' :: ([','].intercalate (members.map writeMember) ++ ['\x7d']) := by
  cases members with
  | nil => rfl
  | cons m members =>
    simp [write, writeMembers_eq, writeMember, intercalate_cons, List.flatMap_map]

theorem isListOf_written {α : Type} {holds : α → List Char → Prop} {json : α → Json}
    (each : ∀ a, holds a (json a).write) (items : List α) :
    IsListOf holds items (write (.array (items.map json))) := by
  rw [write_items, List.map_map]
  refine .some ?_
  rw [List.forall₂_map_right_iff, List.forall₂_same]
  exact fun a _ => .bare (each a)

end Written

end AtomicCommit.Json
