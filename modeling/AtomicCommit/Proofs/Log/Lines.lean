import AtomicCommit.Log.File
import AtomicCommit.Proofs.Log.Records

/-! The content of a log file, line by line: what opening keeps of it and what a replay reads in it. -/

namespace AtomicCommit.FileLog

open Json (readAll)

def joined (whole : List Bytes) : Bytes := whole.flatMap (· ++ [newline])

@[simp] theorem joined_nil : joined [] = [] := rfl

@[simp] theorem joined_cons (line : Bytes) (whole : List Bytes) :
    joined (line :: whole) = line ++ newline :: joined whole := by
  simp [joined]

@[simp] theorem joined_append (whole others : List Bytes) :
    joined (whole ++ others) = joined whole ++ joined others :=
  List.flatMap_append

def lastLine (tail : Bytes) : List (Bytes × Bool) := if tail = [] then [] else [(tail, false)]

section Lines

variable {line tail : Bytes} {whole : List Bytes}

theorem lines_tail (unbroken : newline ∉ tail) : lines tail = lastLine tail := by
  induction tail with
  | nil => rfl
  | cons b tail ih =>
    obtain ⟨other, unbroken⟩ := not_or.mp (mt List.mem_cons.mpr unbroken)
    rw [lines, if_neg (Ne.symm other), ih unbroken]
    cases tail <;> rfl

theorem lines_line (unbroken : newline ∉ line) (rest : Bytes) :
    lines (line ++ newline :: rest) = (line, true) :: lines rest := by
  induction line with
  | nil => rw [List.nil_append, lines, if_pos rfl]
  | cons b line ih =>
    obtain ⟨other, unbroken⟩ := not_or.mp (mt List.mem_cons.mpr unbroken)
    rw [List.cons_append, lines, if_neg (Ne.symm other), ih unbroken]

theorem lines_joined (unbroken : ∀ line ∈ whole, newline ∉ line) (rest : Bytes) :
    lines (joined whole ++ rest) = whole.map (·, true) ++ lines rest := by
  induction whole with
  | nil => rfl
  | cons line whole ih =>
    obtain ⟨first, others⟩ := List.forall_mem_cons.mp unbroken
    rw [joined_cons, List.append_assoc, List.cons_append, lines_line first, ih others]
    rfl

theorem exists_joined (content : Bytes) : ∃ whole tail, content = joined whole ++ tail ∧
    (∀ line ∈ whole, newline ∉ line) ∧ newline ∉ tail := by
  induction content with
  | nil => exact ⟨[], [], rfl, by simp, by simp⟩
  | cons b content ih =>
    obtain ⟨whole, tail, rfl, unbroken, tailToo⟩ := ih
    by_cases broken : b = newline
    · exact ⟨[] :: whole, tail, by simp [broken], by simpa using unbroken, tailToo⟩
    · cases whole with
      | nil => exact ⟨[], b :: tail, rfl, by simp, by simpa [Ne.symm broken] using tailToo⟩
      | cons line whole =>
        obtain ⟨first, others⟩ := List.forall_mem_cons.mp unbroken
        exact ⟨(b :: line) :: whole, tail, by simp,
          List.forall_mem_cons.mpr ⟨by simpa [Ne.symm broken] using first, others⟩, tailToo⟩

end Lines

variable {ρ : Type} [Record ρ]

def recordsIn (ρ : Type) [Record ρ] (text : String) : Option (List ρ) :=
  if Text.isBlank text then some [] else ((readAll Record.read (Utf8.encode text)).toOption).map ([·])

section Records

variable {text : String} {texts : List String} {number : Nat}

theorem decodeLine_refused (number : Nat) (refused : ¬(recordsIn ρ text).isSome) :
    ¬Text.isBlank text ∧ ∃ fault, (Log.decodeLine text number : Except LogError ρ) = .error fault := by
  rw [recordsIn] at refused
  rw [Log.decodeLine]
  split at refused
  · exact absurd rfl refused
  next written =>
    refine ⟨written, ?_⟩
    cases read : readAll (Record.read : Json.Reader ρ) (Utf8.encode text) with
    | error fault => exact ⟨_, rfl⟩
    | ok record => simp [read, Except.toOption] at refused

theorem recordsFrom_append (number : Nat) (lines others : List (Except LogError String)) :
    (Log.recordsFrom number (lines ++ others) : List (Except LogError ρ)) =
      Log.recordsFrom number lines ++ Log.recordsFrom (number + lines.length) others := by
  induction lines generalizing number with
  | nil => rfl
  | cons line lines ih =>
    have count : number + 1 + lines.length = number + (line :: lines).length := by
      rw [List.length_cons]
      omega
    cases line with
    | error fault => rw [List.cons_append, Log.recordsFrom, Log.recordsFrom, ih, count, List.cons_append]
    | ok text =>
      rw [List.cons_append, Log.recordsFrom, Log.recordsFrom]
      split
      · rw [ih, count]
      · rw [ih, count, List.cons_append]

theorem recordsFrom_line {records : List ρ} :
    Log.recordsFrom number [.ok text] = records.map .ok ↔ recordsIn ρ text = some records := by
  rw [Log.recordsFrom, recordsIn]
  split
  · simp [Log.recordsFrom, eq_comm]
  · rw [Log.recordsFrom, Log.decodeLine]
    cases readAll (Record.read : Json.Reader ρ) (Utf8.encode text) with
    | error fault => rcases records with _ | ⟨record, others⟩ <;> simp [Except.toOption]
    | ok record =>
      rcases records with _ | ⟨other, others⟩
      · simp [Except.toOption]
      · simp [Except.toOption, eq_comm]

end Records

section Opening

def Accepted (ρ : Type) [Record ρ] (line : Bytes) : Prop :=
  newline ∉ line ∧ (recordsIn ρ (Utf8.decodeLossy line)).isSome

def mended (ρ : Type) [Record ρ] (content : Bytes) : Except LogError Bytes :=
  match torn ρ content with
  | .error fault => .error fault
  | .ok none => .ok content
  | .ok (some offset) => .ok (content.take offset)

/-- The content of a log that has been opened: whole lines, and after them nothing but white space. -/
structure Kept (ρ : Type) [Record ρ] (content : Bytes) (whole : List Bytes) (tail : Bytes) : Prop where
  parts : content = joined whole ++ tail
  whole : ∀ line ∈ whole, Accepted ρ line
  unbroken : newline ∉ tail
  blank : Text.isBlank (Utf8.decodeLossy tail)

variable {number offset : Nat} {line tail : Bytes} {whole : List Bytes} {rest : List (Bytes × Bool)}

theorem Kept.unbroken_whole {content : Bytes} (kept : Kept ρ content whole tail) :
    ∀ line ∈ whole, newline ∉ line :=
  fun line member => (kept.whole line member).1

theorem tornFrom_accepted (accepted : Accepted ρ line) :
    tornFrom ρ number offset ((line, true) :: rest) =
      tornFrom ρ (number + 1) (offset + line.length + 1) rest := by
  obtain ⟨-, held⟩ := accepted
  rw [recordsIn] at held
  rw [tornFrom]
  by_cases blank : Text.isBlank (Utf8.decodeLossy line)
  · rw [if_pos blank]
  · rw [if_neg blank] at held ⊢
    cases read : readAll (Record.read : Json.Reader ρ) (Utf8.encode (Utf8.decodeLossy line)) with
    | error fault => simp [read, Except.toOption] at held
    | ok record => simp [Log.decodeLine, read]

theorem tornFrom_joined (accepted : ∀ line ∈ whole, Accepted ρ line) :
    tornFrom ρ number offset (whole.map (·, true) ++ rest) =
      tornFrom ρ (number + whole.length) (offset + (joined whole).length) rest := by
  induction whole generalizing number offset with
  | nil => rfl
  | cons line whole ih =>
    obtain ⟨first, others⟩ := List.forall_mem_cons.mp accepted
    rw [List.map_cons, List.cons_append, tornFrom_accepted first, ih others, joined_cons]
    simp only [List.length_cons, List.length_append]
    congr 1 <;> omega

theorem tornFrom_tail_blank (blank : Text.isBlank (Utf8.decodeLossy tail)) :
    tornFrom ρ number offset (lastLine tail) = .ok none := by
  rw [lastLine]
  split
  · rfl
  · simp [tornFrom, blank]

theorem tornFrom_tail (written : ¬Text.isBlank (Utf8.decodeLossy tail)) :
    tornFrom ρ number offset (lastLine tail) = .ok (some offset) := by
  have some : tail ≠ [] := by
    rintro rfl
    exact written rfl
  rw [lastLine, if_neg some, tornFrom]
  simp only [written]
  cases (Log.decodeLine (Utf8.decodeLossy tail) number : Except LogError ρ) <;> rfl

theorem torn_joined (accepted : ∀ line ∈ whole, Accepted ρ line) (unbroken : newline ∉ tail) :
    torn ρ (joined whole ++ tail) =
      tornFrom ρ (1 + whole.length) (joined whole).length (lastLine tail) := by
  rw [torn, lines_joined fun line member => (accepted line member).1, lines_tail unbroken,
    tornFrom_joined accepted, Nat.zero_add]

theorem Kept.torn_eq {content : Bytes} (kept : Kept ρ content whole tail) :
    torn ρ content = .ok none := by
  rw [kept.parts, torn_joined kept.whole kept.unbroken, tornFrom_tail_blank kept.blank]

theorem Kept.mended_self {content : Bytes} (kept : Kept ρ content whole tail) :
    mended ρ content = .ok content := by
  rw [mended, kept.torn_eq]

theorem mended_tail (accepted : ∀ line ∈ whole, Accepted ρ line) (unbroken : newline ∉ tail)
    (written : ¬Text.isBlank (Utf8.decodeLossy tail)) :
    mended ρ (joined whole ++ tail) = .ok (joined whole) := by
  rw [mended, torn_joined accepted unbroken, tornFrom_tail written]
  simp

theorem accepted_of_tornFrom {found : Option Nat} (unbroken : ∀ line ∈ whole, newline ∉ line)
    (scanned : tornFrom ρ number offset (whole.map (·, true) ++ lastLine tail) = .ok found) :
    (found = none ∧ (∀ line ∈ whole, Accepted ρ line) ∧ Text.isBlank (Utf8.decodeLossy tail)) ∨
      ∃ front back, whole = front ++ back ∧ (∀ line ∈ front, Accepted ρ line) ∧
        found = some (offset + (joined front).length) := by
  induction whole generalizing number offset with
  | nil =>
    by_cases blank : Text.isBlank (Utf8.decodeLossy tail)
    · rw [List.map_nil, List.nil_append, tornFrom_tail_blank blank] at scanned
      cases scanned
      exact .inl ⟨rfl, by simp, blank⟩
    · rw [List.map_nil, List.nil_append, tornFrom_tail blank] at scanned
      cases scanned
      exact .inr ⟨[], [], rfl, by simp, rfl⟩
  | cons line whole ih =>
    obtain ⟨first, others⟩ := List.forall_mem_cons.mp unbroken
    by_cases accepted : Accepted ρ line
    · rw [List.map_cons, List.cons_append, tornFrom_accepted accepted] at scanned
      rcases ih others scanned with ⟨rfl, all, blank⟩ | ⟨front, back, rfl, all, rfl⟩
      · exact .inl ⟨rfl, List.forall_mem_cons.mpr ⟨accepted, all⟩, blank⟩
      · refine .inr ⟨line :: front, back, rfl, List.forall_mem_cons.mpr ⟨accepted, all⟩, ?_⟩
        rw [joined_cons, List.length_append, List.length_cons]
        congr 1
        omega
    · obtain ⟨written, fault, refused⟩ := decodeLine_refused number fun held => accepted ⟨first, held⟩
      rw [List.map_cons, List.cons_append, tornFrom] at scanned
      simp only [written, refused, if_false, Bool.false_eq_true] at scanned
      split at scanned
      · cases scanned
        exact .inr ⟨[], line :: whole, rfl, by simp, rfl⟩
      · cases scanned

theorem kept_of_torn_none {content : Bytes} (scanned : torn ρ content = .ok none) :
    ∃ whole tail, Kept ρ content whole tail := by
  obtain ⟨whole, tail, rfl, unbroken, tailToo⟩ := exists_joined content
  rw [torn, lines_joined unbroken, lines_tail tailToo] at scanned
  rcases accepted_of_tornFrom unbroken scanned with ⟨-, all, blank⟩ | ⟨_, _, _, _, found⟩
  · exact ⟨whole, tail, rfl, all, tailToo, blank⟩
  · cases found

theorem torn_some {content : Bytes} {offset : Nat} (scanned : torn ρ content = .ok (some offset)) :
    ∃ whole rest, content = joined whole ++ rest ∧ (∀ line ∈ whole, Accepted ρ line) ∧
      offset = (joined whole).length := by
  obtain ⟨whole, tail, rfl, unbroken, tailToo⟩ := exists_joined content
  rw [torn, lines_joined unbroken, lines_tail tailToo] at scanned
  rcases accepted_of_tornFrom unbroken scanned with ⟨found, _, _⟩ | ⟨front, back, rfl, all, found⟩
  · cases found
  · cases found
    exact ⟨front, joined back ++ tail, by simp, all, Nat.zero_add _⟩

theorem kept_of_mended {content left : Bytes} (opened : mended ρ content = .ok left) :
    ∃ whole tail, Kept ρ left whole tail := by
  rw [mended] at opened
  split at opened
  · cases opened
  next scanned =>
    cases opened
    exact kept_of_torn_none scanned
  next offset scanned =>
    cases opened
    obtain ⟨whole, rest, rfl, all, rfl⟩ := torn_some scanned
    exact ⟨whole, [], by simp, all, by simp, rfl⟩

end Opening

end AtomicCommit.FileLog
