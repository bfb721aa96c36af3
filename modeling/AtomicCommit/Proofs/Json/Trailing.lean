import AtomicCommit.Proofs.Json.Values
import Mathlib.Data.List.TakeWhile

/-! White space at the end of a text is left over by every reader: nothing else changes when it is cut
off. Along the way, how many bytes a reader takes at least. -/

namespace AtomicCommit.Json

variable {α β : Type}

def Spares (count : Nat) (reader : Reader α) : Prop :=
  ∀ input space a rest, isSpace space → reader (input ++ [space]) = .ok (a, rest) →
    ∃ less, rest = less ++ [space] ∧ less.length + count ≤ input.length ∧ reader input = .ok (a, less)

def asReader (step : Bytes → Except Fault Bytes) : Reader Unit := fun input =>
  (step input).map fun rest => ((), rest)

section Composition

variable {reader other : Reader α} {step : Bytes → Except Fault Bytes} {count more : Nat}

theorem bind_ok {ε γ δ : Type} {x : Except ε γ} {f : γ → Except ε δ} {d : δ}
    (bound : x >>= f = .ok d) : ∃ c, x = .ok c ∧ f c = .ok d := by
  cases x with
  | error e => cases bound
  | ok c => exact ⟨c, rfl, bound⟩

theorem map_ok {ε γ δ : Type} {x : Except ε γ} {f : γ → δ} {d : δ} (mapped : x.map f = .ok d) :
    ∃ c, x = .ok c ∧ f c = d := by
  cases x with
  | error e => cases mapped
  | ok c => exact ⟨c, rfl, Except.ok.inj mapped⟩

theorem asReader_ok {input rest : Bytes} :
    asReader step input = .ok ((), rest) ↔ step input = .ok rest := by
  rw [asReader]
  cases step input <;> simp [Except.map]

theorem Spares.fewer (spares : Spares count reader) (fewer : more ≤ count) : Spares more reader := by
  intro input space a rest white read
  obtain ⟨less, rfl, short, again⟩ := spares input space a rest white read
  exact ⟨less, rfl, by omega, again⟩

theorem Spares.bind (next : α → Reader β) (first : Spares count reader)
    (second : ∀ a, Spares more (next a)) :
    Spares (count + more) fun input => reader input >>= fun (a, rest) => next a rest := by
  intro input space b rest white read
  obtain ⟨⟨a, between⟩, readFirst, readSecond⟩ := bind_ok read
  obtain ⟨less, rfl, short, again⟩ := first _ _ _ _ white readFirst
  obtain ⟨left, rfl, shorter, againSecond⟩ := second a _ _ _ _ white readSecond
  refine ⟨left, rfl, by omega, ?_⟩
  simpa [again, Bind.bind, Except.bind] using againSecond

theorem Spares.after (first : Spares count (asReader step)) (second : Spares more reader) :
    Spares (count + more) fun input => step input >>= reader := by
  have same : (fun input => asReader step input >>= fun ((), rest) => reader rest) =
      fun input => step input >>= reader := by
    funext input
    cases taken : step input <;> simp [asReader, taken, Except.map, Bind.bind, Except.bind]
  exact same ▸ Spares.bind (fun _ => reader) first fun _ => second

theorem Spares.map (f : α → β) (spares : Spares count reader) :
    Spares count fun input => (reader input).map fun (a, rest) => (f a, rest) := by
  intro input space b rest white read
  obtain ⟨⟨a, between⟩, readFirst, same⟩ := map_ok read
  cases same
  obtain ⟨less, rfl, short, again⟩ := spares _ _ _ _ white readFirst
  exact ⟨less, rfl, short, by simp [again, Except.map]⟩

theorem Spares.value (a : α) (spares : Spares count (asReader step)) :
    Spares count fun input => (step input).map fun rest => (a, rest) := by
  intro input space a rest white read
  obtain ⟨between, taken, same⟩ := map_ok read
  cases same
  obtain ⟨less, rfl, short, again⟩ := spares _ _ () _ white (asReader_ok.mpr taken)
  exact ⟨less, rfl, short, by simp [asReader_ok.mp again, Except.map]⟩

theorem spares_pure (result : Except Fault α) : Spares 0 fun rest => do return (← result, rest) := by
  intro input space a rest _ read
  obtain ⟨c, done, same⟩ := bind_ok read
  cases same
  exact ⟨input, rfl, Nat.le_refl _, by simp [done, Bind.bind, Except.bind, pure, Except.pure]⟩

theorem spares_error (fault : Bytes → Fault) :
    Spares count (fun input => .error (fault input) : Reader α) := by
  rintro _ _ _ _ _ ⟨⟩

theorem Spares.ite (p : Prop) [Decidable p] (yes : p → Spares count reader)
    (no : ¬p → Spares count other) :
    Spares count fun input => if p then reader input else other input := by
  by_cases holds : p
  · simpa only [holds, if_true] using yes holds
  · simpa only [holds, if_false] using no holds

end Composition

section Marks

variable {space : UInt8}

theorem white_cases (white : isSpace space) :
    space = 0x20 ∨ space = 0x09 ∨ space = 0x0A ∨ space = 0x0D := by
  simpa [isSpace, or_assoc] using white

theorem skipSpace_trailing (white : isSpace space) {input rest : Bytes} {b : UInt8}
    (found : skipSpace (input ++ [space]) = b :: rest) : ∃ less, rest = less ++ [space] ∧
      less.length + 1 ≤ input.length ∧ skipSpace input = b :: less := by
  induction input with
  | nil => simp [skipSpace, white] at found
  | cons c input ih =>
    by_cases whiteToo : isSpace c
    · obtain ⟨less, rfl, short, again⟩ := ih (by simpa [skipSpace, whiteToo] using found)
      exact ⟨less, rfl, by simp only [List.length_cons]; omega,
        by simpa [skipSpace, whiteToo] using again⟩
    · obtain ⟨rfl, rfl⟩ : c = b ∧ input ++ [space] = rest := by
        simpa [skipSpace, whiteToo] using found
      exact ⟨input, rfl, Nat.le_refl _, by simp [skipSpace, whiteToo]⟩

theorem spares_valueStart : Spares 1 valueStart := by
  intro input space b rest white read
  rw [valueStart] at read
  split at read
  · cases read
  next found =>
    cases read
    obtain ⟨less, rfl, short, again⟩ := skipSpace_trailing white found
    exact ⟨less, rfl, short, by simp [valueStart, again]⟩

theorem spares_mark {step : Bytes → Except Fault Bytes} {mark : UInt8}
    (passes : ∀ input rest, step input = .ok rest ↔ skipSpace input = mark :: rest) :
    Spares 1 (asReader step) := by
  rintro input space ⟨⟩ rest white read
  rw [asReader_ok, passes] at read
  obtain ⟨less, rfl, short, again⟩ := skipSpace_trailing white read
  exact ⟨less, rfl, short, by rwa [asReader_ok, passes]⟩

theorem afterColon_ok (input rest : Bytes) :
    afterColon input = .ok rest ↔ skipSpace input = colon :: rest := by
  fun_cases afterColon input <;> grind

theorem endList_ok (input rest : Bytes) :
    endList input = .ok rest ↔ skipSpace input = listClose :: rest := by
  fun_cases endList input <;> grind

theorem nextElement_ok {isFirst more : Bool} {input rest : Bytes} :
    nextElement isFirst input = .ok (more, rest) ↔ ∃ b others, rest = b :: others ∧
      (more = true ↔ b ≠ listClose) ∧ (skipSpace input = rest ∧ (more = true → isFirst = true) ∨
        more = true ∧ isFirst = false ∧
          ∃ between, skipSpace input = comma :: between ∧ skipSpace between = rest) := by
  have distinct : comma ≠ listClose := by decide
  fun_cases nextElement isFirst input <;> grind

theorem nextMember_ok {isFirst more : Bool} {input rest : Bytes} :
    nextMember isFirst input = .ok (more, rest) ↔
      more = false ∧ skipSpace input = objectClose :: rest ∨
        more = true ∧ isFirst = true ∧ skipSpace input = quoteMark :: rest ∨
        more = true ∧ isFirst = false ∧
          ∃ between, skipSpace input = comma :: between ∧ skipSpace between = quoteMark :: rest := by
  have distinct : comma ≠ objectClose ∧ quoteMark ≠ objectClose := by decide
  fun_cases nextMember isFirst input <;> grind

theorem nextElement_trailing (white : isSpace space) {isFirst more : Bool} {input rest : Bytes}
    (read : nextElement isFirst (input ++ [space]) = .ok (more, rest)) :
    ∃ b less, rest = b :: less ++ [space] ∧ nextElement isFirst input = .ok (more, b :: less) ∧
      (b :: less).length ≤ input.length ∧
        (more = true → isFirst = false → (b :: less).length < input.length) := by
  obtain ⟨b, others, rfl, marked, ⟨found, first⟩ | ⟨some, later, between, found, foundNext⟩⟩ :=
    nextElement_ok.mp read
  · obtain ⟨less, rfl, short, again⟩ := skipSpace_trailing white found
    refine ⟨b, less, rfl, nextElement_ok.mpr ⟨b, less, rfl, marked, .inl ⟨again, first⟩⟩, short,
      fun some later => ?_⟩
    cases later.symm.trans (first some)
  · obtain ⟨more, rfl, short, again⟩ := skipSpace_trailing white found
    obtain ⟨less, rfl, shorter, againNext⟩ := skipSpace_trailing white foundNext
    have strict : (b :: less).length < input.length := by
      rw [List.length_cons]
      omega
    exact ⟨b, less, rfl, nextElement_ok.mpr
      ⟨b, less, rfl, marked, .inr ⟨some, later, _, again, againNext⟩⟩, strict.le, fun _ _ => strict⟩

theorem spares_nextElement (isFirst : Bool) : Spares 0 (nextElement isFirst) := by
  intro input space more rest white read
  obtain ⟨b, less, rfl, again, short, -⟩ := nextElement_trailing white read
  exact ⟨b :: less, rfl, short, again⟩

theorem spares_nextMember (isFirst : Bool) : Spares 1 (nextMember isFirst) := by
  intro input space more rest white read
  rcases nextMember_ok.mp read with ⟨none, found⟩ | ⟨some, first, found⟩ |
    ⟨some, later, between, found, foundNext⟩
  · obtain ⟨less, rfl, short, again⟩ := skipSpace_trailing white found
    exact ⟨less, rfl, short, nextMember_ok.mpr (.inl ⟨none, again⟩)⟩
  · obtain ⟨less, rfl, short, again⟩ := skipSpace_trailing white found
    exact ⟨less, rfl, short, nextMember_ok.mpr (.inr (.inl ⟨some, first, again⟩))⟩
  · obtain ⟨more, rfl, short, again⟩ := skipSpace_trailing white found
    obtain ⟨less, rfl, shorter, againNext⟩ := skipSpace_trailing white foundNext
    exact ⟨less, rfl, by omega,
      nextMember_ok.mpr (.inr (.inr ⟨some, later, _, again, againNext⟩))⟩

theorem white_small (white : isSpace space) : space.toNat ≤ 0x20 := by
  rcases white_cases white with rfl | rfl | rfl | rfl <;> decide

theorem spares_word {letters : List Char} (dark : ∀ c ∈ letters, 0x20 < c.toNat) :
    Spares 0 (asReader (word letters)) := by
  rintro input space ⟨⟩ rest white read
  simp only [asReader_ok] at read ⊢
  induction letters generalizing input with
  | nil =>
    cases read
    exact ⟨input, rfl, Nat.le_refl _, rfl⟩
  | cons c letters ih =>
    obtain ⟨first, others⟩ := List.forall_mem_cons.mp dark
    cases input with
    | nil =>
      have small := white_small white
      rw [List.nil_append, word, if_neg (by omega)] at read
      cases read
    | cons b input =>
      rw [List.cons_append, word] at read
      split at read
      next same =>
        obtain ⟨less, rfl, short, again⟩ := ih others input read
        exact ⟨less, rfl, Nat.le_succ_of_le short, by rwa [word, if_pos same]⟩
      next => cases read

end Marks

section Strings

theorem hexUnit_dark {a b c d : UInt8} {unit : Nat} (read : hexUnit a b c d = some unit) :
    isSpace d = false := by
  simp only [hexUnit, bind, Option.bind_eq_some_iff] at read
  obtain ⟨_, _, _, _, _, _, value, digit, _⟩ := read
  by_contra white
  rcases white_cases (by simpa using white) with rfl | rfl | rfl | rfl <;> cases digit

theorem shortEscape_dark {mark meant : UInt8} (read : shortEscape mark = some meant) :
    isSpace mark = false := by
  by_contra white
  rcases white_cases (by simpa using white) with rfl | rfl | rfl | rfl <;> cases read

theorem escape_split {input meant : Bytes} {length : Nat} (read : escape input = .ok (meant, length)) :
    ∃ front last more, input = front ++ last :: more ∧ isSpace last = false ∧
      ∀ other, escape (front ++ last :: other) = .ok (meant, length) := by
  revert read
  fun_cases escape input with
  | case8 a b c d unit found noLow high e u pair a' b' c' d' more low foundLow isLow =>
    rw [Except.ok.injEq, Prod.mk.injEq]
    rintro ⟨rfl, rfl⟩
    refine ⟨[unicodeMark, a, b, c, d, e, u, a', b', c'], d', more, rfl, hexUnit_dark foundLow, ?_⟩
    intro other
    simp [escape, found, noLow, high, pair, foundLow, isLow]
  | case11 a b c d rest unit found noLow noHigh =>
    rintro ⟨⟩
    refine ⟨[unicodeMark, a, b, c], d, rest, rfl, hexUnit_dark found, fun other => ?_⟩
    simp [escape, found, noLow, noHigh]
  | case13 mark rest noUnicode b found =>
    rintro ⟨⟩
    exact ⟨[], mark, rest, rfl, shortEscape_dark found, fun other => by simp [escape, noUnicode, found]⟩
  | _ => rintro ⟨⟩

theorem escape_trailing {space : UInt8} (white : isSpace space) {input meant : Bytes} {length : Nat}
    (read : escape (input ++ [space]) = .ok (meant, length)) : escape input = .ok (meant, length) := by
  obtain ⟨front, last, more, same, dark, again⟩ := escape_split read
  rcases List.eq_nil_or_concat more with rfl | ⟨more, final, rfl⟩
  · obtain ⟨-, same⟩ := List.append_inj' same rfl
    cases same
    cases white.symm.trans dark
  · have split : input ++ [space] = front ++ last :: more ++ [final] := by simpa using same
    obtain ⟨rfl, -⟩ := List.append_inj' split rfl
    exact again more

theorem stringBytes_trailing {space : UInt8} (white : isSpace space) {owed : Nat}
    {input bytes rest : Bytes} (read : stringBytes owed (input ++ [space]) = .ok (bytes, rest)) :
    ∃ less, rest = less ++ [space] ∧ less.length + 1 ≤ input.length ∧
      stringBytes owed input = .ok (bytes, less) := by
  induction input generalizing owed bytes with
  | nil =>
    cases owed with
    | succ owed => cases owed <;> cases read
    | zero => rcases white_cases white with rfl | rfl | rfl | rfl <;> cases read
  | cons b input ih =>
    cases owed with
    | succ owed =>
      obtain ⟨less, rfl, short, again⟩ := ih read
      exact ⟨less, rfl, Nat.le_succ_of_le short, again⟩
    | zero =>
      rw [List.cons_append, stringBytes] at read
      split at read
      next isQuote =>
        cases read
        exact ⟨input, rfl, Nat.le_refl _, by simp [stringBytes, isQuote]⟩
      next noQuote =>
        split at read
        next isEscape =>
          split at read
          · cases read
          next meant length escaped =>
            obtain ⟨⟨text, left⟩, readRest, same⟩ := map_ok read
            cases same
            obtain ⟨less, rfl, short, again⟩ := ih readRest
            refine ⟨less, rfl, Nat.le_succ_of_le short, ?_⟩
            simp only [stringBytes, if_neg noQuote, if_pos isEscape, escape_trailing white escaped,
              again, Except.map]
        next noEscape =>
          split at read
          · cases read
          next noControl =>
            obtain ⟨⟨text, left⟩, readRest, same⟩ := map_ok read
            cases same
            obtain ⟨less, rfl, short, again⟩ := ih readRest
            refine ⟨less, rfl, Nat.le_succ_of_le short, ?_⟩
            simp only [stringBytes, noQuote, noEscape, noControl, again, if_false, Except.map]

theorem spares_readString : Spares 1 readString := by
  intro input space text rest white read
  rw [readString] at read
  split at read
  · cases read
  next bytes left found =>
    split at read
    next decoded =>
      cases read
      obtain ⟨less, rfl, short, again⟩ := stringBytes_trailing white found
      exact ⟨less, rfl, short, by simp only [readString, again, decoded]⟩
    next => cases read

theorem spares_expectString (expected : String) : Spares 1 (expectString expected) :=
  spares_valueStart.bind _ fun b =>
    .ite (b = quoteMark) (fun _ => spares_readString.fewer (Nat.zero_le _))
      fun _ => spares_error fun rest => mismatch expected (b :: rest)

end Strings

section Numbers

variable {space : UInt8}

theorem white_cases_digit (white : isSpace space) : isDigit space = false := by
  rcases white_cases white with rfl | rfl | rfl | rfl <;> rfl

theorem spanDigits_trailing (white : isSpace space) {input rest : Bytes} {digits : List Nat}
    (span : spanDigits (input ++ [space]) = (digits, rest)) : ∃ less, rest = less ++ [space] ∧
      less.length + digits.length = input.length ∧ spanDigits input = (digits, less) := by
  induction input generalizing digits with
  | nil =>
    obtain ⟨rfl, rfl⟩ : [] = digits ∧ [space] = rest := by
      simpa [spanDigits, white_cases_digit white] using span
    exact ⟨[], rfl, rfl, rfl⟩
  | cons b input ih =>
    by_cases digit : isDigit b
    · simp only [List.cons_append, spanDigits, digit, if_true, Prod.mk.injEq] at span
      obtain ⟨rfl, rfl⟩ := span
      obtain ⟨less, same, count, again⟩ := ih rfl
      exact ⟨less, same, by simp only [List.length_cons]; omega,
        by simp only [spanDigits, digit, if_true, again]⟩
    · simp only [List.cons_append, spanDigits, digit, Bool.false_eq_true, if_false,
        Prod.mk.injEq] at span
      obtain ⟨rfl, rfl⟩ := span
      exact ⟨b :: input, rfl, rfl, by simp [spanDigits, digit]⟩

theorem readWholePart_ok {input rest : Bytes} {digits : List Nat} :
    readWholePart input = .ok (digits, rest) ↔ spanDigits input = (digits, rest) ∧ digits ≠ [] ∧
      ∀ d others, digits ≠ 0 :: d :: others := by
  rw [readWholePart]
  split <;> grind

theorem readFraction_ok {input rest : Bytes} {fraction : Option (List Nat)} :
    readFraction input = .ok (fraction, rest) ↔
      (∃ tail digits, input = 0x2E :: tail ∧ spanDigits tail = (digits, rest) ∧ digits ≠ [] ∧
        fraction = some digits) ∨ fraction = none ∧ rest = input ∧ ∀ tail, input ≠ 0x2E :: tail := by
  fun_cases readFraction input <;> grind

def unsigned : Bytes → Bool × Bytes
  | 0x2D :: rest => (true, rest)
  | 0x2B :: rest => (false, rest)
  | rest => (false, rest)

theorem unsigned_cons (b : UInt8) (tail : Bytes) : unsigned (b :: tail) =
    if b = 0x2D then (true, tail) else if b = 0x2B then (false, tail) else (false, b :: tail) := by
  by_cases minus : b = 0x2D
  · rw [minus]
    rfl
  by_cases plus : b = 0x2B
  · rw [plus]
    rfl
  · rw [if_neg minus, if_neg plus, unsigned] <;> simp [minus, plus]

theorem readExponent_marked {mark : UInt8} (isMark : mark = 0x65 ∨ mark = 0x45) (tail : Bytes) :
    readExponent (mark :: tail) = match spanDigits (unsigned tail).2 with
      | ([], rest) => .error (missingDigit rest)
      | (digits, rest) =>
        .ok (some (if (unsigned tail).1 then -(natural digits : Int) else natural digits), rest) :=
  if_pos isMark

theorem readExponent_ok {input rest : Bytes} {exponent : Option Int} :
    readExponent input = .ok (exponent, rest) ↔
      (∃ mark tail digits, input = mark :: tail ∧ (mark = 0x65 ∨ mark = 0x45) ∧
        spanDigits (unsigned tail).2 = (digits, rest) ∧ digits ≠ [] ∧
        exponent = some (if (unsigned tail).1 then -(natural digits : Int) else natural digits)) ∨
      exponent = none ∧ rest = input ∧
        ∀ mark tail, input = mark :: tail → mark ≠ 0x65 ∧ mark ≠ 0x45 := by
  cases input with
  | nil =>
    rw [readExponent]
    grind
  | cons mark tail =>
    by_cases isMark : mark = 0x65 ∨ mark = 0x45
    · rw [readExponent_marked isMark]
      split <;> grind
    · have plain : readExponent (mark :: tail) = .ok (none, mark :: tail) := if_neg isMark
      rw [plain]
      grind

theorem unsigned_trailing (white : isSpace space) (tail : Bytes) :
    ∃ digitsOn, unsigned (tail ++ [space]) = ((unsigned tail).1, digitsOn ++ [space]) ∧
      unsigned tail = ((unsigned tail).1, digitsOn) ∧ digitsOn.length ≤ tail.length := by
  cases tail with
  | nil => rcases white_cases white with rfl | rfl | rfl | rfl <;> exact ⟨[], rfl, rfl, Nat.le_refl _⟩
  | cons b tail =>
    simp only [List.cons_append, unsigned_cons]
    split
    · exact ⟨tail, rfl, rfl, Nat.le_succ _⟩
    split
    · exact ⟨tail, rfl, rfl, Nat.le_succ _⟩
    · exact ⟨b :: tail, rfl, rfl, Nat.le_refl _⟩

theorem spares_readWholePart : Spares 1 readWholePart := by
  intro input space digits rest white read
  obtain ⟨span, some, whole⟩ := readWholePart_ok.mp read
  obtain ⟨less, rfl, count, again⟩ := spanDigits_trailing white span
  have positive := List.length_pos_iff.mpr some
  exact ⟨less, rfl, by omega, readWholePart_ok.mpr ⟨again, some, whole⟩⟩

theorem spares_readFraction : Spares 0 readFraction := by
  intro input space fraction rest white read
  rcases readFraction_ok.mp read with ⟨tail, digits, same, span, some, rfl⟩ | ⟨rfl, rfl, noPoint⟩
  · cases input with
    | nil => rcases white_cases white with rfl | rfl | rfl | rfl <;> cases same
    | cons b input =>
      cases same
      obtain ⟨less, rfl, count, again⟩ := spanDigits_trailing white span
      exact ⟨less, rfl, by simp only [List.length_cons]; omega,
        readFraction_ok.mpr (.inl ⟨_, digits, rfl, again, some, rfl⟩)⟩
  · refine ⟨input, rfl, Nat.le_refl _, readFraction_ok.mpr (.inr ⟨rfl, rfl, ?_⟩)⟩
    rintro tail rfl
    exact noPoint _ rfl

theorem spares_readExponent : Spares 0 readExponent := by
  intro input space exponent rest white read
  rcases readExponent_ok.mp read with ⟨mark, tail, digits, same, isMark, span, some, rfl⟩ |
    ⟨rfl, rfl, noMark⟩
  · cases input with
    | nil =>
      cases same
      rcases white_cases white with rfl | rfl | rfl | rfl <;> simp at isMark
    | cons b input =>
      obtain ⟨rfl, rfl⟩ : b = mark ∧ input ++ [space] = tail := by simpa using same
      obtain ⟨digitsOn, signed, signedToo, shorter⟩ := unsigned_trailing white input
      rw [signed] at span ⊢
      obtain ⟨less, rfl, count, again⟩ := spanDigits_trailing white span
      exact ⟨less, rfl, by simp only [List.length_cons]; omega, readExponent_ok.mpr
        (.inl ⟨b, input, digits, rfl, isMark, by rw [signedToo]; exact again, some, rfl⟩)⟩
  · refine ⟨input, rfl, Nat.le_refl _, readExponent_ok.mpr (.inr ⟨rfl, rfl, ?_⟩)⟩
    rintro mark tail rfl
    exact noMark mark _ rfl

theorem spares_readNumeral : Spares 1 readNumeral :=
  spares_readWholePart.bind _ fun whole => spares_readFraction.bind _ fun fraction =>
    spares_readExponent.map fun exponent => Numeral.mk whole fraction exponent

theorem spares_valued (negative : Bool) : Spares 1 fun input => do
    let (numeral, rest) ← readNumeral input
    return (← Numeral.value negative numeral, rest) :=
  spares_readNumeral.bind _ fun _ => spares_pure _

theorem spares_readNumber : Spares 1 readNumber := by
  intro input space n rest white read
  cases input with
  | nil =>
    have positive : (([] ++ [space] : Bytes).head? == some minusSign) = false := by
      rcases white_cases white with rfl | rfl | rfl | rfl <;> rfl
    simp only [readNumber, positive] at read ⊢
    exact spares_valued false [] space n rest white read
  | cons b input =>
    simp only [readNumber, List.cons_append, List.head?_cons] at read ⊢
    by_cases negative : b = minusSign
    · simp only [negative, beq_self_eq_true, if_true, List.drop_one, List.tail_cons] at read ⊢
      obtain ⟨less, rfl, short, again⟩ := spares_valued true input space n rest white read
      exact ⟨less, rfl, Nat.le_succ_of_le short, again⟩
    · have positive : (some b == some minusSign) = false := by simpa using negative
      simp only [positive] at read ⊢
      exact spares_valued false (b :: input) space n rest white read

end Numbers

section Containers

variable {space : UInt8} {element : Reader α} {member : String → β → Reader β} {bound enough : Nat}
  {isFirst : Bool} {input rest : Bytes}

theorem readElementsFrom_trailing (white : isSpace space) (each : Spares 0 element) {items : List α}
    (read : readElementsFrom element bound isFirst (input ++ [space]) = .ok (items, rest))
    (long : input.length + (if isFirst then 1 else 0) ≤ enough) :
    ∃ less, rest = less ++ [space] ∧ less.length ≤ input.length ∧
      readElementsFrom element enough isFirst input = .ok (items, less) := by
  induction bound generalizing isFirst input items enough with
  | zero => cases read
  | succ bound ih =>
    rw [readElementsFrom] at read
    obtain ⟨⟨more, between⟩, found, read⟩ := bind_ok read
    obtain ⟨b, less, rfl, again, short, shorter⟩ := nextElement_trailing white found
    rw [List.length_cons] at short shorter
    obtain ⟨enough, rfl⟩ : ∃ k, enough = k + 1 := Nat.exists_eq_succ_of_ne_zero (by omega)
    rw [readElementsFrom, again]
    cases more with
    | false =>
      cases read
      exact ⟨b :: less, rfl, short, rfl⟩
    | true =>
      obtain ⟨⟨a, left⟩, readFirst, read⟩ := bind_ok read
      obtain ⟨following, rfl, count, againFirst⟩ := each _ _ _ _ white readFirst
      obtain ⟨⟨others, left⟩, readOthers, same⟩ := bind_ok read
      cases same
      have room : following.length + (if false then 1 else 0) ≤ enough := by
        rw [List.length_cons] at count
        cases isFirst with
        | true =>
          rw [if_pos rfl] at long
          simp only [Bool.false_eq_true, if_false]
          omega
        | false =>
          have strict := shorter rfl rfl
          simp only [Bool.false_eq_true, if_false] at long ⊢
          omega
      obtain ⟨less', rfl, count', againOthers⟩ := ih readOthers room
      rw [List.length_cons] at count
      refine ⟨less', rfl, by omega, ?_⟩
      simp only [Bind.bind, Except.bind, if_true, againFirst, againOthers, pure, Except.pure]

theorem spares_readElements (each : Spares 0 element) (isFirst : Bool) :
    Spares 0 (readElements element isFirst) := fun input space items rest white read =>
  readElementsFrom_trailing white each read (by cases isFirst <;> simp)

theorem spares_endList : Spares 1 (asReader endList) := spares_mark endList_ok

theorem spares_afterColon : Spares 1 (asReader afterColon) := spares_mark afterColon_ok

theorem spares_readList (each : Spares 0 element) : Spares 0 (readList element) :=
  (spares_readElements each true).bind _ fun items => (spares_endList.value items).fewer (Nat.zero_le 1)

theorem readMembersFrom_trailing (white : isSpace space)
    (each : ∀ key acc, Spares 0 (member key acc)) {acc after : β}
    (read : readMembersFrom member bound isFirst acc (input ++ [space]) = .ok (after, rest))
    (long : input.length ≤ enough) :
    ∃ less, rest = less ++ [space] ∧ less.length ≤ input.length ∧
      readMembersFrom member enough isFirst acc input = .ok (after, less) := by
  induction bound generalizing isFirst input acc enough with
  | zero => cases read
  | succ bound ih =>
    rw [readMembersFrom] at read
    obtain ⟨⟨more, between⟩, found, read⟩ := bind_ok read
    obtain ⟨less, rfl, short, again⟩ := spares_nextMember _ _ _ _ _ white found
    obtain ⟨enough, rfl⟩ : ∃ k, enough = k + 1 := Nat.exists_eq_succ_of_ne_zero (by omega)
    rw [readMembersFrom, again]
    cases more with
    | false =>
      cases read
      exact ⟨less, rfl, by omega, rfl⟩
    | true =>
      obtain ⟨⟨key, left⟩, readKey, read⟩ := bind_ok read
      obtain ⟨opened, rfl, count, againKey⟩ := spares_readString _ _ _ _ white readKey
      obtain ⟨⟨held, left⟩, readHeld, read⟩ := bind_ok read
      obtain ⟨following, rfl, count', againHeld⟩ := each _ _ _ _ _ _ white readHeld
      obtain ⟨less', rfl, count'', againOthers⟩ := ih read (show following.length ≤ enough by omega)
      refine ⟨less', rfl, by omega, ?_⟩
      simp only [Bind.bind, Except.bind, if_true, againKey, againHeld, againOthers]

theorem spares_readMembers (each : ∀ key acc, Spares 0 (member key acc)) (start : β) :
    Spares 0 (readMembers member start) := fun _ _ _ _ white read =>
  readMembersFrom_trailing white each read (Nat.le_succ _)

end Containers

section Values

theorem spares_number (b : UInt8) : Spares 0 fun rest =>
    (readNumber (b :: rest)).map fun (n, rest) => (Json.number n, rest) := by
  intro input space value rest white read
  obtain ⟨⟨n, left⟩, found, same⟩ := map_ok read
  cases same
  obtain ⟨less, rfl, short, again⟩ := spares_readNumber (b :: input) space n rest white found
  exact ⟨less, rfl, by simpa using short, by simp only [again, Except.map]⟩

theorem spares_readScalar (b : UInt8) : Spares 0 (readScalar b) := by
  have text := (spares_readString.map Json.string).fewer (Nat.zero_le 1)
  unfold readScalar
  exact .ite _ (fun _ => (spares_word (by simp)).value _) fun _ =>
    .ite _ (fun _ => (spares_word (by simp)).value _) fun _ =>
      .ite _ (fun _ => (spares_word (by simp)).value _) fun _ =>
        .ite _ (fun _ => spares_number b) fun _ => .ite _ (fun _ => text) fun _ => spares_error _

theorem spares_valueMember {depth : Nat} (each : Spares 0 (readValue depth)) (key : String)
    (before : List (String × Json)) : Spares 0 (valueMember depth key before) :=
  (spares_afterColon.after (each.map fun v => before ++ [(key, v)])).fewer (Nat.zero_le _)

theorem spares_readValue (depth : Nat) : Spares 1 (readValue depth) := by
  induction depth with
  | zero =>
    exact spares_valueStart.bind _ fun b =>
      .ite (b = listOpen ∨ b = objectOpen) (fun _ => spares_error fun _ => .tooDeep)
        fun _ => spares_readScalar b
  | succ depth ih =>
    have inner := ih.fewer (Nat.zero_le 1)
    have list := (spares_readList inner).map Json.array
    have object := (spares_readMembers (spares_valueMember inner) []).map Json.object
    exact spares_valueStart.bind _ fun b => .ite (b = listOpen) (fun _ => list) fun _ =>
      .ite (b = objectOpen) (fun _ => object) fun _ => spares_readScalar b

end Values

section Tagged

variable {κ : Type} (kinds : List (String × κ))

theorem spares_readVariant : Spares 1 (readVariant kinds) :=
  (spares_expectString _).bind _ fun name => spares_pure (variantNamed kinds name)

theorem spares_taggedMember (tag key : String) (before : Option κ × List (String × Json)) :
    Spares 0 (taggedMember tag kinds key before) := by
  have kind := (spares_afterColon.after
    ((spares_readVariant kinds).map fun kind => (some kind, before.2))).fewer (Nat.zero_le _)
  have value := (spares_afterColon.after ((spares_readValue (depthLimit - 1)).map
    fun v => (before.1, before.2 ++ [(key, v)]))).fewer (Nat.zero_le _)
  exact .ite _ (fun _ => .ite _ (fun _ => spares_error _) fun _ => kind) fun _ => value

theorem spares_taggedList (tag : String) : Spares 0 (fun input => do
    let (more, rest) ← nextElement true input
    if more then
      let (kind, rest) ← readVariant kinds rest
      let (items, rest) ← readElements (readValue (depthLimit - 1)) false rest
      return ((kind, Json.array items), ← endList rest)
    else .error (.missingField tag)) := by
  have items := spares_readElements ((spares_readValue (depthLimit - 1)).fewer (Nat.zero_le 1)) false
  have tagged := (spares_readVariant kinds).bind _ fun kind =>
    items.bind _ fun items => spares_endList.value (kind, Json.array items)
  exact (spares_nextElement true).bind _ fun more =>
    .ite (more = true) (fun _ => tagged.fewer (Nat.zero_le _))
      fun _ => spares_error fun _ => .missingField tag

theorem spares_taggedObject (tag : String) : Spares 0 (fun input => do
    let ((kind, members), rest) ← readMembers (taggedMember tag kinds) (none, []) input
    match kind with
    | some kind => return ((kind, Json.object members), rest)
    | none => .error (.missingField tag)) := by
  have members := spares_readMembers (spares_taggedMember kinds tag) (none, [])
  intro input space value rest white read
  obtain ⟨⟨⟨kind, held⟩, left⟩, readAll, read⟩ := bind_ok read
  obtain ⟨less, rfl, short, again⟩ := members _ _ _ _ white readAll
  cases kind with
  | none => cases read
  | some kind =>
    cases read
    exact ⟨less, rfl, short, by simp only [again, Bind.bind, Except.bind]; rfl⟩

theorem spares_readTagged (what tag : String) : Spares 1 (readTagged what tag kinds) :=
  spares_valueStart.bind _ fun b => .ite (b = listOpen) (fun _ => spares_taggedList kinds tag) fun _ =>
    .ite (b = objectOpen) (fun _ => spares_taggedObject kinds tag) fun _ =>
      spares_error fun rest => mismatch what (b :: rest)

end Tagged

theorem skipSpace_nil_of_trailing {space : UInt8} {input : Bytes}
    (none : skipSpace (input ++ [space]) = []) : skipSpace input = [] := by
  simp [skipSpace] at none ⊢
  grind

theorem readAll_trailing {reader : Reader α} {count : Nat} (spares : Spares count reader)
    {input : Bytes} {space : UInt8} (white : isSpace space) {a : α}
    (read : readAll reader (input ++ [space]) = .ok a) : readAll reader input = .ok a := by
  obtain ⟨⟨b, rest⟩, readValue, ended⟩ := bind_ok read
  obtain ⟨less, rfl, -, again⟩ := spares _ _ _ _ white readValue
  dsimp only at ended
  split at ended
  next none =>
    cases ended
    have noneToo := skipSpace_nil_of_trailing (List.isEmpty_iff.mp none)
    simp [readAll, again, noneToo, Bind.bind, Except.bind, pure, Except.pure]
  next => cases ended

end AtomicCommit.Json
