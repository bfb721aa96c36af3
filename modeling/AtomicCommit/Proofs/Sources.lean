import AtomicCommit.Proofs.Tables
import AtomicCommit.Source
import Mathlib.Data.List.Induction

/-! The texts of sources, and the share of a participant: its resources among the sources, in order
and without repeats. -/

namespace AtomicCommit.Source

theorem toList_text (s : Source) :
    s.text.toList = s.participant.toList ++ ':' :: s.resource.toList := by
  simp [text]

theorem split_before {front : List Char} (plain : ':' ∉ front) (rest : List Char) :
    (front ++ ':' :: rest).takeWhile (· ≠ ':') = front ∧
      (front ++ ':' :: rest).dropWhile (· ≠ ':') = ':' :: rest := by
  have passed : ∀ c ∈ front, decide (c ≠ ':') = true :=
    fun c member => decide_eq_true fun same => plain (same ▸ member)
  rw [List.takeWhile_append_of_pos passed, List.dropWhile_append_of_pos passed]
  simp

theorem split_at_colon {chars rest : List Char} {mark : Char}
    (split : chars.dropWhile (· ≠ ':') = mark :: rest) :
    chars = chars.takeWhile (· ≠ ':') ++ ':' :: rest ∧ ':' ∉ chars.takeWhile (· ≠ ':') := by
  induction chars with
  | nil => cases split
  | cons c chars ih =>
    by_cases colon : c = ':'
    · subst colon
      obtain ⟨-, rfl⟩ : ':' = mark ∧ chars = rest := by simpa using split
      simp
    · obtain ⟨whole, plain⟩ := ih (by simpa [colon] using split)
      have first : (c :: chars).takeWhile (· ≠ ':') = c :: chars.takeWhile (· ≠ ':') :=
        List.takeWhile_cons_of_pos (decide_eq_true colon)
      rw [first, List.cons_append, ← whole, List.mem_cons, not_or]
      exact ⟨rfl, Ne.symm colon, plain⟩

theorem parse_eq_ok {text : String} {s : Source} : parse text = .ok s ↔
    text = s.text ∧ ':' ∉ s.participant.toList ∧ s.participant ≠ "" ∧ s.resource ≠ "" := by
  constructor
  · intro parsed
    simp only [parse] at parsed
    split at parsed
    · cases parsed
    next mark resource split =>
      split at parsed
      · cases parsed
      next named =>
        split at parsed
        · cases parsed
        next filled =>
          cases parsed
          obtain ⟨whole, plain⟩ := split_at_colon split
          refine ⟨String.toList_injective ?_, by simpa using plain, ?_, ?_⟩
          · rw [toList_text, String.toList_ofList, String.toList_ofList]
            exact whole
          · simpa using named
          · simpa using filled
  · rintro ⟨rfl, plain, named, filled⟩
    obtain ⟨before, after⟩ := split_before plain s.resource.toList
    simp only [parse, toList_text, before, after, String.ofList_toList]
    simp [named, filled]

section Parsing

variable {texts : List String} {sources : List Source}

theorem parseAll_cons (text : String) (texts : List String) : parseAll (text :: texts) = (do
    let s ← parse text
    let sources ← parseAll texts
    return s :: sources) :=
  List.mapM_cons

theorem parseAll_eq_ok : parseAll texts = .ok sources ↔
    List.Forall₂ (fun text s => parse text = .ok s) texts sources := by
  induction texts generalizing sources with
  | nil => cases sources <;> simp [parseAll, pure, Except.pure]
  | cons text texts ih =>
    rw [parseAll_cons]
    rcases first : parse text with e | s
    · cases sources <;> simp [bind, Except.bind, first]
    · rcases others : parseAll texts with e | rest <;>
        cases sources <;> simp [bind, Except.bind, pure, Except.pure, ← ih, others, first]

/-- Some source names this participant, before its first colon, with this resource. -/
def Named (texts : List String) (participant resource : String) : Prop :=
  ∃ text ∈ texts, text = participant ++ ":" ++ resource ∧ ':' ∉ participant.toList

theorem mem_parseAll (parsed : parseAll texts = .ok sources) (s : Source) :
    s ∈ sources ↔ ∃ text ∈ texts, parse text = .ok s := by
  have related := parseAll_eq_ok.mp parsed
  clear parsed
  induction related with
  | nil => simp
  | @cons text first texts sources read _ ih =>
    simp only [List.mem_cons, ih, exists_eq_or_imp, read, Except.ok.injEq, eq_comm (a := s)]

theorem parse_of_mem (parsed : parseAll texts = .ok sources) {text : String} (member : text ∈ texts) :
    ∃ s, parse text = .ok s := by
  have related := parseAll_eq_ok.mp parsed
  clear parsed
  induction related with
  | nil => cases member
  | cons read _ ih =>
    rcases List.mem_cons.mp member with rfl | later
    · exact ⟨_, read⟩
    · exact ih later

theorem named_iff (parsed : parseAll texts = .ok sources) (participant resource : String) :
    Named texts participant resource ↔ ⟨participant, resource⟩ ∈ sources := by
  rw [mem_parseAll parsed]
  constructor
  · rintro ⟨text, member, written, plain⟩
    obtain ⟨s, read⟩ := parse_of_mem parsed member
    obtain ⟨same, plainToo, _⟩ := parse_eq_ok.mp read
    have chars : s.participant.toList ++ ':' :: s.resource.toList =
        participant.toList ++ ':' :: resource.toList := by
      rw [← toList_text, ← same, written]
      simp
    obtain ⟨front, back⟩ := split_before plainToo s.resource.toList
    obtain ⟨frontToo, backToo⟩ := split_before plain resource.toList
    have whose : s.participant = participant :=
      String.toList_injective (by rw [← front, chars, frontToo])
    have which : s.resource = resource := by
      rw [chars, backToo, List.cons.injEq] at back
      exact String.toList_injective back.2.symm
    exact ⟨text, member, by rw [read, ← whose, ← which]⟩
  · rintro ⟨text, member, read⟩
    obtain ⟨written, plain, _⟩ := parse_eq_ok.mp read
    exact ⟨text, member, written, plain⟩

theorem parseAll_of_subset (parsed : parseAll texts = .ok sources) {others : List String}
    (fewer : ∀ text ∈ others, text ∈ texts) : ∃ parts, parseAll others = .ok parts := by
  induction others with
  | nil => exact ⟨[], rfl⟩
  | cons text others ih =>
    obtain ⟨here, later⟩ := List.forall_mem_cons.mp fewer
    obtain ⟨s, read⟩ := parse_of_mem parsed here
    obtain ⟨parts, rest⟩ := ih later
    exact ⟨s :: parts, by rw [parseAll_cons, read, rest]; rfl⟩

end Parsing

section Shares

structure Shared (sources : List Source) (shares : Table String NameSet) : Prop where
  sorted : shares.Sorted
  share : ∀ participant names, shares.get? participant = some names → names.Sorted ∧
    ∀ resource, resource ∈ names.keys ↔ ⟨participant, resource⟩ ∈ sources
  complete : ∀ participant, shares.get? participant = none →
    ∀ resource, ⟨participant, resource⟩ ∉ sources

theorem sharesOf_snoc (sources : List Source) (s : Source) : sharesOf (sources ++ [s]) =
    (sharesOf sources).insert s.participant
      ((((sharesOf sources).get? s.participant).getD ∅).insert s.resource ()) := by
  simp [sharesOf]

theorem Shared.snoc {sources : List Source} {shares : Table String NameSet}
    (shared : Shared sources shares) (s : Source) : Shared (sources ++ [s])
      (shares.insert s.participant (((shares.get? s.participant).getD ∅).insert s.resource ())) := by
  constructor
  · exact Table.sorted_insert shared.sorted _ _
  · intro participant names found
    rw [Table.get?_insert] at found
    by_cases own : participant = s.participant
    · subst own
      simp only [if_true, Option.some.injEq] at found
      subst found
      have former : ((shares.get? s.participant).getD ∅).Sorted ∧
          ∀ resource, resource ∈ ((shares.get? s.participant).getD ∅).keys ↔
            ⟨s.participant, resource⟩ ∈ sources := by
        cases old : shares.get? s.participant with
        | none =>
          have absent := shared.complete s.participant old
          exact ⟨Table.sorted_empty, fun resource => by simp [absent]⟩
        | some names => exact shared.share _ _ old
      refine ⟨Table.sorted_insert former.1 _ _, fun resource => ?_⟩
      rw [Table.mem_keys_insert, former.2, List.mem_append, List.mem_singleton, or_comm]
      have same : (⟨s.participant, resource⟩ : Source) = s ↔ resource = s.resource := by
        cases s
        simp
      rw [same]
    · rw [if_neg own] at found
      obtain ⟨sorted, members⟩ := shared.share participant names found
      refine ⟨sorted, fun resource => ?_⟩
      have foreign : (⟨participant, resource⟩ : Source) ≠ s := fun same => own (same ▸ rfl)
      simp [members, foreign]
  · intro participant none resource
    rw [Table.get?_insert] at none
    split at none
    · cases none
    next foreign =>
      have apart : (⟨participant, resource⟩ : Source) ≠ s := fun same => foreign (same ▸ rfl)
      simp [shared.complete participant none resource, apart]

theorem sharesOf_shared (sources : List Source) : Shared sources (sharesOf sources) := by
  induction sources using List.reverseRecOn with
  | nil => exact ⟨Table.sorted_empty, by simp [sharesOf], by simp⟩
  | append_singleton sources s ih =>
    rw [sharesOf_snoc]
    exact ih.snoc s

variable {sources : List Source} {participant : String} {resources : List String}

theorem mem_shares (share : (participant, resources) ∈ shares sources) :
    resources.Pairwise (· < ·) ∧
      ∀ resource, resource ∈ resources ↔ ⟨participant, resource⟩ ∈ sources := by
  have shared := sharesOf_shared sources
  obtain ⟨⟨name, names⟩, member, same⟩ := List.mem_map.mp share
  cases same
  exact shared.share _ _ ((Table.get?_eq_some shared.sorted _ _).mpr member)

theorem share_of_mem {resource : String} (member : ⟨participant, resource⟩ ∈ sources) :
    ∃ resources, (participant, resources) ∈ shares sources := by
  have shared := sharesOf_shared sources
  cases found : (sharesOf sources).get? participant with
  | none => exact absurd member (shared.complete participant found resource)
  | some names =>
    exact ⟨names.keys, List.mem_map.mpr ⟨_, (Table.get?_eq_some shared.sorted _ _).mp found, rfl⟩⟩

end Shares

theorem mem_keys_sharesOf (sources : List Source) (participant : String) :
    participant ∈ (sharesOf sources).keys ↔ ∃ resource, ⟨participant, resource⟩ ∈ sources := by
  induction sources using List.reverseRecOn with
  | nil => simp [sharesOf]
  | append_singleton sources s ih =>
    rw [sharesOf_snoc, Table.mem_keys_insert, ih]
    obtain ⟨name, resource⟩ := s
    simp [exists_or, or_comm]

theorem participants_shares (sources : List Source) :
    (shares sources).map (·.1) = (sharesOf sources).keys := by
  simp [shares, Table.keys, Function.comp_def]

theorem sorted_shares (sources : List Source) :
    ((shares sources).map (·.1)).Pairwise (· < ·) := by
  rw [participants_shares]
  exact (sharesOf_shared sources).sorted

theorem mem_participants {sources : List Source} {participant : String} :
    participant ∈ (shares sources).map (·.1) ↔ ∃ resource, ⟨participant, resource⟩ ∈ sources := by
  rw [participants_shares, mem_keys_sharesOf]

theorem eq_of_mem_iff {β : Type} (key : β → String) {items others : List β}
    (sorted : items.Pairwise fun a b => key a < key b)
    (sortedToo : others.Pairwise fun a b => key a < key b)
    (same : ∀ a, a ∈ items ↔ a ∈ others) : items = others := by
  have apart : ∀ l : List β, (l.Pairwise fun a b => key a < key b) → l.Nodup := by
    intro l sorted
    refine sorted.imp ?_
    rintro a b before rfl
    exact String.lt_irrefl _ before
  exact ((List.perm_ext_iff_of_nodup (apart _ sorted) (apart _ sortedToo)).mpr same).eq_of_pairwise
    (fun a b _ _ before after => absurd (String.lt_trans before after) (String.lt_irrefl _))
    sorted sortedToo

theorem mem_shares_iff {sources : List Source} {participant : String} {resources : List String} :
    (participant, resources) ∈ shares sources ↔
      (∃ resource, ⟨participant, resource⟩ ∈ sources) ∧ resources.Pairwise (· < ·) ∧
        ∀ resource, resource ∈ resources ↔ ⟨participant, resource⟩ ∈ sources := by
  constructor
  · intro share
    exact ⟨mem_participants.mp (List.mem_map.mpr ⟨_, share, rfl⟩), mem_shares share⟩
  · rintro ⟨⟨resource, member⟩, sorted, members⟩
    obtain ⟨own, share⟩ := share_of_mem member
    obtain ⟨sortedToo, membersToo⟩ := mem_shares share
    have same : own = resources := eq_of_mem_iff id sortedToo sorted fun resource => by
      rw [membersToo, members]
    exact same ▸ share

theorem shares_congr {sources others : List Source} (same : ∀ s, s ∈ sources ↔ s ∈ others) :
    shares sources = shares others := by
  apply eq_of_mem_iff Prod.fst
  · exact List.pairwise_map.mp (sorted_shares sources)
  · exact List.pairwise_map.mp (sorted_shares others)
  · rintro ⟨participant, resources⟩
    simp only [mem_shares_iff, same]

end AtomicCommit.Source
