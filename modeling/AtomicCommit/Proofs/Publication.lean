import AtomicCommit.Proofs.Artifacts
import AtomicCommit.Proofs.Log.Files
import AtomicCommit.Proofs.Log.Replays
import AtomicCommit.Proofs.Publishing
import AtomicCommit.Proofs.Views
import Mathlib.Data.String.Basic

/-! What a publication and a retraction make of all that is on the disk, when they succeed and when they
fail on the way. -/

namespace AtomicCommit

open Disk (Legal LeadsTo)

section Names

theorem splitOnAux_of_unbroken {done rest : List Char} (unbroken : '/' ∉ rest) :
    String.splitOnAux (String.ofList (done ++ rest)) "/" 0 ⟨String.utf8Len done⟩ 0 [] =
      [String.ofList (done ++ rest)] := by
  induction rest generalizing done with
  | nil =>
    have whole := String.extract_of_valid [] done []
    simp only [List.nil_append, List.append_nil, String.utf8Len_nil, Nat.zero_add] at whole
    rw [String.splitOnAux, if_pos ((String.atEnd_of_valid done []).mpr rfl), List.append_nil]
    simpa using whole
  | cons c rest ih =>
    obtain ⟨first, others⟩ := not_or.mp (List.mem_cons.not.mp unbroken)
    have unfinished : ¬String.Pos.Raw.atEnd (String.ofList (done ++ c :: rest))
        ⟨String.utf8Len done⟩ := fun ended => by
      cases (String.atEnd_of_valid done (c :: rest)).mp ended
    have here : String.Pos.Raw.get (String.ofList (done ++ c :: rest)) ⟨String.utf8Len done⟩ = c :=
      String.get_of_valid done (c :: rest)
    have slash : String.Pos.Raw.get "/" 0 = '/' := rfl
    have other : ¬(c == '/') := by simpa using Ne.symm first
    have back : (⟨String.utf8Len done⟩ : String.Pos.Raw).unoffsetBy 0 = ⟨String.utf8Len done⟩ := rfl
    have further : String.splitOnAux (String.ofList (done ++ [c] ++ rest)) "/" 0
        ⟨String.utf8Len (done ++ [c])⟩ 0 [] = [String.ofList (done ++ [c] ++ rest)] := ih others
    rw [List.append_assoc, List.singleton_append, String.utf8Len_append] at further
    rw [String.splitOnAux, if_neg unfinished, here, slash, if_neg other, back,
      String.next_of_valid done c rest]
    simpa using further

theorem resolve_of_plain {name : String} (plain : isPlainName name) (base : Path) :
    Path.resolve base name = base ++ [name] := by
  have unbroken : '/' ∉ name.toList := by
    intro member
    simp only [isPlainName, Bool.and_eq_true, List.all_eq_true] at plain
    simpa using plain.2 _ member
  have single : name.splitOn "/" = [name] := by
    have parts := @splitOnAux_of_unbroken [] _ unbroken
    rw [List.nil_append, String.ofList_toList] at parts
    rw [String.splitOn, if_neg (by decide)]
    exact parts
  simp only [isPlainName, Bool.and_eq_true, decide_eq_true_eq] at plain
  simp [Path.resolve, single, plain]

theorem Publisher.pathOf_resolves {publisher : Publisher} {name : String} {path : Path}
    (named : publisher.pathOf name = .ok path) :
    Path.resolve publisher.directory name = path ∧ path.dropLast = publisher.directory := by
  rw [pathOf] at named
  split at named
  next plain =>
    cases named
    exact ⟨resolve_of_plain plain _, List.dropLast_concat⟩
  next => cases named

end Names

structure Disk.Drafted (draft : Path) (payload : Bytes) (disk after : Disk) : Prop where
  sound : after.Sound
  legal : Legal draft
  seen : ∀ path, after.view path = if path = draft then some (some payload) else disk.view path

/-- A change of what is at one path, or no change when the attempt has failed. -/
def Disk.AllOrNothing (result : Except FileError Unit) (path : Path) (entry : Option (Option Bytes))
    (disk after : Disk) : Prop :=
  match result with
  | .ok () => after.view = Function.update disk.view path entry
  | .error _ => after.view = disk.view

open Disk (Drafted AllOrNothing)

section Drafts

variable {disk after : Disk} {place : Path} {draft name : String} {payload : Bytes}

theorem Disk.drafted_or_refused (sound : disk.Sound) (place : Path) (draft : String) (payload : Bytes) :
    (∃ e, disk.create (place ++ [draft]) = .error e) ∨
      ∃ after, Drafted (place ++ [draft]) payload disk after ∧ ∀ rest,
        disk.applyAll (.create (place ++ [draft]) :: .write (place ++ [draft]) payload :: rest) =
          after.applyAll rest := by
  rcases created : disk.create (place ++ [draft]) with e | ⟨number, blank⟩
  · exact .inl ⟨e, rfl⟩
  obtain ⟨alike, held⟩ := Disk.create_spec sound created
  obtain ⟨legal, file, there, nothing⟩ := alike.sound.fileAt?_eq_some.mp held
  have found := alike.sound.lookup_of_node legal there
  refine .inr ⟨blank.extend file payload, ⟨(Disk.extend_spec alike.sound found payload).1.sound, legal,
    fun path => ?_⟩, fun rest => ?_⟩
  · rw [Disk.view_extend alike.sound found, Disk.view_create sound created, nothing, List.nil_append]
    split <;> rfl
  · simp [Disk.applyAll, Disk.apply, created, found, Except.map]

namespace Disk.Drafted

theorem lookup {path : Path} (drafted : Drafted path payload disk after) :
    ∃ file, after.lookup path = .ok file := by
  obtain ⟨file, there, _⟩ := view_eq_file.mp ((drafted.seen path).trans (if_pos rfl))
  exact ⟨file, drafted.sound.lookup_of_node drafted.legal there⟩

theorem discard (drafted : Drafted (place ++ [draft]) payload disk after)
    (unused : disk.node? (place ++ [draft]) = none) : ∃ last,
      after.remove (place ++ [draft]) = .ok last ∧ last.Sound ∧ last.view = disk.view := by
  obtain ⟨file, found⟩ := drafted.lookup
  obtain ⟨last, removed⟩ : ∃ last, after.remove (place ++ [draft]) = .ok last := by
    simp [remove, found, Except.map]
  refine ⟨last, removed, (remove_spec drafted.sound removed).1.sound, funext fun path => ?_⟩
  rw [view_remove removed, drafted.seen]
  by_cases here : path = place ++ [draft]
  · rw [if_pos here, here, view_eq_none.mpr unused]
  · rw [if_neg here, if_neg here]

theorem rename (drafted : Drafted (place ++ [draft]) payload disk after)
    (unused : disk.node? (place ++ [draft]) = none) (distinct : draft ≠ name) {last : Disk}
    (renamed : after.rename (place ++ [draft]) (place ++ [name]) = .ok last) : last.Sound ∧
      ∀ path, last.view path = if path = place ++ [name] then some (some payload) else disk.view path := by
  refine ⟨(rename_spec drafted.sound distinct renamed).1.sound, fun path => ?_⟩
  rw [view_rename renamed, drafted.seen, if_pos rfl, drafted.seen]
  by_cases former : path = place ++ [draft]
  · rw [if_pos former, former, view_eq_none.mpr unused]
  · rw [if_neg former, if_neg former]

theorem rename_iff (drafted : Drafted (place ++ [draft]) payload disk after)
    (inside : after.find place = .ok (some .directory)) (distinct : draft ≠ name)
    (legal : Legal [name]) :
    (∃ last, after.rename (place ++ [draft]) (place ++ [name]) = .ok last) ↔
      disk.node? (place ++ [name]) ≠ some .directory := by
  obtain ⟨file, found⟩ := drafted.lookup
  have apart : place ++ [name] ≠ place ++ [draft] := by simpa using distinct.symm
  have same : after.node? (place ++ [name]) = some .directory ↔
      disk.node? (place ++ [name]) = some .directory := by
    rw [← view_eq_directory, drafted.seen, if_neg apart, view_eq_directory]
  have clean : '\x00' ∉ name.toList := by simpa using legal.1
  have short : ¬nameLimit < (Utf8.encode name).length := by simpa using legal.2
  rw [ne_eq, ← same]
  simp only [Disk.rename, found, find_child inside, short, bind, Except.bind]
  rcases there : after.node? (place ++ [name]) with _ | (_ | other) <;> simp [clean, pure, Except.pure]

end Disk.Drafted

namespace Publisher

open Disk.Drafted

theorem steps_seen (sound : disk.Sound) (distinct : draft ≠ name)
    (unused : disk.node? (place ++ [draft]) = none) (payload : Bytes) :
    (∃ after, disk.applyAll (steps (place ++ [draft]) (place ++ [name]) payload) = (.ok (), after) ∧
        after.Sound ∧ ∀ path, after.view path =
          if path = place ++ [name] then some (some payload) else disk.view path) ∨
      ∃ e between after,
        disk.applyAll (steps (place ++ [draft]) (place ++ [name]) payload) = (.error e, between) ∧
        (between.applyAll [.remove (place ++ [draft])]).2 = after ∧ after.Sound ∧
          after.view = disk.view := by
  rcases Disk.drafted_or_refused sound place draft payload with ⟨e, refused⟩ | ⟨full, drafted, applied⟩
  · obtain ⟨e', absent⟩ : ∃ e', disk.remove (place ++ [draft]) = .error e' := by
      cases found : disk.lookup (place ++ [draft]) with
      | error e' => exact ⟨e', by simp [Disk.remove, found, Except.map]⟩
      | ok file => cases unused.symm.trans (Disk.lookup_ok found).1
    refine .inr ⟨e, disk, disk, ?_, ?_, sound, rfl⟩
    · simp [steps, Disk.applyAll, Disk.apply, refused, Except.map]
    · simp [Disk.applyAll, Disk.apply, absent]
  · rw [steps, applied]
    rcases renamed : full.rename (place ++ [draft]) (place ++ [name]) with e | last
    · obtain ⟨last, removed, soundToo, same⟩ := drafted.discard unused
      refine .inr ⟨e, full, last, ?_, ?_, soundToo, same⟩
      · simp [Disk.applyAll, Disk.apply, renamed]
      · simp [Disk.applyAll, Disk.apply, removed]
    · obtain ⟨soundToo, seen⟩ := drafted.rename unused distinct renamed
      exact .inl ⟨last, by simp [Disk.applyAll, Disk.apply, renamed], soundToo, seen⟩

end Publisher

end Drafts

namespace Publisher

variable {publisher : Publisher} {name : String} {payload : Bytes}

def Unused (publisher : Publisher) (name : String) : Prop :=
  publisher.disk.node? (publisher.directory ++ [publisher.draftName name]) = none

instance : Decidable (publisher.Unused name) := inferInstanceAs (Decidable (_ = _))

def Publishable (publisher : Publisher) (name : String) : Prop :=
  isPlainName name ∧ Legal [publisher.draftName name] ∧
    publisher.disk.node? (publisher.directory ++ [name]) ≠ some .directory

theorem legal_of_draftName (legal : Legal [publisher.draftName name]) : Legal [name] := by
  obtain ⟨clean, short⟩ := legal
  simp only [List.mem_singleton, forall_eq, draftName, String.toList_append, List.mem_append,
    not_or, Utf8.encode_append, List.length_append] at clean short
  constructor
  · simpa using clean.1.1.1.2
  · simp only [List.mem_singleton, forall_eq]
    omega

theorem place_seen (sound : publisher.disk.Sound) (unused : publisher.Unused name)
    (payload : Bytes) : ∃ before after : Disk,
      (publisher.place name payload).2 = { publisher with disk := after } ∧ after.Sound ∧
      LeadsTo publisher.directory publisher.disk before ∧
      AllOrNothing (publisher.place name payload).1 (publisher.directory ++ [name])
        (some (some payload)) before after := by
  by_cases plain : isPlainName name
  swap
  · refine ⟨publisher.disk, publisher.disk, ?_⟩
    simp [place, pathOf, plain, sound, LeadsTo, AllOrNothing]
  have leads := publisher.disk.makeDirectories_leads publisher.directory
  have made := Disk.makeDirectories_alike sound publisher.directory
  rcases making : publisher.disk.makeDirectories publisher.directory with ⟨e | ⟨⟨⟩⟩, before⟩
  · rw [making] at leads made
    refine ⟨before, before, ?_⟩
    simp [place, pathOf, plain, making, made.sound, leads, AllOrNothing]
  rw [making] at leads made
  have unusedToo : before.node? (publisher.directory ++ [publisher.draftName name]) = none := by
    rw [← Disk.view_eq_none, leads.inside, Disk.view_eq_none]
    exact unused
  rcases steps_seen made.sound (publisher.draftName_ne name) unusedToo payload
    with ⟨after, applied, soundToo, seen⟩ | ⟨e, between, after, applied, discarded, soundToo, same⟩
  · refine ⟨before, after, ?_, soundToo, leads, ?_⟩
    · simp [place, pathOf, plain, making, applied]
    · simp only [place, pathOf, plain, if_true, making, applied, AllOrNothing]
      exact funext fun path => by rw [seen, Function.update_apply]
  · refine ⟨before, after, ?_, soundToo, leads, ?_⟩
    · simp [place, pathOf, plain, making, applied, discarded]
    · simpa [place, pathOf, plain, making, applied, AllOrNothing] using same

theorem place_ok_iff (sound : publisher.disk.Sound)
    (there : publisher.disk.find publisher.directory = .ok (some .directory))
    (unused : publisher.Unused name) (payload : Bytes) :
    (publisher.place name payload).1 = .ok () ↔ publisher.Publishable name := by
  by_cases plain : isPlainName name
  swap
  · simp [place, pathOf, plain, Publishable]
  have result : (publisher.place name payload).1 = (publisher.disk.applyAll
      (steps (publisher.directory ++ [publisher.draftName name])
        (publisher.directory ++ [name]) payload)).1 := by
    simp only [place, pathOf, plain, if_true, Disk.makeDirectories_of_find there]
    split
    next applied => rw [applied]
    next applied => rw [applied]
  rw [result, steps, Publishable, and_iff_right plain]
  rcases Disk.drafted_or_refused sound publisher.directory (publisher.draftName name) payload
    with ⟨e, refused⟩ | ⟨full, drafted, applied⟩
  · have illegal : ¬Legal [publisher.draftName name] := by
      rintro ⟨clean, short⟩
      have found := Disk.find_child there (publisher.draftName name)
      rw [unused] at found
      simp only [List.mem_singleton, forall_eq] at clean short
      simp [Disk.create, Disk.openFile, found, clean, Nat.not_lt.mpr short, Except.map] at refused
    simp [Disk.applyAll, Disk.apply, refused, Except.map, illegal]
  · have legal : Legal [publisher.draftName name] := by
      constructor <;> simp [drafted.legal.1, drafted.legal.2]
    have inside : full.find publisher.directory = .ok (some .directory) := by
      obtain ⟨node, legalPlace⟩ := Disk.find_ok there
      refine drafted.sound.find_of_node ?_ legalPlace
      rw [← Disk.view_eq_directory, drafted.seen, if_neg (by simp), Disk.view_eq_directory, ← node]
    rw [applied, ← drafted.rename_iff inside (publisher.draftName_ne name) (legal_of_draftName legal),
      and_iff_right legal]
    rcases renamed : full.rename (publisher.directory ++ [publisher.draftName name])
      (publisher.directory ++ [name]) with e | last
    · simp [Disk.applyAll, Disk.apply, renamed]
    · simp [Disk.applyAll, Disk.apply, renamed]

theorem retract_seen (sound : publisher.disk.Sound)
    (synced : publisher.disk.sync publisher.directory = .ok ()) (name : String) : ∃ after : Disk,
    (publisher.retract name).2 = { publisher with disk := after } ∧ after.Sound ∧
    AllOrNothing (publisher.retract name).1 (publisher.directory ++ [name]) none publisher.disk
      after := by
  by_cases plain : isPlainName name
  swap
  · exact ⟨publisher.disk, by simp [retract, pathOf, plain, sound, AllOrNothing]⟩
  rcases removed : publisher.disk.remove (publisher.directory ++ [name]) with e | after
  · by_cases absent : e = .notFound
    · subst absent
      refine ⟨publisher.disk, by simp [retract, pathOf, plain, removed], sound, ?_⟩
      simp only [retract, pathOf, plain, if_true, removed, AllOrNothing]
      rw [← sound.view_of_notFound removed, Function.update_eq_self]
    · have failed : publisher.retract name = (.error e, publisher) := by
        cases e <;> simp_all [retract, pathOf]
      exact ⟨publisher.disk, by simp [failed, sound, AllOrNothing]⟩
  · refine ⟨after, by simp [retract, pathOf, plain, removed],
      (Disk.remove_spec sound removed).1.sound, ?_⟩
    simp only [retract, pathOf, plain, if_true, removed, AllOrNothing,
      Disk.sync_congr (Disk.remove_closed removed), synced]
    exact funext fun path => by rw [Disk.view_remove removed, Function.update_apply]

/-- A publication puts the payload at its path or fails, a retraction takes away what is there or
fails, and that is all that they do if the publish directory can be synced. Where it is not there, the
way to it is made. -/
theorem all_or_nothing_in_the_directory (sound : publisher.disk.Sound)
    (synced : publisher.disk.sync publisher.directory = .ok ()) (name : String) (payload : Bytes) :
    (publisher.Unused name → ∃ before after : Disk,
      (publisher.publish name payload).2 = { publisher with disk := after } ∧ after.Sound ∧
      LeadsTo publisher.directory publisher.disk before ∧
      (publisher.disk.node? publisher.directory = some .directory →
        before.view = publisher.disk.view) ∧
      AllOrNothing (publisher.publish name payload).1 (publisher.directory ++ [name])
        (some (some payload)) before after) ∧
    (∃ after : Disk,
      (publisher.retract name).2 = { publisher with disk := after } ∧ after.Sound ∧
      AllOrNothing (publisher.retract name).1 (publisher.directory ++ [name]) none publisher.disk
        after) ∧
    (¬isPlainName name →
      publisher.publish name payload = (.error (.invalidName "artifact" name), publisher) ∧
      publisher.retract name = (.error (.invalidName "artifact" name), publisher)) ∧
    (publisher.Unused name → publisher.disk.find publisher.directory = .ok (some .directory) →
      ((publisher.publish name payload).1 = .ok () ↔ publisher.Publishable name)) ∧
    ((publisher.retract name).1 = .ok () ↔ publisher.Retractable name) := by
  rw [publish_of_synced synced]
  refine ⟨fun unused => ?_, ?_, fun plain => ?_,
    fun unused there => place_ok_iff sound there unused payload, retract_ok_iff⟩
  · obtain ⟨before, after, done, soundToo, leads, attempt⟩ := place_seen sound unused payload
    exact ⟨before, after, done, soundToo, leads, fun there => funext (leads.of_there sound there),
      attempt⟩
  · exact retract_seen sound synced name
  · simp [place, retract, pathOf, plain]

def filled : Publisher where
  directory := ["out"]
  disk := ((({} : Disk).makeDirectories ["out", "held"]).2.interfere ["out", "kept"] (.write [1])).2

/-- One file is replaced; a directory does not make way, nor does a name lead outside. -/
theorem filled_replaced_or_unchanged :
    ((filled.publish "kept" [3]).1 = .ok () ∧ (filled.publish "kept" [3]).2.disk.view =
      Function.update filled.disk.view ["out", "kept"] (some (some [3]))) ∧
    ((filled.publish "held" [3]).1 = .error .isDirectory ∧
      (filled.publish "held" [3]).2.disk.view = filled.disk.view) ∧
    filled.publish "../beside" [3] = (.error (.invalidName "artifact" "../beside"), filled) ∧
    (filled.retract "kept").1 = .ok () := by
  have sound : filled.disk.Sound :=
    (Disk.makeDirectories_alike .empty _).sound.interfere_write _ _
  have there : filled.disk.node? filled.directory = some .directory := by decide +kernel
  have replaced : (filled.publish "kept" [3]).1 = .ok () := by decide +kernel
  have failed : (filled.publish "held" [3]).1 = .error .isDirectory := by decide +kernel
  refine ⟨⟨replaced, ?_⟩, ⟨failed, ?_⟩, ?_, ?_⟩
  · obtain ⟨before, after, done, _, _, same, attempt⟩ :=
      (all_or_nothing_in_the_directory sound rfl "kept" [3]).1 (by decide +kernel)
    rw [replaced, Disk.AllOrNothing] at attempt
    rw [done, ← same there]
    exact attempt
  · obtain ⟨before, after, done, _, _, same, attempt⟩ :=
      (all_or_nothing_in_the_directory sound rfl "held" [3]).1 (by decide +kernel)
    rw [failed, Disk.AllOrNothing] at attempt
    rw [done, ← same there]
    exact attempt
  · exact ((all_or_nothing_in_the_directory sound rfl "../beside" [3]).2.2.1 (by decide +kernel)).1
  · decide +kernel

end Publisher

end AtomicCommit
