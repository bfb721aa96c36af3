import AtomicCommit.Deeds
import AtomicCommit.Proofs.Files

/-! The artifacts of a publish directory, and what publications and retractions make of them. Drafts
lie in the same directory; their names are theirs alone. -/

namespace AtomicCommit

namespace Publisher

def IsDraft (publisher : Publisher) (name : String) : Prop :=
  ∃ other, name = publisher.draftName other

variable {publisher after : Publisher} {name other : String}

theorem draftName_ne (publisher : Publisher) (name : String) : publisher.draftName name ≠ name := by
  intro same
  have longer := congrArg String.length same
  simp only [draftName, String.length_append] at longer
  have dot : ".".length = 1 := rfl
  omega

theorem IsDraft.dotted (draft : publisher.IsDraft name) : name.toList.head? = some '.' := by
  obtain ⟨other, rfl⟩ := draft
  simp [draftName, String.toList_append]

theorem artifact?_of_plain (plain : isPlainName name) :
    publisher.artifact? name = publisher.disk.fileAt? (publisher.directory ++ [name]) := by
  simp [artifact?, pathOf, plain, Except.toOption]

theorem artifact?_congr (directory : after.directory = publisher.directory)
    (same : after.disk.fileAt? (publisher.directory ++ [name]) =
      publisher.disk.fileAt? (publisher.directory ++ [name])) :
    after.artifact? name = publisher.artifact? name := by
  by_cases plain : isPlainName name
  · rw [artifact?_of_plain plain, artifact?_of_plain plain, directory, same]
  · simp [artifact?, pathOf, plain, Except.toOption]

end Publisher

namespace Deed

variable {ρ : Type}

/-- What a deed makes of the artifact under a name. -/
def shelve (name : String) (former : Option Bytes) : Deed ρ → Option Bytes
  | .published other payload | .stranded other payload => if other = name then some payload else former
  | .retracted other => if other = name then none else former
  | _ => former

/-- Whether what lies under a name has been left there by a publication that is said to have failed. -/
def strand (name : String) (former : Bool) : Deed ρ → Bool
  | .stranded other _ => former || other = name
  | .published other _ | .retracted other => former && other ≠ name
  | _ => former

def artifactName? : Deed ρ → Option String
  | .published name _ | .stranded name _ | .retracted name => some name
  | _ => none

variable {name : String} {deeds : List (Deed ρ)}

theorem shelve_of_ne (deed : Deed ρ) (former : Option Bytes)
    (other : deed.artifactName? ≠ some name) : shelve name former deed = former := by
  cases deed <;> simp_all [shelve, artifactName?]

theorem strand_of_ne (deed : Deed ρ) (former : Bool) (other : deed.artifactName? ≠ some name) :
    strand name former deed = former := by
  cases deed <;> simp_all [strand, artifactName?]

theorem shelve_of_strand {left : Bool} {former : Option Bytes} (there : left → former ≠ none)
    (stranded : deeds.foldl (strand name) left = true) :
    deeds.foldl (shelve name) former ≠ none := by
  induction deeds generalizing left former with
  | nil => exact there stranded
  | cons deed rest ih =>
    refine ih (fun left => ?_) stranded
    by_cases other : deed.artifactName? = some name
    · cases deed <;> simp_all [shelve, strand, artifactName?]
    · rw [strand_of_ne deed _ other] at left
      rw [shelve_of_ne deed _ other]
      exact there left

section Tell

variable {α : Type} {tell : α → Deed ρ → α} {gone : α}
  (elsewhere : ∀ deed former, deed.artifactName? ≠ some name → tell former deed = former)
include elsewhere

theorem foldl_elsewhere (spared : ∀ deed ∈ deeds, deed.artifactName? ≠ some name) (former : α) :
    deeds.foldl tell former = former := by
  induction deeds generalizing former with
  | nil => rfl
  | cons deed rest ih =>
    rw [List.foldl_cons, elsewhere deed former (spared deed List.mem_cons_self)]
    exact ih (fun deed member => spared deed (List.mem_cons_of_mem _ member)) former

theorem foldl_retracted (here : ∀ former, tell former (.retracted name) = gone)
    (only : ∀ deed ∈ deeds, deed.artifactName? = some name → deed = .retracted name)
    {former : α} (retracted : .retracted name ∈ deeds ∨ former = gone) :
    deeds.foldl tell former = gone := by
  induction deeds generalizing former with
  | nil => simpa using retracted
  | cons deed rest ih =>
    refine ih (fun deed member => only deed (List.mem_cons_of_mem _ member)) ?_
    by_cases mine : deed.artifactName? = some name
    · obtain rfl := only deed List.mem_cons_self mine
      exact .inr (here former)
    · rw [elsewhere deed former mine]
      have distinct : .retracted name ≠ deed := by
        rintro rfl
        exact mine rfl
      simpa [distinct] using retracted

end Tell

end Deed

namespace Publisher

variable {ρ : Type} {deeds others : List (Deed ρ)} {publisher between after : Publisher}
  {name : String} {payload : Bytes}

/-- Between two states of a publish directory nothing but these deeds has changed artifacts. -/
structure Shelves (deeds : List (Deed ρ)) (publisher after : Publisher) : Prop where
  directory : after.directory = publisher.directory
  token : after.token = publisher.token
  sound : after.disk.Sound
  artifacts : ∀ name, ¬publisher.IsDraft name →
    after.artifact? name = deeds.foldl (Deed.shelve name) (publisher.artifact? name)

namespace Shelves

theorem nothing (sound : publisher.disk.Sound) : Shelves ([] : List (Deed ρ)) publisher publisher :=
  ⟨rfl, rfl, sound, fun _ _ => rfl⟩

theorem isDraft (shelves : Shelves deeds publisher after) (name : String) :
    after.IsDraft name ↔ publisher.IsDraft name := by
  simp [IsDraft, draftName, shelves.token]

theorem trans (first : Shelves deeds publisher between) (second : Shelves others between after) :
    Shelves (deeds ++ others) publisher after := by
  refine ⟨second.directory.trans first.directory, second.token.trans first.token, second.sound, ?_⟩
  intro name ordinary
  rw [second.artifacts name ((first.isDraft name).not.mpr ordinary), first.artifacts name ordinary,
    List.foldl_append]

section Noted

variable {deed : Deed ρ} (tried : Deed ρ)

theorem failed (shelves : Shelves ([] : List (Deed ρ)) publisher after)
    (own : ∀ other former, other ≠ name → Deed.shelve other former tried = former) (e : FileError) :
    Shelves (Deed.noted deed tried (after.artifact? name ≠ publisher.artifact? name) (.error e))
      publisher after := by
  by_cases same : after.artifact? name = publisher.artifact? name
  · simpa [Deed.noted, same] using shelves
  · refine ⟨shelves.directory, shelves.token, shelves.sound, fun other ordinary => ?_⟩
    have other_ne : other ≠ name := by
      rintro rfl
      exact same (shelves.artifacts other ordinary)
    simpa [Deed.noted, same, own other _ other_ne] using shelves.artifacts other ordinary

theorem noted (shelves : Shelves [deed] publisher after)
    (own : ∀ other former, other ≠ name → Deed.shelve other former deed = former)
    (alike : ∀ other former, Deed.shelve other former tried = Deed.shelve other former deed)
    (result : Except FileError Unit) :
    Shelves (Deed.noted deed tried (after.artifact? name ≠ publisher.artifact? name) result)
      publisher after := by
  rcases result with e | ⟨⟨⟩⟩
  swap
  · exact shelves
  refine ⟨shelves.directory, shelves.token, shelves.sound, fun other ordinary => ?_⟩
  have made := shelves.artifacts other ordinary
  rw [List.foldl_cons, List.foldl_nil] at made
  by_cases same : after.artifact? name = publisher.artifact? name
  · by_cases here : other = name
    · simp [Deed.noted, here, same]
    · simpa [Deed.noted, same, own other _ here] using made
  · simpa [Deed.noted, same, alike] using made

end Noted

end Shelves

open Disk (Alike)

theorem steps_cases {disk : Disk} (sound : disk.Sound) (place : Path) {draft name : String}
    (distinct : draft ≠ name) (payload : Bytes) :
    (∃ after, disk.applyAll (steps (place ++ [draft]) (place ++ [name]) payload) = (.ok (), after) ∧
        Alike (fun path => path = place ++ [draft] ∨ path = place ++ [name]) disk after ∧
        after.fileAt? (place ++ [name]) = some payload) ∨
      ∃ e after, disk.applyAll (steps (place ++ [draft]) (place ++ [name]) payload) =
          (.error e, after) ∧ Alike (· = place ++ [draft]) disk after := by
  rcases created : disk.create (place ++ [draft]) with e | ⟨number, first⟩
  · exact .inr ⟨e, disk, by simp [steps, Disk.applyAll, Disk.apply, created, Except.map],
      .refl sound⟩
  obtain ⟨alike, blank⟩ := Disk.create_spec sound created
  rcases found : first.lookup (place ++ [draft]) with e | file
  · exact .inr ⟨e, first, by
      simp [steps, Disk.applyAll, Disk.apply, created, found, Except.map], alike⟩
  obtain ⟨extended, written⟩ := Disk.extend_spec alike.sound found payload
  have full := written [] blank
  rcases renamed : (first.extend file payload).rename (place ++ [draft]) (place ++ [name])
    with e | last
  · exact .inr ⟨e, first.extend file payload, by
      simp [steps, Disk.applyAll, Disk.apply, created, found, renamed, Except.map],
      alike.trans extended⟩
  obtain ⟨moved, there⟩ := Disk.rename_spec extended.sound distinct renamed
  refine .inl ⟨last, ?_, ?_, by rw [there, full, List.nil_append]⟩
  · simp [steps, Disk.applyAll, Disk.apply, created, found, renamed, Except.map]
  · exact ((alike.trans extended).mono fun _ => Or.inl).trans moved

theorem discard_alike {disk : Disk} (sound : disk.Sound) (place : Path) (draft : String) :
    Alike (· = place ++ [draft]) disk (disk.applyAll [.remove (place ++ [draft])]).2 := by
  rcases removed : disk.remove (place ++ [draft]) with e | after
  · simpa [Disk.applyAll, Disk.apply, removed] using Alike.refl sound
  · simpa [Disk.applyAll, Disk.apply, removed] using (Disk.remove_spec sound removed).1

theorem Shelves.of_alike {disk : Disk} (draft : String)
    (alike : Alike (· = publisher.directory ++ [publisher.draftName draft]) publisher.disk disk) :
    Shelves ([] : List (Deed ρ)) publisher { publisher with disk := disk } := by
  refine ⟨rfl, rfl, alike.sound, fun name ordinary => artifact?_congr rfl (alike.files _ ?_)⟩
  intro same
  exact ordinary ⟨draft, by simpa using same⟩

theorem place_shelves (sound : publisher.disk.Sound) (name : String) (payload : Bytes) :
    ((publisher.place name payload).1 = .ok () ∧
      publisher.Shelves ([.published name payload] : List (Deed ρ))
        (publisher.place name payload).2) ∨
    ∃ e, (publisher.place name payload).1 = .error e ∧
      publisher.Shelves ([] : List (Deed ρ)) (publisher.place name payload).2 := by
  by_cases plain : isPlainName name
  swap
  · refine .inr ⟨.invalidName "artifact" name, by simp [place, pathOf, plain], ?_⟩
    simpa [place, pathOf, plain] using Shelves.nothing sound
  have made := Disk.makeDirectories_alike sound publisher.directory
  rcases making : publisher.disk.makeDirectories publisher.directory with ⟨e | ⟨⟨⟩⟩, disk⟩
  · rw [making] at made
    refine .inr ⟨e, by simp [place, pathOf, plain, making], ?_⟩
    simpa [place, pathOf, plain, making] using Shelves.of_alike name (made.mono (by simp))
  rw [making] at made
  rcases steps_cases made.sound publisher.directory (publisher.draftName_ne name) payload
    with ⟨last, applied, alike, there⟩ | ⟨e, last, applied, alike⟩
  · refine .inl ⟨by simp [place, pathOf, plain, making, applied], ?_⟩
    simp only [place, pathOf, plain, if_true, making, applied]
    refine ⟨rfl, rfl, alike.sound, fun other ordinary => ?_⟩
    by_cases same : name = other
    · subst same
      simpa [artifact?_of_plain plain, Deed.shelve] using there
    · have kept : artifact? { publisher with disk := last } other = publisher.artifact? other := by
        refine artifact?_congr rfl ?_
        rw [alike.files, made.files _ id]
        rintro (draft | target)
        · exact ordinary ⟨name, by simpa using draft⟩
        · exact same (by simpa using target.symm)
      simpa [Deed.shelve, same] using kept
  · have gone := discard_alike alike.sound publisher.directory (publisher.draftName name)
    refine .inr ⟨e, by simp [place, pathOf, plain, making, applied], ?_⟩
    simpa [place, pathOf, plain, making, applied] using
      Shelves.of_alike name (((made.mono (by simp)).trans alike).trans gone)

theorem publish_shelves (sound : publisher.disk.Sound) (name : String) (payload : Bytes) :
    publisher.Shelves (Deed.noted (.published name payload : Deed ρ) (.stranded name payload)
        ((publisher.publish name payload).2.artifact? name ≠ publisher.artifact? name)
        (publisher.publish name payload).1) (publisher.publish name payload).2 := by
  have own : ∀ (other : String) former, other ≠ name →
      Deed.shelve other former (.published name payload : Deed ρ) = former :=
    fun other _ distinct => if_neg distinct.symm
  have placing := publisher.place_shelves sound name payload (ρ := ρ)
  rcases placed : publisher.place name payload with ⟨e | ⟨⟨⟩⟩, after⟩ <;> rw [placed] at placing
  · obtain ⟨done, _⟩ | ⟨_, _, shelves⟩ := placing
    · cases done
    · simpa only [publish, placed] using shelves.failed (.stranded name payload) own e
  · obtain ⟨_, shelves⟩ | ⟨_, failed, _⟩ := placing
    · have published := shelves.noted (.stranded name payload) own (fun _ _ => rfl)
        (after.disk.sync after.directory)
      simpa only [publish, placed] using published
    · cases failed

theorem retract_shelves (sound : publisher.disk.Sound) (name : String) :
    publisher.Shelves (Deed.noted (.retracted name : Deed ρ) (.retracted name)
        ((publisher.retract name).2.artifact? name ≠ publisher.artifact? name)
        (publisher.retract name).1) (publisher.retract name).2 := by
  have own : ∀ (other : String) former, other ≠ name →
      Deed.shelve other former (.retracted name : Deed ρ) = former :=
    fun other _ distinct => if_neg distinct.symm
  by_cases plain : isPlainName name
  swap
  · simpa [retract, pathOf, plain] using (Shelves.nothing sound).failed _ own _
  rcases removed : publisher.disk.remove (publisher.directory ++ [name]) with e | disk
  · by_cases absent : e = .notFound
    · subst absent
      simp only [retract, pathOf, plain, if_true, removed]
      refine ⟨rfl, rfl, sound, fun other ordinary => ?_⟩
      by_cases same : name = other
      · subst same
        have nothing : publisher.disk.fileAt? (publisher.directory ++ [name]) = none := by
          rw [Disk.remove] at removed
          cases found : publisher.disk.lookup (publisher.directory ++ [name]) with
          | error e => simp [Disk.fileAt?, Disk.read, found, Except.map, Except.toOption]
          | ok file => simp [found, Except.map] at removed
        simpa [artifact?_of_plain plain, Deed.noted, Deed.shelve] using nothing
      · simp [Deed.noted, Deed.shelve, same]
    · have failed : publisher.retract name = (.error e, publisher) := by
        cases e <;> simp_all [retract, pathOf]
      rw [failed]
      exact (Shelves.nothing sound).failed _ own e
  · obtain ⟨alike, gone⟩ := Disk.remove_spec sound removed
    have shelves : publisher.Shelves ([.retracted name] : List (Deed ρ))
        { publisher with disk := disk } := by
      refine ⟨rfl, rfl, alike.sound, fun other ordinary => ?_⟩
      by_cases same : name = other
      · subst same
        simpa [artifact?_of_plain plain, Deed.shelve] using gone
      · have kept : artifact? { publisher with disk := disk } other = publisher.artifact? other :=
          artifact?_congr rfl (alike.files _ (by simpa using Ne.symm same))
        simpa [Deed.shelve, same] using kept
    have retracted := shelves.noted (.retracted name) own (fun _ _ => rfl)
      (disk.sync publisher.directory)
    simpa only [retract, pathOf, plain, if_true, removed] using retracted

end Publisher

end AtomicCommit
