import AtomicCommit.Proofs.Participant.Settling

/-! Recoveries that are cut off. Wherever one breaks off, the next one takes up what is left, and the last
one ends where a single one would have ended. -/

namespace AtomicCommit.Participant

section Prefixes

variable {log : List Entry} {config : Config} {deeds : List (Deed Entry)} {txn resource : String}

theorem prefix_amends {items : List (String × Option Pending)} (start : deeds <+: items.flatMap amends)
    (ended : .appended (.done txn) ∈ deeds) :
    ∃ waiting, (txn, waiting) ∈ items ∧
      ∀ resource ∈ waiting.elim [] Pending.owed, .deleted resource ∈ deeds := by
  induction items generalizing deeds with
  | nil =>
    obtain rfl : deeds = [] := List.prefix_nil.mp start
    cases ended
  | cons item rest ih =>
    obtain ⟨name, waiting⟩ := item
    have complete : ∀ others, deeds = amends (name, waiting) ++ others →
        ∀ resource ∈ waiting.elim [] Pending.owed, .deleted resource ∈ deeds := by
      rintro others rfl resource owed
      simp [amends, owed]
    obtain ⟨tail, split⟩ := start
    rw [List.flatMap_cons] at split
    rcases List.append_eq_append_iff.mp split with ⟨more, whole, _⟩ | ⟨others, rfl, later⟩
    · rcases List.prefix_concat_iff.mp ⟨more, whole.symm⟩ with all | some
      · have mine : txn = name := by simpa [all] using ended
        exact ⟨waiting, by simp [mine], complete [] (by simpa [amends] using all)⟩
      · have deletion := some.subset ended
        simp at deletion
    · rcases List.mem_append.mp ended with here | there
      · have mine : txn = name := by simpa [amends] using here
        exact ⟨waiting, by simp [mine], complete others rfl⟩
      · obtain ⟨waiting, member, gone⟩ := ih ⟨tail, later.symm⟩ there
        exact ⟨waiting, List.mem_cons_of_mem _ member, fun resource owed =>
          List.mem_append_right _ (gone resource owed)⟩

theorem prefix_recoveryDeeds (start : deeds <+: recoveryDeeds config log) :
    ∃ rest, rest <+: (toReapply (traces log)).flatMap amends ∧
      (deeds = rest ∨ deeds = .compacted (compacted log) :: rest) := by
  rw [recoveryDeeds, compaction] at start
  split at start
  · rcases List.prefix_cons_iff.mp start with rfl | ⟨rest, rfl, later⟩
    · exact ⟨[], List.nil_prefix, .inl rfl⟩
    · exact ⟨rest, later, .inr rfl⟩
  · exact ⟨deeds, start, .inl rfl⟩

theorem deleted_before_done (start : deeds <+: recoveryDeeds config log)
    (ended : .appended (.done txn) ∈ deeds) {resources : List String}
    (dooms : (known log txn).Dooms resources) (listed : resource ∈ resources) :
    .deleted resource ∈ deeds := by
  obtain ⟨rest, part, whole⟩ := prefix_recoveryDeeds start
  have endedLater : .appended (.done txn) ∈ rest := by
    rcases whole with rfl | rfl
    · exact ended
    · simpa using ended
  obtain ⟨waiting, member, gone⟩ := prefix_amends part endedLater
  obtain ⟨_, _, rfl⟩ := mem_toReapply_traces.mp member
  have deleted := gone resource (Trace.mem_owed.mpr ⟨resources, dooms, listed⟩)
  rcases whole with rfl | rfl
  · exact deleted
  · exact List.mem_cons_of_mem _ deleted

theorem nodup_missingEnds (log : List Entry) : (missingEnds log).Nodup := by
  have names : ((traces log).map (·.1)).Nodup := Log.nodup_traces _ _ _
  have once := ((names_toReapply _).nodup names).map fun first second same => Entry.done.inj same
  rwa [List.map_map] at once

theorem prefix_missingEnds (start : deeds <+: recoveryDeeds config log) :
    Deed.records deeds <+: missingEnds log := by
  rw [← records_recoveryDeeds config]
  exact start.filterMap _

end Prefixes

section Ends

variable {entries log ends : List Entry}

theorem Kept.appendEnds (kept : Kept entries log) (only : ∀ entry ∈ ends, entry.isDone)
    (fresh : ∀ txn, .done txn ∈ ends → (known entries txn).isDone = false) (once : ends.Nodup) :
    Kept (entries ++ ends) (log ++ ends) := by
  induction ends generalizing entries log with
  | nil => simpa using kept
  | cons entry rest ih =>
    obtain ⟨isEnd, others⟩ := List.forall_mem_cons.mp only
    obtain ⟨absent, onceLater⟩ := List.nodup_cons.mp once
    obtain ⟨name, rfl⟩ : ∃ name, entry = .done name := ⟨_, Entry.eq_done isEnd⟩
    have own : ∀ entry ∈ [Entry.done name], entry.txn = name := by simp [Entry.txn]
    have first := kept.append (.told [.done name] (fresh name List.mem_cons_self) (by simp))
    rw [List.append_cons entries, List.append_cons log]
    refine ih first others (fun txn ended => ?_) onceLater
    have distinct : txn ≠ name := by
      rintro rfl
      exact absent ended
    rw [known_other own distinct]
    exact fresh txn (List.mem_cons_of_mem _ ended)

theorem Kept.dooms_iff (kept : Kept entries log) {txn : String} {resources : List String} :
    (known log txn).Dooms resources ↔ (known entries txn).Dooms resources := by
  rcases kept.recounts txn with whole | ⟨done, fewer⟩
  · rw [whole]
  · constructor
    · rintro ⟨undone, _, _⟩
      simp [fewer, done] at undone
    · rintro ⟨undone, _, _⟩
      simp [done] at undone

theorem Kept.doomed_iff (kept : Kept entries log) {resource : String} :
    Doomed log resource ↔ Doomed entries resource := by
  simp only [Doomed, kept.dooms_iff]

theorem count_done_recordsOf (txn : String) (records : List Entry) :
    (Log.recordsOf txn records).count (.done txn) = records.count (.done txn) :=
  List.count_filter (by simp [Record.txn, Entry.txn])

theorem Kept.count_done (kept : Kept entries log) (txn : String) :
    log.count (.done txn) = entries.count (.done txn) := by
  rw [← count_done_recordsOf, ← count_done_recordsOf txn entries]
  rcases kept.log txn with whole | ⟨_, fewer⟩
  · rw [whole]
  · rw [fewer, List.count_filter (by simp [Entry.isDecision])]

theorem EndsOnce.count_done {txn : String} (once : EndsOnce (Log.recordsOf txn entries)) :
    entries.count (.done txn) ≤ 1 := by
  rw [← count_done_recordsOf]
  refine Nat.le_trans (List.countP_mono_left fun entry _ same => ?_) once.ends
  rw [eq_of_beq same]
  rfl

theorem exclusive_ends (exclusive : Exclusive entries) (only : ∀ entry ∈ ends, entry.isDone) :
    Exclusive (entries ++ ends) := by
  have fewer : ∀ txn resource, (known (entries ++ ends) txn).Locks resource →
      (known entries txn).Locks resource := by
    rintro txn resource ⟨undone, accepted⟩
    rw [known_ends only] at undone accepted
    simp only [Bool.or_eq_false_iff] at undone
    exact ⟨undone.1, accepted⟩
  intro first second resource one other
  exact exclusive first second resource (fewer _ _ one) (fewer _ _ other)

theorem doomed_ends (only : ∀ entry ∈ ends, entry.isDone) {resource : String} :
    Doomed (entries ++ ends) resource ↔ ∃ txn resources, (known entries txn).Dooms resources ∧
      resource ∈ resources ∧ .done txn ∉ ends := by
  simp only [Doomed, known_ends only]
  constructor
  · rintro ⟨txn, resources, ⟨undone, accepted, committed⟩, listed⟩
    simp only [Bool.or_eq_false_iff, decide_eq_false_iff_not] at undone
    exact ⟨txn, resources, ⟨undone.1, accepted, committed⟩, listed, undone.2⟩
  · rintro ⟨txn, resources, ⟨undone, accepted, committed⟩, listed, going⟩
    exact ⟨txn, resources, ⟨by simp [undone, going], accepted, committed⟩, listed⟩

end Ends

variable {τ : Type} [Journal τ Entry] [LawfulJournal τ Entry] [ResourceStore τ]
  {deletable : String → Prop} {fine : τ → Prop} {deeds : List (Deed Entry)} {s : τ}

theorem Unfailing.held_acts [LawfulStore τ Entry] (unfailing : Unfailing deletable fine)
    (allowed : ∀ resource, .deleted resource ∈ deeds → deletable resource) (start : fine s)
    (going : ∀ entries, .compacted entries ∉ deeds) :
    held (Participant.acts deeds s) = held s ++ Deed.records deeds := by
  induction deeds generalizing s with
  | nil => simp
  | cons deed rest ih =>
    have later := fun next : fine (act s deed) =>
      ih (fun resource member => allowed resource (List.mem_cons_of_mem _ member)) next
        fun entries member => going entries (List.mem_cons_of_mem _ member)
    rw [acts_cons, Deed.records_cons, ← List.append_assoc]
    cases deed with
    | appended entry =>
      obtain ⟨result, next⟩ := unfailing.append entry start
      rw [later next, act, LawfulJournal.append_ok (Prod.ext result rfl)]
      rfl
    | compacted entries => exact absurd List.mem_cons_self (going entries)
    | deleted resource =>
      obtain ⟨_, next⟩ := unfailing.delete (allowed resource List.mem_cons_self) start
      rw [later next, act, LawfulStore.held_delete]
      simp
    | published | stranded | retracted =>
      rw [later start, act]
      simp

theorem Unfailing.holds_acts [LawfulHoldings τ Entry] (unfailing : Unfailing deletable fine)
    (allowed : ∀ resource, .deleted resource ∈ deeds → deletable resource) (start : fine s)
    (resource : String) : ResourceStore.holds resource (Participant.acts deeds s) ↔
      ResourceStore.holds resource s ∧ .deleted resource ∉ deeds := by
  induction deeds generalizing s with
  | nil => simp
  | cons deed rest ih =>
    have later := fun next : fine (act s deed) =>
      ih (fun resource member => allowed resource (List.mem_cons_of_mem _ member)) next
    rw [acts_cons]
    cases deed with
    | appended entry =>
      rw [later (unfailing.append entry start).2, act, LawfulHoldings.holds_append]
      simp
    | compacted entries =>
      rw [later (unfailing.compact entries start).2, act, LawfulHoldings.holds_compact]
      simp
    | deleted gone =>
      obtain ⟨result, next⟩ := unfailing.delete (allowed gone List.mem_cons_self) start
      rw [later next, act, LawfulResources.holds_delete result]
      simp [and_assoc]
    | published | stranded | retracted =>
      rw [later start, act]
      simp

def interrupted (storage : τ) (cut : Config × Nat) : τ :=
  acts ((recover cut.1 (⟨{}, ⟨storage, []⟩⟩ :
    Participant (Recorded τ Entry))).2.storage.deeds.take cut.2) storage

/-- Between a storage and what a recovery from it is to make of it. `later` is what has been logged by
now, and `entries` what had been logged before. -/
structure Midway (fine : τ → Prop) (origin : τ) (entries later : List Entry) (s : τ) : Prop where
  kept : Kept later (held s)
  exclusive : Exclusive later
  fine : fine s
  settled : ∀ txn, (known later txn).settled = (known entries txn).settled
  once : ∀ txn, later.count (.done txn) ≤ 1
  doomed : ∀ resource, Doomed (held s) resource → Doomed (held origin) resource
  left : ∀ resource, ResourceStore.holds resource s ∧ ¬Doomed (held s) resource ↔
    ResourceStore.holds resource origin ∧ ¬Doomed (held origin) resource

namespace Midway

variable {origin : τ} {entries later final : List Entry} {memory : Memory} {config : Config}

theorem begin (kept : Kept entries (held s)) (exclusive : Exclusive entries) (start : fine s)
    (once : ∀ txn, EndsOnce (Log.recordsOf txn entries)) : Midway fine s entries entries s :=
  ⟨kept, exclusive, start, fun _ => rfl, fun txn => (once txn).count_done, fun _ => id,
    fun _ => Iff.rfl⟩

theorem holds (midway : Midway fine origin entries final s) (settled : Settled final memory)
    (resource : String) : ResourceStore.holds resource s ↔
      ResourceStore.holds resource origin ∧ ¬Doomed (held origin) resource := by
  rw [← midway.left, midway.kept.doomed_iff]
  refine (and_iff_left ?_).symm
  rintro ⟨txn, resources, dooms, _⟩
  have undecided := settled.calm txn dooms.undone
  simp [dooms.committed] at undecided

theorem count_done (midway : Midway fine origin entries final s)
    (alike : ∀ txn, known final txn = (known entries txn).settled) {txn : String}
    (decided : (known entries txn).decision ≠ none) : (held s).count (.done txn) = 1 := by
  have ended : .done txn ∈ final := isDone_known.mp (by
    simp [alike, Trace.settled, Option.isSome_iff_ne_none.mpr decided])
  rw [midway.kept.count_done]
  exact Nat.le_antisymm (midway.once txn) (List.one_le_count_iff.mpr ended)

variable [LawfulStore τ Entry] [LawfulHoldings τ Entry]

omit [LawfulStore τ Entry] [LawfulHoldings τ Entry] in
theorem allowed (midway : Midway fine origin entries later s)
    (start : deeds <+: recoveryDeeds config (held s)) {resource : String}
    (member : .deleted resource ∈ deeds) : Doomed (held origin) resource :=
  midway.doomed resource (deleted_recoveryDeeds.mp (start.subset member))

omit [LawfulStore τ Entry] [LawfulHoldings τ Entry] in
theorem missing (midway : Midway fine origin entries later s)
    (start : deeds <+: recoveryDeeds config (held s)) {txn : String}
    (ended : .done txn ∈ Deed.records deeds) :
    (known later txn).isDone = false ∧ (known later txn).decision ≠ none := by
  obtain ⟨undone, decided⟩ := mem_missingEnds.mp ((prefix_missingEnds start).subset ended)
  rcases midway.kept.recounts txn with same | ⟨done, same⟩
  · rw [← same]
    exact ⟨undone, decided⟩
  · simp [same, done] at undone

omit [LawfulHoldings τ Entry] in
theorem kept_acts (midway : Midway fine origin entries later s)
    (unfailing : Unfailing (Doomed (held origin)) fine)
    (start : deeds <+: recoveryDeeds config (held s)) :
    Kept (later ++ Deed.records deeds) (held (Participant.acts deeds s)) := by
  have ends := prefix_missingEnds start
  have append := fun {log : List Entry} (kept : Kept later log) =>
    kept.appendEnds (fun entry member => isDone_missingEnds (ends.subset member))
      (fun txn ended => (midway.missing start ended).1)
      (ends.sublist.nodup (nodup_missingEnds _))
  have allowed : ∀ resource, .deleted resource ∈ deeds → Doomed (held origin) resource :=
    fun resource => midway.allowed start
  obtain ⟨rest, part, whole⟩ := prefix_recoveryDeeds start
  have going : ∀ entries, .compacted entries ∉ rest := by
    intro entries member
    have compaction := part.subset member
    simp [amends] at compaction
  rcases whole with rfl | rfl
  · rw [unfailing.held_acts allowed midway.fine going]
    exact append midway.kept
  · obtain ⟨result, next⟩ := unfailing.compact (compacted (held s)) midway.fine
    rw [acts_cons, act, unfailing.held_acts (fun resource member =>
      allowed resource (List.mem_cons_of_mem _ member)) next going,
      LawfulJournal.compact_ok (Prod.ext result rfl)]
    exact append midway.kept.compacted

omit [LawfulHoldings τ Entry] in
theorem doomed_acts (midway : Midway fine origin entries later s)
    (unfailing : Unfailing (Doomed (held origin)) fine)
    (start : deeds <+: recoveryDeeds config (held s)) {resource : String} :
    Doomed (held (Participant.acts deeds s)) resource ↔ ∃ txn resources,
      (known (held s) txn).Dooms resources ∧ resource ∈ resources ∧ .done txn ∉ Deed.records deeds := by
  rw [(midway.kept_acts unfailing start).doomed_iff, doomed_ends fun entry member =>
    isDone_missingEnds ((prefix_missingEnds start).subset member)]
  simp only [midway.kept.dooms_iff]

theorem left_acts (midway : Midway fine origin entries later s)
    (unfailing : Unfailing (Doomed (held origin)) fine)
    (start : deeds <+: recoveryDeeds config (held s)) (resource : String) :
    ResourceStore.holds resource (Participant.acts deeds s) ∧
        ¬Doomed (held (Participant.acts deeds s)) resource ↔
      ResourceStore.holds resource s ∧ ¬Doomed (held s) resource := by
  rw [unfailing.holds_acts (fun resource => midway.allowed start) midway.fine,
    midway.doomed_acts unfailing start]
  constructor
  · rintro ⟨⟨there, kept⟩, spared⟩
    refine ⟨there, ?_⟩
    rintro ⟨txn, resources, dooms, listed⟩
    have ended : .done txn ∈ Deed.records deeds := by
      by_contra going
      exact spared ⟨txn, resources, dooms, listed, going⟩
    exact kept (deleted_before_done start (Deed.mem_records.mp ended) dooms listed)
  · rintro ⟨there, spared⟩
    refine ⟨⟨there, fun gone => spared (deleted_recoveryDeeds.mp (start.subset gone))⟩, ?_⟩
    rintro ⟨txn, resources, dooms, listed, _⟩
    exact spared ⟨txn, resources, dooms, listed⟩

theorem acts (midway : Midway fine origin entries later s)
    (unfailing : Unfailing (Doomed (held origin)) fine)
    (start : deeds <+: recoveryDeeds config (held s)) :
    Midway fine origin entries (later ++ Deed.records deeds) (acts deeds s) := by
  have only : ∀ entry ∈ Deed.records deeds, entry.isDone := fun entry member =>
    isDone_missingEnds ((prefix_missingEnds start).subset member)
  refine ⟨midway.kept_acts unfailing start, exclusive_ends midway.exclusive only,
    unfailing.acts (fun resource => midway.allowed start) midway.fine,
    fun txn => ?_, fun txn => ?_, ?_, fun resource => ?_⟩
  · rw [← midway.settled, known_ends only]
    by_cases ended : .done txn ∈ Deed.records deeds
    · obtain ⟨undone, decided⟩ := midway.missing start ended
      simp [Trace.settled, ended, Option.isSome_iff_ne_none.mpr decided]
    · simp [Trace.settled, ended]
  · rw [List.count_append]
    by_cases ended : .done txn ∈ Deed.records deeds
    · have new : later.count (.done txn) = 0 := List.count_eq_zero.mpr
        (isDone_known.not.mp (Bool.eq_false_iff.mp (midway.missing start ended).1))
      have once : (Deed.records deeds).Nodup :=
        (prefix_missingEnds start).sublist.nodup (nodup_missingEnds _)
      rw [new, Nat.zero_add]
      exact List.nodup_iff_count_le_one.mp once _
    · rw [List.count_eq_zero.mpr ended, Nat.add_zero]
      exact midway.once txn
  · intro resource still
    obtain ⟨txn, resources, dooms, listed, _⟩ := (midway.doomed_acts unfailing start).mp still
    exact midway.doomed resource ⟨txn, resources, dooms, listed⟩
  · rw [← midway.left, midway.left_acts unfailing start]

theorem interrupted (midway : Midway fine origin entries later s)
    (unfailing : Unfailing (Doomed (held origin)) fine) (cut : Config × Nat) :
    ∃ more, Midway fine origin entries more (interrupted s cut) := by
  obtain ⟨memory, recovered⟩ := unfailing.recover midway.fine midway.doomed cut.1
  rw [Participant.interrupted, recovered]
  exact ⟨_, midway.acts unfailing (List.take_prefix _ _)⟩

theorem cuts (midway : Midway fine origin entries later s)
    (unfailing : Unfailing (Doomed (held origin)) fine) (cuts : List (Config × Nat)) :
    ∃ more, Midway fine origin entries more (cuts.foldl Participant.interrupted s) := by
  induction cuts generalizing s later with
  | nil => exact ⟨later, midway⟩
  | cons cut rest ih =>
    obtain ⟨more, next⟩ := midway.interrupted unfailing cut
    exact ih next

theorem recover (midway : Midway fine origin entries later s)
    (unfailing : Unfailing (Doomed (held origin)) fine) (config : Config) :
    ∃ found after final, recover config (⟨{}, ⟨s, []⟩⟩ : Participant (Recorded τ Entry)) =
        (.ok found, after) ∧
      Midway fine origin entries final after.storage.storage ∧ Settled final after.memory ∧
      ∀ txn, known final txn = (known entries txn).settled := by
  obtain ⟨memory, recovered⟩ := unfailing.recover midway.fine midway.doomed config
  obtain ⟨_, _, settled⟩ := recover_settles midway.kept midway.exclusive recovered
  have complete := midway.acts unfailing (List.prefix_refl (recoveryDeeds config (held s)))
  rw [records_recoveryDeeds] at complete
  exact ⟨_, _, _, recovered, complete, settled, fun txn => by
    rw [known_missingEnds midway.kept.recounts, midway.settled]⟩

end Midway

variable [LawfulStore τ Entry] [LawfulHoldings τ Entry] {history : List Event}

/-- A recovery may break off after any of its deeds, again and again: a last one that is let finish leaves
the same in memory and the same resources as a single one, and either way the log has just one end of
each transaction that was decided. -/
theorem recovery_resumes {s : Station τ} (run : Station.Run history s)
    (unfailing : Unfailing (Doomed (held s.storage)) fine) {storage : τ} (start : fine storage)
    (log : held storage = held s.storage) (cuts : List (Config × Nat)) (first last : Config) :
    ∃ found whole foundLast again,
      recover first (⟨{}, ⟨storage, []⟩⟩ : Participant (Recorded τ Entry)) = (.ok found, whole) ∧
      recover last (⟨{}, ⟨cuts.foldl interrupted storage, []⟩⟩ : Participant (Recorded τ Entry)) =
        (.ok foundLast, again) ∧
      again.memory = whole.memory ∧
      (∀ resource, ResourceStore.holds resource again.storage.storage =
        ResourceStore.holds resource whole.storage.storage) ∧
      ∀ txn outcome, .decision txn outcome ∈ logged history →
        (held whole.storage.storage).count (.done txn) = 1 ∧
        (held again.storage.storage).count (.done txn) = 1 := by
  rw [← log] at unfailing
  have consistent := consistent_run run
  have kept : Kept (logged history) (held storage) := log ▸ consistent.kept
  have origin := Midway.begin kept consistent.exclusive start fun txn =>
    endsOnce_logged (orderly_run run) (heedful_run run).timely
  obtain ⟨later, midway⟩ := origin.cuts unfailing cuts
  obtain ⟨found, whole, final, recovered, complete, settled, known⟩ := origin.recover unfailing first
  obtain ⟨foundLast, again, finalLast, recoveredLast, completeLast, settledLast, knownLast⟩ :=
    midway.recover unfailing last
  refine ⟨found, whole, foundLast, again, recovered, recoveredLast,
    settledLast.unique settled fun txn => by rw [known, knownLast], fun resource => ?_,
    fun txn outcome told => ?_⟩
  · rw [Bool.eq_iff_iff, completeLast.holds settledLast, complete.holds settled]
  · have decided := decided_iff.mpr ⟨outcome, told⟩
    exact ⟨complete.count_done known decided, completeLast.count_done knownLast decided⟩

/-- A commit that was logged but not carried out. A first recovery breaks off between the deletion and the
end, a second one before it has done anything but compact, and a third one finishes. -/
theorem committed_at_last : ∃ history s, stocked.playAll (committedInSteps.take 4) = some (history, s) ∧
    held s.storage = [.prepare "t" ["x"] .accept, .decision "t" .commit] ∧
    ResourceStore.holds "x" s.storage ∧
    ∃ found whole foundLast again,
      recover {} (⟨{}, ⟨{ s.storage with failures := [] }, []⟩⟩ : Participant (Recorded _ Entry)) =
        (.ok found, whole) ∧
      recover { compactOnRecovery := false } (⟨{}, ⟨[({}, 2), ({}, 1)].foldl interrupted
        { s.storage with failures := [] }, []⟩⟩ : Participant (Recorded _ Entry)) =
        (.ok foundLast, again) ∧
      again.memory = whole.memory ∧ (held again.storage.storage).count (.done "t") = 1 := by
  have played : ((stocked.playAll (committedInSteps.take 4)).map fun result =>
      result.2.storage.storage) = some ⟨⟨[.prepare "t" ["x"] .accept, .decision "t" .commit], []⟩,
        stocked.storage.storage.other⟩ := by rfl
  obtain ⟨⟨history, s⟩, played, stored⟩ := Option.map_eq_some_iff.mp played
  have run : Station.Run history s := Station.playAll_run (.begin stocked.storage rfl) played
  have log : held s.storage = [.prepare "t" ["x"] .accept, .decision "t" .commit] :=
    congrArg held stored
  have able : ∀ resource, Doomed (held s.storage) resource →
      s.storage.storage.other.Deletable resource := by
    rintro resource ⟨txn, resources, dooms, listed⟩
    have voted := vote_known dooms.accepted
    rw [stored]
    obtain rfl : resource = "x" := by
      simp only [log, List.mem_cons, Entry.prepare.injEq, reduceCtorEq, List.not_mem_nil] at voted
      grind
    exact DirectoryStore.delete_ok_iff.mp (by rfl)
  let working : Faulty (Beside (Ledger Entry) DirectoryStore) := { s.storage with failures := [] }
  have works : working.failures = [] ∧ working.storage.log.failures = [] ∧
      ∀ resource, Doomed (held s.storage) resource → working.storage.other.Deletable resource :=
    ⟨rfl, congrArg (·.log.failures) stored, able⟩
  obtain ⟨found, whole, foundLast, again, recovered, recoveredLast, memory, _, ends⟩ :=
    recovery_resumes run unfailing_directory.faulty works rfl [({}, 2), ({}, 1)] {}
      { compactOnRecovery := false }
  have told : .decision "t" .commit ∈ logged history :=
    (consistent_run run).kept.mem_entries (by simp [log])
  have there : ResourceStore.holds "x" s.storage.storage := by
    rw [stored]
    rfl
  exact ⟨history, s, played, log, there, found, whole, foundLast, again, recovered, recoveredLast,
    memory, (ends "t" .commit told).2⟩

end AtomicCommit.Participant
