import AtomicCommit.Participant.Recovery
import AtomicCommit.Proofs.Traces

/-! What a participant has logged of each transaction, and what its log still holds of that. -/

namespace AtomicCommit.Participant

theorem Entry.eq_done {entry : Entry} (isEnd : entry.isDone) : entry = .done entry.txn := by
  cases entry with
  | done txn => rfl
  | _ => cases isEnd

def known (entries : List Entry) (txn : String) : Trace := Log.traceOf Trace.note {} txn entries

section Known

variable {entries records : List Entry} {txn other : String}

theorem known_own (own : ∀ entry ∈ records, entry.txn = txn) :
    known (entries ++ records) txn = records.foldl Trace.note (known entries txn) := by
  rw [known, Log.traceOf, Log.recordsOf_append, Log.recordsOf_own own, List.foldl_append]
  rfl

theorem known_other (own : ∀ entry ∈ records, entry.txn = txn) (distinct : other ≠ txn) :
    known (entries ++ records) other = known entries other := by
  rw [known, Log.traceOf, Log.recordsOf_append, Log.recordsOf_other own distinct, List.append_nil]
  rfl

theorem isDone_foldl (records : List Entry) (start : Trace) :
    (records.foldl Trace.note start).isDone = (start.isDone || records.any Entry.isDone) := by
  induction records generalizing start with
  | nil => simp
  | cons entry rest ih => cases entry <;> simp [ih, Trace.note, Entry.isDone]

theorem isDone_known : (known entries txn).isDone ↔ .done txn ∈ entries := by
  simp only [known, Log.traceOf, isDone_foldl, Bool.false_or, List.any_eq_true, Log.mem_recordsOf]
  constructor
  · rintro ⟨entry, ⟨member, own⟩, ended⟩
    cases entry <;> cases ended
    cases own
    exact member
  · intro member
    exact ⟨_, ⟨member, rfl⟩, rfl⟩

theorem vote_foldl {records : List Entry} {start : Trace} {resources : List String} {vote : Vote}
    (own : ∀ entry ∈ records, entry.txn = txn)
    (voted : (records.foldl Trace.note start).vote = some (resources, vote)) :
    start.vote = some (resources, vote) ∨ .prepare txn resources vote ∈ records := by
  induction records generalizing start with
  | nil => exact .inl voted
  | cons entry rest ih =>
    obtain ⟨rfl, ownRest⟩ := List.forall_mem_cons.mp own
    rcases ih ownRest voted with earlier | later
    · cases entry with
      | prepare txn resources vote =>
        cases earlier
        exact .inr List.mem_cons_self
      | _ => exact .inl earlier
    · exact .inr (List.mem_cons_of_mem _ later)

theorem vote_known {resources : List String} {vote : Vote}
    (voted : (known entries txn).vote = some (resources, vote)) :
    .prepare txn resources vote ∈ entries := by
  have own : ∀ entry ∈ Log.recordsOf txn entries, entry.txn = txn :=
    fun entry member => (Log.mem_recordsOf.mp member).2
  rcases vote_foldl own voted with none | member
  · cases none
  · exact (Log.mem_recordsOf.mp member).1

theorem decision_foldl {records : List Entry} {start : Trace} {outcome : Outcome}
    (own : ∀ entry ∈ records, entry.txn = txn)
    (decided : (records.foldl Trace.note start).decision = some outcome) :
    start.decision = some outcome ∨ .decision txn outcome ∈ records := by
  induction records generalizing start with
  | nil => exact .inl decided
  | cons entry rest ih =>
    obtain ⟨rfl, ownRest⟩ := List.forall_mem_cons.mp own
    rcases ih ownRest decided with earlier | later
    · cases entry with
      | decision txn outcome =>
        cases earlier
        exact .inr List.mem_cons_self
      | _ => exact .inl earlier
    · exact .inr (List.mem_cons_of_mem _ later)

theorem decision_known {outcome : Outcome}
    (decided : (known entries txn).decision = some outcome) : .decision txn outcome ∈ entries := by
  have own : ∀ entry ∈ Log.recordsOf txn entries, entry.txn = txn :=
    fun entry member => (Log.mem_recordsOf.mp member).2
  rcases decision_foldl own decided with none | member
  · cases none
  · exact (Log.mem_recordsOf.mp member).1

theorem isSome_vote_foldl {records : List Entry} (start : Trace) {resources : List String}
    {vote : Vote} (voted : start.vote.isSome ∨ .prepare txn resources vote ∈ records) :
    (records.foldl Trace.note start).vote.isSome := by
  induction records generalizing start with
  | nil => simpa using voted
  | cons entry rest ih =>
    apply ih
    rcases voted with earlier | member
    · exact .inl (by cases entry <;> simp [Trace.note, earlier])
    · rcases List.mem_cons.mp member with rfl | later
      · exact .inl rfl
      · exact .inr later

theorem foldl_undecided (records : List Entry) (start : Trace) (decision : Option Outcome) :
    (records.filter fun entry => !entry.isDecision).foldl Trace.note
        { start with decision := decision } =
      { records.foldl Trace.note start with decision := decision } := by
  induction records generalizing start with
  | nil => rfl
  | cons entry rest ih =>
    cases entry with
    | prepare txn resources vote => exact ih { start with vote := some (resources, vote) }
    | decision txn outcome => exact ih { start with decision := some outcome }
    | done txn => exact ih { start with isDone := true }

end Known

inductive Continues (txn : String) (known : Trace) : List Entry → Prop where
  | nothing : Continues txn known []
  | voted (resources vote) : known.isDone = false → known.vote = none →
      Continues txn known [.prepare txn resources vote]
  | told (records) : known.isDone = false →
      (∀ entry ∈ records, entry = .done txn ∨ ∃ outcome, entry = .decision txn outcome) →
      Continues txn known records

namespace Continues

variable {txn : String} {known : Trace} {records : List Entry}

theorem own (continues : Continues txn known records) : ∀ entry ∈ records, entry.txn = txn := by
  cases continues with
  | nothing => simp
  | voted resources vote _ _ => simp [Entry.txn]
  | told _ _ kinds =>
    intro entry member
    rcases kinds entry member with rfl | ⟨outcome, rfl⟩ <;> rfl

theorem ended (continues : Continues txn known records) (done : known.isDone) : records = [] := by
  cases continues with
  | nothing => rfl
  | voted resources vote undone _ => simp [undone] at done
  | told _ undone _ => simp [undone] at done

end Continues

theorem vote_told {txn : String} {records : List Entry} (start : Trace)
    (kinds : ∀ entry ∈ records, entry = .done txn ∨ ∃ outcome, entry = .decision txn outcome) :
    (records.foldl Trace.note start).vote = start.vote := by
  induction records generalizing start with
  | nil => rfl
  | cons entry rest ih =>
    obtain ⟨first, others⟩ := List.forall_mem_cons.mp kinds
    rw [List.foldl_cons, ih _ others]
    rcases first with rfl | ⟨outcome, rfl⟩ <;> rfl

def Recounts (entries log : List Entry) : Prop := ∀ txn, known log txn = known entries txn ∨
  (known entries txn).isDone ∧ known log txn = { known entries txn with decision := none }

theorem Recounts.self (log : List Entry) : Recounts log log := fun _ => .inl rfl

/-- A vote that was ever logged is the one that is known. The log holds all that was ever logged of a
transaction, up to decisions of one that has ended. -/
structure Kept (entries log : List Entry) : Prop where
  vote : ∀ txn resources vote, .prepare txn resources vote ∈ entries →
    (known entries txn).vote = some (resources, vote)
  log : ∀ txn, Log.recordsOf txn log = Log.recordsOf txn entries ∨ .done txn ∈ entries ∧
    Log.recordsOf txn log = (Log.recordsOf txn entries).filter fun entry => !entry.isDecision

namespace Kept

variable {entries log records : List Entry} {txn : String}

theorem append (kept : Kept entries log)
    (continues : Continues txn (known entries txn) records) :
    Kept (entries ++ records) (log ++ records) := by
  have own := continues.own
  constructor
  · intro name resources vote member
    by_cases same : name = txn
    · subst same
      rw [known_own own]
      cases continues with
      | nothing => exact kept.vote _ _ _ (by simpa using member)
      | voted castResources castVote undone unvoted =>
        rcases List.mem_append.mp member with old | new
        · simp [kept.vote _ _ _ old] at unvoted
        · cases List.mem_singleton.mp new
          rfl
      | told _ undone kinds =>
        rw [vote_told _ kinds]
        rcases List.mem_append.mp member with old | new
        · exact kept.vote _ _ _ old
        · rcases kinds _ new with impossible | ⟨outcome, impossible⟩ <;> cases impossible
    · rw [known_other own same]
      rcases List.mem_append.mp member with old | new
      · exact kept.vote _ _ _ old
      · exact absurd (own _ new) same
  · intro name
    by_cases same : name = txn
    · subst same
      rw [Log.recordsOf_append, Log.recordsOf_append, Log.recordsOf_own own]
      rcases kept.log name with whole | ⟨ended, fewer⟩
      · exact .inl (by rw [whole])
      · obtain rfl := continues.ended (isDone_known.mpr ended)
        exact .inr ⟨by simpa using ended, by simpa using fewer⟩
    · simpa [Log.recordsOf_append, Log.recordsOf_other own same] using
        (kept.log name).imp_right (And.imp_left Or.inl)

theorem recordsOf_compacted (txn : String) (log : List Entry) :
    Log.recordsOf txn (compacted log) =
      if Log.isFinished log txn then
        (Log.recordsOf txn log).filter fun entry => !entry.isDecision
      else Log.recordsOf txn log := by
  by_cases finished : Log.isFinished log txn
  · simp only [finished, if_true, Log.recordsOf, compacted, List.filter_filter]
    refine List.filter_congr fun entry _ => ?_
    by_cases same : Record.txn entry = txn <;> simp_all [Record.txn]
  · simp only [finished, Log.recordsOf, compacted, List.filter_filter]
    refine List.filter_congr fun entry _ => ?_
    by_cases same : Record.txn entry = txn <;> simp_all [Record.txn]

theorem compacted (kept : Kept entries log) : Kept entries (compacted log) := by
  refine ⟨kept.vote, fun txn => ?_⟩
  rw [recordsOf_compacted]
  by_cases finished : Log.isFinished log txn
  · obtain ⟨entry, member, ended⟩ := Log.isFinished_iff.mp finished
    obtain ⟨_, own⟩ := Log.mem_recordsOf.mp member
    obtain rfl : entry = .done txn := by
      cases entry <;> cases own <;> cases ended
      rfl
    simp only [finished, if_true]
    rcases kept.log txn with whole | ⟨ended, fewer⟩
    · exact .inr ⟨(Log.mem_recordsOf.mp (whole ▸ member)).1, by rw [whole]⟩
    · exact .inr ⟨ended, by simp [fewer]⟩
  · simpa [finished] using kept.log txn

theorem recounts (kept : Kept entries log) : Recounts entries log := by
  intro txn
  rcases kept.log txn with whole | ⟨ended, fewer⟩
  · exact .inl (by rw [known, Log.traceOf, whole]; rfl)
  · refine .inr ⟨isDone_known.mpr ended, ?_⟩
    rw [known, Log.traceOf, fewer]
    exact foldl_undecided _ {} none

theorem vote_early {later : List Entry} (kept : Kept (entries ++ later) log)
    {resources : List String} {vote : Vote} (voted : .prepare txn resources vote ∈ entries) :
    (known entries txn).vote = some (resources, vote) := by
  have there : .prepare txn resources vote ∈ Log.recordsOf txn entries :=
    Log.mem_recordsOf.mpr ⟨voted, rfl⟩
  obtain ⟨⟨others, other⟩, early⟩ := Option.isSome_iff_exists.mp
    (isSome_vote_foldl {} (.inr there))
  have final := kept.vote _ _ _ (List.mem_append_left later voted)
  rw [kept.vote _ _ _ (List.mem_append_left later (vote_known early))] at final
  exact early.trans final

theorem mem_entries (kept : Kept entries log) {entry : Entry} (member : entry ∈ log) : entry ∈ entries := by
  have own : entry ∈ Log.recordsOf entry.txn log := Log.mem_recordsOf.mpr ⟨member, rfl⟩
  rcases kept.log entry.txn with whole | ⟨_, fewer⟩
  · exact (Log.mem_recordsOf.mp (whole ▸ own)).1
  · exact (Log.mem_recordsOf.mp (List.mem_filter.mp (fewer ▸ own)).1).1

theorem mem_log (kept : Kept entries log) {entry : Entry} (member : entry ∈ entries)
    (other : entry.isDecision = false) : entry ∈ log := by
  have own : entry ∈ Log.recordsOf entry.txn entries := Log.mem_recordsOf.mpr ⟨member, rfl⟩
  rcases kept.log entry.txn with whole | ⟨_, fewer⟩
  · exact (Log.mem_recordsOf.mp (whole ▸ own)).1
  · exact (Log.mem_recordsOf.mp (fewer ▸ List.mem_filter.mpr ⟨own, by simp [other]⟩)).1

end Kept

end AtomicCommit.Participant
