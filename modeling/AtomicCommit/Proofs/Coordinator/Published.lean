import AtomicCommit.Log.Ledger
import AtomicCommit.Proofs.Coordinator.Consistent
import AtomicCommit.Proofs.Coordinator.Play
import AtomicCommit.Proofs.Coordinator.Restart
import AtomicCommit.Proofs.Coordinator.Shelf

/-! Artifacts follow decisions: what the publish directory holds under the name of a transaction is its
payload once a commit has been logged, and nothing once an abort has. -/

namespace AtomicCommit.Coordinator

/-- No later transaction has been admitted under the name. -/
def LastAdmitted (history : List Event) (t : Transaction) : Prop :=
  ∃ before after, history = before ++ .admitted t :: after ∧
    ∀ other, .admitted other ∈ after → other.name ≠ t.name

namespace LastAdmitted

variable {history events : List Event} {t : Transaction}

theorem admitted (last : LastAdmitted history t) : .admitted t ∈ history := by
  obtain ⟨before, after, rfl, _⟩ := last
  simp

theorem now (history : List Event) (t : Transaction) :
    LastAdmitted (history ++ [.admitted t]) t := ⟨history, [], rfl, by simp⟩

theorem later (last : LastAdmitted history t)
    (others : ∀ other, .admitted other ∈ events → other.name ≠ t.name) :
    LastAdmitted (history ++ events) t := by
  obtain ⟨before, after, rfl, alone⟩ := last
  refine ⟨before, after ++ events, by simp, fun other member => ?_⟩
  exact (List.mem_append.mp member).elim (alone other) (others other)

theorem unrivalled (last : LastAdmitted history t) (nobody : ∀ other, .admitted other ∉ events) :
    LastAdmitted (history ++ events) t :=
  last.later fun other admitted => absurd admitted (nobody other)

end LastAdmitted

/-- Whether an artifact stays behind a publication that is said to have failed. -/
def leftBehind (history : List Event) (name : String) : Bool :=
  (deedsOf history).foldl (Deed.strand name) false

theorem leftBehind_append (history events : List Event) (name : String) :
    leftBehind (history ++ events) name =
      (deedsOf events).foldl (Deed.strand name) (leftBehind history name) := by
  rw [leftBehind, deedsOf_append, List.foldl_append, ← leftBehind]

theorem leftBehind_spared {history events : List Event} {name : String}
    (spared : ∀ deed ∈ deedsOf events, deed.artifactName? ≠ some name) :
    leftBehind (history ++ events) name = leftBehind history name := by
  rw [leftBehind_append, Deed.foldl_elsewhere Deed.strand_of_ne spared]

def artifactOf (payload : Bytes) (left : Bool) : Outcome → Option Bytes
  | .commit => some payload
  | .abort => if left then some payload else none

def Stage.artifact? (payload : Bytes) (left : Bool) : Stage → Option Bytes
  | .deciding outcome _ => artifactOf payload left outcome
  | _ => none

namespace Move

variable {t : Transaction} {stage : Stage} {queue rest : List Envelope} {next : Next}
  {sent : List (String × Message)} {deeds : List (Deed Entry)}

theorem spares (move : Move t stage queue next sent rest deeds) {name : String}
    (apart : name ≠ t.name ∨ stage.settled? ≠ none) :
    ∀ deed ∈ deeds, deed.artifactName? ≠ some name := by
  cases move with
  | published | stranded =>
    have other : t.name ≠ name := (apart.resolve_right (by simp [Stage.settled?])).symm
    simp [Deed.artifactName?, other]
  | _ => simp [Deed.artifactName?]

theorem undecided (move : Move t stage queue next sent rest deeds) {later : Stage}
    (staged : next = .stage later) (undecided : later.settled? = none) : stage.settled? = none := by
  cases move <;> cases staged <;> first | rfl | cases undecided

theorem artifact (move : Move t stage queue next sent rest deeds) {later : Stage}
    (staged : next = .stage later) (undecided : later.settled? = none) {left : Bool}
    (there : left → stage.artifact? t.payload left ≠ none) :
    later.artifact? t.payload (deeds.foldl (Deed.strand t.name) left) =
      deeds.foldl (Deed.shelve t.name) (stage.artifact? t.payload left) := by
  cases move with
  | counted queue deadline ballot outcome now _ =>
    cases staged
    have nothing : left = false := by simpa [Stage.artifact?] using there
    cases outcome <;> simp [Stage.artifact?, decided, artifactOf, nothing]
  | expired | notPublished =>
    cases staged
    have nothing : left = false := by simpa [Stage.artifact?] using there
    simp [Stage.artifact?, artifactOf, nothing]
  | published | stranded =>
    cases staged
    simp [Stage.artifact?, artifactOf, Deed.shelve, Deed.strand]
  | _ => cases staged <;> first | rfl | cases undecided

theorem decides (move : Move t stage queue next sent rest deeds) {name : String}
    {outcome : Outcome} (decided : .decision name outcome ∈ Deed.records deeds) (left : Bool) :
    name = t.name ∧ stage.settled? = none ∧
      artifactOf t.payload (deeds.foldl (Deed.strand t.name) left) outcome =
        deeds.foldl (Deed.shelve t.name) (stage.artifact? t.payload left) := by
  obtain ⟨logs, rfl⟩ := move.logs decided
  cases logs
  exact ⟨rfl, rfl, rfl⟩

end Move

theorem Progress.admits_nothing {σ : Type} (progress : Progress (Recorded σ Entry)) (name : String)
    (t : Transaction) : .admitted t ∉ progress.events name := by
  cases next : progress.next <;> simp [Progress.events, Next.events, next]

variable {σ : Type} [Journal σ Entry] [Publishing σ] [HasShelf σ Entry]

/-- How the artifacts agree with the engines and with what has been logged. -/
structure Published (history : List Event) (s : Station σ) : Prop where
  sound : (shelf s.storage).disk.Sound
  ordinary : ∀ t, .admitted t ∈ history → ¬(shelf s.storage).IsDraft t.name
  there : ∀ name, ¬(shelf s.storage).IsDraft name → leftBehind history name →
    (shelf s.storage).artifact? name ≠ none
  engines : ∀ now, s.running = some now → ∀ engine ∈ now.engines, engine.stage.settled? = none →
    LastAdmitted history engine.transaction ∧ (shelf s.storage).artifact? engine.name =
      engine.stage.artifact? engine.transaction.payload (leftBehind history engine.name)
  requested : ∀ entry ∈ logged history, ∃ t, LastAdmitted history t ∧ t.name = entry.txn
  decided : ∀ name outcome, .decision name outcome ∈ logged history →
    ∃ t, LastAdmitted history t ∧ t.name = name ∧
      (shelf s.storage).artifact? name = artifactOf t.payload (leftBehind history name) outcome

namespace Published

variable {history events : List Event} {s s' : Station σ}

theorem ordinary_later (published : Published history s)
    (shelves : (shelf s.storage).Shelves (deedsOf events) (shelf s'.storage))
    (nobody : ∀ t, .admitted t ∉ events) :
    ∀ t, .admitted t ∈ history ++ events → ¬(shelf s'.storage).IsDraft t.name := by
  intro t admitted
  rw [shelves.isDraft]
  exact published.ordinary t ((List.mem_append.mp admitted).resolve_right (nobody t))

theorem there_later (published : Published history s)
    (shelves : (shelf s.storage).Shelves (deedsOf events) (shelf s'.storage)) :
    ∀ name, ¬(shelf s'.storage).IsDraft name → leftBehind (history ++ events) name →
      (shelf s'.storage).artifact? name ≠ none := by
  intro name ordinary left
  rw [shelves.isDraft] at ordinary
  rw [leftBehind_append] at left
  rw [shelves.artifacts name ordinary]
  exact Deed.shelve_of_strand (published.there name ordinary) left

theorem requested_later (published : Published history s)
    (others : ∀ t, .admitted t ∈ events → freshName history (.admitted t)) :
    ∀ entry ∈ logged history, ∃ t, LastAdmitted (history ++ events) t ∧ t.name = entry.txn := by
  intro entry member
  obtain ⟨t, last, named⟩ := published.requested entry member
  refine ⟨t, last.later fun other admitted same => ?_, named⟩
  exact others other admitted entry member (named.symm.trans same.symm)

theorem decided_later (published : Published history s)
    (shelves : (shelf s.storage).Shelves (deedsOf events) (shelf s'.storage))
    (others : ∀ t, .admitted t ∈ events → freshName history (.admitted t))
    (spared : ∀ name outcome, .decision name outcome ∈ logged history →
      ∀ deed ∈ deedsOf events, deed.artifactName? ≠ some name) :
    ∀ name outcome, .decision name outcome ∈ logged history →
      ∃ t, LastAdmitted (history ++ events) t ∧ t.name = name ∧ (shelf s'.storage).artifact? name =
        artifactOf t.payload (leftBehind (history ++ events) name) outcome := by
  intro name outcome decided
  have apart := spared name outcome decided
  obtain ⟨t, last, rfl, artifact⟩ := published.decided name outcome decided
  refine ⟨t, last.later fun other admitted same => ?_, rfl, ?_⟩
  · exact others other admitted _ decided same.symm
  · rw [shelves.artifacts _ (published.ordinary t last.admitted), leftBehind_spared apart,
      Deed.foldl_elsewhere Deed.shelve_of_ne apart, artifact]

theorem quiet (published : Published history s)
    (shelves : (shelf s.storage).Shelves ([] : List (Deed Entry)) (shelf s'.storage))
    (silent : deedsOf events = []) (nobody : ∀ t, .admitted t ∉ events)
    (engines : ∀ now, s'.running = some now → ∃ former, s.running = some former ∧
      now.engines = former.engines) : Published (history ++ events) s' := by
  have others : ∀ t, .admitted t ∈ events → freshName history (.admitted t) :=
    fun t admitted => absurd admitted (nobody t)
  have same : logged (history ++ events) = logged history := by
    rw [logged_append, logged, logged, silent, Deed.records_nil, List.append_nil]
  have spared : ∀ name, ∀ deed ∈ deedsOf events, deed.artifactName? ≠ some name := by simp [silent]
  rw [← silent] at shelves
  refine ⟨shelves.sound, published.ordinary_later shelves nobody, published.there_later shelves,
    ?_, ?_, ?_⟩
  · intro now running engine member unsettled
    obtain ⟨former, before, kept⟩ := engines now running
    obtain ⟨last, artifact⟩ := published.engines former before engine (kept ▸ member) unsettled
    refine ⟨last.unrivalled nobody, ?_⟩
    rw [leftBehind_spared (spared _), ← artifact]
    refine (shelves.artifacts _ (published.ordinary _ last.admitted)).trans ?_
    exact Deed.foldl_elsewhere Deed.shelve_of_ne (spared _) _
  · rw [same]
    exact published.requested_later others
  · rw [same]
    exact published.decided_later shelves others fun name _ _ => spared name

variable [LawfulJournal σ Entry]

theorem commit (published : Published history s) (consistent : Consistent history s)
    {now : Incarnation} {t : Transaction} {inbox : Nat} {inboxes : Inboxes Envelope}
    (running : s.running = some now) (created : now.inboxes.create t.name = some (inbox, inboxes))
    (fresh : freshName history (.admitted t))
    (free : (shelf s.storage).artifact? t.name = none ∧ ¬(shelf s.storage).IsDraft t.name) :
    Published (history ++ [.admitted t]) { s with
      running := some { now with
        inboxes := inboxes
        engines := now.engines ++ [⟨inbox, t, .starting⟩] } } := by
  have others : ∀ other, .admitted other ∈ [Event.admitted t] → freshName history (.admitted other) := by
    intro other admitted
    cases List.mem_singleton.mp admitted
    exact fresh
  have silent : deedsOf [Event.admitted t] = [] := rfl
  have shelves : (shelf s.storage).Shelves (deedsOf [Event.admitted t]) (shelf s.storage) :=
    .nothing published.sound
  have spared : ∀ name, ∀ deed ∈ deedsOf [Event.admitted t], deed.artifactName? ≠ some name := by
    simp [silent]
  have same : logged (history ++ [.admitted t]) = logged history := logged_quiet history rfl
  constructor
  · exact published.sound
  · intro other admitted
    rcases List.mem_append.mp admitted with old | new
    · exact published.ordinary other old
    · cases List.mem_singleton.mp new
      exact free.2
  · exact published.there_later shelves
  · rintro later ⟨⟩ engine member unsettled
    rw [leftBehind_spared (spared _)]
    rcases List.mem_append.mp member with old | new
    · obtain ⟨last, artifact⟩ := published.engines now running engine old unsettled
      have distinct := ((consistent.occupied now running).reaches engine old).ne_of_create created
      refine ⟨last.later fun other admitted same => ?_, artifact⟩
      cases List.mem_singleton.mp admitted
      exact distinct same.symm
    · cases List.mem_singleton.mp new
      exact ⟨.now history t, free.1⟩
  · rw [same]
    exact published.requested_later others
  · rw [same]
    exact published.decided_later shelves others fun name _ _ => spared name

variable [LawfulPublishing σ Entry]

theorem start (published : Published history s) (consistent : Consistent history s)
    (config : Config) : Published
      (history ++ Station.startEvents (recover config {} (⟨s.storage, []⟩ : Recorded σ Entry)))
      (s.afterStart config (recover config {} (⟨s.storage, []⟩ : Recorded σ Entry))) := by
  have retracts := recover_retracts config consistent.kept
  have shelves := recover_shelves published.sound config
  have nobody : ∀ t, .admitted t ∉
      Station.startEvents (recover config {} (⟨s.storage, []⟩ : Recorded σ Entry)) := by
    simp [Station.startEvents]
  generalize recover config {} (⟨s.storage, []⟩ : Recorded σ Entry) = result at *
  rw [← deedsOf_startEvents] at retracts shelves
  have others : ∀ t, .admitted t ∈ Station.startEvents result → freshName history (.admitted t) :=
    fun t admitted => absurd admitted (nobody t)
  constructor
  · exact shelves.sound
  · exact published.ordinary_later shelves nobody
  · exact published.there_later shelves
  · rintro now ⟨⟩ engine member unsettled
    obtain ⟨resumed, _, rfl⟩ := List.mem_map.mp member
    cases unsettled
  · intro entry member
    rw [logged_append] at member
    rcases List.mem_append.mp member with old | new
    · exact published.requested_later others entry old
    · obtain ⟨name, rfl, retracted⟩ := retracts.aborts entry new
      obtain ⟨⟨sources, prepared⟩, _⟩ := retracts.undecided name retracted
      exact published.requested_later others (.prepare name sources) prepared
  · intro name outcome decided
    rw [logged_append] at decided
    rcases List.mem_append.mp decided with old | new
    · refine published.decided_later shelves others (fun name outcome decided deed member own => ?_)
        name outcome old
      obtain rfl := retracts.only deed member name own
      exact (retracts.undecided name member).2 _ decided
    · obtain ⟨_, ⟨⟩, retracted⟩ := retracts.aborts _ new
      have only := fun deed member => retracts.only deed member name
      obtain ⟨⟨sources, prepared⟩, _⟩ := retracts.undecided name retracted
      obtain ⟨t, last, rfl⟩ := published.requested_later others _ prepared
      have ordinary := published.ordinary t
        ((List.mem_append.mp last.admitted).resolve_right (nobody t))
      refine ⟨t, last, rfl, ?_⟩
      have taken : leftBehind (history ++ Station.startEvents result) t.name = false := by
        rw [leftBehind_append]
        exact Deed.foldl_retracted Deed.strand_of_ne (by simp [Deed.strand]) only (.inl retracted)
      rw [taken]
      refine (shelves.artifacts _ ordinary).trans ?_
      exact Deed.foldl_retracted Deed.shelve_of_ne (fun _ => if_pos rfl) only (.inl retracted)

theorem advance (published : Published history s) (consistent : Consistent history s)
    {now : Incarnation} {before after : List Engine} {engine : Engine}
    {progress : Progress (Recorded σ Entry)} (running : s.running = some now)
    (engines : now.engines = before ++ engine :: after)
    (stepped : Coordinator.step now.config s.clock engine.transaction engine.stage
      (now.inboxes.queue engine.inbox) ⟨s.storage, []⟩ = some progress) :
    Published (history ++ progress.events engine.name) { s with
      running := some (now.replace before engine after progress.queue progress.next)
      storage := progress.storage.storage } := by
  obtain ⟨move, _⟩ := step_follows stepped
  have shelves := step_shelves published.sound stepped
  rw [← deedsOf_events engine.name] at move shelves
  have occupied := consistent.occupied now running
  have working := published.engines now running
  rw [engines] at occupied working
  have past := occupied.past engine (by simp)
  have nobody : ∀ t, .admitted t ∉ progress.events engine.name := progress.admits_nothing _
  have others : ∀ t, .admitted t ∈ progress.events engine.name → freshName history (.admitted t) :=
    fun t admitted => absurd admitted (nobody t)
  have known : ∃ t, LastAdmitted history t ∧ t.name = engine.name := by
    cases settled : engine.stage.settled? with
    | none => exact ⟨_, (working engine (by simp) settled).1, rfl⟩
    | some outcome =>
      have prepared : .prepare engine.name engine.transaction.sources ∈
          Log.recordsOf engine.name (logged history) := by
        rw [past, Stage.past_settled settled]
        exact List.mem_cons_self
      exact published.requested _ (Log.mem_recordsOf.mp prepared).1
  constructor
  · exact shelves.sound
  · exact published.ordinary_later shelves nobody
  · exact published.there_later shelves
  · rintro later ⟨⟩ other member unsettled
    rcases Incarnation.mem_replace member with old | ⟨stage, staged, rfl⟩
    · obtain ⟨last, artifact⟩ := working other (by grind) unsettled
      have spared := move.spares (.inl (occupied.distinct other old))
      refine ⟨last.unrivalled nobody, ?_⟩
      rw [leftBehind_spared spared, ← artifact]
      refine (shelves.artifacts _ (published.ordinary _ last.admitted)).trans ?_
      exact Deed.foldl_elsewhere Deed.shelve_of_ne spared _
    · have undecided := move.undecided staged unsettled
      obtain ⟨last, former⟩ := working engine (by simp) undecided
      have ordinary := published.ordinary _ last.admitted
      have there := published.there _ ordinary
      rw [← Engine.name, former] at there
      refine ⟨last.unrivalled nobody, (shelves.artifacts _ ordinary).trans ?_⟩
      rw [leftBehind_append]
      exact (congrArg (fun former => List.foldl _ former _) former).trans
        (move.artifact staged unsettled there).symm
  · intro entry member
    rw [logged_append] at member
    rcases List.mem_append.mp member with old | new
    · exact published.requested_later others entry old
    · obtain ⟨t, last, named⟩ := known
      refine ⟨t, last.unrivalled nobody, ?_⟩
      rw [named, move.logs_own entry new, Engine.name]
  · intro name outcome decided
    rw [logged_append] at decided
    rcases List.mem_append.mp decided with old | new
    · refine published.decided_later shelves others (fun name outcome decided => ?_) name outcome old
      refine move.spares ?_
      by_cases own : name = engine.name
      · subst own
        have mine : .decision engine.name outcome ∈ Log.recordsOf engine.name (logged history) :=
          Log.mem_recordsOf.mpr ⟨decided, rfl⟩
        rw [past] at mine
        exact .inr (by simp [Stage.settled_of_past mine])
      · exact .inl own
    · obtain ⟨rfl, undecided, artifact⟩ := move.decides new (leftBehind history engine.name)
      obtain ⟨last, former⟩ := working engine (by simp) undecided
      refine ⟨_, last.unrivalled nobody, rfl, ?_⟩
      refine (shelves.artifacts _ (published.ordinary _ last.admitted)).trans ?_
      rw [leftBehind_append]
      exact (congrArg (fun former => List.foldl _ former _) former).trans artifact.symm

theorem step (published : Published history s) (consistent : Consistent history s)
    (stepped : s.Step events s') (unique : UniqueNames (history ++ events))
    (spared : .disturbed ∈ events →
      (shelf s.storage).Shelves ([] : List (Deed Entry)) (shelf s'.storage))
    (free : ∀ t, .admitted t ∈ events → (shelf s.storage).artifact? t.name = none ∧
      ¬(shelf s.storage).IsDraft t.name) : Published (history ++ events) s' := by
  have same : (shelf s.storage).Shelves ([] : List (Deed Entry)) (shelf s.storage) :=
    .nothing published.sound
  cases stepped with
  | wait duration => exact published.quiet same rfl (by simp) fun now running => ⟨now, running, rfl⟩
  | disturb storage kept =>
    exact published.quiet (spared (by simp)) rfl (by simp) fun now running => ⟨now, running, rfl⟩
  | start config down => exact published.start consistent config
  | stop => exact published.quiet same rfl (by simp) (by simp)
  | commit now name payload sources inbox inboxes parsed running admitted =>
    have fresh : freshName history (.admitted ⟨name, payload, parsed⟩) := unique _ _ [] (by simp)
    exact published.commit consistent running (admission_created admitted) fresh (free _ (by simp))
  | receive now envelope running =>
    refine published.quiet same rfl (by simp) ?_
    rintro later ⟨⟩
    exact ⟨now, running, rfl⟩
  | advance now before engine after progress running engines stepped =>
    exact published.advance consistent running engines stepped

end Published

variable [LawfulJournal σ Entry]

/-- Runs in which nobody else changes artifacts, and in which there is no artifact under the name of a
transaction when it is admitted. No transaction has the name of a draft, which is drawn at random. -/
inductive Station.Alone : List Event → Station σ → Prop where
  | begin (storage : σ) : held storage = [] → (shelf storage).disk.Sound →
      Alone [] { storage := storage }
  | step {history events : List Event} {s s' : Station σ} : Alone history s → s.Step events s' →
      (.disturbed ∈ events →
        (shelf s.storage).Shelves ([] : List (Deed Entry)) (shelf s'.storage)) →
      (∀ t, .admitted t ∈ events → (shelf s.storage).artifact? t.name = none ∧
        ¬(shelf s.storage).IsDraft t.name) → Alone (history ++ events) s'

def Station.admitsNew (s : Station σ) : List Action → Bool
  | [] => true
  | action :: rest =>
    (match action with
      | .commit name _ _ =>
        decide ((shelf s.storage).artifact? name = none) && name.toList.head? != some '.'
      | _ => true) &&
    match s.play action with
    | some (_, s) => s.admitsNew rest
    | none => true

namespace Station.Alone

variable {history events : List Event} {s s' : Station σ}

theorem run (alone : Alone history s) : Run history s := by
  induction alone with
  | begin storage empty _ => exact .begin storage empty
  | step _ stepped _ _ ih => exact ih.step stepped

theorem published [LawfulPublishing σ Entry] (alone : Alone history s)
    (unique : UniqueNames history) : Published history s := by
  induction alone with
  | begin storage empty sound =>
    have nothing : ∀ name, leftBehind [] name = false := fun _ => rfl
    exact ⟨sound, by simp, by simp [nothing], by simp, by simp, by simp⟩
  | step before stepped spared free ih =>
    exact (ih unique.of_append).step (consistent_run before.run unique.of_append) stepped unique
      spared free

theorem playAll (alone : Alone history s) {actions : List Action}
    (played : s.playAll actions = some (events, s')) (new : s.admitsNew actions) :
    Alone (history ++ events) s' := by
  induction actions generalizing s history events with
  | nil =>
    cases played
    simpa using alone
  | cons action rest ih =>
    simp only [Station.playAll, Option.bind_eq_bind, Option.bind_eq_some_iff, Option.some.injEq,
      Prod.mk.injEq] at played
    obtain ⟨⟨first, between⟩, one, ⟨later, last⟩, others, rfl, rfl⟩ := played
    simp only [admitsNew, one, Bool.and_eq_true] at new
    rw [← List.append_assoc]
    refine ih (alone.step (play_step one) (fun _ => ?_) fun t admitted => ?_) others new.2
    · exact absurd ‹_› (play_brings one _)
    · obtain ⟨sources, rfl⟩ := play_brings one _ admitted
      obtain ⟨nothing, ordinary⟩ : (shelf s.storage).artifact? t.name = none ∧
          t.name.toList.head? ≠ some '.' := by simpa using new.1
      exact ⟨nothing, fun draft => ordinary draft.dotted⟩

end Station.Alone

def blank : Station (Beside (Ledger Entry) Publisher) := { storage := ⟨{}, ⟨["out"], {}, "draft"⟩⟩ }

def publishing (name : String) (place : Nat) : List Action :=
  [.advance place, .receive ⟨"p", .vote name .accept⟩, .advance place, .advance place,
    .advance place]

def deciding : List Action :=
  [.start {}, .commit "t" [7] ["p:x"]] ++ publishing "t" 0 ++ [.advance 0]

end AtomicCommit.Coordinator
