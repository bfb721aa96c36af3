import AtomicCommit.Cluster.Coordinators
import AtomicCommit.Proofs.Cluster.Frame
import AtomicCommit.Proofs.Coordinator.Twins

/-! Commits that are rejected: nothing is left of them. -/

namespace AtomicCommit.Coordinator

section Refusals

variable {name : String} {sources : List String} {gateOpen : Bool} {inboxes : Inboxes Envelope}
  {cause : CoordinatorError}

theorem refused_iff : admission name sources gateOpen inboxes = .refused cause ↔
    (∃ e, Source.parseAll sources = .error e ∧ cause = .source e) ∨
      (∃ parsed, Source.parseAll sources = .ok parsed) ∧ gateOpen = true ∧
        name ∈ inboxes.transactions ∧ cause = .duplicate name := by
  rw [← Inboxes.create_eq_none]
  cases parses : Source.parseAll sources with
  | error e => simp [admission, parses, eq_comm]
  | ok parsed =>
    cases gateOpen with
    | false => simp [admission, parses]
    | true => cases created : inboxes.create name <;> simp [admission, parses, created, eq_comm]

end Refusals

end AtomicCommit.Coordinator

namespace AtomicCommit.Cluster

structure OnlyAnswers (task call : Nat) (result : CallResult) (c c' : Cluster) : Prop where
  answer : c'.finished = c.finished ++ [(call, result)]
  clock : c'.clock = c.clock
  transport : c'.transport = c.transport
  office : c'.office = c.office
  coordinators : c'.coordinators = c.coordinators
  nodes : c'.nodes = c.nodes
  participants : c'.participants = c.participants
  jobs : ∀ other, c'.job? other = if other = task then none else c.job? other
  ready : c'.ready = c.ready.filter (· ≠ .job task)

theorem stepCommitCall_refused {c : Cluster} {task call i : Nat} {name : String} {payload : Bytes}
    {sources : List String} {running : RunningCoordinator} {cause : CoordinatorError}
    (known : c.coordinators.get? i = some running)
    (refused : Coordinator.admission name sources running.gateOpen running.inboxes = .refused cause) :
    ∃ c', c.stepCommitCall task call i name payload sources none = some c' ∧
      OnlyAnswers task call (.outcome (.error cause)) c c' := by
  refine ⟨_, by simp [stepCommitCall, known, refused]; rfl, ?_⟩
  exact ⟨rfl, rfl, rfl, rfl, rfl, rfl, rfl, fun other => job?_removeJob c task other, rfl⟩

end AtomicCommit.Cluster

namespace AtomicCommit.Coordinator

section Commits

variable {σ : Type} [Journal σ Entry] [LawfulJournal σ Entry] [Publishing σ]
  {s s' : Station σ} {name : String} {payload : Bytes} {sources : List String} {events : List Event}

/-- How a commit is answered that is called here, with all that happens until then: it is refused at
once, or it is admitted and answered when its engine ends. -/
inductive Station.Commits (s : Station σ) (name : String) (payload : Bytes) (sources : List String) :
    Except CoordinatorError Outcome → List Event → Station σ → Prop where
  | refused (now : Incarnation) (cause : CoordinatorError) : s.running = some now →
      admission name sources now.gateOpen now.inboxes = .refused cause →
      Commits s name payload sources (.error cause) [] s
  | answered (parsed : List Source) (begun between s' : Station σ) (meanwhile last : List Event)
      (result : Except CoordinatorError Outcome) : Source.parseAll sources = .ok parsed →
      s.Step [.admitted ⟨name, payload, parsed⟩] begun → begun.Steps meanwhile between →
      .stopped ∉ meanwhile → (∀ early, .finished name early ∉ meanwhile) →
      between.Step last s' → .finished name result ∈ last →
      Commits s name payload sources result (.admitted ⟨name, payload, parsed⟩ :: meanwhile ++ last) s'

theorem Station.admits {now : Incarnation} (running : s.running = some now)
    (opened : now.gateOpen = true) (absent : name ∉ s.inFlight) (payload : Bytes)
    {parsed : List Source} (readable : Source.parseAll sources = .ok parsed) :
    ∃ s', s.Step [.admitted ⟨name, payload, parsed⟩] s' := by
  rw [Station.inFlight, running] at absent
  obtain ⟨inbox, inboxes, created⟩ := Inboxes.create_of_absent absent
  exact ⟨_, .commit s now name payload sources inbox inboxes parsed running
    (admitted_iff.mpr ⟨readable, opened, created⟩)⟩

variable [LawfulPublishing σ Entry] [HasPublisher σ Entry] {history : List Event}
  {e : CoordinatorError}

theorem Station.Commits.twin (run : Station.Run history s)
    (rejected : s.Commits name payload sources (.error e) events s') :
    (events = [] ∧ s' = s ∧ ∃ now, s.running = some now ∧
      admission name sources now.gateOpen now.inboxes = .refused e) ∨
    ∃ parsed meanwhile twin cause, e = .log cause ∧
      events = .admitted ⟨name, payload, parsed⟩ :: meanwhile ++ [.finished name (.error e)] ∧
      s.Steps meanwhile twin ∧ s'.Agrees twin ∧ name ∉ s.inFlight ∧ name ∉ s'.inFlight ∧
      ∃ now, s'.running = some now ∧ now.gateOpen = true := by
  cases rejected with
  | refused now cause running refused => exact .inl ⟨rfl, rfl, now, running, refused⟩
  | answered parsed begun between s' meanwhile last result readable admitted steps unstopped unfinished
      stepped failed =>
    obtain ⟨twins, absent⟩ := Twins.begin run admitted
    rcases twins.steps steps unstopped unfinished with ⟨twin, same, twins⟩ | underway
    · obtain ⟨told, ⟨cause, logging⟩, agrees, gone, opened⟩ := twins.gives_up stepped failed
      exact .inr ⟨parsed, meanwhile, twin, cause, logging, by rw [told], same, agrees, absent, gone,
        opened⟩
    · exact absurd failed (underway.not_failed stepped e)

/-- A commit that is rejected leaves no trace. In the same time all others can do the same without it,
and they come to where they are with it: the log, the publish directory, what is in flight and what the
engines are at. When it is refused at once nothing has happened at all, so a commit whose name is in
flight leaves the engine alone that has this name. When its request could not be logged its name, which
nobody else could have in the meantime, is free again. -/
theorem rejected_commit_leaves_no_trace (run : Station.Run history s)
    (rejected : s.Commits name payload sources (.error e) events s') :
    (∃ meanwhile twin, s.Steps meanwhile twin ∧ s'.Agrees twin ∧ (events = meanwhile ∨ ∃ parsed,
      events = .admitted ⟨name, payload, parsed⟩ :: meanwhile ++ [.finished name (.error e)])) ∧
    ((∃ cause, e = .source cause ∧ Source.parseAll sources = .error cause ∧ events = [] ∧ s' = s) ∨
      (e = .duplicate name ∧ name ∈ s.inFlight ∧ events = [] ∧ s' = s) ∨
      ∃ cause, e = .log cause ∧ name ∉ s.inFlight ∧ name ∉ s'.inFlight ∧
        ∀ again texts parsed, Source.parseAll texts = .ok parsed →
          ∃ next, s'.Step [.admitted ⟨name, again, parsed⟩] next) ∧
    ∀ (c : Cluster) (task call i : Nat) (running : Cluster.RunningCoordinator) (cause : CoordinatorError),
      c.coordinators.get? i = some running →
      admission name sources running.gateOpen running.inboxes = .refused cause →
      ∃ c', c.stepCommitCall task call i name payload sources none = some c' ∧
        Cluster.OnlyAnswers task call (.outcome (.error cause)) c c' := by
  refine ⟨?_, ?_, fun c task call i running cause known refused =>
    Cluster.stepCommitCall_refused known refused⟩
  · obtain ⟨rfl, rfl, _⟩ | ⟨parsed, meanwhile, twin, _, _, told, steps, agrees, _⟩ := rejected.twin run
    · exact ⟨[], _, .nothing, .refl _, .inl rfl⟩
    · exact ⟨meanwhile, twin, steps, agrees, .inr ⟨parsed, told⟩⟩
  · obtain ⟨rfl, rfl, now, running, refused⟩ |
      ⟨_, _, _, cause, rfl, _, _, _, absent, gone, now, running, opened⟩ := rejected.twin run
    · rcases refused_iff.mp refused with ⟨cause, unreadable, rfl⟩ | ⟨_, _, flying, rfl⟩
      · exact .inl ⟨cause, rfl, unreadable, rfl, rfl⟩
      · refine .inr (.inl ⟨rfl, ?_, rfl, rfl⟩)
        rwa [Station.inFlight, running]
    · exact .inr (.inr ⟨cause, rfl, absent, gone, fun again texts parsed readable =>
        Station.admits running opened gone again readable⟩)

/-- The request of a second transaction cannot be logged, just when the first one gets a vote. -/
theorem rejected_beside_a_vote :
    ∃ (history events : List Event) (s s' twin : Station (Beside (Ledger Entry) Publisher)),
      Station.Run history s ∧ s.Commits "u" [] ["p:x"] (.error (.log .appendRefused)) events s' ∧
      s'.Agrees twin ∧ twin.inFlight = ["t"] := by
  let station : Station (Beside (Ledger Entry) Publisher) :=
    { storage := ⟨{ failures := [false, true] }, ⟨[], {}, "draft"⟩⟩ }
  let vote : Envelope := ⟨"p", .vote "t" .accept⟩
  have played : ((station.playAll [.start { compactOnRecovery := false }, .commit "t" [] ["p:x"],
      .advance 0]).bind fun waiting => (waiting.2.play (.commit "u" [] ["p:x"])).bind fun admitted =>
        (admitted.2.play (.receive vote)).bind fun voted => (voted.2.play (.advance 1)).map fun ended =>
          (ended.1.filterMap fun event => match event with
            | .finished name result => some (name, result)
            | _ => none, ended.2.inFlight)) =
      some ([("u", .error (.log .appendRefused))], ["t"]) := by
    decide +kernel
  simp only [Option.bind_eq_some_iff, Option.map_eq_some_iff, Prod.mk.injEq] at played
  obtain ⟨⟨history, s⟩, begins, ⟨first, begun⟩, admits, ⟨meanwhile, between⟩, hears, ⟨last, s'⟩, ends,
    results, flight⟩ := played
  dsimp only at admits hears ends results flight
  have run := Station.playAll_run (.begin station.storage rfl) begins
  have readable : Source.parseAll ["p:x"] = .ok [⟨"p", "x"⟩] := by decide +kernel
  obtain rfl : first = [.admitted ⟨"u", [], [⟨"p", "x"⟩]⟩] := by
    simp only [Station.play, Option.bind_eq_bind, Option.bind_eq_some_iff] at admits
    obtain ⟨now, _, admits⟩ := admits
    split at admits
    next parsed admitted =>
      cases admits
      cases (admitted_iff.mp admitted).1.symm.trans readable
      rfl
    next => cases admits
  obtain rfl : meanwhile = [.received vote] := by
    simp only [Station.play, Option.bind_eq_bind, Option.bind_eq_some_iff] at hears
    obtain ⟨now, _, hears⟩ := hears
    cases hears
    rfl
  have failed : .finished "u" (.error (.log .appendRefused)) ∈ last := by
    obtain ⟨event, told, read⟩ := List.mem_filterMap.mp (results ▸ List.mem_singleton_self _)
    cases event with
    | finished name result =>
      cases read
      exact told
    | _ => cases read
  have goesOn : begun.Steps [.received vote] between := Station.Steps.nothing.step (Station.play_step hears)
  have rejected : s.Commits "u" [] ["p:x"] (.error (.log .appendRefused)) _ s' :=
    .answered [⟨"p", "x"⟩] begun between s' _ _ _ readable (Station.play_step admits) goesOn (by simp)
      (by simp) (Station.play_step ends) failed
  obtain ⟨⟨_, twin, _, agrees, _⟩, _⟩ := rejected_commit_leaves_no_trace run rejected
  exact ⟨_, _, s, s', twin, run, rejected, agrees, agrees.flight ▸ flight⟩

end Commits

end AtomicCommit.Coordinator
