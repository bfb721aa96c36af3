import AtomicCommit.Inboxes

/-! What becomes of the messages that are put into inboxes, whatever happens to the inboxes and in
whatever order: each comes out once, of the inbox it was put into and in its turn, unless that inbox is
dropped. -/

namespace AtomicCommit

namespace Inboxes

section Operations

variable {α : Type} {t : Inboxes α} {txn : String} {number : Nat} {message : α} {rest : List α}

theorem receive_cons (there : t.inboxes.get? number = some ⟨txn, message :: rest⟩) :
    t.receive number = (some message, { t with inboxes := t.inboxes.insert number ⟨txn, rest⟩ }) := by
  rw [Inboxes.receive, there]

theorem receive_nil (there : t.inboxes.get? number = some ⟨txn, []⟩) :
    t.receive number = (none, t) := by
  rw [Inboxes.receive, there]

theorem unregister_inboxes (t : Inboxes α) (number : Nat) :
    (t.unregister number).inboxes = t.inboxes ∧ (t.unregister number).next = t.next := by
  simp only [unregister]
  split
  · split <;> exact ⟨rfl, rfl⟩
  · exact ⟨rfl, rfl⟩

def Named (t : Inboxes α) : Prop :=
  ∀ txn number, t.routes.get? txn = some number → ∃ queue, t.inboxes.get? number = some ⟨txn, queue⟩

theorem unregister_of_free {queue : List α} (there : t.inboxes.get? number = some ⟨txn, queue⟩)
    (free : t.routes.get? txn ≠ some number) : t.unregister number = t := by
  simp only [unregister, there, if_neg free]

theorem routes_unregister (named : Named t) (number : Nat) (txn : String) (other : Nat) :
    (t.unregister number).routes.get? txn = some other ↔
      t.routes.get? txn = some other ∧ other ≠ number := by
  simp only [unregister]
  cases found : t.inboxes.get? number with
  | none =>
    refine ⟨fun route => ⟨route, ?_⟩, And.left⟩
    rintro rfl
    obtain ⟨queue, there⟩ := named txn other route
    cases found.symm.trans there
  | some inbox =>
    dsimp only
    split
    next own =>
      rw [Table.get?_erase, Option.ite_none_left_eq_some]
      constructor
      · rintro ⟨distinct, route⟩
        refine ⟨route, ?_⟩
        rintro rfl
        obtain ⟨queue, there⟩ := named txn other route
        cases found.symm.trans there
        exact distinct rfl
      · rintro ⟨route, elsewhere⟩
        refine ⟨?_, route⟩
        rintro rfl
        exact elsewhere (Option.some.inj (route.symm.trans own))
    next stale =>
      refine ⟨fun route => ⟨route, ?_⟩, And.left⟩
      rintro rfl
      obtain ⟨queue, there⟩ := named txn other route
      cases found.symm.trans there
      exact stale route

theorem routes_unregister_self (named : Named t) (number : Nat) (txn : String) :
    (t.unregister number).routes.get? txn ≠ some number := by
  rw [Ne, routes_unregister named]
  exact fun own => own.2 rfl

theorem close_of_inbox (named : Named t) {queue : List α}
    (there : t.inboxes.get? number = some ⟨txn, queue⟩) :
    t.close number =
      (queue, { t.unregister number with inboxes := t.inboxes.erase number }) := by
  have same := (unregister_inboxes t number).1
  have emptied : ({ t.unregister number with inboxes := t.inboxes.insert number ⟨txn, []⟩ } :
      Inboxes α).inboxes.get? number = some ⟨txn, []⟩ := by simp
  have again := unregister_of_free emptied (routes_unregister_self named number txn)
  simp only [Inboxes.close, drain, same, there, Inboxes.drop, again, Table.erase_insert]

structure Spares (number : Nat) (t after : Inboxes α) : Prop where
  routes : ∀ txn other, other ≠ number →
    (after.routes.get? txn = some other ↔ t.routes.get? txn = some other)
  inboxes : ∀ other, other ≠ number → after.inboxes.get? other = t.inboxes.get? other

theorem Spares.refl (number : Nat) (t : Inboxes α) : Spares number t t :=
  ⟨fun _ _ _ => Iff.rfl, fun _ _ => rfl⟩

theorem Spares.insert (t : Inboxes α) (number : Nat) (inbox : Inbox α) :
    Spares number t { t with inboxes := t.inboxes.insert number inbox } :=
  ⟨fun _ _ _ => Iff.rfl, fun other distinct => by simp [distinct]⟩

theorem Spares.unregister (named : Named t) (number : Nat) :
    Spares number t (t.unregister number) := by
  constructor
  · intro txn other distinct
    rw [routes_unregister named, and_iff_left distinct]
  · intro other _
    rw [(unregister_inboxes t number).1]

theorem Spares.drop (named : Named t) (number : Nat) : Spares number t (t.drop number) := by
  refine ⟨(Spares.unregister named number).routes, fun other distinct => ?_⟩
  simp [Inboxes.drop, (unregister_inboxes t number).1, distinct]

theorem Spares.receive (t : Inboxes α) (number : Nat) : Spares number t (t.receive number).2 := by
  rw [Inboxes.receive]
  split
  · exact .insert t number _
  · exact .refl number t

end Operations

/-- How far the holder of an inbox has come with it. Closing one takes its route away, takes its
messages out one by one until none is left, and lets go of it. -/
inductive Stage where
  | held
  | closing
  | drained
  | closed
  | dropped
  deriving DecidableEq, Repr

/-- An inbox from its creation on: what was put into it, what came out of it, by being received or as
left over when it was closed, and what was still inside when its holder let go of it. -/
structure Story (α : Type) where
  txn : String
  stage : Stage := .held
  put : List α := []
  received : List α := []
  leftovers : List α := []
  lost : List α := []
  deriving DecidableEq, Repr

structure History (α : Type) where
  inboxes : Inboxes α := {}
  stories : Table Nat (Story α) := ∅
  deriving DecidableEq, Repr

/-- What can be done with inboxes. Only the holder of an inbox receives from it, drops it or closes it;
between the parts of a close, anything may be done with other inboxes. -/
inductive Act (α : Type) where
  | create (txn : String)
  | deliver (txn : String) (message : α)
  | receive (number : Nat)
  | drop (number : Nat)
  | beginClose (number : Nat)
  | takeLeftover (number : Nat)
  | endClose (number : Nat)
  deriving DecidableEq, Repr

def Act.on {α : Type} (number : Nat) : List (Act α) :=
  [.receive number, .drop number, .beginClose number, .takeLeftover number, .endClose number]

/-- The parts of a close of so many messages, with nothing in between. -/
def Act.close {α : Type} (number count : Nat) : List (Act α) :=
  .beginClose number :: (List.replicate (count + 1) (.takeLeftover number) ++ [.endClose number])

namespace History

variable {α : Type}

def isAt (h : History α) (number : Nat) (stage : Stage) : Bool :=
  (h.stories.get? number).any (·.stage = stage)

def note (h : History α) (number : Nat) (inboxes : Inboxes α) (change : Story α → Story α) :
    History α :=
  ⟨inboxes, h.stories.adjust change number⟩

def step (h : History α) : Act α → History α
  | .create txn =>
    match h.inboxes.create txn with
    | some (number, inboxes) => ⟨inboxes, h.stories.insert number { txn := txn }⟩
    | none => h
  | .deliver txn message =>
    match h.inboxes.deliver txn message with
    | (.ok number, inboxes) => h.note number inboxes fun s => { s with put := s.put ++ [message] }
    | (.error _, inboxes) => { h with inboxes := inboxes }
  | .receive number =>
    if h.isAt number .held then
      match h.inboxes.receive number with
      | (some message, inboxes) =>
        h.note number inboxes fun s => { s with received := s.received ++ [message] }
      | (none, inboxes) => { h with inboxes := inboxes }
    else h
  | .drop number =>
    if h.isAt number .held then
      h.note number (h.inboxes.drop number) fun s =>
        { s with stage := .dropped, lost := h.inboxes.queue number }
    else h
  | .beginClose number =>
    if h.isAt number .held then
      h.note number (h.inboxes.unregister number) fun s => { s with stage := .closing }
    else h
  | .takeLeftover number =>
    if h.isAt number .closing then
      match h.inboxes.receive number with
      | (some message, inboxes) =>
        h.note number inboxes fun s => { s with leftovers := s.leftovers ++ [message] }
      | (none, inboxes) => h.note number inboxes fun s => { s with stage := .drained }
    else h
  | .endClose number =>
    if h.isAt number .drained then
      h.note number (h.inboxes.drop number) fun s =>
        { s with stage := .closed, lost := h.inboxes.queue number }
    else h

def run (h : History α) (acts : List (Act α)) : History α := acts.foldl step h

end History

/-- The story of an inbox agrees with the inbox, if that is still there. -/
inductive Fits {α : Type} : Story α → Option (Inbox α) → Prop
  | held (txn : String) (received queue : List α) :
      Fits ⟨txn, .held, received ++ queue, received, [], []⟩ (some ⟨txn, queue⟩)
  | closing (txn : String) (received leftovers queue : List α) :
      Fits ⟨txn, .closing, received ++ leftovers ++ queue, received, leftovers, []⟩ (some ⟨txn, queue⟩)
  | drained (txn : String) (received leftovers : List α) :
      Fits ⟨txn, .drained, received ++ leftovers, received, leftovers, []⟩ (some ⟨txn, []⟩)
  | closed (txn : String) (received leftovers : List α) :
      Fits ⟨txn, .closed, received ++ leftovers, received, leftovers, []⟩ none
  | dropped (txn : String) (received lost : List α) :
      Fits ⟨txn, .dropped, received ++ lost, received, [], lost⟩ none

section Fitting

variable {α : Type} {story : Story α} {inbox : Option (Inbox α)}

theorem Fits.of_held (fits : Fits story inbox) (held : story.stage = .held) :
    ∃ txn received queue, story = ⟨txn, .held, received ++ queue, received, [], []⟩ ∧
      inbox = some ⟨txn, queue⟩ := by
  cases fits with
  | held txn received queue => exact ⟨txn, received, queue, rfl, rfl⟩
  | _ => cases held

theorem Fits.of_closing (fits : Fits story inbox) (closing : story.stage = .closing) :
    ∃ txn received leftovers queue,
      story = ⟨txn, .closing, received ++ leftovers ++ queue, received, leftovers, []⟩ ∧
        inbox = some ⟨txn, queue⟩ := by
  cases fits with
  | closing txn received leftovers queue => exact ⟨txn, received, leftovers, queue, rfl, rfl⟩
  | _ => cases closing

theorem Fits.of_drained (fits : Fits story inbox) (drained : story.stage = .drained) :
    ∃ txn received leftovers,
      story = ⟨txn, .drained, received ++ leftovers, received, leftovers, []⟩ ∧
        inbox = some ⟨txn, []⟩ := by
  cases fits with
  | drained txn received leftovers => exact ⟨txn, received, leftovers, rfl, rfl⟩
  | _ => cases drained

end Fitting

namespace History

variable {α : Type}

structure Accounted (h : History α) : Prop where
  registered : ∀ txn number, h.inboxes.routes.get? txn = some number ↔
    ∃ story, h.stories.get? number = some story ∧ story.txn = txn ∧ story.stage = .held
  fits : ∀ number story, h.stories.get? number = some story →
    Fits story (h.inboxes.inboxes.get? number)
  known : ∀ number story, h.stories.get? number = some story → number < h.inboxes.next

section Stories

variable {h : History α} {number other : Nat} {story : Story α} {stage : Stage} {inboxes : Inboxes α}
  {change : Story α → Story α}

@[simp] theorem note_inboxes : (h.note number inboxes change).inboxes = inboxes := rfl

theorem story_note (there : h.stories.get? number = some story) :
    (h.note number inboxes change).stories.get? number = some (change story) := by
  simp [note, there]

theorem story_note_other (distinct : other ≠ number) :
    (h.note number inboxes change).stories.get? other = h.stories.get? other := by
  simp [note, distinct]

theorem isAt_iff : h.isAt number stage ↔
    ∃ story, h.stories.get? number = some story ∧ story.stage = stage := by
  simp [isAt, Option.any_eq_true]

theorem isAt_of (there : h.stories.get? number = some story) (reached : story.stage = stage) :
    h.isAt number stage :=
  isAt_iff.mpr ⟨story, there, reached⟩

end Stories

structure SparesOthers (number : Nat) (h after : History α) : Prop where
  inboxes : Spares number h.inboxes after.inboxes
  stories : ∀ other, other ≠ number → after.stories.get? other = h.stories.get? other

theorem SparesOthers.refl (number : Nat) (h : History α) : SparesOthers number h h :=
  ⟨.refl number h.inboxes, fun _ _ => rfl⟩

theorem SparesOthers.note {h : History α} {number : Nat} {inboxes : Inboxes α}
    (spares : Spares number h.inboxes inboxes) (change : Story α → Story α) :
    SparesOthers number h (h.note number inboxes change) :=
  ⟨spares, fun _ distinct => story_note_other distinct⟩

theorem SparesOthers.guarded {h after : History α} {number : Nat} {guard : Bool}
    (spares : SparesOthers number h after) :
    SparesOthers number h (if guard then after else h) := by
  split
  · exact spares
  · exact .refl number h

section Keeping

variable {h : History α} {number : Nat} {story : Story α} {inboxes : Inboxes α}
  {change : Story α → Story α}

theorem Accounted.named (accounted : h.Accounted) : Named h.inboxes := by
  intro txn number route
  obtain ⟨story, there, rfl, held⟩ := (accounted.registered txn number).mp route
  obtain ⟨txn, received, queue, rfl, inside⟩ := (accounted.fits number story there).of_held held
  exact ⟨queue, inside⟩

theorem Accounted.note (accounted : h.Accounted) (there : h.stories.get? number = some story)
    (named : (change story).txn = story.txn)
    (ahead : (change story).stage = .held → story.stage = .held)
    (fits : Fits (change story) (inboxes.inboxes.get? number))
    (spares : Spares number h.inboxes inboxes)
    (own : ∀ txn, inboxes.routes.get? txn = some number ↔
      h.inboxes.routes.get? txn = some number ∧ (change story).stage = .held)
    (next : inboxes.next = h.inboxes.next) : (h.note number inboxes change).Accounted := by
  have stories : ∀ other, (h.note number inboxes change).stories.get? other =
      if other = number then some (change story) else h.stories.get? other := by
    intro other
    by_cases same : other = number
    · rw [if_pos same, same, story_note there]
    · rw [if_neg same, story_note_other same]
  constructor
  · intro txn other
    rw [stories]
    by_cases same : other = number
    · subst same
      refine (own txn).trans ?_
      rw [accounted.registered]
      simp only [there, Option.some.injEq, exists_eq_left', if_true, named]
      constructor
      · rintro ⟨⟨own, -⟩, held⟩
        exact ⟨own, held⟩
      · rintro ⟨own, held⟩
        exact ⟨⟨own, ahead held⟩, held⟩
    · rw [if_neg same]
      exact (spares.routes txn other same).trans (accounted.registered txn other)
  · intro other found
    rw [stories]
    split
    next same =>
      rintro ⟨⟩
      subst same
      exact fits
    next distinct =>
      intro known
      exact spares.inboxes other distinct ▸ accounted.fits other found known
  · intro other found
    rw [stories]
    show _ → other < inboxes.next
    rw [next]
    split
    next same => exact fun _ => same ▸ accounted.known number story there
    next => exact accounted.known other found

theorem Accounted.note_kept (accounted : h.Accounted) (there : h.stories.get? number = some story)
    (named : (change story).txn = story.txn)
    (same : (change story).stage = .held ↔ story.stage = .held)
    (fits : Fits (change story) (inboxes.inboxes.get? number))
    (spares : Spares number h.inboxes inboxes) (routes : inboxes.routes = h.inboxes.routes)
    (next : inboxes.next = h.inboxes.next) : (h.note number inboxes change).Accounted := by
  refine accounted.note there named same.mp fits spares (fun txn => ?_) next
  rw [routes]
  refine ⟨fun route => ⟨route, ?_⟩, And.left⟩
  obtain ⟨known, found, -, held⟩ := (accounted.registered txn number).mp route
  obtain rfl := Option.some.inj (there.symm.trans found)
  exact same.mpr held

theorem Accounted.note_unregistered (accounted : h.Accounted)
    (there : h.stories.get? number = some story) (named : (change story).txn = story.txn)
    (ended : (change story).stage ≠ .held)
    (fits : Fits (change story) (inboxes.inboxes.get? number))
    (spares : Spares number h.inboxes inboxes)
    (routes : inboxes.routes = (h.inboxes.unregister number).routes)
    (next : inboxes.next = (h.inboxes.unregister number).next) :
    (h.note number inboxes change).Accounted := by
  refine accounted.note there named (fun held => absurd held ended) fits spares (fun txn => ?_)
    (next.trans (unregister_inboxes h.inboxes number).2)
  rw [routes, routes_unregister accounted.named]
  simp [ended]

theorem Accounted.next_unknown (accounted : h.Accounted) :
    h.stories.get? h.inboxes.next = none := by
  cases there : h.stories.get? h.inboxes.next with
  | none => rfl
  | some story => exact absurd (accounted.known _ story there) (Nat.lt_irrefl _)

theorem Accounted.create_unknown (accounted : h.Accounted) {txn : String}
    (created : h.inboxes.create txn = some (number, inboxes)) :
    h.inboxes.has txn = false ∧ h.stories.get? number = none := by
  rw [Inboxes.create] at created
  split at created
  · cases created
  next free =>
    cases created
    exact ⟨Bool.eq_false_iff.mpr free, accounted.next_unknown⟩

theorem Accounted.create (accounted : h.Accounted) (txn : String) :
    (h.step (.create txn)).Accounted := by
  rw [step]
  by_cases taken : h.inboxes.has txn
  · rw [Inboxes.create, if_pos taken]
    exact accounted
  have free : h.inboxes.routes.get? txn = none := by
    simpa [has, Table.contains] using taken
  rw [Inboxes.create, if_neg taken]
  have new := accounted.next_unknown
  constructor
  · intro name number
    simp only [Table.get?_insert]
    by_cases same : name = txn <;> by_cases last : number = h.inboxes.next
    · simp [same, last]
    · have other : ¬∃ story, h.stories.get? number = some story ∧ story.txn = txn ∧
          story.stage = .held := by
        rw [← accounted.registered, free]
        simp
      simpa [same, last, Ne.symm last] using other
    · -- A route to the new number would belong to a story that has this number already.
      have other : h.inboxes.routes.get? name ≠ some h.inboxes.next := by
        rw [Ne, accounted.registered, new]
        simp
      simpa [same, last, Ne.symm same] using other
    · simpa [same, last] using accounted.registered name number
  · intro number story
    simp only [Table.get?_insert]
    split
    · rintro ⟨⟩
      exact .held txn [] []
    · exact accounted.fits number story
  · intro number story
    simp only [Table.get?_insert]
    split
    next last => exact fun _ => last ▸ Nat.lt_succ_self _
    next => exact fun there => Nat.lt_succ_of_lt (accounted.known number story there)

theorem Accounted.deliver_eq (accounted : h.Accounted) {txn : String}
    (route : h.inboxes.routes.get? txn = some number) (message : α) :
    h.inboxes.deliver txn message = (.ok number, { h.inboxes with
      inboxes := h.inboxes.inboxes.insert number ⟨txn, h.inboxes.queue number ++ [message]⟩ }) := by
  obtain ⟨queue, there⟩ := accounted.named txn number route
  simp only [Inboxes.deliver, route, there, Inboxes.queue]

theorem Accounted.deliver (accounted : h.Accounted) (txn : String) (message : α) :
    (h.step (.deliver txn message)).Accounted := by
  cases route : h.inboxes.routes.get? txn with
  | none =>
    simp only [step, Inboxes.deliver, route]
    exact accounted
  | some number =>
    rw [step, accounted.deliver_eq route]
    obtain ⟨story, there, rfl, held⟩ := (accounted.registered txn number).mp route
    refine accounted.note_kept there rfl Iff.rfl ?_ (.insert _ number _) rfl rfl
    obtain ⟨txn, received, queue, rfl, inside⟩ := (accounted.fits number story there).of_held held
    simp only [Inboxes.queue, inside, Table.get?_insert, if_true, List.append_assoc]
    exact .held txn received (queue ++ [message])

theorem Accounted.receive (accounted : h.Accounted) (number : Nat) :
    (h.step (.receive number)).Accounted := by
  rw [step]
  split
  next at_ =>
    obtain ⟨story, there, held⟩ := isAt_iff.mp at_
    obtain ⟨txn, received, queue, rfl, inside⟩ := (accounted.fits number story there).of_held held
    cases queue with
    | nil =>
      rw [receive_nil inside]
      exact accounted
    | cons message queue =>
      rw [receive_cons inside]
      refine accounted.note_kept there rfl Iff.rfl ?_ (.insert _ number _) rfl rfl
      simp only [Table.get?_insert, if_true, List.append_cons received message queue]
      exact .held txn (received ++ [message]) queue
  next => exact accounted

theorem Accounted.drop (accounted : h.Accounted) (number : Nat) :
    (h.step (.drop number)).Accounted := by
  rw [step]
  split
  next at_ =>
    obtain ⟨story, there, held⟩ := isAt_iff.mp at_
    refine accounted.note_unregistered there rfl nofun ?_ (.drop accounted.named number) rfl rfl
    obtain ⟨txn, received, queue, rfl, inside⟩ := (accounted.fits number story there).of_held held
    simp only [Inboxes.drop, Inboxes.queue, inside, Table.get?_erase, if_true]
    exact .dropped txn received queue
  next => exact accounted

theorem Accounted.beginClose (accounted : h.Accounted) (number : Nat) :
    (h.step (.beginClose number)).Accounted := by
  rw [step]
  split
  next at_ =>
    obtain ⟨story, there, held⟩ := isAt_iff.mp at_
    refine accounted.note_unregistered there rfl nofun ?_ (.unregister accounted.named number) rfl rfl
    obtain ⟨txn, received, queue, rfl, inside⟩ := (accounted.fits number story there).of_held held
    rw [(unregister_inboxes h.inboxes number).1, inside]
    simpa using Fits.closing txn received [] queue
  next => exact accounted

theorem Accounted.takeLeftover (accounted : h.Accounted) (number : Nat) :
    (h.step (.takeLeftover number)).Accounted := by
  rw [step]
  split
  next at_ =>
    obtain ⟨story, there, closing⟩ := isAt_iff.mp at_
    obtain ⟨txn, received, leftovers, queue, rfl, inside⟩ :=
      (accounted.fits number story there).of_closing closing
    cases queue with
    | nil =>
      rw [receive_nil inside]
      refine accounted.note_kept there rfl (by simp) ?_ (.refl number _) rfl rfl
      rw [inside, List.append_nil]
      exact .drained txn received leftovers
    | cons message queue =>
      rw [receive_cons inside]
      refine accounted.note_kept there rfl Iff.rfl ?_ (.insert _ number _) rfl rfl
      rw [Table.get?_insert, if_pos rfl, List.append_cons _ message queue, List.append_assoc received]
      exact .closing txn received (leftovers ++ [message]) queue
  next => exact accounted

theorem Accounted.endClose (accounted : h.Accounted) (number : Nat) :
    (h.step (.endClose number)).Accounted := by
  rw [step]
  split
  next at_ =>
    obtain ⟨story, there, drained⟩ := isAt_iff.mp at_
    refine accounted.note_unregistered there rfl nofun ?_ (.drop accounted.named number) rfl rfl
    obtain ⟨txn, received, leftovers, rfl, inside⟩ :=
      (accounted.fits number story there).of_drained drained
    simp only [Inboxes.drop, Inboxes.queue, inside, Table.get?_erase, if_true]
    exact .closed txn received leftovers
  next => exact accounted

theorem Accounted.step (accounted : h.Accounted) (act : Act α) : (h.step act).Accounted := by
  cases act with
  | create txn => exact accounted.create txn
  | deliver txn message => exact accounted.deliver txn message
  | receive number => exact accounted.receive number
  | drop number => exact accounted.drop number
  | beginClose number => exact accounted.beginClose number
  | takeLeftover number => exact accounted.takeLeftover number
  | endClose number => exact accounted.endClose number

theorem accounted_empty : ({} : History α).Accounted := ⟨by simp, by simp, by simp⟩

theorem Accounted.run (accounted : h.Accounted) (acts : List (Act α)) : (h.run acts).Accounted := by
  induction acts generalizing h with
  | nil => exact accounted
  | cons act acts ih => exact ih (accounted.step act)

theorem Accounted.on_spares (accounted : h.Accounted) {act : Act α} (holds : act ∈ Act.on number) :
    SparesOthers number h (h.step act) := by
  have received := Spares.receive h.inboxes number
  simp only [Act.on, List.mem_cons, List.not_mem_nil, or_false] at holds
  rcases holds with rfl | rfl | rfl | rfl | rfl <;> refine SparesOthers.guarded ?_
  · rcases result : h.inboxes.receive number with ⟨_ | message, inboxes⟩ <;> rw [result] at received
    · exact ⟨received, fun _ _ => rfl⟩
    · exact .note received _
  · exact .note (.drop accounted.named number) _
  · exact .note (.unregister accounted.named number) _
  · rcases result : h.inboxes.receive number with ⟨_ | message, inboxes⟩ <;> rw [result] at received
    · exact .note received _
    · exact .note received _
  · exact .note (.drop accounted.named number) _

end Keeping

section Closing

variable {h : History α} {number : Nat} {story : Story α} {txn : String} {queue : List α}

theorem run_cons (h : History α) (act : Act α) (acts : List (Act α)) :
    h.run (act :: acts) = (h.step act).run acts := rfl

theorem run_leftovers (there : h.stories.get? number = some story) (closing : story.stage = .closing)
    (inside : h.inboxes.inboxes.get? number = some ⟨txn, queue⟩)
    (free : h.inboxes.routes.get? txn ≠ some number) :
    let last := h.run (List.replicate (queue.length + 1) (.takeLeftover number) ++ [.endClose number])
    last.inboxes = { h.inboxes with inboxes := h.inboxes.inboxes.erase number } ∧
      last.stories.get? number =
        some { story with stage := .closed, leftovers := story.leftovers ++ queue, lost := [] } := by
  induction queue generalizing h story with
  | nil =>
    let drained := h.note number h.inboxes fun s => { s with stage := .drained }
    have emptied : h.step (.takeLeftover number) = drained := by
      simp only [step, isAt_of there closing, if_true, receive_nil inside, drained]
    have told : drained.stories.get? number = some { story with stage := .drained } :=
      story_note there
    have ended : h.run [.takeLeftover number, .endClose number] =
        drained.note number (h.inboxes.drop number) fun s =>
          { s with stage := .closed, lost := h.inboxes.queue number } := by
      rw [run_cons, emptied, run_cons, step, if_pos (isAt_of told rfl)]
      rfl
    have nothing : h.inboxes.queue number = [] := by rw [Inboxes.queue, inside]
    show (h.run [.takeLeftover number, .endClose number]).inboxes = _ ∧
      (h.run [.takeLeftover number, .endClose number]).stories.get? number = _
    rw [ended, story_note told, note_inboxes, Inboxes.drop, unregister_of_free inside free, nothing,
      List.append_nil]
    exact ⟨rfl, rfl⟩
  | cons message queue ih =>
    let after := h.note number
      { h.inboxes with inboxes := h.inboxes.inboxes.insert number ⟨txn, queue⟩ }
      fun s => { s with leftovers := s.leftovers ++ [message] }
    have taken : h.step (.takeLeftover number) = after := by
      simp only [step, isAt_of there closing, if_true, receive_cons inside, after]
    have told : after.stories.get? number =
        some { story with leftovers := story.leftovers ++ [message] } := story_note there
    have remaining : after.inboxes.inboxes.get? number = some ⟨txn, queue⟩ := by simp [after]
    obtain ⟨inboxes, stories⟩ := ih told closing remaining free
    rw [List.length_cons, List.replicate_succ, List.cons_append, run_cons, taken]
    refine ⟨inboxes.trans ?_, stories.trans ?_⟩
    · simp [after]
    · simp

theorem Accounted.close_eq (accounted : h.Accounted) (there : h.stories.get? number = some story)
    (held : story.stage = .held) :
    let last := h.run (Act.close number (h.inboxes.queue number).length)
    last.inboxes = (h.inboxes.close number).2 ∧ last.stories.get? number =
      some { story with stage := .closed, leftovers := (h.inboxes.close number).1 } := by
  obtain ⟨txn, received, queue, rfl, inside⟩ := (accounted.fits number story there).of_held held
  have same := (unregister_inboxes h.inboxes number).1
  have begun : h.step (.beginClose number) =
      h.note number (h.inboxes.unregister number) fun s => { s with stage := .closing } := by
    rw [History.step, if_pos (isAt_of there held)]
  have told : (h.step (.beginClose number)).stories.get? number =
      some ⟨txn, .closing, received ++ queue, received, [], []⟩ := by
    rw [begun, story_note there]
  have left : (h.step (.beginClose number)).inboxes.inboxes.get? number = some ⟨txn, queue⟩ := by
    rw [begun, note_inboxes, same, inside]
  have free : (h.step (.beginClose number)).inboxes.routes.get? txn ≠ some number := by
    rw [begun]
    exact routes_unregister_self accounted.named number txn
  have length : (h.inboxes.queue number).length = queue.length := by rw [Inboxes.queue, inside]
  obtain ⟨inboxes, stories⟩ := run_leftovers told rfl left free
  rw [Act.close, run_cons, close_of_inbox accounted.named inside, length]
  refine ⟨inboxes.trans ?_, stories⟩
  rw [begun, note_inboxes, same]

end Closing

section Delivering

variable {h : History α} {number : Nat} {story : Story α}

theorem Accounted.returned_iff (accounted : h.Accounted) (txn : String) (message : α) :
    (h.inboxes.deliver txn message).1 = .error message ↔ h.inboxes.has txn = false := by
  cases route : h.inboxes.routes.get? txn with
  | none => simp [Inboxes.deliver, has, Table.contains, route]
  | some number => simp [accounted.deliver_eq route, has, Table.contains, route]

theorem Accounted.delivered (accounted : h.Accounted) {txn : String}
    (route : h.inboxes.routes.get? txn = some number) (message : α) (other : Nat) :
    (h.inboxes.deliver txn message).2.queue other =
      if other = number then h.inboxes.queue other ++ [message] else h.inboxes.queue other := by
  rw [accounted.deliver_eq route]
  by_cases same : other = number
  · simp [Inboxes.queue, same]
  · simp [Inboxes.queue, same]

theorem Accounted.put_eq (accounted : h.Accounted) (there : h.stories.get? number = some story) :
    story.put = story.received ++ story.leftovers ++ h.inboxes.queue number ++ story.lost ∧
      (story.stage ≠ .dropped → story.lost = []) ∧
      (story.stage = .closed → h.inboxes.queue number = []) := by
  have fits := accounted.fits number story there
  generalize found : h.inboxes.inboxes.get? number = inbox at fits
  cases fits <;> simp [Inboxes.queue, found]

theorem Accounted.unique (accounted : h.Accounted) {other : Nat} {one two : Story α}
    (there : h.stories.get? number = some one) (thereToo : h.stories.get? other = some two)
    (held : one.stage = .held) (heldToo : two.stage = .held) (same : one.txn = two.txn) :
    number = other := by
  have route := (accounted.registered one.txn number).mpr ⟨one, there, rfl, held⟩
  have routeToo := (accounted.registered one.txn other).mpr ⟨two, thereToo, same.symm, heldToo⟩
  exact Option.some.inj (route.symm.trans routeToo)

/-- Whatever is done with inboxes: an inbox that is made is a new one. A message goes back just when its
transaction has none registered, and else into the one that is. What an inbox was given comes out of it
in this order, and all of it unless the inbox is dropped. Registered are the inboxes that are held, one
for each transaction at most, and whoever closes or drops one leaves the others and their routes alone. -/
theorem messages_are_accounted_for (acts : List (Act α)) :
    let h := ({} : History α).run acts
    (∀ txn number inboxes, h.inboxes.create txn = some (number, inboxes) →
      h.inboxes.has txn = false ∧ h.stories.get? number = none) ∧
    (∀ txn message, (h.inboxes.deliver txn message).1 = .error message ↔
      h.inboxes.has txn = false) ∧
    (∀ txn number message, h.inboxes.routes.get? txn = some number →
      (h.inboxes.deliver txn message).1 = .ok number ∧
        ∀ other, (h.inboxes.deliver txn message).2.queue other =
          if other = number then h.inboxes.queue other ++ [message] else h.inboxes.queue other) ∧
    (∀ number story, h.stories.get? number = some story →
      story.put = story.received ++ story.leftovers ++ h.inboxes.queue number ++ story.lost ∧
        (story.stage ≠ .dropped → story.lost = []) ∧
        (story.stage = .closed → h.inboxes.queue number = [])) ∧
    (∀ txn number, h.inboxes.routes.get? txn = some number ↔
      ∃ story, h.stories.get? number = some story ∧ story.txn = txn ∧ story.stage = .held) ∧
    (∀ number other one two, h.stories.get? number = some one → h.stories.get? other = some two →
      one.stage = .held → two.stage = .held → one.txn = two.txn → number = other) ∧
    (∀ number, ∀ act ∈ Act.on number, SparesOthers number h (h.step act)) ∧
    ∀ number story, h.stories.get? number = some story → story.stage = .held →
      let last := h.run (Act.close number (h.inboxes.queue number).length)
      last.inboxes = (h.inboxes.close number).2 ∧ last.stories.get? number =
        some { story with stage := .closed, leftovers := (h.inboxes.close number).1 } := by
  intro h
  have accounted : h.Accounted := accounted_empty.run acts
  refine ⟨fun _ _ _ => accounted.create_unknown, accounted.returned_iff, ?_,
    fun _ _ => accounted.put_eq, accounted.registered, ?_, fun _ _ => accounted.on_spares,
    fun _ _ => accounted.close_eq⟩
  · intro txn number message route
    exact ⟨by rw [accounted.deliver_eq route], accounted.delivered route message⟩
  · intro number other one two there thereToo held heldToo same
    exact accounted.unique there thereToo held heldToo same

theorem registered_during_close :
    let h := ({} : History Nat).run [.create "t", .deliver "t" 1, .beginClose 0, .create "t",
      .deliver "t" 2, .takeLeftover 0, .takeLeftover 0]
    h.inboxes.routes.get? "t" = some 1 ∧
      (h.step (.endClose 0)).inboxes.routes.get? "t" = some 1 ∧
      (h.step (.endClose 0)).stories.get? 1 = some { txn := "t", put := [2] } := by
  intro h
  have route : h.inboxes.routes.get? "t" = some 1 := rfl
  obtain ⟨-, -, -, -, -, -, others, -⟩ := messages_are_accounted_for [.create "t", .deliver "t" 1,
    .beginClose 0, .create "t", .deliver "t" 2, .takeLeftover 0, .takeLeftover 0]
  obtain ⟨spares, stories⟩ := others 0 (.endClose 0) (by simp [Act.on])
  exact ⟨route, (spares.routes "t" 1 Nat.one_ne_zero).mpr route, stories 1 Nat.one_ne_zero⟩

end Delivering

end History

end Inboxes

end AtomicCommit
