import AtomicCommit.Proofs.Copies

/-! The ways of a copy through a transport, and what a transport keeps of the packets that were sent. -/

namespace AtomicCommit.Transport

variable {η : Type}

namespace Traffic

/-- How a copy gets from one place to another. Out of a mailbox it comes only as the one that has
waited longest, by being drained or when another one comes to wait in a full mailbox. -/
inductive Moves (h : Traffic η) (number : Nat) (packet : Packet) : Act η → Place η → Place η → Prop
  | arrived (accepts : η → Bool) : Moves h number packet (.arrive number accepts) .travelling
      (h.transport.placeNow accepts packet)
  | drained : (h.waiting packet.recipient).head? = some number →
      (h.transport.nextRetained packet.recipient).1 = some packet →
      Moves h number packet (.drain packet.recipient) .waiting .drained
  | evicted (other : Nat) (later : Packet) (accepts : η → Bool) :
      (h.waiting packet.recipient).head? = some number →
      (h.transport.mailbox packet.recipient).length = mailboxCapacity →
      h.copies[other]? = some ⟨later, .travelling⟩ → later.recipient = packet.recipient →
      h.transport.placeNow accepts later = .waiting →
      Moves h number packet (.arrive other accepts) .waiting .evicted

namespace Accounted

variable {h : Traffic η} {number : Nat} {packet : Packet}

theorem arrive_place (accounted : h.Accounted)
    (there : h.copies[number]? = some ⟨packet, .travelling⟩) (accepts : η → Bool) :
    (h.step (.arrive number accepts)).copies[number]? =
        some ⟨packet, h.transport.placeNow accepts packet⟩ ∧
      (h.step (.arrive number accepts)).retained =
        h.retained ++ if (h.transport.placeNow accepts packet).isRetained then [number] else [] := by
  have told : ∀ place, (h.put number place).copies[number]? = some ⟨packet, place⟩ :=
    fun _ => copy_put there
  rw [Traffic.step, there]
  rcases h.transport.arrive_cases accepts packet with
    ⟨place, arrived⟩ | ⟨_, ⟨hook, place, arrived⟩ | ⟨place, arrived⟩⟩ <;>
    simp only [arrived, place]
  · rcases accounted.settle_retained there with
      ⟨room, settled⟩ | ⟨first, rest, full, head, _, settled⟩
    · rw [settled]
      exact ⟨told _, rfl⟩
    · rw [settled]
      refine ⟨?_, rfl⟩
      have distinct : number ≠ first := by
        rintro rfl
        obtain ⟨_, waits, _⟩ := first_waits head
        cases there.symm.trans waits
      rw [copy_put_other distinct]
      exact told _
  · exact ⟨told _, (List.append_nil _).symm⟩
  · exact ⟨told _, (List.append_nil _).symm⟩

theorem arrive_others (accounted : h.Accounted) {copy : Copy η} {other : Nat} (distinct : number ≠ other)
    (there : h.copies[number]? = some copy) (accepts : η → Bool) :
    ∃ place, (h.step (.arrive other accepts)).copies[number]? = some ⟨copy.packet, place⟩ ∧
      (place = copy.place ∨ h.Moves number copy.packet (.arrive other accepts) copy.place place) := by
  rw [Traffic.step]
  split
  next later found =>
    have kept : ∀ place, (h.put other place).copies[number]? = some copy :=
      fun _ => (copy_put_other distinct).trans there
    rcases h.transport.arrive_cases accepts later with
      ⟨place, arrived⟩ | ⟨_, ⟨hook, place, arrived⟩ | ⟨place, arrived⟩⟩ <;>
      simp only [arrived]
    · rcases accounted.settle_retained found with
        ⟨room, settled⟩ | ⟨first, rest, full, head, _, settled⟩
      · rw [settled]
        exact ⟨copy.place, kept _, .inl rfl⟩
      · rw [settled]
        by_cases same : number = first
        · subst same
          obtain ⟨packet, waits, mine⟩ := first_waits head
          cases there.symm.trans waits
          refine ⟨.evicted, copy_put (kept _),
            .inr (.evicted other later accepts ?_ ?_ found mine.symm place)⟩
          · rw [mine, head, List.head?_cons]
          · rw [mine, full]
        · rw [copy_put_other same]
          exact ⟨copy.place, kept _, .inl rfl⟩
    · exact ⟨copy.place, kept _, .inl rfl⟩
    · exact ⟨copy.place, kept _, .inl rfl⟩
  next => exact ⟨copy.place, there, .inl rfl⟩

theorem drain_place (accounted : h.Accounted) {copy : Copy η}
    (there : h.copies[number]? = some copy) (address : String) :
    ∃ place, (h.step (.drain address)).copies[number]? = some ⟨copy.packet, place⟩ ∧
      (place = copy.place ∨ h.Moves number copy.packet (.drain address) copy.place place) := by
  have held := accounted.mailbox address
  rw [Traffic.step]
  cases head : h.waiting address with
  | nil =>
    rw [head] at held
    rw [nextRetained_nil held]
    exact ⟨copy.place, there, .inl rfl⟩
  | cons first rest =>
    obtain ⟨packet, waits, mine⟩ := first_waits head
    rw [head, packets_cons waits] at held
    obtain ⟨after, drained, _⟩ := nextRetained_cons held
    rw [drained]
    dsimp only
    rw [takeFirst, show ({ h with transport := after } : Traffic η).waiting address = _ from head]
    by_cases same : number = first
    · subst same
      cases there.symm.trans waits
      subst mine
      exact ⟨.drained, copy_put there, .inr (.drained (by rw [head]; rfl) (by rw [drained]))⟩
    · exact ⟨copy.place, (copy_put_other same).trans there, .inl rfl⟩

theorem step_place (accounted : h.Accounted) {copy : Copy η}
    (there : h.copies[number]? = some copy) (act : Act η) :
    ∃ place, (h.step act).copies[number]? = some ⟨copy.packet, place⟩ ∧
      (place = copy.place ∨ h.Moves number copy.packet act copy.place place) := by
  cases act with
  | send packet =>
    obtain ⟨bound, _⟩ := List.getElem?_eq_some_iff.mp there
    exact ⟨copy.place, (List.getElem?_append_left bound).trans there, .inl rfl⟩
  | arrive other accepts =>
    by_cases same : number = other
    · subst same
      obtain ⟨packet, place⟩ := copy
      by_cases travels : place = .travelling
      · subst travels
        exact ⟨_, (accounted.arrive_place there accepts).1, .inr (.arrived accepts)⟩
      · rw [arrive_ended there travels]
        exact ⟨place, there, .inl rfl⟩
    · exact accounted.arrive_others same there accepts
  | drain address => exact accounted.drain_place there address
  | partition | heal | setRules => exact ⟨copy.place, there, .inl rfl⟩
  | register address hook =>
    rw [Traffic.step]
    split <;> exact ⟨copy.place, there, .inl rfl⟩
  | unregister address =>
    rw [Traffic.step]
    split <;> exact ⟨copy.place, there, .inl rfl⟩

end Accounted

section Circumstances

theorem settle_transport (h : Traffic η) (number : Nat) (packet : Packet) (arrival : Arrival η) :
    (h.settle number packet arrival).transport = h.transport := by
  cases arrival with
  | consumed | lost => rfl
  | retained =>
    rw [settle]
    split
    · rw [takeFirst]
      split <;> rfl
    · rfl

theorem arrive_rest (t : Transport η) (accepts : η → Bool) (packet : Packet) :
    (t.arrive accepts packet).2.hooks = t.hooks ∧
      (t.arrive accepts packet).2.partitioned = t.partitioned := by
  rw [Transport.arrive]
  split
  · exact ⟨rfl, rfl⟩
  · split <;> exact ⟨rfl, rfl⟩

theorem step_arrive_rest (h : Traffic η) (number : Nat) (accepts : η → Bool) :
    (h.step (.arrive number accepts)).transport.hooks = h.transport.hooks ∧
      (h.step (.arrive number accepts)).transport.partitioned = h.transport.partitioned := by
  rw [step]
  split
  · dsimp only
    rw [settle_transport]
    exact arrive_rest h.transport accepts _
  · exact ⟨rfl, rfl⟩

theorem step_drain_rest (h : Traffic η) (address : String) :
    (h.step (.drain address)).transport.hooks = h.transport.hooks ∧
      (h.step (.drain address)).transport.partitioned = h.transport.partitioned := by
  cases held : h.transport.mailbox address with
  | nil =>
    rw [step, nextRetained_nil held]
    exact ⟨rfl, rfl⟩
  | cons packet rest =>
    rw [step, nextRetained, held]
    dsimp only
    rw [takeFirst]
    split <;> exact ⟨rfl, rfl⟩

theorem step_apart (h : Traffic η) (act : Act η) (address : String) :
    (h.step act).transport.partitioned.contains address =
      act.apart address (h.transport.partitioned.contains address) := by
  cases act with
  | send packet => simp [step, Act.apart, (send_rest h.transport packet).2.2]
  | arrive number accepts => simp [Act.apart, (step_arrive_rest h number accepts).2]
  | drain other => simp [Act.apart, (step_drain_rest h other).2]
  | setRules => rfl
  | partition other =>
    by_cases same : other = address
    · simp [step, Act.apart, Transport.partition, Table.contains, same]
    · simp [step, Act.apart, Transport.partition, Table.contains, same, Ne.symm same]
  | heal other =>
    by_cases same : other = address
    · simp [step, Act.apart, Transport.heal, Table.contains, same]
    · simp [step, Act.apart, Transport.heal, Table.contains, same, Ne.symm same]
  | register other hook =>
    rw [step, Transport.register]
    split
    next registered => split at registered <;> cases registered; rfl
    next => rfl
  | unregister other =>
    rw [step, Transport.unregister]
    split
    next unregistered => split at unregistered <;> cases unregistered; rfl
    next => rfl

theorem run_apart (h : Traffic η) (acts : List (Act η)) (address : String) :
    (h.run acts).transport.partitioned.contains address =
      acts.foldl (Act.apart address) (h.transport.partitioned.contains address) := by
  induction acts generalizing h with
  | nil => rfl
  | cons act acts ih => exact (ih (h.step act)).trans (by rw [step_apart, List.foldl_cons])

theorem step_hook (h : Traffic η) (act : Act η) (address : String) :
    (h.step act).transport.hooks.get? address =
      act.hook? address (h.transport.hooks.get? address) := by
  cases act with
  | send packet => simp [step, Act.hook?, (send_rest h.transport packet).1]
  | arrive number accepts => simp [Act.hook?, (step_arrive_rest h number accepts).1]
  | drain other => simp [Act.hook?, (step_drain_rest h other).1]
  | setRules | partition | heal => rfl
  | register other hook =>
    rw [step, Transport.register, isRegistered, Table.contains]
    by_cases same : other = address
    · subst same
      cases there : h.transport.hooks.get? other <;> simp [Act.hook?, there]
    · cases there : h.transport.hooks.get? other <;> simp [Act.hook?, same, Ne.symm same]
  | unregister other =>
    rw [step, Transport.unregister, isRegistered, Table.contains]
    by_cases same : other = address
    · subst same
      cases there : h.transport.hooks.get? other <;> simp [Act.hook?, there]
    · cases there : h.transport.hooks.get? other <;> simp [Act.hook?, same, Ne.symm same]

theorem run_hook (h : Traffic η) (acts : List (Act η)) (address : String) :
    (h.run acts).transport.hooks.get? address =
      acts.foldl (Act.hook? address) (h.transport.hooks.get? address) := by
  induction acts generalizing h with
  | nil => rfl
  | cons act acts ih => exact (ih (h.step act)).trans (by rw [step_hook, List.foldl_cons])

end Circumstances

theorem step_send (h : Traffic η) (packet : Packet) :
    (h.step (.send packet)).copies =
      h.copies ++ List.replicate (h.transport.copiesNow packet) ⟨packet, .travelling⟩ := by
  rw [step]
  dsimp only
  rw [send_copies, List.map_replicate]

theorem copiesNow_setRules (t : Transport η) (fate : Fate) (packet : Packet) :
    (t.setRules [{ fate := fate }]).copiesNow packet = if t.isCut packet then 0 else fate.copies :=
  rfl

theorem retained_takeFirst (h : Traffic η) (address : String) (place : Place η) :
    (h.takeFirst address place).retained = h.retained := by
  rw [takeFirst]
  split <;> rfl

theorem retained_settle (h : Traffic η) (number : Nat) (packet : Packet) (arrival : Arrival η) :
    h.retained <+: (h.settle number packet arrival).retained := by
  cases arrival with
  | consumed | lost => exact List.prefix_rfl
  | retained =>
    rw [settle]
    split
    · rw [retained_takeFirst]
      exact List.prefix_append _ _
    · exact List.prefix_append _ _

theorem retained_step (h : Traffic η) (act : Act η) : h.retained <+: (h.step act).retained := by
  cases act with
  | arrive number accepts =>
    rw [step]
    split
    · exact retained_settle ({ h with transport := (h.transport.arrive accepts _).2 }) number _ _
    · exact List.prefix_rfl
  | drain address =>
    rw [step]
    split
    · exact ⟨[], by rw [List.append_nil, retained_takeFirst]⟩
    · exact List.prefix_rfl
  | send | partition | heal | setRules => exact List.prefix_rfl
  | register | unregister =>
    rw [step]
    split <;> exact List.prefix_rfl

/-- Whatever is done to a transport, and in whatever order copies arrive: a packet that is sent has as
many copies as its fate gives it, and none if its sender or its recipient is cut off then. A copy that
arrives comes to where the hook that its recipient has then puts it, and stays there, or waits in the
mailbox until it leaves it as the first one. A mailbox holds the last of what was retained for its address
and not drained, and never too much. -/
theorem copies_are_conserved (acts : List (Act η)) :
    let h := ({} : Traffic η).run acts
    (∀ address, h.transport.partitioned.contains address = acts.foldl (Act.apart address) false ∧
      h.transport.hooks.get? address = acts.foldl (Act.hook? address) none) ∧
    (∀ packet, (h.step (.send packet)).copies =
        h.copies ++ List.replicate (h.transport.copiesNow packet) ⟨packet, .travelling⟩) ∧
    (∀ packet fate, (h.transport.setRules [{ fate := fate }]).copiesNow packet =
      if h.transport.isCut packet then 0 else fate.copies) ∧
    (∀ number packet accepts, h.copies[number]? = some ⟨packet, .travelling⟩ →
      (h.step (.arrive number accepts)).copies[number]? =
          some ⟨packet, h.transport.placeNow accepts packet⟩ ∧
        (h.step (.arrive number accepts)).retained = h.retained ++
          if (h.transport.placeNow accepts packet).isRetained then [number] else []) ∧
    (∀ number copy act, h.copies[number]? = some copy →
      ∃ place, (h.step act).copies[number]? = some ⟨copy.packet, place⟩ ∧
        (place = copy.place ∨ h.Moves number copy.packet act copy.place place)) ∧
    (h.retained.Nodup ∧ (∀ act, h.retained <+: (h.step act).retained) ∧
      ∀ number, number ∈ h.retained ↔
        ∃ copy, h.copies[number]? = some copy ∧ copy.place.isRetained) ∧
    ∀ address, h.transport.mailbox address = h.packets (h.waiting address) ∧
      h.waiting address <:+ h.undrained address ∧
      (h.transport.mailbox address).length ≤ mailboxCapacity := by
  intro h
  have accounted : h.Accounted := Accounted.empty.run acts
  refine ⟨fun address => ⟨run_apart {} acts address, run_hook {} acts address⟩, h.step_send,
    fun packet fate => copiesNow_setRules h.transport fate packet,
    fun _ _ accepts there => accounted.arrive_place there accepts,
    fun _ _ act there => accounted.step_place there act,
    ⟨accounted.once, h.retained_step, accounted.retained⟩,
    fun address => ⟨accounted.mailbox address, accounted.newest address, accounted.room address⟩⟩

/-- Of copies that arrive out of order, those that are refused lie in the mailbox as they have arrived,
and the one that comes first leaves it first. -/
theorem retained_out_of_order :
    let first : Packet := ⟨"a", "b", [1]⟩
    let second : Packet := ⟨"a", "b", [2]⟩
    let acts : List (Act Unit) := [.register "b" (), .send first, .setRules [{ fate := .duplicate }],
      .send second, .partition "a", .send first, .arrive 2 fun _ => false, .arrive 0 fun _ => false]
    let h := ({} : Traffic Unit).run acts
    h.transport.mailbox "b" = [second, first] ∧
      (h.step (.arrive 1 fun _ => true)).copies[1]? = some ⟨second, .consumed ()⟩ ∧
      ∃ place, (h.step (.drain "b")).copies[2]? = some ⟨second, place⟩ ∧
        (place = .waiting ∨ h.Moves 2 second (.drain "b") .waiting place) := by
  intro first second acts h
  have copies : h.copies = [⟨first, .waiting⟩, ⟨second, .travelling⟩, ⟨second, .waiting⟩] := by
    decide +kernel
  have waits : h.waiting "b" = [2, 0] := by decide +kernel
  have hook : h.transport.hooks.get? "b" = some () := by decide +kernel
  have travels : h.copies[1]? = some ⟨second, .travelling⟩ := by rw [copies]; rfl
  have waiting : h.copies[2]? = some ⟨second, .waiting⟩ := by rw [copies]; rfl
  have taken : h.transport.placeNow (fun _ => true) second = .consumed () := by
    rw [placeNow, show h.transport.hooks.get? second.recipient = _ from hook]
    rfl
  obtain ⟨-, -, -, arrives, moves, -, mailboxes⟩ := copies_are_conserved acts
  refine ⟨(mailboxes "b").1.trans ?_, taken ▸ (arrives 1 second (fun _ => true) travels).1,
    moves 2 ⟨second, .waiting⟩ (.drain "b") waiting⟩
  show h.packets (h.waiting "b") = _
  rw [waits, packets, copies]
  rfl

end Traffic

end AtomicCommit.Transport
