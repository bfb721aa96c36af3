import AtomicCommit.Transport
import Mathlib.Data.List.Nodup

/-! The copies of packets on a transport, in whatever order they arrive and whatever is done to the
transport in between: each is consumed, retained or lost, and a mailbox holds the last of those that were
retained. -/

namespace AtomicCommit.Transport

/-- A copy that was retained waits in the mailbox of its recipient until it is drained, or evicted
because later ones were retained. -/
inductive Place (η : Type) where
  | travelling
  | consumed (hook : η)
  | lost
  | waiting
  | drained
  | evicted
  deriving DecidableEq, Repr

namespace Place

variable {η : Type}

def isWaiting : Place η → Bool
  | .waiting => true
  | _ => false

def isDrained : Place η → Bool
  | .drained => true
  | _ => false

def isRetained : Place η → Bool
  | .waiting | .drained | .evicted => true
  | _ => false

end Place

structure Copy (η : Type) where
  packet : Packet
  place : Place η
  deriving DecidableEq, Repr

/-- A transport with all copies that there ever were, in the order of sending, and the numbers of those
that were retained, in the order of retention. -/
structure Traffic (η : Type) where
  transport : Transport η := {}
  copies : List (Copy η) := []
  retained : List Nat := []
  deriving Repr

/-- What can be done to a transport. A copy arrives when its turn comes, whatever was sent before it;
the hook of its recipient may take it or not. -/
inductive Act (η : Type) where
  | send (packet : Packet)
  | arrive (number : Nat) (accepts : η → Bool)
  | drain (address : String)
  | partition (address : String)
  | heal (address : String)
  | setRules (rules : List FaultRule)
  | register (address : String) (hook : η)
  | unregister (address : String)

variable {η : Type}

def copiesNow (t : Transport η) (packet : Packet) : Nat :=
  if t.isCut packet then 0 else (FaultRule.judge packet t.rules).1.copies

def placeNow (t : Transport η) (accepts : η → Bool) (packet : Packet) : Place η :=
  match t.hooks.get? packet.recipient with
  | none => .lost
  | some hook => if accepts hook then .consumed hook else .waiting

namespace Traffic

def kept (h : Traffic η) (address : String) (test : Place η → Bool) : List Nat :=
  h.retained.filter fun number => h.copies[number]?.any fun copy =>
    copy.packet.recipient = address && test copy.place

def waiting (h : Traffic η) (address : String) : List Nat := h.kept address Place.isWaiting

/-- What was ever retained for an address, without what was drained. -/
def undrained (h : Traffic η) (address : String) : List Nat := h.kept address (!·.isDrained)

def packets (h : Traffic η) (numbers : List Nat) : List Packet :=
  numbers.filterMap fun number => h.copies[number]?.map (·.packet)

def put (h : Traffic η) (number : Nat) (place : Place η) : Traffic η :=
  { h with copies := h.copies.modify number ({ · with place := place }) }

def await (h : Traffic η) (number : Nat) : Traffic η :=
  { h.put number .waiting with retained := h.retained ++ [number] }

def takeFirst (h : Traffic η) (address : String) (place : Place η) : Traffic η :=
  match h.waiting address with
  | [] => h
  | first :: _ => h.put first place

def settle (h : Traffic η) (number : Nat) (packet : Packet) : Arrival η → Traffic η
  | .consumed hook => h.put number (.consumed hook)
  | .lost => h.put number .lost
  | .retained =>
    let h := h.await number
    if (h.transport.mailbox packet.recipient).length < (h.waiting packet.recipient).length then
      h.takeFirst packet.recipient .evicted
    else h

def step (h : Traffic η) : Act η → Traffic η
  | .send packet =>
    let (copies, transport) := h.transport.send packet
    { h with transport := transport, copies := h.copies ++ copies.map (⟨·, .travelling⟩) }
  | .arrive number accepts =>
    match h.copies[number]? with
    | some ⟨packet, .travelling⟩ =>
      let (arrival, transport) := h.transport.arrive accepts packet
      { h with transport := transport }.settle number packet arrival
    | _ => h
  | .drain address =>
    match h.transport.nextRetained address with
    | (some _, transport) => { h with transport := transport }.takeFirst address .drained
    | (none, transport) => { h with transport := transport }
  | .partition address => { h with transport := h.transport.partition address }
  | .heal address => { h with transport := h.transport.heal address }
  | .setRules rules => { h with transport := h.transport.setRules rules }
  | .register address hook =>
    match h.transport.register address hook with
    | .ok transport => { h with transport := transport }
    | .error _ => h
  | .unregister address =>
    match h.transport.unregister address with
    | .ok transport => { h with transport := transport }
    | .error _ => h

def run (h : Traffic η) (acts : List (Act η)) : Traffic η := acts.foldl step h

end Traffic

def Act.apart (address : String) (before : Bool) : Act η → Bool
  | .partition other => before || other == address
  | .heal other => before && other != address
  | _ => before

/-- The hook that an address has after an act. A hook that is there stays until it is taken away. -/
def Act.hook? (address : String) (before : Option η) : Act η → Option η
  | .register other hook => if other = address then before.or (some hook) else before
  | .unregister other => if other = address then none else before
  | _ => before

section Operations

variable {t : Transport η} {packet : Packet}

theorem send_copies (t : Transport η) (packet : Packet) :
    (t.send packet).1 = List.replicate (t.copiesNow packet) packet := by
  have cut : ({ t with sent := t.sent ++ [packet] } : Transport η).isCut packet = t.isCut packet := rfl
  rw [send, copiesNow, cut]
  split <;> rfl

theorem send_rest (t : Transport η) (packet : Packet) :
    (t.send packet).2.hooks = t.hooks ∧ (t.send packet).2.mailboxes = t.mailboxes ∧
      (t.send packet).2.partitioned = t.partitioned := by
  rw [send]
  split <;> exact ⟨rfl, rfl, rfl⟩

theorem arrive_cases (t : Transport η) (accepts : η → Bool) (packet : Packet) :
    (t.placeNow accepts packet = .waiting ∧
        t.arrive accepts packet = (.retained, t.retain packet)) ∨
      (t.placeNow accepts packet).isRetained = false ∧
        ((∃ hook, t.placeNow accepts packet = .consumed hook ∧
            t.arrive accepts packet = (.consumed hook, t)) ∨
          t.placeNow accepts packet = .lost ∧ t.arrive accepts packet = (.lost, t)) := by
  rw [placeNow, arrive]
  cases t.hooks.get? packet.recipient with
  | none => exact .inr ⟨rfl, .inr ⟨rfl, rfl⟩⟩
  | some hook =>
    dsimp only
    split
    · exact .inr ⟨rfl, .inl ⟨hook, rfl, rfl⟩⟩
    · exact .inl ⟨rfl, rfl⟩

end Operations

section Mailboxes

variable {t : Transport η} {packet : Packet} {rest : List Packet} {address : String}

theorem mailbox_congr {u : Transport η} (same : t.mailboxes = u.mailboxes) (address : String) :
    t.mailbox address = u.mailbox address := by
  rw [mailbox, same, mailbox]

theorem mailbox_retain (t : Transport η) (packet : Packet) :
    (t.retain packet).mailbox packet.recipient =
      if mailboxCapacity ≤ (t.mailbox packet.recipient).length then
        (t.mailbox packet.recipient).drop 1 ++ [packet]
      else t.mailbox packet.recipient ++ [packet] := by
  have kept : (t.retain packet).mailbox packet.recipient =
      if mailboxCapacity < (t.mailbox packet.recipient ++ [packet]).length then
        (t.mailbox packet.recipient ++ [packet]).drop 1
      else t.mailbox packet.recipient ++ [packet] := by
    rw [retain, mailbox, Table.get?_insert, if_pos rfl, Option.getD_some]
  rw [kept, List.length_append, List.length_singleton]
  split
  next full =>
    have some : 1 ≤ (t.mailbox packet.recipient).length :=
      Nat.le_trans (by decide) (Nat.le_of_lt_succ full)
    rw [if_pos (Nat.le_of_lt_succ full), List.drop_append_of_le_length some]
  next room => rw [if_neg fun full => room (Nat.lt_succ_of_le full)]

theorem mailbox_retain_other (t : Transport η) {packet : Packet} {address : String}
    (distinct : address ≠ packet.recipient) :
    (t.retain packet).mailbox address = t.mailbox address := by
  simp [retain, mailbox, distinct]

theorem room_retain (room : ∀ address, (t.mailbox address).length ≤ mailboxCapacity)
    (packet : Packet) (address : String) :
    ((t.retain packet).mailbox address).length ≤ mailboxCapacity := by
  have some : 1 ≤ mailboxCapacity := by decide
  have here := room packet.recipient
  by_cases mine : address = packet.recipient
  · rw [mine, mailbox_retain]
    split <;> simp only [List.length_append, List.length_drop, List.length_singleton] <;> omega
  · rw [mailbox_retain_other t mine]
    exact room address

theorem nextRetained_cons (first : t.mailbox address = packet :: rest) :
    ∃ after, t.nextRetained address = (some packet, after) ∧
      ∀ other, after.mailbox other = if other = address then rest else t.mailbox other := by
  simp only [nextRetained, first]
  refine ⟨_, rfl, fun other => ?_⟩
  by_cases same : other = address <;> simp [mailbox, same]

theorem nextRetained_nil (empty : t.mailbox address = []) : t.nextRetained address = (none, t) := by
  rw [nextRetained, empty]

end Mailboxes

namespace Traffic

section Places

variable {h : Traffic η} {number other first : Nat} {copy : Copy η} {place : Place η}
  {address : String} {test : Place η → Bool} {rest : List Nat}

@[simp] theorem put_transport : (h.put number place).transport = h.transport := rfl

@[simp] theorem put_retained : (h.put number place).retained = h.retained := rfl

theorem copy_put (there : h.copies[number]? = some copy) :
    (h.put number place).copies[number]? = some ⟨copy.packet, place⟩ := by
  simp [put, there]

theorem copy_put_other (distinct : other ≠ number) :
    (h.put number place).copies[other]? = h.copies[other]? := by
  simp [put, distinct.symm]

theorem packet_put (number other : Nat) (place : Place η) :
    (h.put number place).copies[other]?.map (·.packet) = h.copies[other]?.map (·.packet) := by
  by_cases same : number = other <;> simp [put, same, Function.comp_def]

@[simp] theorem packets_put (numbers : List Nat) :
    (h.put number place).packets numbers = h.packets numbers := by
  simp only [packets, packet_put]

@[simp] theorem packets_await (numbers : List Nat) :
    (h.await number).packets numbers = h.packets numbers :=
  packets_put numbers

@[simp] theorem packets_nil : h.packets [] = [] := rfl

theorem packets_cons (there : h.copies[number]? = some copy) (rest : List Nat) :
    h.packets (number :: rest) = copy.packet :: h.packets rest := by
  simp [packets, there]

theorem packets_append (numbers others : List Nat) :
    h.packets (numbers ++ others) = h.packets numbers ++ h.packets others :=
  List.filterMap_append ..

theorem mem_kept : number ∈ h.kept address test ↔ number ∈ h.retained ∧
    ∃ copy, h.copies[number]? = some copy ∧ copy.packet.recipient = address ∧ test copy.place := by
  simp [kept, Option.any_eq_true]

theorem kept_put_out (out : test place = false) :
    (h.put number place).kept address test = (h.kept address test).filter (· ≠ number) := by
  simp only [kept, List.filter_filter, put_retained]
  refine List.filter_congr fun other _ => ?_
  by_cases same : other = number
  · subst same
    cases there : h.copies[other]? <;> simp [put, there, out]
  · simp [copy_put_other same, same]

theorem kept_put_same (there : h.copies[number]? = some copy) (same : test place = test copy.place) :
    (h.put number place).kept address test = h.kept address test := by
  simp only [kept, put_retained]
  refine List.filter_congr fun other _ => ?_
  by_cases own : other = number
  · subst own
    simp [copy_put there, there, same]
  · rw [copy_put_other own]

theorem arrive_ended {packet : Packet} (there : h.copies[number]? = some ⟨packet, place⟩)
    (ended : place ≠ .travelling) (accepts : η → Bool) : h.step (.arrive number accepts) = h := by
  rw [step]
  split
  next found =>
    cases there.symm.trans found
    exact absurd rfl ended
  next => rfl

theorem first_waits (head : h.waiting address = first :: rest) :
    ∃ packet, h.copies[first]? = some ⟨packet, .waiting⟩ ∧ packet.recipient = address := by
  have member : first ∈ h.waiting address := head ▸ List.mem_cons_self
  obtain ⟨_, ⟨packet, place⟩, there, mine, waits⟩ := mem_kept.mp member
  cases place <;> cases waits
  exact ⟨packet, there, mine⟩

end Places

structure Sound (h : Traffic η) : Prop where
  retained : ∀ number, number ∈ h.retained ↔
    ∃ copy, h.copies[number]? = some copy ∧ copy.place.isRetained
  once : h.retained.Nodup
  newest : ∀ address, h.waiting address <:+ h.undrained address

namespace Sound

theorem on {h : Traffic η} (sound : h.Sound) (t : Transport η) :
    ({ h with transport := t } : Traffic η).Sound :=
  ⟨sound.retained, sound.once, sound.newest⟩

variable {h : Traffic η} {number first : Nat} {packet : Packet} {place : Place η} {address : String}
  {rest : List Nat}

theorem put_retained (sound : h.Sound) {copy : Copy η} (there : h.copies[number]? = some copy)
    (same : place.isRetained = copy.place.isRetained) (other : Nat) :
    other ∈ (h.put number place).retained ↔
      ∃ copy, (h.put number place).copies[other]? = some copy ∧ copy.place.isRetained := by
  rw [Traffic.put_retained, sound.retained]
  by_cases own : other = number
  · subst own
    simp [there, copy_put there, same]
  · rw [copy_put_other own]

theorem waiting_put (sound : h.Sound) (head : h.waiting address = first :: rest)
    (out : place.isWaiting = false) (other : String) :
    (h.put first place).waiting other = if other = address then rest else h.waiting other := by
  obtain ⟨packet, there, mine⟩ := first_waits head
  rw [waiting, kept_put_out out]
  split
  next same =>
    have once : (first :: rest).Nodup := head ▸ sound.once.filter _
    have absent : first ∉ rest := (List.nodup_cons.mp once).1
    rw [same, show h.kept address Place.isWaiting = first :: rest from head,
      List.filter_cons_of_neg (by simp)]
    exact List.filter_eq_self.mpr fun number member => decide_eq_true (by rintro rfl; exact absent member)
  next elsewhere =>
    refine List.filter_eq_self.mpr fun number member => decide_eq_true ?_
    rintro rfl
    obtain ⟨_, copy, found, theirs, _⟩ := mem_kept.mp member
    cases there.symm.trans found
    exact elsewhere (theirs.symm.trans mine)

theorem drained (sound : h.Sound) (head : h.waiting address = first :: rest) :
    (h.put first .drained).Sound := by
  obtain ⟨packet, there, mine⟩ := first_waits head
  refine ⟨sound.put_retained there rfl, sound.once, fun other => ?_⟩
  rw [waiting, undrained, kept_put_out rfl, kept_put_out rfl]
  exact (sound.newest other).filter _

theorem evicted (sound : h.Sound) (head : h.waiting address = first :: rest) :
    (h.put first .evicted).Sound := by
  obtain ⟨packet, there, mine⟩ := first_waits head
  refine ⟨sound.put_retained there rfl, sound.once, fun other => ?_⟩
  have same : (h.put first .evicted).undrained other = h.undrained other := kept_put_same there rfl
  rw [same, sound.waiting_put head rfl]
  split
  next own => exact (List.suffix_cons first rest).trans (own ▸ head ▸ sound.newest address)
  next => exact sound.newest other

theorem not_retained (sound : h.Sound) (there : h.copies[number]? = some ⟨packet, .travelling⟩) :
    number ∉ h.retained := by
  rw [sound.retained]
  rintro ⟨copy, found, refused⟩
  cases there.symm.trans found
  cases refused

theorem not_refused (sound : h.Sound) (unkept : number ∉ h.retained) {copy : Copy η}
    (there : h.copies[number]? = some copy) : copy.place.isRetained = false := by
  rw [sound.retained] at unkept
  exact Bool.eq_false_iff.mpr fun refused => unkept ⟨copy, there, refused⟩

theorem kept_await (sound : h.Sound) (there : h.copies[number]? = some ⟨packet, .travelling⟩)
    (address : String) {test : Place η → Bool} (holds : test .waiting) :
    (h.await number).kept address test =
      h.kept address test ++ if address = packet.recipient then [number] else [] := by
  simp only [kept, await, List.filter_append]
  congr 1
  · refine List.filter_congr fun other member => ?_
    have distinct : other ≠ number := fun same => sound.not_retained there (same ▸ member)
    rw [copy_put_other distinct]
  · simp [List.filter_cons, copy_put there, holds, eq_comm]

theorem waiting_await (sound : h.Sound) (there : h.copies[number]? = some ⟨packet, .travelling⟩)
    (address : String) : (h.await number).waiting address =
      h.waiting address ++ if address = packet.recipient then [number] else [] :=
  sound.kept_await there address rfl

theorem await (sound : h.Sound) (there : h.copies[number]? = some ⟨packet, .travelling⟩) :
    (h.await number).Sound := by
  refine ⟨fun other => ?_, ?_, fun address => ?_⟩
  · rw [Traffic.await, List.mem_append, List.mem_singleton, sound.retained]
    by_cases own : other = number
    · subst own
      simp [copy_put there, Place.isRetained]
    · simp [copy_put_other own, own]
  · have new := sound.not_retained there
    exact List.nodup_append.mpr ⟨sound.once, by simp, by grind⟩
  · obtain ⟨gone, split⟩ := sound.newest address
    rw [waiting, undrained] at split ⊢
    rw [sound.kept_await there address rfl, sound.kept_await there address rfl, ← split,
      List.append_assoc]
    exact List.suffix_append _ _

end Sound

structure Accounted (h : Traffic η) : Prop extends Sound h where
  mailbox : ∀ address, h.transport.mailbox address = h.packets (h.waiting address)
  room : ∀ address, (h.transport.mailbox address).length ≤ mailboxCapacity

namespace Accounted

variable {h : Traffic η} {number first : Nat} {packet : Packet} {address : String}

theorem length_mailbox (accounted : h.Accounted) (address : String) :
    (h.transport.mailbox address).length = (h.waiting address).length := by
  rw [accounted.mailbox, packets, List.filterMap_length_eq_length]
  intro number member
  obtain ⟨_, copy, there, _⟩ := mem_kept.mp member
  simp [there]

theorem on (accounted : h.Accounted) {t : Transport η} (same : t.mailboxes = h.transport.mailboxes) :
    ({ h with transport := t } : Traffic η).Accounted := by
  refine ⟨accounted.toSound.on t, fun address => ?_, fun address => ?_⟩
  · exact (mailbox_congr same address).trans (accounted.mailbox address)
  · rw [mailbox_congr same address]
    exact accounted.room address

theorem frame (accounted : h.Accounted) {after : Traffic η} (retained : after.retained = h.retained)
    (kept : ∀ number ∈ h.retained, after.copies[number]? = h.copies[number]?)
    (others : ∀ number copy, number ∉ h.retained → after.copies[number]? = some copy →
      copy.place.isRetained = false)
    (mailboxes : ∀ address, after.transport.mailbox address = h.transport.mailbox address) :
    after.Accounted := by
  have same : ∀ address test, after.kept address test = h.kept address test := by
    intro address test
    rw [Traffic.kept, Traffic.kept, retained]
    exact List.filter_congr fun number member => by rw [kept number member]
  refine ⟨⟨fun number => ?_, retained ▸ accounted.once, fun address => ?_⟩, fun address => ?_,
    fun address => ?_⟩
  · rw [retained]
    by_cases member : number ∈ h.retained
    · rw [accounted.retained, kept number member]
    · refine ⟨fun impossible => absurd impossible member, ?_⟩
      rintro ⟨copy, there, refused⟩
      exact absurd refused (by simp [others number copy member there])
  · rw [waiting, undrained, same, same]
    exact accounted.newest address
  · rw [mailboxes, accounted.mailbox, waiting, waiting, same]
    refine List.filterMap_congr fun number member => ?_
    rw [kept number (mem_kept.mp member).1]
  · rw [mailboxes]
    exact accounted.room address

theorem settle_retained (accounted : h.Accounted)
    (there : h.copies[number]? = some ⟨packet, .travelling⟩) :
    let next := ({ h with transport := h.transport.retain packet } : Traffic η)
    ((h.transport.mailbox packet.recipient).length < mailboxCapacity ∧
        next.settle number packet .retained = next.await number) ∨
      ∃ first rest, (h.transport.mailbox packet.recipient).length = mailboxCapacity ∧
        h.waiting packet.recipient = first :: rest ∧
        (next.await number).waiting packet.recipient = first :: (rest ++ [number]) ∧
        next.settle number packet .retained = (next.await number).put first .evicted := by
  intro next
  have sound : next.Sound := accounted.toSound.on _
  have count := accounted.length_mailbox packet.recipient
  have room := accounted.room packet.recipient
  have waiting : (next.await number).waiting packet.recipient =
      h.waiting packet.recipient ++ [number] := by
    rw [sound.waiting_await there, if_pos rfl]
    rfl
  have mailbox := mailbox_retain h.transport packet
  have settled : next.settle number packet .retained =
      if ((h.transport.retain packet).mailbox packet.recipient).length <
          ((next.await number).waiting packet.recipient).length then
        (next.await number).takeFirst packet.recipient .evicted
      else next.await number := rfl
  rw [waiting, mailbox, List.length_append, List.length_singleton, ← count] at settled
  by_cases full : mailboxCapacity ≤ (h.transport.mailbox packet.recipient).length
  · have some : 0 < (h.transport.mailbox packet.recipient).length := Nat.lt_of_lt_of_le (by decide) full
    cases head : h.waiting packet.recipient with
    | nil => rw [count, head] at some; exact absurd some (Nat.lt_irrefl 0)
    | cons first rest =>
      rw [head, List.cons_append] at waiting
      refine .inr ⟨first, rest, Nat.le_antisymm room full, rfl, waiting, settled.trans ?_⟩
      rw [if_pos full, if_pos (by simp; omega), takeFirst, waiting]
  · refine .inl ⟨Nat.lt_of_not_le full, settled.trans ?_⟩
    rw [if_neg full, if_neg (by simp)]

theorem await (accounted : h.Accounted) (there : h.copies[number]? = some ⟨packet, .travelling⟩)
    (room : (h.transport.mailbox packet.recipient).length < mailboxCapacity) :
    (({ h with transport := h.transport.retain packet } : Traffic η).await number).Accounted := by
  let next : Traffic η := { h with transport := h.transport.retain packet }
  have sound : next.Sound := accounted.toSound.on _
  have own : next.packets [number] = [packet] := packets_cons there []
  have mailboxes : ∀ address, (h.transport.retain packet).mailbox address =
      h.transport.mailbox address ++ if address = packet.recipient then [packet] else [] := by
    intro address
    by_cases mine : address = packet.recipient
    · rw [if_pos mine, mine, mailbox_retain, if_neg (Nat.not_le_of_lt room)]
    · rw [if_neg mine, mailbox_retain_other _ mine, List.append_nil]
  refine ⟨sound.await there, fun address => (mailboxes address).trans ?_,
    room_retain accounted.room packet⟩
  rw [accounted.mailbox, sound.waiting_await there, packets_await, packets_append]
  split
  · rw [own]
    rfl
  · rfl

theorem replace (accounted : h.Accounted) (there : h.copies[number]? = some ⟨packet, .travelling⟩)
    {first : Nat} {rest : List Nat}
    (full : (h.transport.mailbox packet.recipient).length = mailboxCapacity)
    (head : h.waiting packet.recipient = first :: rest) :
    ((({ h with transport := h.transport.retain packet } : Traffic η).await number).put first
      .evicted).Accounted := by
  let next : Traffic η := { h with transport := h.transport.retain packet }
  have sound : next.Sound := accounted.toSound.on _
  have own : next.packets [number] = [packet] := packets_cons there []
  obtain ⟨oldest, firstThere, _⟩ := first_waits head
  have line : (next.await number).waiting packet.recipient = first :: (rest ++ [number]) := by
    rw [sound.waiting_await there, if_pos rfl]
    exact congrArg (· ++ [number]) head
  have mailbox : (h.transport.retain packet).mailbox packet.recipient = h.packets rest ++ [packet] := by
    rw [mailbox_retain, if_pos (Nat.le_of_eq full.symm), accounted.mailbox, head, packets_cons firstThere]
    rfl
  have waits := (sound.await there).waiting_put line (rfl : Place.evicted.isWaiting = false)
  refine ⟨(sound.await there).evicted line, fun address => ?_, room_retain accounted.room packet⟩
  by_cases mine : address = packet.recipient
  · rw [waits, if_pos mine, packets_put, packets_await, packets_append, own, mine]
    exact mailbox
  · rw [waits, if_neg mine, packets_put, packets_await, sound.waiting_await there, if_neg mine,
      List.append_nil]
    exact (mailbox_retain_other _ mine).trans (accounted.mailbox address)

theorem put (accounted : h.Accounted) (there : h.copies[number]? = some ⟨packet, .travelling⟩)
    {place : Place η} (taken : place.isRetained = false) : (h.put number place).Accounted := by
  refine accounted.frame rfl (fun other member => ?_) (fun other copy unkept found => ?_)
    fun _ => rfl
  · have distinct : other ≠ number := fun same => accounted.not_retained there (same ▸ member)
    exact copy_put_other distinct
  · by_cases same : other = number
    · subst same
      cases (copy_put there).symm.trans found
      exact taken
    · rw [copy_put_other same] at found
      exact accounted.not_refused unkept found

theorem arrive (accounted : h.Accounted) (number : Nat) (accepts : η → Bool) :
    (h.step (.arrive number accepts)).Accounted := by
  rw [step]
  split
  next packet there =>
    rcases h.transport.arrive_cases accepts packet with ⟨_, arrived⟩ | ⟨_, ⟨hook, _, arrived⟩ | ⟨_, arrived⟩⟩
    · rw [arrived]
      dsimp only
      rcases accounted.settle_retained there with
        ⟨room, settled⟩ | ⟨first, rest, full, head, _, settled⟩
      · rw [settled]
        exact accounted.await there room
      · rw [settled]
        exact accounted.replace there full head
    · rw [arrived]
      exact accounted.put there rfl
    · rw [arrived]
      exact accounted.put there rfl
  next => exact accounted

theorem send (accounted : h.Accounted) (packet : Packet) : (h.step (.send packet)).Accounted := by
  obtain ⟨_, mailboxes, _⟩ := send_rest h.transport packet
  refine accounted.frame rfl (fun number member => ?_) (fun number copy new there => ?_)
    fun address => ?_
  · obtain ⟨copy, there, _⟩ := (accounted.retained number).mp member
    obtain ⟨bound, _⟩ := List.getElem?_eq_some_iff.mp there
    exact List.getElem?_append_left bound
  · by_cases old : number < h.copies.length
    · have before : h.copies[number]? = some copy :=
        (List.getElem?_append_left old).symm.trans there
      exact accounted.not_refused new before
    · have added : copy ∈ (h.transport.send packet).1.map fun packet => ⟨packet, .travelling⟩ :=
        List.mem_of_getElem? ((List.getElem?_append_right (Nat.le_of_not_lt old)).symm.trans there)
      obtain ⟨_, _, rfl⟩ := List.mem_map.mp added
      rfl
  · exact mailbox_congr mailboxes address

theorem drain (accounted : h.Accounted) (address : String) : (h.step (.drain address)).Accounted := by
  have held := accounted.mailbox address
  cases head : h.waiting address with
  | nil =>
    rw [head] at held
    rw [step, nextRetained_nil held]
    exact accounted
  | cons first rest =>
    obtain ⟨packet, there, _⟩ := first_waits head
    rw [head, packets_cons there] at held
    obtain ⟨after, drained, mailboxes⟩ := nextRetained_cons held
    have sound := accounted.toSound.on after
    rw [step, drained]
    dsimp only
    rw [takeFirst, show ({ h with transport := after } : Traffic η).waiting address = _ from head]
    refine ⟨sound.drained head, fun other => ?_, fun other => ?_⟩
    · rw [sound.waiting_put head rfl, packets_put]
      refine (mailboxes other).trans ?_
      split
      · rfl
      · exact accounted.mailbox other
    · refine Nat.le_trans (Nat.le_of_eq (congrArg List.length (mailboxes other))) ?_
      have room := accounted.room other
      split
      next same =>
        rw [same, held, List.length_cons] at room
        exact Nat.le_of_succ_le room
      next => exact room

theorem step (accounted : h.Accounted) (act : Act η) : (h.step act).Accounted := by
  cases act with
  | send packet => exact accounted.send packet
  | arrive number accepts => exact accounted.arrive number accepts
  | drain address => exact accounted.drain address
  | partition | heal | setRules => exact accounted.on rfl
  | register address hook =>
    rw [Traffic.step, Transport.register]
    split
    next transport registered =>
      split at registered <;> cases registered
      exact accounted.on rfl
    next => exact accounted
  | unregister address =>
    rw [Traffic.step, Transport.unregister]
    split
    next transport unregistered =>
      split at unregistered <;> cases unregistered
      exact accounted.on rfl
    next => exact accounted

theorem empty : ({} : Traffic η).Accounted :=
  ⟨⟨by simp, .nil, fun _ => List.nil_suffix⟩, fun _ => rfl, fun _ => Nat.zero_le _⟩

theorem run (accounted : h.Accounted) (acts : List (Act η)) : (h.run acts).Accounted := by
  induction acts generalizing h with
  | nil => exact accounted
  | cons act acts ih => exact ih (accounted.step act)

end Accounted

end Traffic

end AtomicCommit.Transport
