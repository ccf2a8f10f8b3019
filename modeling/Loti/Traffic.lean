import Mathlib.Data.FinEnum
import Mathlib.Data.Fintype.Vector
import Mathlib.SetTheory.Cardinal.Finite
import Loti.Library.Descent
import Loti.Peers

/-!
The honest nodes together with the datagrams between them. A datagram that was sent is in flight
until it is delivered or lost, in any order. Every datagram is labelled with the call that caused
it: an API call or a timer at some node, or the handling of a datagram that the call had caused.
-/

namespace Loti

open Std StateExcept Wire

structure Flight where
  call : Nat
  sent : Sent
deriving DecidableEq

def Flight.response (flight : Flight) : Option ChainResponse :=
  match flight.sent.datagram.payload with
  | .chainResponse m => some m
  | _ => none

theorem Flight.carries_response (flight : Flight) {m : ChainResponse}
    (found : flight.response = some m) : flight.sent.datagram.payload = .chainResponse m := by
  unfold Flight.response at found
  split at found
  · rename_i payload
    rw [payload, Option.some.inj found]
  · cases found

structure Traffic (σ : Type) where
  nodes : NodeId → NodeState σ
  inFlight : Multiset Flight
  history : List Flight
  calls : List (NodeId × NodeAction)

namespace Traffic

inductive Move
  | act (id : NodeId) (action : NodeAction)
  | deliver (flight : Flight) (bytes : Bytes)
  | lose (flight : Flight)
  | duplicate (flight : Flight)

def Move.performed : Move → Option (NodeId × NodeAction)
  | .act id action => some (id, action)
  | .deliver flight bytes => some (flight.sent.destination, .onPacketReceived bytes)
  | .lose _ => none
  | .duplicate _ => none

section Moves

variable {σ : Type}

def callOf (w : Traffic σ) : Move → Nat
  | .act .. => w.calls.length
  | .deliver flight _ => flight.call
  | .lose flight => flight.call
  | .duplicate flight => flight.call

def remaining (w : Traffic σ) : Move → Multiset Flight
  | .act .. => w.inFlight
  | .deliver flight _ => w.inFlight.erase flight
  | .lose flight => w.inFlight.erase flight
  | .duplicate flight => flight ::ₘ w.inFlight

inductive Causes (w : Traffic σ) : Move → Sent → Prop
  | notified {id destination : NodeId} {action : NodeAction} {m : ClockNotification} :
      Causes w (.act id action) ⟨destination, ⟨id, .clockNotification m⟩⟩
  | asked {id hop : NodeId} {action : NodeAction} {m : ChainRequest} :
      m.originator = id → m.path = [id] → hop ≠ id → hop ∈ (w.nodes id).neighbors →
      Causes w (.act id action) ⟨hop, ⟨id, .chainRequest m⟩⟩
  | forwarded {call : Nat} {id sender hop : NodeId} {m : ChainRequest} {bytes : Bytes} :
      sender ∈ (w.nodes id).neighbors → id ∉ m.path →
      (0 < m.hopLimit → m.path.length < m.hopLimit.toNat) →
      hop ≠ id → hop ∉ m.path → hop ∈ (w.nodes id).neighbors →
      Causes w (.deliver ⟨call, ⟨id, ⟨sender, .chainRequest m⟩⟩⟩ bytes)
        ⟨hop, ⟨id, .chainRequest { m with path := m.path ++ [id] }⟩⟩
  | answered {call : Nat} {id sender previous : NodeId} {m : ChainRequest} {chain : EventChain}
      {bytes : Bytes} : m.path.getLast? = some previous →
      Causes w (.deliver ⟨call, ⟨id, ⟨sender, .chainRequest m⟩⟩⟩ bytes)
        ⟨previous, ⟨id, .chainResponse ⟨m.originator, chain, m.path.dropLast⟩⟩⟩
  | returned {call : Nat} {id sender previous : NodeId} {m : ChainResponse} {chain : EventChain}
      {bytes : Bytes} : m.path.getLast? = some previous →
      Causes w (.deliver ⟨call, ⟨id, ⟨sender, .chainResponse m⟩⟩⟩ bytes)
        ⟨previous, ⟨id, .chainResponse ⟨m.originator, chain, m.path.dropLast⟩⟩⟩

def KeepsNeighbors (w w' : Traffic σ) : Prop :=
  ∀ id neighbor, neighbor ∈ (w.nodes id).neighbors → neighbor ∈ (w'.nodes id).neighbors

/-- Datagrams reach a node by delivery only. What arrives is read as what was sent, or not at
all. -/
def Allows (peers : Peers) (w : Traffic σ) : Move → Prop
  | .act _ action => ∀ bytes, action ≠ .onPacketReceived bytes
  | .deliver flight bytes => flight ∈ w.inFlight ∧ ∀ datagram,
      decode ⟨bytes, (peers.env flight.sent.destination).wordBits⟩ = .ok datagram →
      datagram = flight.sent.datagram
  | .lose flight => flight ∈ w.inFlight
  | .duplicate flight => flight ∈ w.inFlight

variable {peers : Peers} {w : Traffic σ} {move : Move}

theorem Allows.call_lt (allows : w.Allows peers move)
    (numbered : ∀ flight ∈ w.inFlight, flight.call < w.calls.length) :
    w.callOf move < w.calls.length ∨ w.callOf move = w.calls.length ∧ ∃ id action,
    move = .act id action := by
  cases move with
  | act id action => exact Or.inr ⟨rfl, id, action, rfl⟩
  | deliver flight bytes => exact Or.inl (numbered flight allows.1)
  | lose flight => exact Or.inl (numbered flight allows)
  | duplicate flight => exact Or.inl (numbered flight allows)

theorem Allows.of_remaining {flight : Flight} (allows : w.Allows peers move)
    (left : flight ∈ w.remaining move) : flight ∈ w.inFlight := by
  cases move with
  | act id action => exact left
  | deliver flight bytes => exact Multiset.mem_of_mem_erase left
  | lose flight => exact Multiset.mem_of_mem_erase left
  | duplicate flight =>
      rcases Multiset.mem_cons.mp left with rfl | other
      · exact allows
      · exact other

variable [Store σ]

def stateAfter (peers : Peers) (w : Traffic σ) (id : NodeId) (action : NodeAction) : NodeState σ :=
  final (perform (peers.env id) action) (w.nodes id)

def emits (peers : Peers) (w : Traffic σ) (move : Move) : List Sent :=
  match move.performed with
  | some (id, action) => (w.stateAfter peers id action).sent.drop (w.nodes id).sent.length
  | none => []

def next (peers : Peers) (w : Traffic σ) (move : Move) : Traffic σ where
  nodes :=
    match move.performed with
    | some (id, action) => Function.update w.nodes id (w.stateAfter peers id action)
    | none => w.nodes
  inFlight :=
    w.remaining move + ((w.emits peers move).map (Flight.mk (w.callOf move)) : List Flight)
  history := w.history ++ (w.emits peers move).map (Flight.mk (w.callOf move))
  calls :=
    match move with
    | .act id action => w.calls ++ [(id, action)]
    | _ => w.calls

theorem next_node (peers : Peers) (w : Traffic σ) (move : Move) (id : NodeId) :
    (∀ action, move.performed ≠ some (id, action)) ∧ (w.next peers move).nodes id = w.nodes id ∨
      ∃ action, move.performed = some (id, action) ∧
      (w.next peers move).nodes id = w.stateAfter peers id action := by
  cases performed : move.performed with
  | none => exact Or.inl ⟨nofun, by simp [next, performed]⟩
  | some taken =>
      obtain ⟨node, action⟩ := taken
      by_cases same : id = node
      · subst same
        exact Or.inr ⟨action, rfl, by simp [next, performed]⟩
      · refine Or.inl ⟨?_, by simp [next, performed, same]⟩
        rintro _ ⟨⟩
        exact same rfl

theorem calls_le_next : w.calls.length ≤ (w.next peers move).calls.length := by
  cases move <;> simp [next]

variable [LawfulStore σ]

structure Initial (peers : Peers) (w : Traffic σ) : Prop where
  nodes : ∀ id, ∃ store now, LawfulStore.Within .any store ∧
    w.nodes id = .bootAt (peers.env id) store now
  inFlight : w.inFlight = 0
  history : w.history = []
  calls : w.calls = []

inductive Arises (peers : Peers) (condition : Traffic σ → Move → Prop) : Traffic σ → Prop
  | initial {w : Traffic σ} : w.Initial peers → Arises peers condition w
  | move {w : Traffic σ} (move : Move) : Arises peers condition w → w.Allows peers move →
      condition w move → Arises peers condition (w.next peers move)

abbrev Reached (peers : Peers) : Traffic σ → Prop :=
  Arises peers fun w move => w.KeepsNeighbors (w.next peers move)

theorem named_next (named : ∀ id, NodeWithin .any (w.nodes id)) (id : NodeId) :
    NodeWithin .any ((w.next peers move).nodes id) := by
  rcases next_node peers w move id with ⟨-, same⟩ | ⟨action, -, same⟩
  · rw [same]
    exact named id
  · rw [same]
    exact ends_final.mp (perform_any action _ (named id))

theorem Initial.named (initial : w.Initial peers) (id : NodeId) : NodeWithin .any (w.nodes id) := by
  obtain ⟨store, now, within, same⟩ := initial.nodes id
  rw [same]
  exact (boot_within within).of_same rfl rfl rfl

theorem SentBy.causes {id : NodeId} {action : NodeAction} {sent : Sent}
    (named : NodeWithin .any (w.nodes id)) (locally : ∀ bytes, action ≠ .onPacketReceived bytes)
    (sentBy : SentBy (peers.env id) (w.nodes id) action sent) :
    w.Causes (.act id action) sent := by
  cases sentBy with
  | notified =>
      rw [peers.identified id]
      exact .notified
  | asked request =>
      obtain ⟨base, mine, begins, -, forwards⟩ := request
      obtain ⟨hop, other, -, known, rfl⟩ := forwards.hop named
      rw [peers.identified id] at mine other ⊢
      exact .asked mine (by simp [begins]) other known
  | relayed relayed =>
      obtain ⟨_, _, bytes, _, same, -⟩ := relayed.delivers
      exact (locally bytes same).elim

theorem RelayedBy.causes {flight : Flight} {bytes : Bytes} {sent : Sent}
    (named : NodeWithin .any (w.nodes flight.sent.destination))
    (allows : w.Allows peers (.deliver flight bytes))
    (relayed : RelayedBy (peers.env flight.sent.destination) (w.nodes flight.sent.destination)
      (.onPacketReceived bytes) sent) : w.Causes (.deliver flight bytes) sent := by
  obtain ⟨call, id, sender, payload⟩ := flight
  have delivered : ∀ neighbor payload', NodeAction.Delivers (peers.env id) (w.nodes id)
      (.onPacketReceived bytes) neighbor payload' → payload' = payload ∧
      sender ∈ (w.nodes id).neighbors := by
    rintro neighbor payload' ⟨_, sender', ⟨⟩, decoded, known⟩
    cases allows.2 _ decoded
    exact ⟨rfl, ExtTreeMap.mem_iff_isSome_getElem?.mpr (by simp [known])⟩
  cases relayed with
  | forwarded delivers _ unvisited allowed forwards =>
      obtain ⟨rfl, heard⟩ := delivered _ _ delivers
      obtain ⟨hop, other, fresh, known, rfl⟩ := forwards.hop named
      rw [peers.identified id] at unvisited other ⊢
      exact .forwarded heard unvisited allowed other fresh known
  | answered delivers _ _ response =>
      obtain ⟨rfl, -⟩ := delivered _ _ delivers
      obtain ⟨previous, chain, last, -, rfl⟩ := response.path named
      rw [peers.identified id]
      exact .answered last
  | returned delivers foreign response =>
      obtain ⟨rfl, -⟩ := delivered _ _ delivers
      obtain ⟨previous, chain, last, -, rfl⟩ := response.path named
      rw [peers.identified id]
      exact .returned last

theorem Arises.named {condition : Traffic σ → Move → Prop} (arises : w.Arises peers condition)
    (id : NodeId) : NodeWithin .any (w.nodes id) := by
  induction arises generalizing id with
  | initial initial => exact initial.named id
  | move move _ _ _ ih => exact named_next ih id

theorem emits_causes (allows : w.Allows peers move) (named : ∀ id, NodeWithin .any (w.nodes id)) :
    ∀ sent ∈ w.emits peers move, w.Causes move sent := by
  intro sent member
  cases move with
  | act id action =>
      have sends : Sends (SentBy (peers.env id) (w.nodes id) action) (w.nodes id)
        (w.stateAfter peers id action) :=
        ends_final.mp (perform_sends action)
      obtain ⟨new, grown, reasons⟩ := sends
      simp only [emits, Move.performed, grown, List.drop_left] at member
      exact SentBy.causes (named id) allows (reasons sent member)
  | deliver flight bytes =>
      have sends :
          Sends (RelayedBy (peers.env flight.sent.destination) (w.nodes flight.sent.destination)
          (.onPacketReceived bytes)) (w.nodes flight.sent.destination)
          (w.stateAfter peers flight.sent.destination (.onPacketReceived bytes)) :=
        ends_final.mp (onPacketReceived_relays bytes)
      obtain ⟨new, grown, reasons⟩ := sends
      simp only [emits, Move.performed, grown, List.drop_left] at member
      exact RelayedBy.causes (named _) allows (reasons sent member)
  | lose flight => cases member
  | duplicate flight => cases member

end Moves

/-! The record of what was sent -/

section Record

variable {σ : Type} {peers : Peers} {w : Traffic σ} {move : Move}

/-- What is in flight was sent, on behalf of a call that was made; a request names the caller, and
its path leads through the caller. -/
structure Recorded (w : Traffic σ) : Prop where
  sent : ∀ flight ∈ w.inFlight, flight ∈ w.history
  numbered : ∀ flight ∈ w.history, flight.call < w.calls.length
  callers : ∀ flight ∈ w.history, ∀ m, flight.sent.datagram.payload = .chainRequest m →
    m.originator ∈ m.path ∧ ∃ action, w.calls[flight.call]? = some (m.originator, action)

variable [Store σ] [LawfulStore σ]

omit [LawfulStore σ] in
theorem next_calls (peers : Peers) {call : Nat} {caller : NodeId × NodeAction}
    (made : w.calls[call]? = some caller) : (w.next peers move).calls[call]? = some caller := by
  have bound := (List.getElem?_eq_some_iff.mp made).1
  cases move with
  | act id action => simpa [next, List.getElem?_append_left bound] using made
  | deliver flight bytes => exact made
  | lose flight => exact made
  | duplicate flight => exact made

theorem Recorded.next (recorded : w.Recorded) (named : ∀ id, NodeWithin .any (w.nodes id))
    (allows : w.Allows peers move) : (w.next peers move).Recorded := by
  have causes := emits_causes allows named
  refine ⟨fun flight member => ?_, fun flight member => ?_, fun flight member m carries => ?_⟩
  · refine List.mem_append.mpr
      ((Multiset.mem_add.mp member).imp (fun left => ?_) Multiset.mem_coe.mp)
    exact recorded.sent flight (allows.of_remaining left)
  · rcases List.mem_append.mp member with old | new
    · exact Nat.lt_of_lt_of_le (recorded.numbered flight old) calls_le_next
    · obtain ⟨sent, -, rfl⟩ := List.mem_map.mp new
      rcases allows.call_lt fun flight flying => recorded.numbered flight
        (recorded.sent flight flying) with
        earlier | ⟨now, id, action, rfl⟩
      · exact Nat.lt_of_lt_of_le earlier calls_le_next
      · simp [Traffic.next, callOf]
  · rcases List.mem_append.mp member with old | new
    · obtain ⟨visited, action, made⟩ := recorded.callers flight old m carries
      exact ⟨visited, action, next_calls peers made⟩
    · obtain ⟨sent, emitted, rfl⟩ := List.mem_map.mp new
      cases causes sent emitted with
      | notified => cases carries
      | @asked id hop action m mine begins _ _ =>
          cases carries
          exact ⟨by simp [begins, mine], action, by simp [Traffic.next, callOf, mine]⟩
      | @forwarded call id sender hop m bytes _ _ _ _ _ _ =>
          cases carries
          obtain ⟨visited, action, made⟩ := recorded.callers _ (recorded.sent _ allows.1) m rfl
          exact ⟨List.mem_append_left _ visited, action, next_calls peers made⟩
      | answered => cases carries
      | returned => cases carries

theorem Initial.recorded (initial : w.Initial peers) : w.Recorded := by
  refine ⟨?_, ?_, ?_⟩
  · simp [initial.inFlight]
  · simp [initial.history]
  · simp [initial.history]

theorem Arises.recorded {condition : Traffic σ → Move → Prop} (arises : w.Arises peers condition) :
    w.Recorded := by
  induction arises with
  | initial initial => exact initial.recorded
  | move move before allows _ ih => exact ih.next before.named allows

end Record

/-! Paths of requests and responses -/

section Paths

structure RequestPath (sender : NodeId) (m : ChainRequest) : Prop where
  begins : m.path.head? = some m.originator
  simple : m.path.Nodup
  stops : m.path.getLast? = some sender
  limited : 0 < m.hopLimit → m.path.length ≤ m.hopLimit.toNat

variable {σ : Type} {peers : Peers} {w : Traffic σ} {move : Move} {m : ChainResponse}

def Mutual (w : Traffic σ) (first second : NodeId) : Prop :=
  first ∈ (w.nodes second).neighbors ∧ second ∈ (w.nodes first).neighbors

structure RequestSound (w : Traffic σ) (sent : Sent) (m : ChainRequest) : Prop where
  path : RequestPath sent.datagram.sender m
  fresh : sent.destination ∉ m.path
  known : sent.destination ∈ (w.nodes sent.datagram.sender).neighbors
  linked : m.path.IsChain w.Mutual

/-- A request led through the node to which the response is sent: the response's path is the part
of the request's path before that node. -/
def Retraces (flights : List Flight) (response : Flight) (m : ChainResponse) : Prop :=
  ∃ request ∈ flights, ∃ r, request.call = response.call ∧
    request.sent.datagram.payload = .chainRequest r ∧ r.originator = m.originator ∧ ∃ rest,
    r.path = m.path ++ response.sent.destination :: rest

structure Routed (w : Traffic σ) : Prop extends Recorded w where
  requests : ∀ flight ∈ w.history, ∀ m, flight.sent.datagram.payload = .chainRequest m →
    w.RequestSound flight.sent m
  responses : ∀ flight ∈ w.history, ∀ m, flight.sent.datagram.payload = .chainResponse m →
    Retraces w.history flight m ∧
    flight.sent.datagram.sender ∈ (w.nodes flight.sent.destination).neighbors

theorem Mutual.mono {w' : Traffic σ} {first second : NodeId} (keeps : w.KeepsNeighbors w')
    (mutual' : w.Mutual first second) : w'.Mutual first second :=
  ⟨keeps _ _ mutual'.1, keeps _ _ mutual'.2⟩

theorem RequestSound.mono {w' : Traffic σ} {sent : Sent} {m : ChainRequest}
    (keeps : w.KeepsNeighbors w') (sound : w.RequestSound sent m) : w'.RequestSound sent m where
  path := sound.path
  fresh := sound.fresh
  known := keeps _ _ sound.known
  linked := sound.linked.imp fun _ _ => Mutual.mono keeps

theorem Retraces.append {flights : List Flight} {response : Flight}
    (retraces : Retraces flights response m) (more : List Flight) :
    Retraces (flights ++ more) response m := by
  obtain ⟨request, member, found⟩ := retraces
  exact ⟨request, List.mem_append_left more member, found⟩

theorem Causes.request {sent : Sent} {m : ChainRequest} (routed : w.Routed)
    (allows : w.Allows peers move) (causes : w.Causes move sent)
    (carries : sent.datagram.payload = .chainRequest m) : w.RequestSound sent m := by
  cases causes with
  | notified => cases carries
  | @asked id hop _ m mine begins other known =>
      cases carries
      refine ⟨⟨by simp [begins, mine], by simp [begins], by simp [begins], fun limited =>
        ?_⟩, by simp [begins, other], known, by simp [begins]⟩
      rw [begins]
      exact UInt32.lt_iff_toNat_lt.mp limited
  | @forwarded call id sender hop m bytes heard unvisited allowed other fresh known =>
      cases carries
      obtain ⟨path, -, back, linked⟩ := routed.requests _ (routed.sent _ allows.1) m rfl
      refine ⟨⟨?_, ?_, by simp, fun limited => ?_⟩, by simp [fresh, other], known, ?_⟩
      · simp [path.begins]
      · rw [List.nodup_append]
        refine ⟨path.simple, by simp, ?_⟩
        rintro node listed _ (⟨⟩ | ⟨_, ⟨⟩⟩) rfl
        exact unvisited listed
      · have short := allowed limited
        simp only [List.length_append, List.length_singleton]
        omega
      · refine List.isChain_append.mpr ⟨linked, by simp, ?_⟩
        rintro node last _ ⟨⟩
        obtain rfl : sender = node := Option.mem_unique path.stops last
        exact ⟨heard, back⟩
  | answered => cases carries
  | returned => cases carries

theorem Causes.response {sent : Sent} (routed : w.Routed) (allows : w.Allows peers move)
    (causes : w.Causes move sent) (carries : sent.datagram.payload = .chainResponse m) :
    Retraces w.history ⟨w.callOf move, sent⟩ m ∧
    sent.datagram.sender ∈ (w.nodes sent.destination).neighbors := by
  cases causes with
  | notified => cases carries
  | asked => cases carries
  | forwarded => cases carries
  | @answered call id sender previous r chain bytes last =>
      cases carries
      have asked := routed.sent _ allows.1
      have sound := routed.requests _ asked r rfl
      refine ⟨⟨_, asked, r, rfl, rfl, rfl, [], ?_⟩, ?_⟩
      · exact (List.dropLast_append_getLast? previous last).symm
      · obtain rfl : sender = previous := Option.mem_unique sound.path.stops last
        exact sound.known
  | @returned call id sender previous m chain bytes last =>
      cases carries
      obtain ⟨⟨request, asked, r, sameCall, carries, home, rest, split⟩, -⟩ :=
        routed.responses _ (routed.sent _ allows.1) m rfl
      have path : m.path = m.path.dropLast ++ [previous] :=
        (List.dropLast_append_getLast? previous last).symm
      have turned : r.path = m.path.dropLast ++ previous :: id :: rest := by
        rw [split, path]
        simp
      refine ⟨⟨request, asked, r, sameCall, carries, home, id :: rest, turned⟩, ?_⟩
      have linked := (routed.requests request asked r carries).linked
      rw [turned] at linked
      exact (List.isChain_cons_cons.mp (List.isChain_append.mp linked).2.1).1.2

theorem Routed.home_iff (routed : w.Routed) {flight : Flight} (member : flight ∈ w.inFlight)
    (carries : flight.sent.datagram.payload = .chainResponse m) :
    m.path = [] ↔ flight.sent.destination = m.originator := by
  obtain ⟨⟨request, asked, r, -, requested, home, rest, split⟩, -⟩ :=
    routed.responses flight (routed.sent flight member) m carries
  obtain ⟨begins, simple, -⟩ := (routed.requests request asked r requested).path
  rw [split] at begins simple
  rw [home] at begins
  constructor
  · intro empty
    simpa [empty] using begins
  · intro arrived
    cases path : m.path with
    | nil => rfl
    | cons first others =>
        rw [path] at begins simple
        simp only [List.cons_append, List.head?_cons, Option.some.injEq] at begins
        simp [begins, arrived] at simple

variable [Store σ] [LawfulStore σ]

theorem Routed.next (routed : w.Routed) (named : ∀ id, NodeWithin .any (w.nodes id))
    (allows : w.Allows peers move) (keeps : w.KeepsNeighbors (w.next peers move)) :
    (w.next peers move).Routed := by
  have causes := emits_causes allows named
  refine ⟨routed.toRecorded.next named allows, fun flight member m carries => ?_,
    fun flight member m carries => ?_⟩
  · rcases List.mem_append.mp member with old | new
    · exact (routed.requests flight old m carries).mono keeps
    · obtain ⟨sent, emitted, rfl⟩ := List.mem_map.mp new
      exact ((causes sent emitted).request routed allows carries).mono keeps
  · rcases List.mem_append.mp member with old | new
    · obtain ⟨retraces, known⟩ := routed.responses flight old m carries
      exact ⟨retraces.append _, keeps _ _ known⟩
    · obtain ⟨sent, emitted, rfl⟩ := List.mem_map.mp new
      obtain ⟨retraces, known⟩ := (causes sent emitted).response routed allows carries
      exact ⟨retraces.append _, keeps _ _ known⟩

theorem Initial.routed (initial : w.Initial peers) : w.Routed := by
  refine ⟨initial.recorded, ?_, ?_⟩
  · simp [initial.history]
  · simp [initial.history]

theorem Reached.routed (reached : w.Reached peers) : w.Routed := by
  induction reached with
  | initial initial => exact initial.routed
  | move move before allows keeps ih => exact ih.next before.named allows keeps

theorem Routed.passes_on (routed : w.Routed) (named : ∀ id, NodeWithin .any (w.nodes id))
    {call : Nat} {id sender next : NodeId} {bytes : Bytes} {chain : EventChain}
    (member : ⟨call, ⟨id, ⟨sender, .chainResponse m⟩⟩⟩ ∈ w.inFlight)
    (read : decode ⟨bytes, (peers.env id).wordBits⟩ = .ok ⟨sender, .chainResponse m⟩)
    (last : m.path.getLast? = some next)
    (extended : Extended (peers.env id) (w.nodes id).store sender m.chain chain) :
    ⟨call, ⟨next, ⟨id, .chainResponse ⟨m.originator, chain, m.path.dropLast⟩⟩⟩⟩ ∈
      (w.next peers (.deliver ⟨call, ⟨id, ⟨sender, .chainResponse m⟩⟩⟩ bytes)).inFlight := by
  obtain ⟨⟨request, asked, r, -, requested, -, rest, split⟩, heard⟩ :=
    routed.responses _ (routed.sent _ member) m rfl
  have path : m.path = m.path.dropLast ++ [next] := (List.dropLast_append_getLast? next last).symm
  -- the request came to this node from `next`, so `next` is known here
  have known : next ∈ (w.nodes id).neighbors := by
    have linked := (routed.requests request asked r requested).linked
    have turned : r.path = m.path.dropLast ++ next :: id :: rest := by
      rw [split, path]
      simp
    rw [turned] at linked
    exact (List.isChain_cons_cons.mp (List.isChain_append.mp linked).2.1).1.1
  have foreign : m.originator ≠ (peers.env id).id := by
    rw [peers.identified id]
    intro home
    have empty := (routed.home_iff member rfl).mpr home.symm
    simp [empty] at last
  have heardOf : (w.nodes id).neighbors[sender]? = some (w.nodes id).neighbors[sender] :=
    ExtTreeMap.getElem?_eq_some_getElem heard
  have knownAs : (w.nodes id).neighbors[next]? = some (w.nodes id).neighbors[next] :=
    ExtTreeMap.getElem?_eq_some_getElem known
  have returned : (w.stateAfter peers id (.onPacketReceived bytes)).sent = (w.nodes id).sent ++
      [⟨next, ⟨id, .chainResponse ⟨m.originator, chain, m.path.dropLast⟩⟩⟩] := by
    rw [← ((named id).neighbors sender _ heardOf).1] at extended
    have returns := onPacketReceived_returns read heardOf foreign extended last knownAs
    rw [((named id).neighbors next _ knownAs).1, peers.identified id] at returns
    exact ends_final.mp (returns.always fun _ _ same => same)
  refine Multiset.mem_add.mpr (Or.inr (Multiset.mem_coe.mpr (List.mem_map.mpr ⟨_, ?_, rfl⟩)))
  simp [emits, Move.performed, returned]

end Paths

/-! Runs in which each datagram is delivered at most once -/

section Runs

instance : Finite NodeId := by
  let address (id : NodeId) : List.Vector UInt8 16 := ⟨id.bytes, id.size⟩
  exact Finite.of_injective address fun _ _ same =>
    NodeId.ext_bytes (congrArg List.Vector.toList same)

theorem length_le_card {path : List NodeId} (simple : path.Nodup) :
    path.length ≤ Nat.card NodeId := by
  have := Fintype.ofFinite NodeId
  rw [Nat.card_eq_fintype_card]
  exact simple.length_le_card

/-- A bound for the hops that are still to come: a request can visit every node and each of them is
on the way back. -/
noncomputable def rank (flight : Flight) : ℕ :=
  match flight.sent.datagram.payload with
  | .clockNotification _ => 0
  | .chainRequest m => 2 * Nat.card NodeId - m.path.length
  | .chainResponse m => m.path.length

variable {σ : Type} {peers : Peers} {w : Traffic σ} {move : Move} {call : Nat}

theorem Causes.rank_lt {flight : Flight} {bytes : Bytes} {sent : Sent} (routed : w.Routed)
    (flying : flight ∈ w.inFlight) (causes : w.Causes (.deliver flight bytes) sent) :
    rank ⟨flight.call, sent⟩ < rank flight := by
  cases causes with
  | @forwarded call id sender hop m bytes _ unvisited =>
      have simple := (routed.requests _ (routed.sent _ flying) m rfl).path.simple
      have longer : (m.path ++ [id]).Nodup := by
        simp [List.nodup_append, simple]
        exact fun node listed same => unvisited (same ▸ listed)
      have bound := length_le_card longer
      simp only [rank, List.length_append, List.length_singleton] at bound ⊢
      omega
  | @answered call id sender previous m chain bytes last =>
      have bound := length_le_card (routed.requests _ (routed.sent _ flying) m rfl).path.simple
      have nonempty := List.length_pos_of_mem (List.mem_of_getLast? last)
      simp only [rank, List.length_dropLast]
      omega
  | @returned call id sender previous m chain bytes last =>
      have nonempty := List.length_pos_of_mem (List.mem_of_getLast? last)
      simp only [rank, List.length_dropLast]
      omega

noncomputable def pending (w : Traffic σ) (call : Nat) : Multiset ℕ :=
  (w.inFlight.filter fun flight => flight.call = call).map rank

variable [Store σ] [LawfulStore σ]

theorem pending_next (routed : w.Routed) (named : ∀ id, NodeWithin .any (w.nodes id))
    (allows : w.Allows peers move) (begun : call < w.calls.length)
    (once : ∀ flight, move ≠ .duplicate flight) :
    ((w.next peers move).pending call = w.pending call ∧ ∀ flight bytes,
      move = .deliver flight bytes → flight.call ≠ call) ∨
      Multiset.IsDershowitzMannaLT ((w.next peers move).pending call) (w.pending call) := by
  have causes := emits_causes allows named
  have labelled :
      ∀ made ∈ (((w.emits peers move).map (Flight.mk (w.callOf move)) : List Flight) :
        Multiset Flight),
      made.call = w.callOf move := by
    intro made member
    obtain ⟨sent, -, rfl⟩ := List.mem_map.mp (Multiset.mem_coe.mp member)
    rfl
  cases move with
  | act id action =>
      refine Or.inl ⟨?_, nofun⟩
      have others :
          ∀ made ∈ (((w.emits peers (.act id action)).map
            (Flight.mk w.calls.length) : List Flight) :
          Multiset Flight), made.call ≠ call := by
        intro made member
        rw [labelled made member]
        exact Nat.ne_of_gt begun
      simp only [pending, next, remaining, callOf, Multiset.filter_add]
      rw [Multiset.filter_eq_nil.mpr others, add_zero]
  | deliver flight bytes =>
      by_cases mine : flight.call = call
      · right
        simp only [pending, next, remaining]
        rw [Descent.filter_replace_of_pos allows.1 mine]
        refine Descent.replace_falls (Multiset.mem_filter.mpr ⟨allows.1, mine⟩) fun made member =>
          ?_
        obtain ⟨sent, emitted, rfl⟩ :=
          List.mem_map.mp (Multiset.mem_coe.mp (Multiset.mem_filter.mp member).1)
        exact (causes sent emitted).rank_lt routed allows.1
      · refine Or.inl ⟨?_, ?_⟩
        · simp only [pending, next, remaining]
          rw [Descent.filter_replace_of_neg allows.1 mine]
          intro made member
          rw [labelled made member]
          exact mine
        · rintro _ _ ⟨⟩
          exact mine
  | lose flight =>
      by_cases mine : flight.call = call
      · right
        simp only [pending, next, remaining]
        rw [Descent.filter_replace_of_pos allows mine]
        refine Descent.replace_falls (Multiset.mem_filter.mpr ⟨allows, mine⟩) fun made member => ?_
        simp [emits, Move.performed] at member
      · refine Or.inl ⟨?_, nofun⟩
        simp only [pending, next, remaining]
        rw [Descent.filter_replace_of_neg allows mine]
        intro made member
        simp [emits, Move.performed] at member
  | duplicate flight => exact (once flight rfl).elim

structure Unfolds (peers : Peers) (run : ℕ → Traffic σ) (moves : ℕ → Move) : Prop where
  allowed : ∀ n, (run n).Allows peers (moves n)
  keeps : ∀ n, (run n).KeepsNeighbors (run (n + 1))
  steps : ∀ n, run (n + 1) = (run n).next peers (moves n)
  once : ∀ n flight, moves n ≠ .duplicate flight

variable {run : ℕ → Traffic σ} {moves : ℕ → Move}

theorem Unfolds.reached (unfolds : Unfolds peers run moves) (start : (run 0).Reached peers)
    (n : ℕ) : (run n).Reached peers := by
  induction n with
  | zero => exact start
  | succ n ih =>
      have keeps := unfolds.keeps n
      rw [unfolds.steps n] at keeps ⊢
      exact .move (moves n) ih (unfolds.allowed n) keeps

omit [LawfulStore σ] in
theorem Unfolds.begun (unfolds : Unfolds peers run moves) {i : ℕ}
    (begun : call < (run i).calls.length) (n : ℕ) : call < (run (i + n)).calls.length := by
  induction n with
  | zero => exact begun
  | succ n ih =>
      rw [Nat.add_succ, unfolds.steps]
      exact Nat.lt_of_lt_of_le ih calls_le_next

/-- However long the run, a call causes finitely many deliveries. -/
theorem Unfolds.finite_deliveries (unfolds : Unfolds peers run moves)
    (start : (run 0).Reached peers) (call : Nat) :
    {n | ∃ flight bytes, moves n = .deliver flight bytes ∧ flight.call = call}.Finite := by
  have reached := unfolds.reached start
  have routed := fun n => Reached.routed (reached n)
  by_cases made : ∃ i, call < (run i).calls.length
  · obtain ⟨i, begun⟩ := made
    have progress : ∀ n, ((run (i + n + 1)).pending call = (run (i + n)).pending call ∧
        ∀ flight bytes, moves (i + n) = .deliver flight bytes → flight.call ≠ call) ∨
        Multiset.IsDershowitzMannaLT ((run (i + n + 1)).pending call)
        ((run (i + n)).pending call) := by
      intro n
      rw [unfolds.steps]
      exact pending_next (routed _) (reached _).named (unfolds.allowed _) (unfolds.begun begun n)
        (unfolds.once _)
    have falls := Descent.finite_falls Multiset.wellFounded_isDershowitzMannaLT
      (fun n => (run (i + n)).pending call) fun n => (progress n).imp_left And.left
    refine ((Set.finite_Iio i).union (falls.image (i + ·))).subset ?_
    rintro n ⟨flight, bytes, delivers, mine⟩
    rcases Nat.lt_or_ge n i with early | late
    · exact Or.inl early
    · obtain ⟨k, rfl⟩ := Nat.exists_eq_add_of_le late
      refine Or.inr ⟨k, (progress k).resolve_left ?_, rfl⟩
      exact fun stays => stays.2 flight bytes delivers mine
  · refine Set.finite_empty.subset ?_
    rintro n ⟨flight, bytes, delivers, rfl⟩
    have allows := unfolds.allowed n
    rw [delivers] at allows
    exact made ⟨n, (routed n).numbered flight ((routed n).sent flight allows.1)⟩

end Runs

/-! Scenarios -/

section Scenarios

variable {σ : Type} [Store σ] {peers : Peers} {w : Traffic σ} {move : Move}

def Retains (peers : Peers) (w : Traffic σ) (move : Move) : Prop :=
  match move.performed with
  | some (id, action) => ∀ neighbor ∈ (w.nodes id).neighbors.keys,
      neighbor ∈ (w.stateAfter peers id action).neighbors
  | none => True

instance (peers : Peers) (w : Traffic σ) (move : Move) : Decidable (w.Retains peers move) :=
  match performed : move.performed with
  | some (id, action) =>
      decidable_of_iff (∀ neighbor ∈ (w.nodes id).neighbors.keys,
        neighbor ∈ (w.stateAfter peers id action).neighbors) (by simp [Retains, performed])
  | none => isTrue (by simp [Retains, performed])

theorem Retains.keeps (retains : w.Retains peers move) : w.KeepsNeighbors (w.next peers move) := by
  intro id neighbor known
  rcases next_node peers w move id with ⟨-, same⟩ | ⟨action, performed, same⟩
  · rwa [same]
  · simp only [Retains, performed] at retains
    rw [same]
    exact retains neighbor (ExtTreeMap.mem_keys.mpr known)

instance {σ : Type} (peers : Peers) (w : Traffic σ) (move : Move) :
    Decidable (w.Allows peers move) :=
  match move with
  | .act _ action =>
      match action with
      | .onPacketReceived bytes => isFalse fun allows => allows bytes rfl
      | .start | .addNeighbor _ | .learnRoute .. | .learnRouteAt .. | .publishEvent
          _ | .createClockEvent _
      | .discoverEventChain .. | .discoverEventBounds .. | .discoverEventOrder .. | .fireTimer
          _ | .setClock _ | .gc
      | .hydrateFromStore | .restart | .restore _ => isTrue nofun
  | .deliver flight bytes =>
      match read : decode ⟨bytes, (peers.env flight.sent.destination).wordBits⟩ with
      | .ok datagram => decidable_of_iff (flight ∈ w.inFlight ∧ datagram = flight.sent.datagram)
          ⟨fun held => ⟨held.1, fun _ decoded => by cases read.symm.trans decoded; exact held.2⟩,
            fun allows => ⟨allows.1, allows.2 _ read⟩⟩
      | .error _ => decidable_of_iff (flight ∈ w.inFlight)
          ⟨fun held => ⟨held, fun _ decoded => nomatch read.symm.trans decoded⟩,
            fun allows => allows.1⟩
  | .lose flight => decidable_of_iff (flight ∈ w.inFlight) Iff.rfl
  | .duplicate flight => decidable_of_iff (flight ∈ w.inFlight) Iff.rfl

def play (peers : Peers) (w : Traffic σ) : List (Traffic σ → Move) → Traffic σ
  | [] => w
  | move :: rest => play peers (w.next peers (move w)) rest

def Admits (peers : Peers) (condition : Traffic σ → Move → Prop) (w : Traffic σ) :
    List (Traffic σ → Move) → Prop
  | [] => True
  | move :: rest => w.Allows peers (move w) ∧ condition w (move w) ∧
      Admits peers condition (w.next peers (move w)) rest

instance decidableAdmits (peers : Peers) (condition : Traffic σ → Move → Prop)
    [∀ w move, Decidable (condition w move)] : (w : Traffic σ) → (moves : List (Traffic σ → Move)) →
    Decidable (w.Admits peers condition moves)
  | _, [] => isTrue trivial
  | w, move :: rest =>
      have : Decidable (Admits peers condition (w.next peers (move w)) rest) :=
        decidableAdmits peers condition _ rest
      inferInstanceAs (Decidable (_ ∧ _ ∧ _))

theorem Arises.play [LawfulStore σ] {condition : Traffic σ → Move → Prop}
    {moves : List (Traffic σ → Move)} (arises : w.Arises peers condition)
    (admits : w.Admits peers condition moves) :
    (w.play peers moves).Arises peers condition := by
  induction moves generalizing w with
  | nil => exact arises
  | cons move rest ih => exact ih (.move (move w) arises admits.1 admits.2.1) admits.2.2

theorem Arises.mono [LawfulStore σ] {condition weaker : Traffic σ → Move → Prop}
    (arises : w.Arises peers condition) (implies : ∀ w move, condition w move → weaker w move) :
    w.Arises peers weaker := by
  induction arises with
  | initial initial => exact .initial initial
  | move move _ allows holds ih => exact .move move ih allows (implies _ _ holds)

omit [Store σ] in
def calling (id : UInt64) (action : NodeAction) (_ : Traffic σ) : Move := .act (.ofUInt64 id) action

omit [Store σ] in
def delivering (ago : Nat) (w : Traffic σ) : Move :=
  match w.history.reverse[ago]? with
  | some flight => .deliver flight (encode flight.sent.datagram)
  | none => .act default .gc

end Scenarios

/-- Requests never loop, responses find the way home, and every discovery comes to an end. -/
theorem responses_find_home {σ : Type} [Store σ] [LawfulStore σ] {peers : Peers} {w : Traffic σ}
    (reached : w.Reached peers) :
    (∀ flight ∈ w.inFlight, ∀ m, flight.sent.datagram.payload = .chainRequest m →
      RequestPath flight.sent.datagram.sender m) ∧
    (∀ flight ∈ w.inFlight, ∀ m, flight.sent.datagram.payload = .chainResponse m →
      (∃ request ∈ w.history, ∃ r, request.call = flight.call ∧
        request.sent.datagram.payload = .chainRequest r ∧
        r.originator = m.originator ∧ RequestPath request.sent.datagram.sender r ∧
        ∃ rest, r.path = m.path ++ flight.sent.destination :: rest) ∧
      (m.path = [] ↔ flight.sent.destination = m.originator) ∧
      ∀ bytes chain previous,
        decode ⟨bytes, (peers.env flight.sent.destination).wordBits⟩ = .ok flight.sent.datagram →
        m.path.getLast? = some previous →
        Extended (peers.env flight.sent.destination) (w.nodes flight.sent.destination).store
          flight.sent.datagram.sender m.chain chain →
        ⟨flight.call,
          ⟨previous,
            ⟨flight.sent.destination, .chainResponse ⟨m.originator, chain, m.path.dropLast⟩⟩⟩⟩ ∈
          (w.next peers (.deliver flight bytes)).inFlight) ∧
    ∀ (run : ℕ → Traffic σ) (moves : ℕ → Move), run 0 = w → Unfolds peers run moves → ∀ call,
      {n | ∃ flight bytes, moves n = .deliver flight bytes ∧ flight.call = call}.Finite := by
  have routed := Reached.routed reached
  refine ⟨fun flight flying m carries => ?_, fun flight flying m carries =>
    ⟨?_, routed.home_iff flying carries, ?_⟩, ?_⟩
  · exact (routed.requests flight (routed.sent flight flying) m carries).path
  · obtain ⟨⟨request, asked, r, sameCall, requested, home, retraces⟩, -⟩ :=
      routed.responses flight (routed.sent flight flying) m carries
    exact ⟨request, asked, r, sameCall, requested, home,
      (routed.requests request asked r requested).path, retraces⟩
  · obtain ⟨call, id, sender, payload⟩ := flight
    obtain rfl : payload = .chainResponse m := carries
    exact fun bytes chain previous read last extended =>
      routed.passes_on reached.named flying read last extended
  · rintro run moves rfl unfolds call
    exact unfolds.finite_deliveries reached call

def plainTraffic : Traffic InMemoryStore := ⟨fun id => .bootAt (plainPeers.env id) {} 0, 0, [], []⟩

def tickTold (id : UInt64) (neighbors : Nat) : List (Traffic InMemoryStore → Move) :=
  calling id (.createClockEvent 0) :: (List.range neighbors).map delivering

def rowMoves : List (Traffic InMemoryStore → Move) :=
  [calling 1 (.addNeighbor (.ofUInt64 2)), calling 2 (.addNeighbor (.ofUInt64 1)),
    calling 2 (.addNeighbor (.ofUInt64 3)), calling 3 (.addNeighbor (.ofUInt64 2)),
    calling 1 (.learnRoute (.ofUInt64 3) (.ofUInt64 2)),
    calling 2 (.learnRoute (.ofUInt64 3) (.ofUInt64 3))] ++
    tickTold 1 1 ++ tickTold 2 2 ++ tickTold 3 1 ++ [calling 3 (.publishEvent [7])] ++
    tickTold 3 1 ++ tickTold 2 2 ++
    tickTold 1 1

def askMoves : List (Traffic InMemoryStore → Move) :=
  let asking (w : Traffic InMemoryStore) : Move :=
    match Store.eventBySeq (w.nodes (.ofUInt64 3)).store 0 with
    | .ok event => .act (.ofUInt64 1) (.discoverEventChain event ⟨0, 100⟩ 5)
    | .error _ => .act default .gc
  [asking, delivering 0, delivering 0]

def rowTraffic : Traffic InMemoryStore := plainTraffic.play plainPeers (rowMoves ++ askMoves)

theorem plainTraffic_initial : plainTraffic.Initial plainPeers :=
  ⟨fun _ => ⟨{}, 0, InMemoryStore.within_empty _, rfl⟩, rfl, rfl, rfl⟩

theorem rowTraffic_reached : rowTraffic.Reached plainPeers := by
  have retained : rowTraffic.Arises plainPeers (Retains plainPeers) :=
    Arises.play (.initial plainTraffic_initial) (by decide +kernel)
  exact retained.mono fun _ _ => Retains.keeps

theorem responses_find_home_sample : ∃ flight ∈ rowTraffic.inFlight, ∃ m,
    flight.sent.datagram.payload = .chainResponse m ∧ m.path = [.ofUInt64 1] ∧
    ∃ request ∈ rowTraffic.history, ∃ r, request.call = flight.call ∧
      request.sent.datagram.payload = .chainRequest r ∧ r.originator = m.originator ∧
      RequestPath request.sent.datagram.sender r ∧ ∃ rest,
      r.path = .ofUInt64 1 :: .ofUInt64 2 :: rest := by
  have flying : ∃ flight ∈ rowTraffic.history.getLast?, flight ∈ rowTraffic.inFlight ∧
      flight.sent.destination = .ofUInt64 2 ∧
      flight.response.map ChainResponse.path = some [.ofUInt64 1] := by decide +kernel
  obtain ⟨-, responses, -⟩ := responses_find_home rowTraffic_reached
  revert flying responses
  generalize rowTraffic = w
  rintro ⟨flight, -, member, destination, response⟩ responses
  obtain ⟨m, found, path⟩ := Option.map_eq_some_iff.mp response
  have carries := flight.carries_response found
  obtain ⟨⟨request, asked, r, sameCall, requested, home, sound, rest, split⟩, -⟩ :=
    responses flight member m carries
  rw [path, destination] at split
  exact ⟨flight, member, m, carries, path, request, asked, r, sameCall, requested, home,
    sound, rest, split⟩

end Traffic

end Loti
