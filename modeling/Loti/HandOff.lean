import Loti.CrossLinks
import Loti.WireFormat

/-!
The response leg, hop by hop. A node that answers or passes on a response extends the chain until
both ends are linked with the node the datagram came from, and sends it to the last node of the
path. For the creator these are the same node. For a node between them they are two different
neighbors, and the chain reaches the next hop with links to it only if the clock events of the
node in between are linked with both.
-/

namespace Loti

open Std StateExcept Wire

/-- The chain that `sender` sends to `next` has an edge for it at both ends: `next` can attach a
clock event of its own below the first element, and one that references the last. -/
structure HandsOff {σ : Type} [Store σ] (w : PeerWorld σ) (sender next : NodeId)
    (chain : EventChain) : Prop where
  lower : ∃ front, chain.lowerBound.head? = some front ∧
    ∃ ce, .clockEvent ce ∈ w.log ∧ ce.creator = next ∧ ce.reference ∈ front.referencedEvents
  upper : ∃ back record, chain.upperBound.getLast? = some back ∧
    Store.clockEventByHash (w.nodes sender).store back.hash = .ok (some record) ∧
    ∃ ref ∈ record.referencingEvents, ref.creator = next

def LocalClockEvent.LinksAlike (record : LocalClockEvent) (one other : NodeId) : Prop :=
  ((∃ ref ∈ record.referencedEvents, ref.creator = one) → ∃ ref ∈ record.referencedEvents,
    ref.creator = other) ∧ ((∃ ref ∈ record.referencingEvents, ref.creator = one) →
    ∃ ref ∈ record.referencingEvents, ref.creator = other)

instance (record : LocalClockEvent) (one other : NodeId) :
    Decidable (record.LinksAlike one other) :=
  inferInstanceAs (Decidable (_ ∧ _))

/-- When the action passes a response on, the node's clock events are linked with the next hop
wherever they are linked with the node that the response came from. -/
def LinksAcross {σ : Type} [Store σ] (env : NodeEnv) (s : NodeState σ) : NodeAction → Prop
  | .onPacketReceived bytes => ∀ sender m next,
      decode ⟨bytes, env.wordBits⟩ = .ok ⟨sender, .chainResponse m⟩ → m.originator ≠ env.id →
      m.path.getLast? = some next → ∀ record ∈ Store.loadClockEvents s.store,
      record.LinksAlike sender next
  | _ => True

section Response

variable {σ : Type} [Store σ] [LawfulStore σ] [DagStore σ] {peers : Peers}
    {w : PeerWorld σ} {id : NodeId}
  {action : NodeAction} {sent : Sent} {m : ChainResponse}

theorem Extended.handsOff (consistent : peers.Consistent w) (distinct : Distinct w.log)
    {neighbor next : NodeId} {base chain : EventChain} (woven : Woven w.log base) (away : next ≠ id)
    (alike : ∀ record ∈ Store.loadClockEvents (w.nodes id).store, record.LinksAlike neighbor next)
    (extended : Extended (peers.env id) (w.nodes id).store neighbor base chain) :
    HandsOff w id next chain := by
  obtain ⟨-, ⟨front, low, liveFront, begins, below⟩, back, high, liveBack, ends, above⟩ :=
    extended.woven consistent distinct woven
  have stored : ∀ {entry}, entry ∈ (DagStore.dag (w.nodes id).store).clocks →
    entry.2.LinksAlike neighbor next := by
    intro entry live
    refine alike entry.2 ?_
    rw [DagStore.loadClockEvents_eq (consistent.sound id)]
    exact List.mem_map_of_mem live
  refine ⟨⟨_, begins, ?_⟩, ⟨_, back, ends, consistent.lookup liveBack, (stored liveBack).2 above⟩⟩
  obtain ⟨ref, listed, rfl⟩ := (stored liveFront).1 below
  have held := consistent.live liveFront
  obtain ⟨k, placed⟩ := List.mem_iff_getElem?.mp held.1
  obtain ⟨object, earlier, rfl, foreign⟩ := consistent.founded k _ placed ref listed
  -- What a clock event mentions of another node is a clock event.
  obtain ⟨ce, rfl⟩ := foreign fun same => away (same.trans held.2.1)
  exact ⟨ce, List.mem_of_mem_take earlier, rfl, listed⟩

theorem SentBy.handsOff (consistent : peers.Consistent w) (distinct : Distinct w.log)
    (weaves : w.Weaves) (allows : peers.Allows w id action)
    (across : LinksAcross (peers.env id) (w.nodes id) action)
    (sentBy : SentBy (peers.env id) (w.nodes id) action sent)
    (carries : sent.datagram.payload = .chainResponse m) :
    HandsOff w id sent.destination m.chain := by
  have within := consistent.records id
  have apart : ∀ {path : List NodeId} {next}, id ∉ path → path.getLast? = some next → next ≠ id :=
    fun unvisited last same => unvisited (same ▸ List.mem_of_getLast? last)
  rcases sentBy.response carries with ⟨neighbor, request, own, ⟨bytes, sender, rfl, decoded, known⟩,
    found, response⟩ | ⟨neighbor, incoming, ⟨bytes, sender, rfl, decoded, known⟩, foreign, response⟩
  · obtain ⟨next, chain, last, extended, rfl⟩ := response.path within
    obtain rfl := Payload.chainResponse.inj carries
    obtain ⟨-, unvisited, path⟩ := consistent.honest sender _ (allows _ _ decoded)
    -- A request comes from the last node of its path, which is where the answer goes.
    obtain rfl : sender = next := Option.mem_unique path last
    rw [(within.neighbors sender neighbor known).1] at extended
    have held := LawfulStore.eventByHash_within within.store found
    exact extended.handsOff consistent distinct (woven_event held.1) (apart unvisited last)
      fun record _ => ⟨fun linked => linked, fun linked => linked⟩
  · obtain ⟨next, chain, last, extended, rfl⟩ := response.path within
    obtain rfl := Payload.chainResponse.inj carries
    have sentOn := allows _ _ decoded
    obtain ⟨-, unvisited⟩ := consistent.honest sender _ sentOn
    rw [(within.neighbors sender neighbor known).1] at extended
    exact extended.handsOff consistent distinct (weaves sender _ sentOn _ rfl)
      (apart unvisited last) (across sender incoming next decoded foreign last)

/-- Every response that a step sends hands off to the neighbor it goes to, if the node that passes
one on is linked with the next hop wherever it is with the previous one. -/
theorem responses_hand_off (reached : peers.Reachable w) (distinct : Distinct w.log)
    (allows : peers.Allows w id action) (across : LinksAcross (peers.env id) (w.nodes id) action) :
    ∀ sent ∈ ((peers.act w id action).nodes id).sent.drop (w.nodes id).sent.length, ∀ m,
      sent.datagram.payload = .chainResponse m → HandsOff w id sent.destination m.chain := by
  intro sent member m carries
  obtain ⟨new, grown, reasons⟩ :
      ∃ new, ((peers.act w id action).nodes id).sent = (w.nodes id).sent ++ new ∧
      ∀ sent ∈ new, SentBy (peers.env id) (w.nodes id) action sent := Peers.sent_act
  rw [grown, List.drop_left] at member
  exact (reasons sent member).handsOff (reached.consistent distinct) distinct
    (reached.weaves distinct) allows across carries

end Response

/-! Node 2 stands between node 1, which asks, and node 3, which has published an event. -/

section Line

abbrev Moves := List (PeerWorld InMemoryStore → NodeId × NodeAction)

def lineMoves : Moves :=
  [acting 1 (.addNeighbor (.ofUInt64 2)), acting 2 (.addNeighbor (.ofUInt64 1)),
    acting 2 (.addNeighbor (.ofUInt64 3)), acting 3 (.addNeighbor (.ofUInt64 2)),
    acting 1 (.learnRoute (.ofUInt64 3) (.ofUInt64 2)),
    acting 2 (.learnRoute (.ofUInt64 3) (.ofUInt64 3)), acting 3 (.setClock 1)]

def askAlong : Moves :=
  [fun w =>
    acting 1 (.discoverEventChain ((w.log.filterMap Signed.published?).headD default) .all 0) w,
    arriving 1 0, arriving 2 0]

def lastResponse (s : NodeState InMemoryStore) : ChainResponse :=
  match s.sent.getLast? with
  | some ⟨_, ⟨_, .chainResponse m⟩⟩ => m
  | _ => ⟨default, ⟨default, [], []⟩, []⟩

def answerInFlight (w : PeerWorld InMemoryStore) : Datagram :=
  ⟨.ofUInt64 3, .chainResponse (lastResponse (w.nodes (.ofUInt64 3)))⟩

def lockstepMoves : Moves :=
  lineMoves ++ ticking 1 ++ ticking 3 ++ [acting 2 (.createClockEvent 0), arriving 2 1,
    arriving 2 0] ++ ticking 3 ++ ticking 1 ++ [acting 3 (.publishEvent [7])] ++ ticking 3 ++
    [acting 2 (.createClockEvent 0), arriving 2 1, arriving 2 0] ++ ticking 3 ++
    ticking 1 ++ askAlong

def skewedMoves : Moves :=
  lineMoves ++ ticking 3 ++ ticking 2 ++ ticking 3 ++ [acting 3 (.publishEvent [7])] ++ ticking 3 ++
    ticking 2 ++ ticking 3 ++ askAlong

def answeredWorld (moves : Moves) : PeerWorld InMemoryStore := plainPeers.play plainStart moves

theorem answeredWorld_reachable {moves : Moves} (admits : plainPeers.Admits plainStart moves) :
    plainPeers.Reachable (answeredWorld moves) :=
  ⟨plainStart, plainStart_initial, .play admits⟩

def passing (w : PeerWorld InMemoryStore) : NodeAction :=
  .onPacketReceived (encode (answerInFlight w))

def passedOn (w : PeerWorld InMemoryStore) : NodeState InMemoryStore :=
  final (receive (plainPeers.env (.ofUInt64 2)) (answerInFlight w)) (w.nodes (.ofUInt64 2))

def Passes (w : PeerWorld InMemoryStore) : Prop :=
  ((w.log.map Signed.hash).Nodup ∧ ∀ object ∈ w.log, object.hash ≠ []) ∧
    ⟨.ofUInt64 2, answerInFlight w⟩ ∈ (w.nodes (.ofUInt64 3)).sent ∧
    ((answerInFlight w).payload.Fits ∧ (⟨encode (answerInFlight w), 64⟩ : Buffer).Addressable) ∧
    (lastResponse (w.nodes (.ofUInt64 3))).path.getLast? = some (.ofUInt64 1) ∧
    (⟨.ofUInt64 1, ⟨.ofUInt64 2, .chainResponse (lastResponse (passedOn w))⟩⟩ : Sent) ∈
      (passedOn w).sent.drop (w.nodes (.ofUInt64 2)).sent.length

instance (w : PeerWorld InMemoryStore) : Decidable (Passes w) := inferInstanceAs (Decidable (_ ∧ _))

section Passing

variable {w : PeerWorld InMemoryStore}
  (fits : (answerInFlight w).payload.Fits ∧ (⟨encode (answerInFlight w), 64⟩ : Buffer).Addressable)

include fits

theorem decode_passing : decode ⟨encode (answerInFlight w), 64⟩ = .ok (answerInFlight w) :=
  decode_of_encoded fits.1 fits.2

theorem act_passing : (plainPeers.act w (.ofUInt64 2) (passing w)).nodes
    (.ofUInt64 2) = passedOn w := by
  have decoded : decode ⟨encode (answerInFlight w), (plainPeers.env (.ofUInt64 2)).wordBits⟩ =
      .ok (answerInFlight w) := decode_passing fits
  rw [Peers.act_self, passedOn, passing]
  simp only [perform, onPacketReceived, decoded]

theorem allows_passing (sent : ⟨.ofUInt64 2, answerInFlight w⟩ ∈ (w.nodes (.ofUInt64 3)).sent) :
    plainPeers.Allows w (.ofUInt64 2) (passing w) := by
  intro sender payload read
  cases (decode_passing fits).symm.trans read
  exact sent

theorem linksAcross_passing {next : NodeId}
    (last : (lastResponse (w.nodes (.ofUInt64 3))).path.getLast? = some next)
    (alike : ∀ record ∈ Store.loadClockEvents (w.nodes (.ofUInt64 2)).store,
      record.LinksAlike (.ofUInt64 3) next) :
    LinksAcross (plainPeers.env (.ofUInt64 2)) (w.nodes (.ofUInt64 2)) (passing w) := by
  intro sender m hop read _ onward
  cases (decode_passing fits).symm.trans read
  cases last.symm.trans onward
  exact alike

omit fits in
theorem Passes.responds (passes : Passes w) :
    (⟨.ofUInt64 1, ⟨.ofUInt64 2, .chainResponse (lastResponse (passedOn w))⟩⟩ : Sent) ∈
      ((plainPeers.act w (.ofUInt64 2) (passing w)).nodes (.ofUInt64 2)).sent.drop
      (w.nodes (.ofUInt64 2)).sent.length := by
  obtain ⟨-, -, fits, -, relayed⟩ := passes
  rw [act_passing fits]
  exact relayed

end Passing

end Line

theorem lockstep_passes : plainPeers.Admits plainStart lockstepMoves ∧
    Passes (answeredWorld lockstepMoves) ∧ ∀ record ∈ Store.loadClockEvents
      ((answeredWorld lockstepMoves).nodes (.ofUInt64 2)).store,
      record.LinksAlike (.ofUInt64 3) (.ofUInt64 1) := by
  decide +kernel

theorem responses_hand_off_sample : HandsOff (answeredWorld lockstepMoves) (.ofUInt64 2)
    (.ofUInt64 1) (lastResponse (passedOn (answeredWorld lockstepMoves))).chain := by
  obtain ⟨admits, passes, alike⟩ := lockstep_passes
  have responds := passes.responds
  obtain ⟨distinct, sent, fits, last, -⟩ := passes
  exact responses_hand_off (answeredWorld_reachable admits) ⟨distinct.1, distinct.2⟩
    (allows_passing fits sent) (linksAcross_passing fits last alike) _ responds _ rfl

theorem skewed_passes : plainPeers.Admits plainStart skewedMoves ∧
    Passes (answeredWorld skewedMoves) ∧
      ∀ front ∈ (lastResponse (passedOn (answeredWorld skewedMoves))).chain.lowerBound.head?,
      ∀ ref ∈ front.referencedEvents, ref.creator ≠ .ofUInt64 1 := by
  decide +kernel

theorem relay_without_link : plainPeers.Reachable (answeredWorld skewedMoves) ∧
    Distinct (answeredWorld skewedMoves).log ∧ plainPeers.Allows (answeredWorld skewedMoves)
    (.ofUInt64 2) (passing (answeredWorld skewedMoves)) ∧
    ∃ m : ChainResponse, (⟨.ofUInt64 1, ⟨.ofUInt64 2, .chainResponse m⟩⟩ : Sent) ∈
      ((plainPeers.act (answeredWorld skewedMoves) (.ofUInt64 2)
        (passing (answeredWorld skewedMoves))).nodes (.ofUInt64 2)).sent.drop
        ((answeredWorld skewedMoves).nodes (.ofUInt64 2)).sent.length ∧
      ¬ HandsOff (answeredWorld skewedMoves) (.ofUInt64 2) (.ofUInt64 1) m.chain := by
  obtain ⟨admits, passes, unlinked⟩ := skewed_passes
  have responds := passes.responds
  obtain ⟨distinct, sent, fits, -, -⟩ := passes
  refine ⟨answeredWorld_reachable admits, ⟨distinct.1, distinct.2⟩, allows_passing fits sent, _,
    responds, fun handsOff => ?_⟩
  obtain ⟨front, begins, ce, -, creator, referenced⟩ := handsOff.lower
  exact unlinked front begins _ referenced creator

end Loti
