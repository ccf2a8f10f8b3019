import Loti.CrossLinks
import Loti.WireFormat

/-!
Discovery between neighbors. The chain that a response brings home is woven through the log of
the network, so once the originator can attach a clock event of its own at both ends, its
validator accepts the result.
-/

namespace Loti

open Std StateExcept Wire

section Home

variable {σ : Type} [Store σ] [LawfulStore σ] [DagStore σ] {peers : Peers}
    {w : PeerWorld σ} {id : NodeId}
  {chain : EventChain}

theorem Peers.Consistent.finds_below (consistent : peers.Consistent w) {front : ClockEvent}
    (woven : Woven w.log chain) (begins : chain.lowerBound.head? = some front)
    {below : LocalClockEvent}
    (held : Store.clockEventByHash (w.nodes id).store below.hash = .ok (some below))
    (anchored : ⟨id, below.hash⟩ ∈ front.referencedEvents) :
    ∃ lo, Loti.ownClockEvent id (w.nodes id).store chain.frontReferences = .ok (some lo) := by
  obtain ⟨rest, bound⟩ := List.head?_eq_some_iff.mp begins
  have same : chain.frontReferences = front.referencedEvents := by
    simp [EventChain.frontReferences, bound]
  obtain ⟨-, seq, live⟩ := DagStore.clockEventByHash_mem (consistent.sound id) held
  have mine := (consistent.live live).2.1
  obtain ⟨record, made, rfl⟩ := woven.lower front (List.mem_of_head? begins)
  rw [same]
  refine ownClockEvent_finds (consistent.sound id) (fun ref listed _ => ?_) live mine ?_
  · obtain ⟨k, placed⟩ := List.mem_iff_getElem?.mp made
    obtain ⟨object, earlier, rfl, -⟩ := consistent.founded k _ placed ref listed
    rw [Signed.reference_hash]
    exact consistent.readable object (List.mem_of_mem_take earlier)
  · have reference : below.reference = ⟨id, below.hash⟩ :=
      congrArg (EventReference.mk · below.hash) mine
    exact reference ▸ anchored

theorem Peers.Consistent.finds_above (consistent : peers.Consistent w) (woven : Woven w.log chain)
    {above : LocalClockEvent}
    (held : Store.clockEventByHash (w.nodes id).store above.hash = .ok (some above))
    (references : chain.backReference ∈ above.referencedEvents) :
    ∃ seq rest up, Store.clockEventsReferencing (w.nodes id).store chain.backReference.hash =
      .ok (seq :: rest) ∧ Store.clockEventBySeq (w.nodes id).store seq = .ok up := by
  obtain ⟨target, made, named⟩ := woven.back
  have readable := consistent.readable target made
  rw [← Signed.reference_hash, named] at readable
  obtain ⟨seqs, answered, -, mentions⟩ := DagStore.clockEventsReferencing_eq
    (consistent.sound id) readable
  obtain ⟨-, place, live⟩ := DagStore.clockEventByHash_mem (consistent.sound id) held
  have listed := (mentions place).mpr ⟨above, live, List.mem_map_of_mem references⟩
  cases seqs with
  | nil => cases listed
  | cons seq rest =>
      obtain ⟨up, alive, -⟩ := (mentions seq).mp List.mem_cons_self
      exact ⟨seq, rest, up, answered, DagStore.clockEventBySeq_eq (consistent.sound id) alive⟩

end Home

section Completion

variable {σ : Type} [Store σ] [LawfulStore σ] [DagStore σ] {peers : Peers} {w earlier : PeerWorld σ}
  {sha256 : Bytes → EventHash} {originator creator : NodeId} {m : ChainResponse} {bytes : Bytes}
  {entry : ChainEntry} {front back : ClockEvent} {below above : LocalClockEvent}

theorem recorded_edge {record : LocalClockEvent} (consistent : peers.Consistent earlier)
    (grows : earlier.log <+: w.log) (later : peers.Consistent w) (distinct : Distinct w.log)
    (recorded : Store.clockEventByHash (earlier.nodes creator).store record.hash =
      .ok (some record))
    (edge : ⟨originator, above.hash⟩ ∈ record.referencingEvents)
    (held : Store.clockEventByHash (w.nodes originator).store above.hash = .ok (some above)) :
    record.reference ∈ above.referencedEvents := by
  obtain ⟨own, -⟩ := LawfulStore.clockEventByHash_within (consistent.records creator).store recorded
  obtain ⟨ce, made, named, -, referenced⟩ := own.2.2.2 _ edge
  obtain ⟨mine, -⟩ := LawfulStore.clockEventByHash_within (later.records originator).store held
  have same : ce = above.bare := same_record distinct (grows.subset made) mine.1
    (congrArg EventReference.hash named)
  rw [same] at referenced
  exact referenced

/-- A discovery in progress is completed by the response of a neighbor, if the originator still
holds a clock event that the first element of the chain references and one that the neighbor has
recorded in a reverse edge of the last element. -/
theorem neighbor_discovery_completes
    (hashed : ∀ node, (peers.env node).hasher = Hasher.ofSha256 sha256) (signs : ∀ node message,
      (peers.env originator).signer.verify message
      ((peers.env node).signer.sign message) node = true)
    (steady : peers.steady originator) (reached : peers.Reachable earlier)
      (leads : peers.Leads earlier w)
    (distinct : Distinct w.log)
      (answer : ⟨originator, ⟨creator, .chainResponse m⟩⟩ ∈ (w.nodes creator).sent)
    (home : m.originator = originator)
    (arrives : decode ⟨bytes, (peers.env originator).wordBits⟩ = .ok ⟨creator, .chainResponse m⟩)
    (neighbors : creator ∈ (w.nodes originator).neighbors)
    (found : (w.nodes originator).discoveries.chainDiscoveries[m.chain.event.hash]? = some entry)
    (running : entry.discovery.state = .inProgress) (begins : m.chain.lowerBound.head? = some front)
    (anchored : ⟨originator, below.hash⟩ ∈ front.referencedEvents)
    (heldBelow : Store.clockEventByHash (w.nodes originator).store below.hash = .ok (some below))
    {record : LocalClockEvent} (ends : m.chain.upperBound.getLast? = some record.toClockEvent)
    (recorded : Store.clockEventByHash (earlier.nodes creator).store record.hash =
      .ok (some record))
    (edge : ⟨originator, above.hash⟩ ∈ record.referencingEvents)
    (heldAbove : Store.clockEventByHash (w.nodes originator).store above.hash = .ok (some above)) :
    ∃ chain, CompletedWith m.chain.event.hash entry.discovery.event chain
      ((peers.act w originator (.onPacketReceived bytes)).nodes originator).discoveries := by
  have later := reached.leads leads
  have consistent := later.consistent distinct
  have woven := later.weaves distinct creator _ answer m rfl
  obtain ⟨more, split⟩ := leads.log_prefix
  have before : Distinct earlier.log := Distinct.append (split ▸ distinct)
  obtain ⟨lo, lowest⟩ := consistent.finds_below woven begins heldBelow anchored
  have crossed := recorded_edge (reached.consistent before) leads.log_prefix consistent distinct
    recorded edge heldAbove
  have last : m.chain.backReference = record.reference := by rw [EventChain.backReference, ends]
  obtain ⟨seq, rest, up, referencing, highest⟩ := consistent.finds_above woven heldAbove
    (last ▸ crossed)
  obtain ⟨upper, spliced, accepted⟩ :
      ∃ upper, Splices originator (w.nodes originator).store m.chain upper ∧
      validateChainDiscoveryResult (peers.env originator) upper = true := by
    have spliced := splices_of_found lowest referencing highest
    obtain ⟨⟨place, live⟩, -⟩ := consistent.ownClockEvent lowest
    have alsoMine :=
      (LawfulStore.clockEventBySeq_within (consistent.records originator).store highest).2.1
    exact ⟨_, spliced, (consistent.splices distinct woven spliced).accepted later distinct hashed
      signs steady rfl List.getLast?_concat (consistent.live live).2.1 alsoMine⟩
  obtain ⟨neighbor, known⟩ := Option.isSome_iff_exists.mp
    (ExtTreeMap.isSome_getElem?_iff_mem.mpr neighbors)
  have identified := peers.identified originator
  have completes := processChainResponse_completes neighbor (consistent.discoveries originator)
    (home.trans identified.symm) found running (identified.symm ▸ spliced) accepted
  have handled : Ends (perform (peers.env originator) (.onPacketReceived bytes))
      (w.nodes originator) (fun _ after =>
        CompletedWith m.chain.event.hash entry.discovery.event upper after.discoveries)
      (fun _ after =>
        CompletedWith m.chain.event.hash entry.discovery.event upper after.discoveries) := by
    simpa [perform, onPacketReceived, arrives, receive, known] using completes
  rw [Peers.act_self]
  exact ⟨upper, ends_final.mp handled⟩

end Completion

/-! Node 1 asks its neighbor, node 2, for the chain of the event. -/

def pairEvent : Event := (pairWorld.log.filterMap Signed.published?).headD default

def askingMoves : List (PeerWorld InMemoryStore → NodeId × NodeAction) :=
  [acting 1 (.learnRoute (.ofUInt64 2) (.ofUInt64 2)),
    acting 1 (.discoverEventChain pairEvent .all 0), arriving 1 0]

def askedWorld : PeerWorld InMemoryStore := plainPeers.play pairWorld askingMoves

def askedAnswer : ChainResponse :=
  match (askedWorld.nodes (.ofUInt64 2)).sent.getLast? with
  | some ⟨_, ⟨_, .chainResponse m⟩⟩ => m
  | _ => ⟨default, ⟨default, [], []⟩, []⟩

def askedTick (node : UInt64) (k : Nat) : LocalClockEvent :=
  (Store.loadClockEvents (askedWorld.nodes (.ofUInt64 node)).store).getD k default

theorem neighbor_discovery_completes_sample :
    ∃ event chain, CompletedWith pairEvent.hash event chain
    ((plainPeers.act askedWorld (.ofUInt64 1)
      (.onPacketReceived (encode ⟨.ofUInt64 2, .chainResponse askedAnswer⟩))).nodes
      (.ofUInt64 1)).discoveries := by
  obtain ⟨admits, distinct, answer, home, asked, fits⟩ :
      plainPeers.Admits pairWorld askingMoves ∧
        ((askedWorld.log.map Signed.hash).Nodup ∧ ∀ object ∈ askedWorld.log, object.hash ≠ []) ∧
        (⟨.ofUInt64 1, ⟨.ofUInt64 2, .chainResponse askedAnswer⟩⟩ : Sent) ∈
        (askedWorld.nodes (.ofUInt64 2)).sent ∧
        askedAnswer.originator = .ofUInt64 1 ∧ askedAnswer.chain.event.hash = pairEvent.hash ∧
        (Payload.chainResponse askedAnswer).Fits ∧
        (⟨encode ⟨.ofUInt64 2, .chainResponse askedAnswer⟩, 64⟩ : Buffer).Addressable := by
    decide +kernel
  obtain ⟨known, running, begins, anchored, below, ends, recorded, edge, above⟩ :
      NodeId.ofUInt64 2 ∈ (askedWorld.nodes (.ofUInt64 1)).neighbors ∧
        ((askedWorld.nodes (.ofUInt64 1)).discoveries.chainDiscoveries[
          askedAnswer.chain.event.hash]?).map (fun entry => entry.discovery.state) =
            some .inProgress ∧
        askedAnswer.chain.lowerBound.head? = some (askedTick 2 0).toClockEvent ∧
        ⟨.ofUInt64 1, (askedTick 1 0).hash⟩ ∈ (askedTick 2 0).referencedEvents ∧
        Store.clockEventByHash (askedWorld.nodes (.ofUInt64 1)).store
        (askedTick 1 0).hash = .ok (some (askedTick 1 0)) ∧
        askedAnswer.chain.upperBound.getLast? = some (askedTick 2 1).toClockEvent ∧
        Store.clockEventByHash (askedWorld.nodes (.ofUInt64 2)).store
        (askedTick 2 1).hash = .ok (some (askedTick 2 1)) ∧
        ⟨.ofUInt64 1, (askedTick 1 2).hash⟩ ∈ (askedTick 2 1).referencingEvents ∧
        Store.clockEventByHash (askedWorld.nodes (.ofUInt64 1)).store (askedTick 1 2).hash =
          .ok (some (askedTick 1 2)) := by
    decide +kernel
  obtain ⟨entry, found, inProgress⟩ := Option.map_eq_some_iff.mp running
  rw [← asked]
  exact ⟨_, neighbor_discovery_completes (fun _ => rfl) (fun _ _ => rfl) trivial
    (pairWorld_reachable.leads (.play admits)) .refl ⟨distinct.1, distinct.2⟩ answer home
    (decode_of_encoded fits.1 fits.2) known found inProgress begins anchored below ends
    recorded edge above⟩

end Loti
