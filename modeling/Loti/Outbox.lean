import Loti.Records

/-!
What an action sends, and why: the notifications of a tick, the requests of a discovery,
and what the handlers of requests and responses pass on.
-/

namespace Loti

open Std StateExcept Wire

variable {σ : Type} [Store σ] {env : NodeEnv} {s : NodeState σ} {action : NodeAction}

def NodeAction.Delivers (env : NodeEnv) (s : NodeState σ) (action : NodeAction)
    (neighbor : Neighbor) (payload : Payload) : Prop :=
  ∃ datagram sender, action = .onPacketReceived datagram ∧
    decode ⟨datagram, env.wordBits⟩ = .ok ⟨sender, payload⟩ ∧ s.neighbors[sender]? = some neighbor

def notificationTo (record : LocalClockEvent) (neighbor : Neighbor) : ClockNotification where
  chain := record.chain
  lastClockEventHash := record.hash
  neighborLastClockEventHash := neighbor.lastClockEventHashes.getD record.chain.toNat []

inductive RelayedBy (env : NodeEnv) (s : NodeState σ) (action : NodeAction) : Sent → Prop
  | forwarded {neighbor : Neighbor} {m : ChainRequest} {sent : Sent} :
      action.Delivers env s neighbor (.chainRequest m) → m.event.creator ≠ env.id →
      env.id ∉ m.path →
      (0 < m.hopLimit → m.path.length < m.hopLimit.toNat) → sent.Forwards env s m →
      RelayedBy env s action sent
  | answered {neighbor : Neighbor} {m : ChainRequest} {own : Event} {sent : Sent} :
      action.Delivers env s neighbor (.chainRequest m) → m.event.creator = env.id →
      Store.eventByHash s.store m.event.hash = .ok (some own) →
      sent.IsResponse env s neighbor.nodeId ⟨own, [], []⟩ m.originator m.path →
      RelayedBy env s action sent
  | returned {neighbor : Neighbor} {m : ChainResponse} {sent : Sent} :
      action.Delivers env s neighbor (.chainResponse m) → m.originator ≠ env.id →
      sent.IsResponse env s neighbor.nodeId m.chain m.originator m.path →
      RelayedBy env s action sent

inductive SentBy (env : NodeEnv) (s : NodeState σ) (action : NodeAction) : Sent → Prop
  | notified {record : LocalClockEvent} {id : NodeId} {neighbor : Neighbor} :
      Makes env s action (.clockEvent record) → Signed.stored s.store (.clockEvent record) = true →
      s.neighbors[id]? = some neighbor →
      SentBy env s action
      ⟨neighbor.nodeId, ⟨env.id, .clockNotification (notificationTo record neighbor)⟩⟩
  | asked {sent : Sent} : sent.IsRequest env s → SentBy env s action sent
  | relayed {sent : Sent} : RelayedBy env s action sent → SentBy env s action sent

theorem RelayedBy.delivers {sent : Sent} (relayed : RelayedBy env s action sent) :
    ∃ neighbor payload, action.Delivers env s neighbor payload := by
  cases relayed with
  | forwarded delivers => exact ⟨_, _, delivers⟩
  | answered delivers => exact ⟨_, _, delivers⟩
  | returned delivers => exact ⟨_, _, delivers⟩

theorem SentBy.response {sent : Sent} {m : ChainResponse} (sentBy : SentBy env s action sent)
    (carries : sent.datagram.payload = .chainResponse m) :
    (∃ neighbor request own, action.Delivers env s neighbor (.chainRequest request) ∧
      Store.eventByHash s.store request.event.hash = .ok (some own) ∧
      sent.IsResponse env s neighbor.nodeId ⟨own, [], []⟩ request.originator request.path) ∨
    ∃ neighbor response, action.Delivers env s neighbor (.chainResponse response) ∧
      response.originator ≠ env.id ∧
      sent.IsResponse env s neighbor.nodeId response.chain response.originator response.path := by
  cases sentBy with
  | notified => cases carries
  | asked request =>
      obtain ⟨_, -, -, -, _, _, -, -, -, rfl⟩ := request
      cases carries
  | relayed relayed =>
      cases relayed with
      | forwarded _ _ _ _ forwards =>
          obtain ⟨_, _, -, -, -, rfl⟩ := forwards
          cases carries
      | answered delivers _ found response => exact Or.inl ⟨_, _, _, delivers, found, response⟩
      | returned delivers foreign response => exact Or.inr ⟨_, _, delivers, foreign, response⟩

def Sends (property : Sent → Prop) (start s : NodeState σ) : Prop :=
  ∃ new, s.sent = start.sent ++ new ∧ ∀ sent ∈ new, property sent

variable {property : Sent → Prop} {start : NodeState σ}

omit [Store σ] in
theorem Sends.refl (property : Sent → Prop) (s : NodeState σ) :
    Sends property s s := ⟨[], by simp, by simp⟩

omit [Store σ] in
theorem Sends.of_same {s' : NodeState σ} (sends : Sends property start s)
    (same : s'.sent = s.sent) : Sends property start s' := by
  obtain ⟨new, sent, each⟩ := sends
  exact ⟨new, same.trans sent, each⟩

omit [Store σ] in
theorem Sends.append {s' : NodeState σ} {more : List Sent} (sends : Sends property start s)
    (grown : s'.sent = s.sent ++ more) (each : ∀ sent ∈ more, property sent) :
    Sends property start s' := by
  obtain ⟨new, sent, before⟩ := sends
  refine ⟨new ++ more, by rw [grown, sent, List.append_assoc], fun x member => ?_⟩
  exact (List.mem_append.mp member).elim (before x) (each x)

omit [Store σ] in
theorem Sends.transmits {s' : NodeState σ} {more : List Sent} (sends : Sends property start s)
    (transmits : Transmits more s s') (each : ∀ sent ∈ more, property sent) :
    Sends property start s' := by
  obtain ⟨drawn, seen, rfl⟩ := transmits
  exact sends.append rfl each

omit [Store σ] in
theorem Preserves.sends {α : Type} {m : NodeM σ α} (preserves : Preserves NodeState.sent m) :
    Keeps (Sends property start) m :=
  fun s sends => (preserves s).imp fun _ same => sends.of_same same

omit [Store σ] in
theorem sent_aside : Aside (NodeState.sent (σ := σ)) := fun _ _ _ _ _ _ _ _ => rfl

theorem Asks.sends {after : NodeState σ} (asks : Asks env s after) :
    Sends (SentBy env s action) s after := by
  obtain ⟨_, _, _, sent, rfl, requests⟩ := asks
  exact ⟨sent, rfl, fun x member => .asked (requests x member)⟩

theorem createClockEvent_sends (chain : UInt32) (timers : List Timer)
    (ticks : ∀ record, MakesClockEvent env s chain record →
      Makes env s action (.clockEvent record)) :
    EndsIn (createClockEvent env chain) { s with timers } (Sends (SentBy env s action) s) := by
  simp only [createClockEvent, ends_bind, ends_modify, ends_get]
  refine (insertClockEvent_spec env chain _).mono ?_ ?_
  · rintro record _ ⟨makes, seq, store, appended, rfl⟩
    have tells : Keeps (Sends (SentBy env s action) s) (do
        (valuesOf s.neighbors).forM (sendClockEventNotification env record)
        pruneToKeep env chain) := by
      refine Keeps.bind (keeps_forM fun neighbor member before sends => ?_)
        fun _ => Preserves.sends (pruneToKeep_aside sent_aside chain)
      obtain ⟨id, known⟩ := mem_values_iff.mp member
      simp only [sendClockEventNotification, ends_send]
      refine sends.append rfl fun x listed => ?_
      obtain rfl := List.mem_singleton.mp listed
      exact .notified (ticks record makes) (stored_clockEvent appended) known
    exact ends_bind.mp (tells _ ((Sends.refl _ s).of_same rfl))
  · rintro _ _ (⟨rfl, -⟩ | ⟨record, what, -, -, rfl⟩)
    · exact (Sends.refl _ s).of_same rfl
    · exact (Sends.refl _ s).of_same rfl

omit [Store σ] in
theorem Sends.armed {P : Sent → Prop} {after : NodeState σ} (sends : Sends P start s)
    (armed : ∃ timers, after = { s with timers }) : Sends P start after := by
  obtain ⟨timers, rfl⟩ := armed
  exact sends.of_same rfl

theorem fireTimer_sends (timer : Timer) :
    EndsIn (fireTimer env timer) s (Sends (SentBy env s (.fireTimer timer)) s) := by
  simp only [fireTimer, ends_bind, ends_get]
  split
  · rename_i pending
    simp only [ends_bind, ends_modify]
    cases timer with
    | clock chain =>
        rw [ends_bind]
        refine (createClockEvent_sends chain _ ?_).weaken ?_
        · exact fun record makes => ⟨pending, makes⟩
        · exact fun _ after sends => (scheduleClockTimer_arms chain).imp fun _ => sends.armed
    | purge =>
        simp only [ends_bind, purgeDiscoveries, ends_get, ends_when, ends_throw, ends_modify,
          ends_withDiscoveries]
        refine ⟨fun _ => .refl _ s, fun _ => ?_⟩
        unfold Ends
        split
        · exact .refl _ s
        · exact .refl _ s
  · exact .refl _ s

omit [Store σ] in
theorem sent_apart : Apart (NodeState.sent (σ := σ)) := fun _ _ => rfl

theorem extendAndRetrace_returns {neighbor target : Neighbor} {originator next : NodeId}
    {base chain : EventChain} {path : List NodeId}
    (extended : Extended env s.store neighbor.nodeId base chain)
    (last : path.getLast? = some next) (known : s.neighbors[next]? = some target) :
    Returns (extendAndRetrace env neighbor originator base path) s
      (fun _ after =>
        after.sent = s.sent ++
          [⟨target.nodeId, ⟨env.id, .chainResponse ⟨originator, chain, path.dropLast⟩⟩⟩]) := by
  obtain ⟨lower, upper, front, lowered, raised, fronted, finished⟩ := extended
  simp [extendAndRetrace, addLowerBound, addUpperBound, sendChainResponseRetrace, lowered, raised,
    fronted, finished, last, known]

theorem onPacketReceived_returns {bytes : Bytes} {sender next : NodeId} {neighbor target : Neighbor}
    {chain : EventChain} {m : ChainResponse}
    (read : decode ⟨bytes, env.wordBits⟩ = .ok ⟨sender, .chainResponse m⟩)
    (heard : s.neighbors[sender]? = some neighbor) (foreign : m.originator ≠ env.id)
    (extended : Extended env s.store neighbor.nodeId m.chain chain)
    (last : m.path.getLast? = some next) (known : s.neighbors[next]? = some target) :
    Returns (onPacketReceived env bytes) s (fun _ after =>
      after.sent = s.sent ++
        [⟨target.nodeId, ⟨env.id, .chainResponse ⟨m.originator, chain, m.path.dropLast⟩⟩⟩]) := by
  have nonempty : m.path ≠ [] := by
    rintro empty
    simp [empty] at last
  simp only [onPacketReceived, read, receive, ends_bind, ends_get, heard, processChainResponse,
    foreign, if_false, nonempty]
  exact extendAndRetrace_returns extended last known

theorem processChainResponse_relays (sender : Neighbor) (m : ChainResponse) :
    EndsIn (processChainResponse env sender m) s
      (Sends (fun x => m.originator ≠ env.id ∧
        x.IsResponse env s sender.nodeId m.chain m.originator m.path) s) := by
  simp only [processChainResponse]
  split
  · have resolves : Preserves NodeState.sent (σ := NodeState σ) (do
        withDiscoveries (setDiscoveredChain m.chain.event.hash m.chain)
        resolveChainDiscovery env m.chain.event.hash m.chain) :=
      (withDiscoveries_apart sent_apart _).bind fun _ => resolveChainDiscovery_apart sent_apart _ _
    simp only [ends_bind, ends_get]
    split
    · split
      · exact Preserves.sends resolves s (.refl _ s)
      · exact .refl _ s
    · exact .refl _ s
  · rename_i foreign
    split
    · exact .refl _ s
    · refine (extendAndRetrace_transmits sender m.originator m.chain m.path).mono ?_ ?_
      · rintro _ after ⟨sent, transmits, responses⟩
        exact (Sends.refl _ s).transmits transmits fun x member => ⟨foreign, responses x member⟩
      · rintro _ _ rfl
        exact .refl _ _

theorem onPacketReceived_relays (datagram : Bytes) :
    EndsIn (onPacketReceived env datagram) s
    (Sends (RelayedBy env s (.onPacketReceived datagram)) s) := by
  unfold onPacketReceived
  split
  · rename_i decoded read
    simp only [receive, ends_bind, ends_get]
    split
    · exact .refl _ s
    · rename_i neighbor known
      have delivers : ∀ payload, decoded.payload = payload →
          NodeAction.Delivers env s (.onPacketReceived datagram) neighbor payload :=
        fun payload same => ⟨datagram, decoded.sender, rfl, by rw [read, ← same], known⟩
      split
      · exact Preserves.sends (processClockEventNotification_aside sent_aside _ _ _) s (.refl _ s)
      · rename_i m request
        refine (processChainRequest_transmits _ _).mono ?_ ?_
        · rintro _ after ⟨sent, transmits, each⟩
          refine (Sends.refl _ s).transmits transmits fun x member => ?_
          rcases each x member with ⟨foreign, unvisited, allowed, forwards⟩ | ⟨own, mine,
            found, responds⟩
          · exact .forwarded (delivers _ request) foreign unvisited allowed forwards
          · exact .answered (delivers _ request) mine found responds
        · rintro _ _ rfl
          exact .refl _ _
      · rename_i m response
        have relayed : ∀ after, Sends (fun x => m.originator ≠ env.id ∧
            x.IsResponse env s neighbor.nodeId m.chain m.originator m.path) s after →
            Sends (RelayedBy env s (.onPacketReceived datagram)) s after := by
          rintro after ⟨new, grown, each⟩
          exact ⟨new, grown, fun x member => .returned (delivers _ response) (each x member).1
            (each x member).2⟩
        exact (processChainResponse_relays neighbor m).imp relayed
  · exact .refl _ s
  · exact .refl _ s

theorem onPacketReceived_sends (datagram : Bytes) :
    EndsIn (onPacketReceived env datagram) s
    (Sends (SentBy env s (.onPacketReceived datagram)) s) := by
  have reasons : ∀ after, Sends (RelayedBy env s (.onPacketReceived datagram)) s after →
      Sends (SentBy env s (.onPacketReceived datagram)) s after := by
    rintro after ⟨new, grown, each⟩
    exact ⟨new, grown, fun x member => .relayed (each x member)⟩
  exact (onPacketReceived_relays datagram).imp reasons

theorem perform_sends (action : NodeAction) :
    EndsIn (perform env action) s (Sends (SentBy env s action) s) := by
  have quiet : ∀ {m : NodeM σ Unit}, Preserves NodeState.sent m →
      EndsIn m s (Sends (SentBy env s action) s) :=
    fun preserves => Preserves.sends preserves s (.refl _ s)
  cases action with
  | start => exact start_arms.imp fun _ => (Sends.refl _ s).armed
  | createClockEvent chain => exact createClockEvent_sends chain s.timers fun _ makes => makes
  | discoverEventChain | discoverEventBounds | discoverEventOrder =>
      exact (perform_asks rfl).imp fun _ asks => asks.sends
  | onPacketReceived datagram => exact onPacketReceived_sends datagram
  | fireTimer timer => exact fireTimer_sends timer
  | setClock now => exact quiet fun _ => rfl
  | restart =>
      exact quiet (Preserves.bind (fun _ => rfl) fun _ => hydrateWorkingState_aside sent_aside)
  | _ => exact quiet (perform_aside sent_aside rfl)

section Named

variable [LawfulStore σ] {contents : Contents}

theorem Sent.Forwards.hop {base : ChainRequest} {sent : Sent} (within : NodeWithin contents s)
    (forwards : sent.Forwards env s base) :
    ∃ hop, hop ≠ env.id ∧ hop ∉ base.path ∧ hop ∈ s.neighbors ∧
      sent = ⟨hop, ⟨env.id, .chainRequest { base with path := base.path ++ [env.id] }⟩⟩ := by
  obtain ⟨hop, neighbor, other, fresh, known, rfl⟩ := forwards
  rw [(within.neighbors hop neighbor known).1]
  exact ⟨hop, other, fresh, ExtTreeMap.mem_iff_isSome_getElem?.mpr (by simp [known]), rfl⟩

theorem Sent.IsResponse.path {neighbor : NodeId} {base : EventChain} {originator : NodeId}
    {path : List NodeId} {sent : Sent} (within : NodeWithin contents s)
    (response : sent.IsResponse env s neighbor base originator path) :
    ∃ next chain, path.getLast? = some next ∧ Extended env s.store neighbor base chain ∧
      sent = ⟨next, ⟨env.id, .chainResponse ⟨originator, chain, path.dropLast⟩⟩⟩ := by
  obtain ⟨next, target, chain, last, known, extended, rfl⟩ := response
  rw [(within.neighbors next target known).1]
  exact ⟨next, chain, last, extended, rfl⟩

end Named

end Loti
