import Loti.Creation
import Loti.Effects

/-!
What a node's records hold. The records are those of the store and the working copies in
memory: the neighbors, and the events not yet referenced. A property of records survives
every action that brings in only records with that property, over any lawful store.
-/

namespace Loti

open Std StateExcept

variable {σ : Type} [Store σ] [LawfulStore σ] {store : σ} {chain : UInt32}

structure NodeWithin (contents : Contents) (s : NodeState σ) : Prop where
  store : LawfulStore.Within contents s.store
  neighbors : ∀ (id : NodeId) (neighbor : Neighbor), s.neighbors[id]? = some neighbor →
    neighbor.nodeId = id ∧ contents.neighbor neighbor
  unreferenced : ∀ tail ∈ s.unreferencedPerChain, ∀ event ∈ tail, contents.event event

def Contents.signed (contents : Contents) : Signed → Prop
  | .event event => contents.event event
  | .clockEvent clockEvent => contents.clockEvent clockEvent

def Signed.stored {σ : Type} [Store σ] (store : σ) : Signed → Bool
  | .event published => (Store.appendEvent store published).isOk
  | .clockEvent ticked => (Store.appendClockEvent store ticked).isOk

omit [LawfulStore σ] in
theorem stored_event {after : σ} {event : Event} {seq : Nat}
    (appended : Store.appendEvent store event = .ok (seq, after)) :
    Signed.stored store (.event event) = true := by
  simp [Signed.stored, appended, Except.isOk, Except.toBool]

omit [LawfulStore σ] in
theorem stored_clockEvent {after : σ} {clockEvent : LocalClockEvent} {seq : Nat}
    (appended : Store.appendClockEvent store clockEvent = .ok (seq, after)) :
    Signed.stored store (.clockEvent clockEvent) = true := by
  simp [Signed.stored, appended, Except.isOk, Except.toBool]

def Makes (env : NodeEnv) (s : NodeState σ) : NodeAction → Signed → Prop
  | .publishEvent data, .event event => MakesEvent env s data event
  | .createClockEvent chain, .clockEvent clockEvent => MakesClockEvent env s chain clockEvent
  | .fireTimer (.clock chain), .clockEvent clockEvent =>
      .clock chain ∈ s.timers ∧ MakesClockEvent env s chain clockEvent
  | _, _ => False

theorem Makes.cases {σ : Type} [Store σ] {env : NodeEnv} {s : NodeState σ} {action : NodeAction}
    {object : Signed} (makes : Makes env s action object) :
    (∃ data event, object = .event event ∧ MakesEvent env s data event) ∨
      ∃ chain clockEvent, object = .clockEvent clockEvent ∧
      MakesClockEvent env s chain clockEvent := by
  unfold Makes at makes
  split at makes
  · exact Or.inl ⟨_, _, rfl, makes⟩
  · exact Or.inr ⟨_, _, rfl, makes⟩
  · exact Or.inr ⟨_, _, rfl, makes.2⟩
  · exact makes.elim

theorem getElem?_coveringTips_set {tips : List EventHash} {last hash : EventHash} {slot : Nat}
    (found : ((coveringTips tips chain).set chain.toNat last)[slot]? = some hash) :
    tips[slot]? = some hash ∨ hash = [] ∨ slot = chain.toNat ∧ hash = last := by
  rw [List.getElem?_set] at found
  split at found
  · rename_i here
    split at found
    · exact Or.inr (Or.inr ⟨here.symm, (Option.some.inj found).symm⟩)
    · cases found
  · unfold coveringTips at found
    split at found
    · rename_i short
      rw [resize, List.getElem?_append] at found
      split at found
      · rw [List.getElem?_take] at found
        split at found
        · exact Or.inl found
        · cases found
      · exact Or.inr (Or.inl (List.eq_of_mem_replicate (List.mem_of_getElem? found)))
    · exact Or.inl found

theorem mem_coveringTips_set {tips : List EventHash} {last hash : EventHash}
    (member : hash ∈ (coveringTips tips chain).set chain.toNat last) : hash ∈ tips ∨ hash = [] ∨
    hash = last := by
  obtain ⟨slot, found⟩ := List.mem_iff_getElem?.mp member
  rcases getElem?_coveringTips_set found with old | empty | new
  · exact Or.inl (List.mem_of_getElem? old)
  · exact Or.inr (Or.inl empty)
  · exact Or.inr (Or.inr new.2)

structure Hears (contents : Contents) (sender : NodeId) (m : Wire.ClockNotification) : Prop where
  tip : ∀ tips, contents.neighbor ⟨sender, tips⟩ →
    contents.neighbor ⟨sender, (coveringTips tips m.chain).set m.chain.toNat m.lastClockEventHash⟩
  edge : ∀ own : LocalClockEvent, contents.clockEvent own →
    own.hash = m.neighborLastClockEventHash →
    ⟨sender, m.lastClockEventHash⟩ ∉ own.referencingEvents → contents.clockEvent { own with
      referencingEvents := own.referencingEvents ++ [⟨sender, m.lastClockEventHash⟩] }

structure SnapshotContents.Within (contents : Contents) (snapshot : SnapshotContents) : Prop where
  events : ∀ event ∈ snapshot.events, contents.event event
  clockEvents : ∀ clockEvent ∈ snapshot.clockEvents, contents.clockEvent clockEvent
  neighbors : ∀ neighbor ∈ valuesOf snapshot.neighbors, contents.neighbor neighbor

def Takes (contents : Contents) (env : NodeEnv) (s : NodeState σ) : NodeAction → Prop
  | .addNeighbor neighbor => contents.neighbor ⟨neighbor, []⟩
  | .onPacketReceived datagram => ∀ sender m,
      Wire.decode ⟨datagram, env.wordBits⟩ = .ok ⟨sender, .clockNotification m⟩ →
      sender ∈ s.neighbors →
      Hears contents sender m
  | .restore blob => ∀ snapshot pos, readSnapshot ⟨blob, env.wordBits⟩ 0 = .ok snapshot pos →
      snapshot.Within contents
  | _ => True

variable {env : NodeEnv} {s : NodeState σ} {contents : Contents}

theorem NodeWithin.mono {weak strong : Contents} (implies : weak.Implies strong)
    (within : NodeWithin weak s) : NodeWithin strong s where
  store := LawfulStore.within_mono implies within.store
  neighbors id neighbor found :=
    ⟨(within.neighbors id neighbor found).1,
      implies.neighbor _ (within.neighbors id neighbor found).2⟩
  unreferenced tail member event listed :=
    implies.event event (within.unreferenced tail member event listed)

section

variable (within : NodeWithin contents s)

include within

theorem NodeWithin.withStore (stored : LawfulStore.Within contents store) :
    NodeWithin contents { s with store } :=
  ⟨stored, within.neighbors, within.unreferenced⟩

theorem NodeWithin.putNeighbor {id : NodeId} (neighbor : Neighbor)
    (named : neighbor.nodeId = id) (new : contents.neighbor neighbor) :
    NodeWithin contents { s with neighbors := s.neighbors.insert id neighbor } := by
  refine ⟨within.store, ?_, within.unreferenced⟩
  intro other known found
  rw [ExtTreeMap.getElem?_insert] at found
  split at found
  · rename_i same
    obtain rfl := LawfulEqCmp.compare_eq_iff_eq.mp same
    cases found
    exact ⟨named, new⟩
  · exact within.neighbors other known found

theorem NodeWithin.of_same {s' : NodeState σ} (store : s'.store = s.store)
    (neighbors : s'.neighbors = s.neighbors)
    (unreferenced : s'.unreferencedPerChain = s.unreferencedPerChain) :
    NodeWithin contents s' :=
  ⟨store ▸ within.store, neighbors ▸ within.neighbors, unreferenced ▸ within.unreferenced⟩

theorem NodeWithin.transmits {s' : NodeState σ} {sent : List Sent}
    (transmits : Transmits sent s s') : NodeWithin contents s' := by
  obtain ⟨drawn, seen, rfl⟩ := transmits
  exact within.of_same rfl rfl rfl

theorem NodeWithin.asks {s' : NodeState σ} (asks : Asks env s s') :
    NodeWithin contents s' := by
  obtain ⟨d, drawn, seen, sent, rfl, -⟩ := asks
  exact within.of_same rfl rfl rfl

end

theorem writeStore_within {write : σ → Except String σ}
    (kept : ∀ store after, LawfulStore.Within contents store → write store = .ok after →
      LawfulStore.Within contents after) : Keeps (NodeWithin contents) (writeStore write) := by
  intro s within
  rw [ends_writeStore]
  exact ⟨fun after written => within.withStore (kept _ after within.store written),
    fun _ _ => within⟩

theorem addNeighbor_within {neighbor : NodeId} (new : contents.neighbor ⟨neighbor, []⟩) :
    Keeps (NodeWithin (σ := σ) contents) (addNeighbor neighbor) := by
  intro s within
  simp only [addNeighbor, ends_bind, ends_get]
  split
  · exact within
  · simp only [ends_bind, ends_modify]
    refine writeStore_within (fun store after kept written => ?_) _ (within.putNeighbor _ rfl new)
    exact LawfulStore.within_putNeighbor kept new written

theorem learnRoute_within (destination nextHop : NodeId) :
    Keeps (NodeWithin (σ := σ) contents) (learnRoute destination nextHop) := by
  intro s within
  simp only [learnRoute, ends_bind, ends_modify]
  exact writeStore_within (fun store after kept written => LawfulStore.within_putRoute kept written)
    _ (within.of_same rfl rfl rfl)

theorem learnRouteAt_within (destination nextHop : NodeId) (validity : TimeRange) :
    Keeps (NodeWithin (σ := σ) contents) (learnRouteAt destination nextHop validity) := by
  intro s within
  simp only [learnRouteAt, ends_bind, ends_modify, ends_get]
  exact writeStore_within
    (fun store after kept written => LawfulStore.within_putTimedRoutes kept written) _
    (within.of_same rfl rfl rfl)

theorem pruneToKeep_within (chain : UInt32) : Keeps (NodeWithin (σ := σ) contents)
    (pruneToKeep env chain) := by
  unfold pruneToKeep
  split
  · split
    · exact writeStore_within fun store after kept written =>
        LawfulStore.within_pruneChain kept written
    · exact fun _ within => within
  · exact fun _ within => within

theorem publishEvent_within {data : Bytes} (within : NodeWithin contents s)
    (new : ∀ event, MakesEvent env s data event → Signed.stored s.store (.event event) = true →
      contents.event event) :
    EndsIn (publishEvent env data) s (NodeWithin contents) := by
  simp only [publishEvent, ends_bind, ends_modify]
  refine (insertEvent_spec env data s).mono ?_ ?_
  · rintro event _ ⟨makes, seq, store, appended, rfl⟩
    have made := new event makes (stored_event appended)
    refine ⟨LawfulStore.within_appendEvent within.store made appended, within.neighbors, ?_⟩
    intro tail member other listed
    obtain ⟨old, oldMember, rfl⟩ := List.mem_map.mp member
    rcases List.mem_append.mp listed with before | added
    · exact within.unreferenced old oldMember other before
    · obtain rfl := List.mem_singleton.mp added
      exact made
  · rintro _ _ (⟨rfl, -⟩ | ⟨event, what, -, -, rfl⟩)
    · exact within.of_same rfl rfl rfl
    · exact within.of_same rfl rfl rfl

theorem createClockEvent_within (within : NodeWithin contents s)
    (new : ∀ clockEvent, MakesClockEvent env s chain clockEvent →
      Signed.stored s.store (.clockEvent clockEvent) = true → contents.clockEvent clockEvent) :
    EndsIn (createClockEvent env chain) s (NodeWithin contents) := by
  simp only [createClockEvent, ends_bind, ends_modify, ends_get]
  refine (insertClockEvent_spec env chain s).mono ?_ ?_
  · rintro clockEvent _ ⟨makes, seq, store, appended, rfl⟩
    have stored := LawfulStore.within_appendClockEvent within.store
      (new clockEvent makes (stored_clockEvent appended)) appended
    have pruned : Keeps (NodeWithin (σ := σ) contents) (do
        (valuesOf s.neighbors).forM (sendClockEventNotification env clockEvent)
        pruneToKeep env chain) := by
      refine Keeps.bind (keeps_forM fun neighbor _ before kept => ?_) fun _ =>
        pruneToKeep_within chain
      simp only [sendClockEventNotification, ends_send]
      exact kept.of_same rfl rfl rfl
    refine ends_bind.mp (pruned _ ⟨stored, within.neighbors, ?_⟩)
    intro tail member other listed
    rcases List.mem_or_eq_of_mem_set member with old | rfl
    · exact within.unreferenced tail old other listed
    · cases listed
  · rintro _ _ (⟨rfl, -⟩ | ⟨clockEvent, what, -, -, rfl⟩)
    · exact within.of_same rfl rfl rfl
    · exact within.of_same rfl rfl rfl

theorem processClockEventNotification_within {sender : NodeId} {neighbor : Neighbor}
    {m : Wire.ClockNotification} (within : NodeWithin contents s)
    (known : s.neighbors[sender]? = some neighbor) (hears : Hears contents sender m) :
    EndsIn (processClockEventNotification sender neighbor m) s (NodeWithin contents) := by
  obtain ⟨rfl, old⟩ := within.neighbors sender neighbor known
  have new := hears.tip _ old
  simp only [processClockEventNotification, ends_bind, ends_modify]
  have updated := within.putNeighbor ⟨neighbor.nodeId, _⟩ rfl new
  split
  · exact updated
  · have rest : Keeps (NodeWithin (σ := σ) contents)
        (recordReverseEdge neighbor.nodeId m.lastClockEventHash m.neighborLastClockEventHash) := by
      intro before kept
      simp only [recordReverseEdge, ends_bind, ends_readStore]
      refine ⟨fun found read => ?_, fun _ _ => kept⟩
      cases found with
      | none => exact kept
      | some own =>
          obtain ⟨owned, named⟩ := LawfulStore.clockEventByHash_within kept.store read
          rw [ends_when]
          refine ⟨fun new => ?_, fun _ => kept⟩
          exact writeStore_within (fun store after inside written =>
            LawfulStore.within_updateClockEvent inside
              (hears.edge own owned named new) written) _ kept
    simp only [ends_bind, ends_when]
    refine ⟨fun _ => ?_, fun _ => rest _ updated⟩
    refine (writeStore_within (fun store after inside written => ?_) _ updated).weaken fun _ after
      kept => rest after kept
    exact LawfulStore.within_putNeighbor inside new written

theorem unreferencedTail_within {k : Nat} {tail out : List Event}
    (within : LawfulStore.Within contents store)
    (read : unreferencedTail store chain k tail = .ok out)
    (known : ∀ event ∈ tail, contents.event event) : ∀ event ∈ out, contents.event event := by
  induction k generalizing tail with
  | zero =>
      cases read
      exact known
  | succ k ih =>
      simp only [unreferencedTail] at read
      obtain ⟨event, found, read⟩ := except_bind_ok_iff.mp read
      obtain ⟨seqs, -, read⟩ := except_bind_ok_iff.mp read
      obtain ⟨referenced, -, read⟩ := except_bind_ok_iff.mp read
      cases referenced with
      | true =>
          cases read
          exact known
      | false =>
          refine ih read fun other member => ?_
          rcases List.mem_cons.mp member with rfl | old
          · exact LawfulStore.eventBySeq_within within found
          · exact known other old

theorem hydrateWorkingState_within : Keeps (NodeWithin (σ := σ) contents)
    (hydrateWorkingState env) := by
  intro s within
  simp only [hydrateWorkingState, ends_bind, ends_modify]
  refine keeps_forM (fun chain _ before kept => ?_) _ ⟨within.store, ?_, ?_⟩
  · simp only [ends_bind, ends_readStore, ends_modify]
    refine ⟨fun tail read => ⟨kept.store, kept.neighbors, fun other member event listed => ?_⟩,
      fun _ _ => kept⟩
    rcases List.mem_or_eq_of_mem_set member with old | rfl
    · exact kept.unreferenced other old event listed
    · exact unreferencedTail_within kept.store read (by simp) event listed
  · exact fun id neighbor found => LawfulStore.loadNeighbors_within within.store found
  · intro tail member event listed
    obtain rfl := List.eq_of_mem_replicate member
    cases listed

theorem load_within {snapshot : SnapshotContents} (inside : snapshot.Within contents) :
    Keeps (NodeWithin (σ := σ) contents)
      (load env snapshot.events snapshot.clockEvents snapshot.neighbors snapshot.routes) := by
  refine Keeps.bind (writeStore_within fun _ _ _ cleared =>
    LawfulStore.within_clear cleared) fun _ => ?_
  refine Keeps.bind (keeps_forM fun event member => writeStore_within fun _ _ kept written =>
    ?_) fun _ => ?_
  · obtain ⟨result, appended, rfl⟩ := except_map_ok_iff.mp written
    exact LawfulStore.within_appendEvent kept (inside.events event member) appended
  refine Keeps.bind (keeps_forM fun clockEvent member => writeStore_within fun _ _ kept written =>
    ?_) fun _ => ?_
  · obtain ⟨result, appended, rfl⟩ := except_map_ok_iff.mp written
    exact LawfulStore.within_appendClockEvent kept (inside.clockEvents clockEvent member) appended
  refine Keeps.bind (keeps_forM fun neighbor member => writeStore_within fun _ _ kept written =>
    ?_) fun _ => ?_
  · exact LawfulStore.within_putNeighbor kept (inside.neighbors neighbor member) written
  refine Keeps.bind (keeps_forM fun route _ => writeStore_within fun _ _ kept written =>
    ?_) fun _ => ?_
  · exact LawfulStore.within_putRoute kept written
  exact hydrateWorkingState_within

theorem restore_within {blob : Bytes} (within : NodeWithin contents s)
    (takes : Takes contents env s (.restore blob)) :
    EndsIn (restore env blob) s (NodeWithin contents) := by
  unfold restore
  split
  · rename_i snapshot pos read
    exact load_within (takes snapshot pos read) s within
  · exact within

theorem onPacketReceived_within {datagram : Bytes} (within : NodeWithin contents s)
    (takes : Takes contents env s (.onPacketReceived datagram)) :
    EndsIn (onPacketReceived env datagram) s (NodeWithin contents) := by
  unfold onPacketReceived
  split
  · rename_i decoded read
    simp only [receive, ends_bind, ends_get]
    split
    · exact within
    · rename_i neighbor known
      split
      · rename_i m notification
        refine processClockEventNotification_within within known (takes decoded.sender m ?_ ?_)
        · rw [read, ← notification]
        · exact ExtTreeMap.isSome_getElem?_iff_mem.mp (by simp [known])
      · refine (processChainRequest_transmits _ _).mono ?_ ?_
        · rintro _ after ⟨sent, transmits, -⟩
          exact within.transmits transmits
        · rintro _ _ rfl
          exact within
      · refine (processChainResponse_effect _ _).mono ?_ fun _ _ asks => within.asks asks
        rintro _ after (asks | ⟨sent, transmits, -⟩)
        · exact within.asks asks
        · exact within.transmits transmits
  · exact within
  · exact within

theorem withDiscoveries_within {α : Type} (m : DiscoveryM α) :
    Keeps (NodeWithin (σ := σ) contents) (withDiscoveries m) := by
  intro s within
  rw [ends_withDiscoveries]
  unfold Ends
  split
  · exact within.of_same rfl rfl rfl
  · exact within.of_same rfl rfl rfl

theorem NodeWithin.armed {after : NodeState σ} (within : NodeWithin contents s)
    (armed : ∃ timers, after = { s with timers }) : NodeWithin contents after := by
  obtain ⟨timers, rfl⟩ := armed
  exact within.of_same rfl rfl rfl

theorem fireTimer_within (timer : Timer) (within : NodeWithin contents s)
    (new : ∀ object, Makes env s (.fireTimer timer) object → Signed.stored s.store object = true →
      contents.signed object) :
    EndsIn (fireTimer env timer) s (NodeWithin contents) := by
  simp only [fireTimer, ends_bind, ends_get]
  split
  · rename_i pending
    simp only [ends_bind, ends_modify]
    have begins : NodeWithin contents { s with timers := s.timers.erase timer } :=
      within.of_same rfl rfl rfl
    cases timer with
    | clock chain =>
        rw [ends_bind]
        refine (createClockEvent_within begins fun clockEvent makes stored => ?_).weaken ?_
        · exact new (.clockEvent clockEvent) ⟨pending, makes⟩ stored
        · exact fun _ after kept => (scheduleClockTimer_arms chain).imp fun _ => kept.armed
    | purge =>
        simp only [ends_bind, purgeDiscoveries, ends_get, ends_when, ends_throw, ends_modify]
        refine ⟨fun _ => begins, fun _ => ?_⟩
        refine (withDiscoveries_within _ _ begins).weaken fun _ after kept => ?_
        exact kept.of_same rfl rfl rfl
  · exact within

theorem perform_within (action : NodeAction) (within : NodeWithin contents s)
    (makes : ∀ object, Makes env s action object → Signed.stored s.store object = true →
      contents.signed object)
    (takes : Takes contents env s action) :
    EndsIn (perform env action) s (NodeWithin contents) := by
  cases action with
  | start => exact start_arms.imp fun _ => within.armed
  | addNeighbor neighbor => exact addNeighbor_within takes s within
  | learnRoute destination nextHop => exact learnRoute_within destination nextHop s within
  | learnRouteAt destination nextHop validity =>
      exact learnRouteAt_within destination nextHop validity s within
  | publishEvent data =>
      simp only [perform, ends_discard]
      exact publishEvent_within within fun event => makes (.event event)
  | createClockEvent chain =>
      exact createClockEvent_within within fun clockEvent => makes (.clockEvent clockEvent)
  | discoverEventChain | discoverEventBounds | discoverEventOrder =>
      exact (perform_asks rfl).imp fun _ => within.asks
  | onPacketReceived datagram => exact onPacketReceived_within within takes
  | fireTimer timer => exact fireTimer_within timer within makes
  | setClock now => exact within.of_same rfl rfl rfl
  | gc => exact keeps_forM (fun chain _ => pruneToKeep_within _) s within
  | hydrateFromStore => exact hydrateWorkingState_within s within
  | restart =>
      exact ends_restart.mpr (hydrateWorkingState_within s.stopped (within.of_same rfl rfl rfl))
  | restore blob => exact restore_within within takes

theorem boot_within (within : LawfulStore.Within contents store) :
    NodeWithin contents (NodeState.boot env store) := by
  have bare : NodeWithin contents (NodeState.fresh store) := by
    refine ⟨within, ?_, ?_⟩
    · intro id neighbor found
      simp [NodeState.fresh] at found
    · intro tail member
      simp [NodeState.fresh] at member
  exact ends_final.mp (hydrateWorkingState_within _ bare)

/-- Nothing is asked of the records; what is left of `NodeWithin` is that neighbors are filed under
their ids. -/
def Contents.any : Contents := ⟨fun _ => True, fun _ => True, fun _ => True⟩

theorem perform_any (action : NodeAction) :
    Keeps (NodeWithin (σ := σ) .any) (perform env action) := by
  refine fun s within => perform_within action within (fun object _ _ => ?_) ?_
  · cases object <;> trivial
  · cases action <;> try trivial
    case onPacketReceived => exact fun _ _ _ _ => ⟨fun _ _ => trivial, fun _ _ _ _ => trivial⟩
    case restore => exact fun _ _ _ => ⟨fun _ _ => trivial, fun _ _ => trivial, fun _ _ => trivial⟩

end Loti
