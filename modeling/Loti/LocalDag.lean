import Loti.DagStore
import Loti.History
import Mathlib.Logic.Relation

/-!
A node seen through its own DAG: the events and clock events it has stored, the events that
wait for the next tick of each chain, and the reading of its clock. What a neighbor is or
asks for does not matter here, and neither does a reverse edge learned from it.

The machine has five steps. Every action of a node other than `restore`, on any store that
keeps a DAG, is a run of these steps.
-/

namespace Loti

open Std StateExcept RingLog

def LocalClockEvent.bare (record : LocalClockEvent) : LocalClockEvent :=
  { record with referencingEvents := [] }

@[simp] theorem LocalClockEvent.bare_toClockEvent (record : LocalClockEvent) :
    record.bare.toClockEvent = record.toClockEvent := rfl

namespace Dag

variable {dag : Dag} {chain : UInt32} {record old : LocalClockEvent} {seq keep : Nat}
    {hash : EventHash}

def bare (dag : Dag) : Dag :=
  { dag with clocks := dag.clocks.map fun entry => (entry.1, entry.2.bare) }

theorem mem_bare_clocks {entry : Nat × LocalClockEvent} :
    entry ∈ dag.bare.clocks ↔ ∃ record, (entry.1, record) ∈ dag.clocks ∧ record.bare = entry.2 := by
  obtain ⟨seq, stored⟩ := entry
  simp only [bare, List.mem_map, Prod.mk.injEq]
  constructor
  · rintro ⟨⟨place, record⟩, member, rfl, rfl⟩
    exact ⟨record, member, rfl⟩
  · rintro ⟨record, member, rfl⟩
    exact ⟨(seq, record), member, rfl, rfl⟩

theorem bare_onChain : dag.bare.onChain chain = (dag.onChain chain).map fun entry =>
    (entry.1, entry.2.bare) :=
  onLane_map

theorem bare_tip : dag.bare.tip chain = (dag.tip chain).map LocalClockEvent.bare := by
  simp [tip, bare_onChain, List.getLast?_map, Function.comp_def]

theorem bare_prune : (dag.prune chain keep).bare = dag.bare.prune chain keep := by
  unfold prune
  split
  · rfl
  · simp only [bare, pruned_map]
    rfl

theorem bare_pins_iff : dag.bare.Pins chain hash ↔ dag.Pins chain hash := by
  constructor
  · rintro ⟨entry, member, here, mentioned⟩
    obtain ⟨record, stored, same⟩ := mem_bare_clocks.mp member
    rw [← same] at here mentioned
    exact ⟨_, stored, here, mentioned⟩
  · rintro ⟨⟨seq, record⟩, member, here, mentioned⟩
    exact ⟨(seq, record.bare), mem_bare_clocks.mpr ⟨record, member, rfl⟩, here, mentioned⟩

theorem bare_update (distinct : (dag.clocks.map fun entry => entry.2.hash).Nodup)
    (member : (seq, old) ∈ dag.clocks) (same : record.bare = old.bare) :
    (dag.update record).bare = dag.bare := by
  have sameHash : record.hash = old.hash := congrArg (fun stored => stored.hash) same
  simp only [bare, update, List.map_map]
  congr 1
  refine List.map_congr_left fun entry listed => ?_
  by_cases here : entry.2.hash = record.hash
  · obtain rfl : entry = (seq, old) := List.inj_on_of_nodup_map distinct listed member
      (here.trans sameHash)
    simp [sameHash, same]
  · simp [here]

def scan (dag : Dag) (chain : UInt32) : List Event :=
  dag.events.rtakeWhile fun event => ¬dag.Pins chain event.hash

theorem bare_scan : dag.bare.scan chain = dag.scan chain := by
  simp only [scan, bare_pins_iff]
  rfl

theorem bare_addClockEvent (made : record.bare = record) :
    (dag.addClockEvent seq record).bare = dag.bare.addClockEvent seq record := by
  simp [bare, addClockEvent, made]

end Dag

def Signed.hash : Signed → EventHash
  | .event published => published.hash
  | .clockEvent ticked => ticked.hash

structure LocalDag extends Dag where
  /-- Per chain, the events its next tick will reference. -/
  tails : List (List Event)
  now : Timestamp
  /-- Everything ever stored, pruned or not, in the order it was made. -/
  made : List Signed

namespace LocalDag

inductive Change
  | read (now : Timestamp)
  | publish (event : Event)
  | tick (seq : Nat) (record : LocalClockEvent)
  | prune (chain : UInt32) (keep : Nat)
  | hydrate

def tipReferences (dag : LocalDag) (numChains : Nat) : List EventReference :=
  (List.range numChains).filterMap fun chain => (dag.tip (UInt32.ofNat chain)).map fun ce =>
    ce.reference

def apply (numChains : Nat) (dag : LocalDag) : Change → LocalDag
  | .read now => { dag with now }
  | .publish event =>
      { dag with
        toDag := dag.addEvent event
        tails := dag.tails.map (· ++ [event])
        made := dag.made ++ [.event event] }
  | .tick seq record =>
      { dag with
        toDag := dag.addClockEvent seq record
        tails := dag.tails.set record.chain.toNat []
        made := dag.made ++ [.clockEvent record] }
  | .prune chain keep => { dag with toDag := dag.toDag.prune chain keep }
  | .hydrate =>
      { dag with tails := (List.range numChains).map fun chain => dag.toDag.scan (UInt32.ofNat chain) }

structure Policy where
  /-- The hashes that the node's own objects may have. -/
  own : EventHash → Prop
  /-- What the node may refer to on the word of its neighbors. -/
  foreign : EventReference → Prop
  reading : LocalDag → Timestamp → Prop
  ticking : LocalDag → LocalClockEvent → Prop
  hydrating : LocalDag → Prop

def Fresh (policy : Policy) (dag : LocalDag) (hash : EventHash) : Prop :=
  policy.own hash ∧ ∀ old ∈ dag.made, old.hash ≠ hash

def MakesTick (env : NodeEnv) (policy : Policy) (dag : LocalDag) (record : LocalClockEvent) :
    Prop :=
  ∃ chain salt tail heard, dag.tails[chain.toNat]? = some tail ∧
    (∀ ref ∈ heard, policy.foreign ref) ∧ record = makeClockEvent env chain salt
    (clampedStamp dag.now (dag.tip chain))
    (((dag.tip chain).map fun ce => ce.reference).toList ++ heard ++ tail.map Event.reference)

def Allows (env : NodeEnv) (policy : Policy) (dag : LocalDag) : Change → Prop
  | .read now => policy.reading dag now
  | .publish event =>
      (∃ data salt, event = makeEvent env data salt (dag.tipReferences env.numChains)) ∧
        Fresh policy dag event.hash
  | .tick seq record =>
      MakesTick env policy dag record ∧ Fresh policy dag record.hash ∧
        (∀ entry ∈ dag.clocks, entry.1 < seq) ∧ policy.ticking dag record
  | .prune _ keep => 0 < keep ∧ ∃ config ∈ env.config.chains, config.keep = keep
  | .hydrate => policy.hydrating dag

def Steps (env : NodeEnv) (policy : Policy) : LocalDag → LocalDag → Prop :=
  Relation.ReflTransGen fun before after =>
    ∃ change, Allows env policy before change ∧ after = before.apply env.numChains change

theorem Steps.one {env : NodeEnv} {policy : Policy} {dag after : LocalDag} (change : Change)
    (allowed : Allows env policy dag change) (same : after = dag.apply env.numChains change) :
    Steps env policy dag after := Relation.ReflTransGen.single ⟨change, allowed, same⟩

theorem Steps.keeps {env : NodeEnv} {policy : Policy} {before after : LocalDag}
    (invariant : LocalDag → Prop) (step : ∀ dag change, invariant dag →
      Allows env policy dag change → invariant (dag.apply env.numChains change))
    (steps : Steps env policy before after) (start : invariant before) : invariant after := by
  induction steps with
  | refl => exact start
  | tail _ last ih =>
      obtain ⟨change, allowed, rfl⟩ := last
      exact step _ change ih allowed

end LocalDag

open LocalDag

section Refinement

variable {σ : Type} [Store σ] [DagStore σ] {env : NodeEnv} {policy : Policy} {made : List Signed}
    {s start : NodeState σ}
  {s' : NodeState σ}

def NodeState.localDag (s : NodeState σ) (made : List Signed) : LocalDag where
  toDag := (DagStore.dag s.store).bare
  tails := s.unreferencedPerChain
  now := s.now
  made := made

def appendedBy {σ : Type} [Store σ] (env : NodeEnv) (s : NodeState σ) (action : NodeAction) :
    List Signed :=
  ((final (perform env action) s).signed.drop s.signed.length).filter (Signed.stored s.store)

structure Meets (env : NodeEnv) (policy : Policy) (made : List Signed) (s : NodeState σ)
    (action : NodeAction) : Prop where
  kind : ∀ blob, action ≠ .restore blob
  reading : ∀ now, action = .setClock now → policy.reading (s.localDag made) now
  hydrating : action = .hydrateFromStore ∨ action = .restart → policy.hydrating (s.localDag made)
  ticking : ∀ record, Makes env s action (.clockEvent record) →
    Signed.stored s.store (.clockEvent record) = true → policy.ticking (s.localDag made) record
  fresh : ∀ object, Makes env s action object → Signed.stored s.store object = true →
    Fresh policy (s.localDag made) object.hash
  foreign : ∀ (chain : UInt32), ∀ ref ∈ (valuesOf s.neighbors).filterMap (tipReference chain),
    policy.foreign ref

structure Still (start s : NodeState σ) : Prop where
  sound : DagStore.Sound s.store
  dag : (DagStore.dag s.store).bare = (DagStore.dag start.store).bare
  tails : s.unreferencedPerChain = start.unreferencedPerChain
  now : s.now = start.now
  signed : s.signed = start.signed

structure Evolves (env : NodeEnv) (policy : Policy) (made : List Signed) (start s : NodeState σ) :
    Prop where
  sound : DagStore.Sound s.store
  steps : ∃ new, s.signed = start.signed ++ new ∧
    Steps env policy (start.localDag made)
    (s.localDag (made ++ new.filter (Signed.stored start.store)))

theorem Still.refl (sound : DagStore.Sound s.store) : Still s s := ⟨sound, rfl, rfl, rfl, rfl⟩

theorem Still.then (still : Still start s) (store : s'.store = s.store)
    (tails : s'.unreferencedPerChain = s.unreferencedPerChain) (now : s'.now = s.now)
    (signed : s'.signed = s.signed) : Still start s' :=
  ⟨store ▸ still.sound, store ▸ still.dag, tails.trans still.tails, now.trans still.now,
    signed.trans still.signed⟩

theorem Still.localDag (still : Still start s) (made : List Signed) :
    s.localDag made = start.localDag made := by
  simp only [NodeState.localDag, still.dag, still.tails, still.now]

theorem Still.evolves (still : Still start s) : Evolves env policy made start s := by
  refine ⟨still.sound, [], by simpa using still.signed, ?_⟩
  rw [List.filter_nil, List.append_nil, still.localDag]
  exact Relation.ReflTransGen.refl

theorem Still.asks (still : Still start s) (asks : Asks env s s') : Still start s' := by
  obtain ⟨d, drawn, seen, sent, rfl, -⟩ := asks
  exact still.then rfl rfl rfl rfl

theorem Still.transmits {sent : List Sent} (still : Still start s)
    (transmits : Transmits sent s s') : Still start s' := by
  obtain ⟨drawn, seen, rfl⟩ := transmits
  exact still.then rfl rfl rfl rfl

theorem writeStore_still {write : σ → Except String σ}
    (kept : ∀ store after, DagStore.Sound store → write store = .ok after →
      DagStore.Sound after ∧ (DagStore.dag after).bare = (DagStore.dag store).bare) :
    Keeps (Still start) (writeStore write) := by
  intro s still
  rw [ends_writeStore]
  refine ⟨fun after written => ?_, fun _ _ => still⟩
  obtain ⟨sound, same⟩ := kept s.store after still.sound written
  exact ⟨sound, same.trans still.dag, still.tails, still.now, still.signed⟩

theorem putNeighbor_still (neighbor : Neighbor) :
    Keeps (Still (σ := σ) start) (writeStore fun store => Store.putNeighbor store neighbor) :=
  writeStore_still fun _ _ sound written =>
    (DagStore.putNeighbor_dag sound written).imp_right fun same => congrArg Dag.bare same

theorem addNeighbor_still (neighbor : NodeId) :
    Keeps (Still (σ := σ) start) (addNeighbor neighbor) := by
  intro s still
  simp only [addNeighbor, ends_bind, ends_get]
  split
  · exact still
  · simp only [ends_bind, ends_modify]
    exact putNeighbor_still _ _ (still.then rfl rfl rfl rfl)

theorem learnRoute_still (destination nextHop : NodeId) :
    Keeps (Still (σ := σ) start) (learnRoute destination nextHop) := by
  intro s still
  simp only [learnRoute, ends_bind, ends_modify]
  refine writeStore_still (fun _ _ sound written => ?_) _ (still.then rfl rfl rfl rfl)
  exact (DagStore.putRoute_dag sound written).imp_right fun same => congrArg Dag.bare same

theorem learnRouteAt_still (destination nextHop : NodeId) (validity : TimeRange) :
    Keeps (Still (σ := σ) start) (learnRouteAt destination nextHop validity) := by
  intro s still
  simp only [learnRouteAt, ends_bind, ends_modify, ends_get]
  refine writeStore_still (fun _ _ sound written => ?_) _ (still.then rfl rfl rfl rfl)
  exact (DagStore.putTimedRoutes_dag sound written).imp_right fun same => congrArg Dag.bare same

theorem recordReverseEdge_still (neighbor : NodeId) (last theirs : EventHash) :
    Keeps (Still (σ := σ) start) (recordReverseEdge neighbor last theirs) := by
  intro s still
  simp only [recordReverseEdge, ends_bind, ends_readStore]
  refine ⟨fun found read => ?_, fun _ _ => still⟩
  cases found with
  | none => exact still
  | some own =>
      obtain ⟨-, seq, member⟩ := DagStore.clockEventByHash_mem still.sound read
      rw [ends_when, ends_writeStore]
      refine ⟨fun _ => ⟨fun after written => ?_, fun _ _ => still⟩, fun _ => still⟩
      obtain ⟨sound, updated⟩ := DagStore.updateClockEvent_dag still.sound member (by rfl) (by rfl)
        (by rfl) written
      refine ⟨sound, ?_, still.tails, still.now, still.signed⟩
      rw [updated]
      exact (Dag.bare_update (DagStore.distinct still.sound) member (by rfl)).trans still.dag

theorem processClockEventNotification_still (sender : NodeId) (neighbor : Neighbor)
    (m : Wire.ClockNotification) :
    Keeps (Still (σ := σ) start) (processClockEventNotification sender neighbor m) := by
  refine Keeps.bind (fun s still => still.then rfl rfl rfl rfl) fun _ => ?_
  split
  · exact fun _ still => still
  · refine Keeps.bind (fun s still => ?_) fun _ => recordReverseEdge_still _ _ _
    rw [ends_when]
    exact ⟨fun _ => putNeighbor_still _ _ still, fun _ => still⟩

theorem onPacketReceived_still (datagram : Bytes) (sound : DagStore.Sound s.store) :
    EndsIn (onPacketReceived env datagram) s (Still s) := by
  have still := Still.refl sound
  unfold onPacketReceived
  split
  · simp only [receive, ends_bind, ends_get]
    split
    · exact still
    · split
      · exact processClockEventNotification_still _ _ _ s still
      · refine (processChainRequest_transmits _ _).mono ?_ ?_
        · rintro _ after ⟨sent, transmits, -⟩
          exact still.transmits transmits
        · rintro _ _ rfl
          exact still
      · refine (processChainResponse_effect _ _).mono ?_ fun _ _ asks => still.asks asks
        rintro _ after (asks | ⟨sent, transmits, -⟩)
        · exact still.asks asks
        · exact still.transmits transmits
  · exact still
  · exact still

theorem Still.armed (still : Still start s) (armed : ∃ timers, after = { s with timers }) :
    Still start after := by
  obtain ⟨timers, rfl⟩ := armed
  exact still.then rfl rfl rfl rfl

theorem purgeDiscoveries_still : Keeps (Still (σ := σ) start) (purgeDiscoveries env) := by
  intro s still
  simp only [purgeDiscoveries, ends_bind, ends_get, ends_when, ends_throw,
    ends_withDiscoveries, ends_modify]
  refine ⟨fun _ => still, fun _ => ?_⟩
  unfold Ends
  split
  · exact still.then rfl rfl rfl rfl
  · exact still.then rfl rfl rfl rfl

structure Trims (env : NodeEnv) (policy : Policy) (made : List Signed) (start s : NodeState σ) :
    Prop where
  sound : DagStore.Sound s.store
  signed : s.signed = start.signed
  steps : Steps env policy (start.localDag made) (s.localDag made)

theorem Trims.refl (sound : DagStore.Sound s.store) : Trims env policy made s s :=
  ⟨sound, rfl, Relation.ReflTransGen.refl⟩

theorem Trims.evolves (trims : Trims env policy made start s) : Evolves env policy made start s :=
  ⟨trims.sound, [], by simpa using trims.signed, by simpa using trims.steps⟩

theorem Trims.still (trims : Trims env policy made start s) (still : Still s s') :
    Trims env policy made start s' :=
  ⟨still.sound, still.signed.trans trims.signed, still.localDag made ▸ trims.steps⟩

theorem pruneToKeep_trims (chain : UInt32) :
    Keeps (Trims (σ := σ) env policy made start) (pruneToKeep env chain) := by
  intro s trims
  unfold pruneToKeep
  split
  · split
    · rename_i config found positive
      rw [ends_writeStore]
      refine ⟨fun after written => ?_, fun _ _ => trims⟩
      obtain ⟨sound, pruned⟩ := DagStore.pruneChain_dag trims.sound written
      refine ⟨sound, trims.signed, trims.steps.tail ⟨.prune chain config.keep, ?_, ?_⟩⟩
      · exact ⟨positive, config, List.mem_of_getElem? found, rfl⟩
      · simp only [NodeState.localDag, apply, pruned, Dag.bare_prune]
    · exact trims
  · exact trims

theorem tipReferences_eq {refs : List EventReference} (sound : DagStore.Sound s.store)
    (read : Loti.tipReferences env s.store = .ok refs) :
    refs = (s.localDag made).tipReferences env.numChains := by
  have latest : ∀ chain : Nat, Store.latestClockEventOn s.store (UInt32.ofNat chain) =
      .ok ((DagStore.dag s.store).tip (UInt32.ofNat chain)) := fun _ =>
      DagStore.latestClockEventOn_eq sound
  simp only [Loti.tipReferences, latest] at read
  have all : (List.range env.numChains).mapM
      (fun chain =>
        (Except.ok ((DagStore.dag s.store).tip (UInt32.ofNat chain)) : Except String _)) =
        .ok ((List.range env.numChains).map fun chain => (DagStore.dag s.store).tip
          (UInt32.ofNat chain)) :=
    List.mapM_pure
  rw [all] at read
  rw [← Except.ok.inj read]
  simp only [LocalDag.tipReferences, NodeState.localDag, Dag.bare_tip,
    List.filterMap_map, Option.map_map]
  rfl

theorem publishEvent_evolves (data : Bytes) (sound : DagStore.Sound s.store)
    (meets : Meets env policy made s (.publishEvent data)) :
    EndsIn (publishEvent env data) s (Evolves env policy made s) := by
  simp only [publishEvent, ends_bind, ends_modify]
  refine (insertEvent_spec env data s).mono ?_ ?_
  · rintro event _ ⟨makes, seq, store, appended, rfl⟩
    have stored := stored_event appended
    obtain ⟨soundAfter, added⟩ := DagStore.appendEvent_dag sound appended
    refine ⟨soundAfter, [.event event], rfl, ?_⟩
    refine Steps.one (.publish event) ⟨?_, meets.fresh (.event event) makes stored⟩ ?_
    · obtain ⟨refs, read, rfl⟩ := makes
      exact ⟨data, _, by rw [tipReferences_eq sound read]⟩
    · simp [NodeState.localDag, apply, added, Dag.bare, Dag.addEvent, stored,
        NodeState.afterSigning]
  · rintro _ _ (⟨rfl, -⟩ | ⟨event, what, -, refused, rfl⟩)
    · have still : Still s { s with saltsDrawn := s.saltsDrawn + 1 } :=
        (Still.refl sound).then rfl rfl rfl rfl
      exact still.evolves
    · refine ⟨sound, [.event event], rfl, ?_⟩
      have dropped : Signed.stored s.store (.event event) = false := by
        simp [Signed.stored, refused, Except.isOk, Except.toBool]
      rw [List.filter_cons_of_neg (by simp [dropped]), List.filter_nil, List.append_nil]
      exact Relation.ReflTransGen.refl

theorem MakesClockEvent.makesTick {chain : UInt32} {record : LocalClockEvent}
    (makes : MakesClockEvent env s chain record) (sound : DagStore.Sound s.store)
    (foreign : ∀ ref ∈ (valuesOf s.neighbors).filterMap (tipReference chain), policy.foreign ref) :
    MakesTick env policy (s.localDag made) record := by
  obtain ⟨last, tail, read, found, rfl⟩ := makes
  obtain rfl := ok_unique (DagStore.latestClockEventOn_eq sound) read
  refine ⟨chain, env.salts s.saltsDrawn, tail, _, found, foreign, ?_⟩
  simp only [NodeState.localDag, Dag.bare_tip, clockReferences]
  cases (DagStore.dag s.store).tip chain <;> rfl

theorem createClockEvent_evolves (chain : UInt32) (sound : DagStore.Sound s.store)
    (grounded : ∀ entry ∈ (DagStore.dag s.store).clocks, ∃ object ∈ made,
      object.hash = entry.2.hash)
    (ticking : ∀ record, MakesClockEvent env s chain record →
      Signed.stored s.store (.clockEvent record) = true →
      policy.ticking (s.localDag made) record ∧ Fresh policy (s.localDag made) record.hash)
    (foreign : ∀ ref ∈ (valuesOf s.neighbors).filterMap (tipReference chain), policy.foreign ref) :
    EndsIn (createClockEvent env chain) s (Evolves env policy made s) := by
  simp only [createClockEvent, ends_bind, ends_modify, ends_get]
  refine (insertClockEvent_spec env chain s).mono ?_ ?_
  · rintro record _ ⟨makes, seq, store, appended, rfl⟩
    have stored := stored_clockEvent appended
    obtain ⟨allowed, fresh⟩ := ticking record makes stored
    have unused : ∀ entry ∈ (DagStore.dag s.store).clocks, entry.2.hash ≠ record.hash := by
      intro entry member
      obtain ⟨object, listed, same⟩ := grounded entry member
      exact same ▸ fresh.2 object listed
    obtain ⟨soundAfter, added⟩ := DagStore.appendClockEvent_dag sound unused appended
    have above : ∀ entry ∈ (s.localDag made).clocks, entry.1 < seq := by
      intro entry member
      obtain ⟨old, live, -⟩ := Dag.mem_bare_clocks.mp member
      have sorted := DagStore.sorted soundAfter
      rw [added] at sorted
      exact (List.pairwise_append.mp sorted).2.2 _ live _ (List.mem_singleton_self _)
    have named : record.chain = chain ∧ record.bare = record := by
      obtain ⟨_, _, -, -, rfl⟩ := makes
      exact ⟨rfl, rfl⟩
    let ticked : NodeState σ := { s.afterSigning (.clockEvent record) with
      store, unreferencedPerChain := s.unreferencedPerChain.set chain.toNat [] }
    have tick :
      Steps env policy (s.localDag made) (ticked.localDag (made ++ [.clockEvent record])) := by
      refine Steps.one (.tick seq record) ⟨makes.makesTick sound foreign, fresh, above, allowed⟩ ?_
      simp only [ticked, NodeState.localDag, NodeState.afterSigning, apply, added, named.1,
        Dag.bare_addClockEvent named.2]
    have rest : Keeps (Trims env policy (made ++ [.clockEvent record]) ticked) (do
        (valuesOf s.neighbors).forM (sendClockEventNotification env record)
        pruneToKeep env chain) := by
      refine Keeps.bind (keeps_forM fun neighbor _ before trims => ?_) fun _ =>
        pruneToKeep_trims chain
      simp only [sendClockEventNotification, ends_send]
      exact trims.still ((Still.refl trims.sound).then rfl rfl rfl rfl)
    have evolves :
        ∀ {after : NodeState σ}, Trims env policy (made ++ [.clockEvent record]) ticked after →
        Evolves env policy made s after := by
      intro after trims
      refine ⟨trims.sound, [.clockEvent record], trims.signed, ?_⟩
      rw [List.filter_cons_of_pos stored, List.filter_nil]
      exact tick.trans trims.steps
    exact ends_bind.mp ((rest ticked (.refl soundAfter)).imp fun _ => evolves)
  · rintro _ _ (⟨rfl, -⟩ | ⟨record, what, -, refused, rfl⟩)
    · have still : Still s { s with saltsDrawn := s.saltsDrawn + 1 } :=
        (Still.refl sound).then rfl rfl rfl rfl
      exact still.evolves
    · refine ⟨sound, [.clockEvent record], rfl, ?_⟩
      have dropped : Signed.stored s.store (.clockEvent record) = false := by
        simp [Signed.stored, refused, Except.isOk, Except.toBool]
      rw [List.filter_cons_of_neg (by simp [dropped]), List.filter_nil, List.append_nil]
      exact Relation.ReflTransGen.refl

theorem referencedByChain_eq {store : σ} {chain : UInt32} {seqs : List Nat} (sound : DagStore.Sound store)
    (live : ∀ seq ∈ seqs, ∃ record, (seq, record) ∈ (DagStore.dag store).clocks) :
    ∃ referenced, referencedByChain store chain seqs = .ok referenced ∧
      (referenced = true ↔ ∃ seq ∈ seqs, ∃ record,
        (seq, record) ∈ (DagStore.dag store).clocks ∧ record.chain = chain) := by
  induction seqs with
  | nil => exact ⟨false, rfl, by simp⟩
  | cons seq rest ih =>
      obtain ⟨record, member⟩ := live seq (by simp)
      obtain ⟨later, read, answers⟩ := ih fun other listed => live other (by simp [listed])
      simp only [referencedByChain, DagStore.clockEventBySeq_eq sound member]
      by_cases here : record.chain = chain
      · refine ⟨true, by simp [here, bind, Except.bind, pure, Except.pure], ?_⟩
        simp
        exact Or.inl ⟨record, member, here⟩
      · refine ⟨later, by simp [here, bind, Except.bind, read], answers.trans ?_⟩
        constructor
        · rintro ⟨other, listed, found⟩
          exact ⟨other, by simp [listed], found⟩
        · rintro ⟨other, listed, found, alive, there⟩
          rcases List.mem_cons.mp listed with rfl | old
          · obtain rfl : found = record := congrArg Prod.snd
              (entry_unique (DagStore.sorted sound) alive member rfl)
            exact absurd there here
          · exact ⟨other, old, found, alive, there⟩

theorem unreferencedTail_eq {store : σ} (chain : UInt32) (sound : DagStore.Sound store) (k : Nat)
    (within : k ≤ (DagStore.dag store).events.length) (tail : List Event) :
    unreferencedTail store chain k tail = Except.ok
      (((DagStore.dag store).events.take k).rtakeWhile
        (fun event => ¬(DagStore.dag store).Pins chain event.hash) ++ tail) := by
  induction k generalizing tail with
  | zero => simp [unreferencedTail, pure, Except.pure]
  | succ k ih =>
      obtain ⟨event, found⟩ : ∃ event, (DagStore.dag store).events[k]? = some event :=
        ⟨_, List.getElem?_eq_getElem (by omega)⟩
      obtain ⟨seqs, read, -, listed⟩ := DagStore.clockEventsReferencing_eq sound
        (DagStore.readable_event sound (List.mem_of_getElem? found))
      have live : ∀ seq ∈ seqs, ∃ record, (seq, record) ∈ (DagStore.dag store).clocks :=
        fun seq member => ((listed seq).mp member).imp fun _ mentioned => mentioned.1
      obtain ⟨referenced, walked, answers⟩ :
        ∃ referenced, referencedByChain store chain seqs = .ok referenced ∧ _ :=
        referencedByChain_eq sound live
      have pinned : referenced = true ↔ (DagStore.dag store).Pins chain event.hash := by
        rw [answers]
        constructor
        · rintro ⟨seq, member, record, live, here⟩
          obtain ⟨other, alive, mentioned⟩ := (listed seq).mp member
          obtain rfl : other = record := congrArg Prod.snd
            (entry_unique (DagStore.sorted sound) alive live rfl)
          exact ⟨_, live, here, mentioned⟩
        · rintro ⟨⟨seq, record⟩, live, here, mentioned⟩
          exact ⟨seq, (listed seq).mpr ⟨record, live, mentioned⟩, record, live, here⟩
      simp only [unreferencedTail, DagStore.eventBySeq_eq sound found, read, walked,
        bind, Except.bind]
      rw [List.take_add_one, found, Option.toList_some, List.rtakeWhile_concat]
      cases referenced with
      | true => simp [pinned.mp rfl, pure, Except.pure]
      | false =>
          have free := mt pinned.mpr (by simp)
          simp [ih (by omega), free]

theorem foldl_set_getElem? {Item : Type} (read : Nat → Item) (places : List Nat) (items : List Item)
    (j : Nat) : (places.foldl (fun items place => items.set place (read place)) items)[j]? =
      if j ∈ places then items[j]?.map fun _ => read j else items[j]? := by
  induction places generalizing items with
  | nil => simp
  | cons place rest ih =>
      rw [List.foldl_cons, ih, List.getElem?_set]
      by_cases here : place = j
      · subst here
        by_cases within : place < items.length <;> by_cases again :
          place ∈ rest <;> simp [within, again]
      · have apart : j ≠ place := fun same => here same.symm
        simp [here, apart]

theorem hydrateWorkingState_reads (env : NodeEnv) (sound : DagStore.Sound s.store) :
    Returns (hydrateWorkingState env) s
      (fun _ after => after.store = s.store ∧ after.now = s.now ∧ after.signed = s.signed ∧
        after.unreferencedPerChain =
          (List.range env.numChains).map fun chain => (DagStore.dag s.store).scan
          (UInt32.ofNat chain)) := by
  have walk : ∀ (chains : List Nat) (before : NodeState σ), before.store = s.store →
      Returns (chains.forM fun chain => do
          let tail ← readStore fun store => unreferencedTail store (UInt32.ofNat chain)
            (Store.eventCount store) []
          modify fun s => { s with unreferencedPerChain := s.unreferencedPerChain.set chain tail })
            before
        (fun _ after => after = { before with
          unreferencedPerChain := chains.foldl (fun tails chain =>
            tails.set chain ((DagStore.dag s.store).scan (UInt32.ofNat chain)))
              before.unreferencedPerChain }) := by
    intro chains
    induction chains with
    | nil => exact fun _ _ => rfl
    | cons chain rest ih =>
        intro before stored
        have read := unreferencedTail_eq (UInt32.ofNat chain) sound _ (Nat.le_refl _) []
        rw [List.take_length, List.append_nil, ← DagStore.eventCount_eq sound] at read
        simp only [List.forM_eq_forM, List.forM_cons, ends_bind, ends_readStore, ends_modify,
          stored, read] at ih ⊢
        refine ⟨?_, by simp⟩
        rintro _ ⟨⟩
        exact ih _ rfl
  simp only [hydrateWorkingState, ends_bind, ends_modify]
  refine Ends.mono (walk _ _ (by rfl)) ?_ fun _ _ no => no
  rintro _ _ rfl
  refine ⟨rfl, rfl, rfl, List.ext_getElem? fun j => ?_⟩
  rw [foldl_set_getElem?, List.getElem?_map, List.getElem?_replicate]
  by_cases within : j < env.numChains
  · simp [within]
  · simp [within]

theorem hydrateWorkingState_evolves (sound : DagStore.Sound s.store)
    (hydrating : policy.hydrating (s.localDag made)) :
    EndsIn (hydrateWorkingState env) s (Evolves env policy made s) := by
  refine (hydrateWorkingState_reads env sound).always ?_
  rintro _ after ⟨store, now, signed, tails⟩
  refine ⟨store ▸ sound, [], by simpa using signed, ?_⟩
  refine Steps.one .hydrate hydrating ?_
  simp only [List.filter_nil, List.append_nil, NodeState.localDag, apply, store, now,
    tails, Dag.bare_scan]

theorem gc_evolves (sound : DagStore.Sound s.store) :
    EndsIn (gc env) s (Evolves env policy made s) := by
  have trims : Keeps (Trims env policy made s) (gc env) := keeps_forM fun chain _ =>
    pruneToKeep_trims (UInt32.ofNat chain)
  exact (trims s (.refl sound)).imp fun _ kept => kept.evolves

theorem fireTimer_evolves (timer : Timer) (sound : DagStore.Sound s.store)
    (grounded : ∀ entry ∈ (DagStore.dag s.store).clocks, ∃ object ∈ made,
      object.hash = entry.2.hash)
    (meets : Meets env policy made s (.fireTimer timer)) :
    EndsIn (fireTimer env timer) s (Evolves env policy made s) := by
  have evolves : ∀ {before after : NodeState σ}, Evolves env policy made s before →
      Still before after → Evolves env policy made s after := by
    rintro before after ⟨-, new, signed, steps⟩ still
    exact ⟨still.sound, new, still.signed.trans signed, still.localDag _ ▸ steps⟩
  simp only [fireTimer, ends_bind, ends_get]
  split
  · rename_i pending
    simp only [ends_bind, ends_modify]
    let fired : NodeState σ := { s with timers := s.timers.erase timer }
    cases timer with
    | clock chain =>
        rw [ends_bind]
        have tick : EndsIn (createClockEvent env chain) fired (Evolves env policy made fired) := by
          refine createClockEvent_evolves chain sound grounded (fun record makes stored => ?_)
            (meets.foreign chain)
          have ticks : Makes env s (.fireTimer (.clock chain)) (.clockEvent record) :=
            ⟨pending, makes⟩
          exact ⟨meets.ticking record ticks stored, meets.fresh (.clockEvent record) ticks stored⟩
        have same : ∀ {after : NodeState σ}, Evolves env policy made fired after →
          Evolves env policy made s after :=
          fun kept => ⟨kept.sound, kept.steps⟩
        refine tick.mono (fun _ ticked ticks => ?_) fun _ _ kept => same kept
        have kept := same ticks
        exact (scheduleClockTimer_arms chain).imp fun _ armed =>
          evolves kept ((Still.refl kept.sound).armed armed)
    | purge =>
        have still : Still s fired := (Still.refl sound).then rfl rfl rfl rfl
        rw [ends_bind]
        refine (purgeDiscoveries_still fired still).mono (fun _ after kept => ?_) fun _ _ kept =>
          kept.evolves
        have armed : Still s { after with timers := after.timers ++ [.purge] } :=
          kept.then rfl rfl rfl rfl
        exact armed.evolves
  · exact (Still.refl sound).evolves

theorem perform_evolves (action : NodeAction) (sound : DagStore.Sound s.store)
    (grounded : ∀ entry ∈ (DagStore.dag s.store).clocks, ∃ object ∈ made,
      object.hash = entry.2.hash)
    (meets : Meets env policy made s action) :
    EndsIn (perform env action) s (Evolves env policy made s) := by
  have still := Still.refl sound
  have quiet : ∀ {m : NodeM σ Unit}, Keeps (Still s) m →
      EndsIn m s (Evolves env policy made s) :=
    fun keeps => (keeps s still).imp fun _ kept => kept.evolves
  cases action with
  | start => exact start_arms.imp fun _ armed => (still.armed armed).evolves
  | addNeighbor neighbor => exact quiet (addNeighbor_still neighbor)
  | learnRoute destination nextHop => exact quiet (learnRoute_still destination nextHop)
  | learnRouteAt destination nextHop validity =>
      exact quiet (learnRouteAt_still destination nextHop validity)
  | publishEvent data =>
      simp only [perform, ends_discard]
      exact publishEvent_evolves data sound meets
  | createClockEvent chain =>
      refine createClockEvent_evolves chain sound grounded (fun record makes stored => ?_)
        (meets.foreign chain)
      exact ⟨meets.ticking record makes stored, meets.fresh (.clockEvent record) makes stored⟩
  | discoverEventChain | discoverEventBounds | discoverEventOrder =>
      exact (perform_asks rfl).imp fun _ asks => (still.asks asks).evolves
  | onPacketReceived datagram =>
      exact (onPacketReceived_still datagram sound).imp fun _ kept => kept.evolves
  | fireTimer timer => exact fireTimer_evolves timer sound grounded meets
  | setClock now =>
      refine ⟨sound, [], by simp, ?_⟩
      rw [List.filter_nil, List.append_nil]
      exact Steps.one (.read now) (meets.reading now rfl) rfl
  | gc => exact gc_evolves sound
  | hydrateFromStore => exact hydrateWorkingState_evolves sound (meets.hydrating (Or.inl rfl))
  | restart =>
      have hydrates :
        EndsIn (hydrateWorkingState env) s.stopped (Evolves env policy made s.stopped) :=
        hydrateWorkingState_evolves sound (meets.hydrating (Or.inr rfl))
      exact ends_restart.mpr (hydrates.imp fun _ kept => ⟨kept.sound, kept.steps⟩)
  | restore blob => exact absurd rfl (meets.kind blob)

end Refinement

end Loti
