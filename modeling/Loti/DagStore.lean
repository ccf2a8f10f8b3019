import Loti.Library.RingLog
import Loti.StorePort

/-!
What a store is for: it holds the node's events in publish order and its live clock events
in sequence order, and answers every query as these two lists say. Pruning a chain drops
its oldest clock events and nothing else.

A store may refuse to look up some hashes (`Readable`) and may refuse a write; what it
accepts changes the two lists as said here.
-/

namespace Loti

structure Dag where
  events : List Event
  /-- The live clock events under their sequence numbers, oldest first. -/
  clocks : List (Nat × LocalClockEvent)

namespace Dag

def onChain (dag : Dag) (chain : UInt32) : List (Nat × LocalClockEvent) :=
  RingLog.onLane (fun c : LocalClockEvent => c.chain) dag.clocks chain

def tip (dag : Dag) (chain : UInt32) : Option LocalClockEvent :=
  (dag.onChain chain).getLast?.map Prod.snd

def addEvent (dag : Dag) (event : Event) : Dag := { dag with events := dag.events ++ [event] }

def addClockEvent (dag : Dag) (seq : Nat) (record : LocalClockEvent) : Dag :=
  { dag with clocks := dag.clocks ++ [(seq, record)] }

def update (dag : Dag) (record : LocalClockEvent) : Dag :=
  { dag with clocks := dag.clocks.map fun entry =>
    if entry.2.hash = record.hash then (entry.1, record) else entry }

def prune (dag : Dag) (chain : UInt32) (keep : Nat) : Dag :=
  if keep = 0 then dag
  else { dag with clocks :=
    RingLog.pruned (fun c : LocalClockEvent => c.chain) chain keep dag.clocks }

def mentions (record : LocalClockEvent) : List EventHash :=
  record.referencedEvents.map fun ref => ref.hash

def Pins (dag : Dag) (chain : UInt32) (hash : EventHash) : Prop :=
  ∃ entry ∈ dag.clocks, entry.2.chain = chain ∧ hash ∈ mentions entry.2

instance (dag : Dag) (chain : UInt32) (hash : EventHash) : Decidable (dag.Pins chain hash) :=
  inferInstanceAs (Decidable (∃ entry ∈ dag.clocks, _))

end Dag

class DagStore (σ : Type) [Store σ] where
  dag : σ → Dag
  Sound : σ → Prop
  /-- Hashes that the store looks up without an error. -/
  Readable : EventHash → Prop
  sorted : ∀ {s : σ}, Sound s → RingLog.Ascending (dag s).clocks
  distinct : ∀ {s : σ}, Sound s → ((dag s).clocks.map fun entry => entry.2.hash).Nodup
  readable_event : ∀ {s : σ} {event : Event}, Sound s → event ∈ (dag s).events → Readable event.hash
  readable_clockEvent : ∀ {s : σ} {entry : Nat × LocalClockEvent}, Sound s →
    entry ∈ (dag s).clocks → Readable entry.2.hash
  eventCount_eq : ∀ {s : σ}, Sound s → Store.eventCount s = (dag s).events.length
  eventBySeq_eq : ∀ {s : σ} {k : Nat} {event : Event}, Sound s → (dag s).events[k]? = some event →
    Store.eventBySeq s k = .ok event
  clockEventByHash_eq : ∀ {s : σ} {hash : EventHash}, Sound s → Readable hash →
    ∃ found, Store.clockEventByHash s hash = .ok found ∧
      ∀ record, found = some record ↔ record.hash = hash ∧ ∃ seq, (seq, record) ∈ (dag s).clocks
  clockEventByHash_mem : ∀ {s : σ} {hash : EventHash} {record : LocalClockEvent}, Sound s →
    Store.clockEventByHash s hash = .ok (some record) → record.hash = hash ∧ ∃ seq,
    (seq, record) ∈ (dag s).clocks
  clockEventBySeq_eq : ∀ {s : σ} {seq : Nat} {record : LocalClockEvent}, Sound s →
    (seq, record) ∈ (dag s).clocks → Store.clockEventBySeq s seq = .ok record
  clockEventsReferencing_eq : ∀ {s : σ} {hash : EventHash}, Sound s → Readable hash →
    ∃ seqs, Store.clockEventsReferencing s hash = .ok seqs ∧ seqs.Pairwise (· ≤ ·) ∧
      ∀ seq, seq ∈ seqs ↔ ∃ record, (seq, record) ∈ (dag s).clocks ∧ hash ∈ Dag.mentions record
  readable_referencing : ∀ {s : σ} {hash : EventHash} {seqs : List Nat},
    Store.clockEventsReferencing s hash = .ok seqs → Readable hash
  clockEventCount_eq : ∀ {s : σ}, Sound s → Store.clockEventCount s = (dag s).clocks.length
  latestClockEventOn_eq : ∀ {s : σ} {chain : UInt32}, Sound s →
    Store.latestClockEventOn s chain = .ok ((dag s).tip chain)
  loadClockEvents_eq : ∀ {s : σ}, Sound s → Store.loadClockEvents s = (dag s).clocks.map Prod.snd
  appendEvent_dag : ∀ {s after : σ} {event : Event} {k : Nat}, Sound s →
    Store.appendEvent s event = .ok (k, after) → Sound after ∧ dag after = (dag s).addEvent event
  appendClockEvent_dag : ∀ {s after : σ} {record : LocalClockEvent} {k : Nat}, Sound s →
    (∀ entry ∈ (dag s).clocks, entry.2.hash ≠ record.hash) →
      Store.appendClockEvent s record = .ok (k, after) →
      Sound after ∧ dag after = (dag s).addClockEvent k record
  updateClockEvent_dag : ∀ {s after : σ} {old record : LocalClockEvent} {seq : Nat}, Sound s →
    (seq, old) ∈ (dag s).clocks → record.hash = old.hash → record.chain = old.chain →
      record.referencedEvents = old.referencedEvents → Store.updateClockEvent s record = .ok after →
        Sound after ∧ dag after = (dag s).update record
  pruneChain_dag : ∀ {s after : σ} {chain : UInt32} {keep : Nat}, Sound s →
    Store.pruneChain s chain keep = .ok after → Sound after ∧ dag after = (dag s).prune chain keep
  putNeighbor_dag : ∀ {s after : σ} {neighbor : Neighbor}, Sound s →
    Store.putNeighbor s neighbor = .ok after → Sound after ∧ dag after = dag s
  putRoute_dag : ∀ {s after : σ} {destination nextHop : NodeId}, Sound s →
    Store.putRoute s destination nextHop = .ok after → Sound after ∧ dag after = dag s
  putTimedRoutes_dag : ∀ {s after : σ} {table : TimedRouteTable}, Sound s →
    Store.putTimedRoutes s table = .ok after → Sound after ∧ dag after = dag s
  clear_dag : ∀ {s after : σ}, Store.clear s = .ok after → Sound after ∧ dag after = ⟨[], []⟩

theorem DagStore.clockEventsReferencing_mem {σ : Type} [Store σ] [DagStore σ] {s : σ}
    {hash : EventHash} {seqs : List Nat} (sound : Sound s)
    (read : Store.clockEventsReferencing s hash = .ok seqs) {seq : Nat} (listed : seq ∈ seqs) :
    ∃ record, (seq, record) ∈ (dag s).clocks ∧ hash ∈ Dag.mentions record := by
  obtain ⟨answer, answered, -, mentions⟩ := clockEventsReferencing_eq sound
    (readable_referencing read)
  obtain rfl := Except.ok.inj (answered.symm.trans read)
  exact (mentions seq).mp listed

structure EmptyStore {σ : Type} [Store σ] [LawfulStore σ] [DagStore σ] (store : σ) : Prop where
  sound : DagStore.Sound store
  dag : DagStore.dag store = ⟨[], []⟩
  within : ∀ contents, LawfulStore.Within contents store

end Loti
