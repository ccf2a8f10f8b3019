import Loti.Domain

/-!
`src/core/ports/store.hpp`: the port behind which a node keeps its DAG. An operation
that throws leaves the store as it was; the error is the exception's text. Sequence
numbers, `uint64_t` in the source, are natural numbers: a store sees fewer than `2 ^ 64`
appends. Counts and whole-table reads cannot fail: a read transaction always begins.

`LawfulStore` is what the protocol's safety rests on: a store invents nothing. Whatever
a read returns was written, and a lookup by hash returns a record with that hash.
-/

namespace Loti

/-- Per hash, the sequence numbers of the clock events that reference it. -/
abbrev ReverseIndex := Std.ExtTreeMap EventHash (List Nat)

class Store (σ : Type) where
  appendEvent : σ → Event → Except String (Nat × σ)
  appendClockEvent : σ → LocalClockEvent → Except String (Nat × σ)
  updateClockEvent : σ → LocalClockEvent → Except String σ
  putNeighbor : σ → Neighbor → Except String σ
  putRoute : σ → NodeId → NodeId → Except String σ
  putTimedRoutes : σ → TimedRouteTable → Except String σ
  pruneChain : σ → UInt32 → Nat → Except String σ
  eventByHash : σ → EventHash → Except String (Option Event)
  eventBySeq : σ → Nat → Except String Event
  clockEventByHash : σ → EventHash → Except String (Option LocalClockEvent)
  clockEventBySeq : σ → Nat → Except String LocalClockEvent
  clockEventSeq : σ → EventHash → Except String (Option Nat)
  clockEventsReferencing : σ → EventHash → Except String (List Nat)
  latestClockEvent : σ → Except String (Option LocalClockEvent)
  latestClockEventOn : σ → UInt32 → Except String (Option LocalClockEvent)
  eventCount : σ → Nat
  clockEventCount : σ → Nat
  loadClockEvents : σ → List LocalClockEvent
  loadNeighbors : σ → Neighbors
  loadRoutes : σ → Std.ExtTreeMap NodeId NodeId
  loadTimedRoutes : σ → TimedRouteTable
  clear : σ → Except String σ

structure Contents where
  event : Event → Prop
  clockEvent : LocalClockEvent → Prop
  neighbor : Neighbor → Prop

structure Contents.Implies (weak strong : Contents) : Prop where
  event : ∀ event, weak.event event → strong.event event
  clockEvent : ∀ clockEvent, weak.clockEvent clockEvent → strong.clockEvent clockEvent
  neighbor : ∀ neighbor, weak.neighbor neighbor → strong.neighbor neighbor

class LawfulStore (σ : Type) [Store σ] where
  /-- Every record of the store satisfies `contents`, and the hash index is right. -/
  Within : Contents → σ → Prop
  within_mono : ∀ {weak strong : Contents} {s : σ}, weak.Implies strong →
  Within weak s → Within strong s
  eventByHash_within : ∀ {contents : Contents} {s : σ} {hash : EventHash} {event : Event},
    Within contents s → Store.eventByHash s hash = .ok (some event) → contents.event event
  eventBySeq_within : ∀ {contents : Contents} {s : σ} {seq : Nat} {event : Event},
    Within contents s → Store.eventBySeq s seq = .ok event → contents.event event
  clockEventByHash_within : ∀ {contents : Contents} {s : σ} {hash : EventHash}
    {record : LocalClockEvent}, Within contents s →
      Store.clockEventByHash s hash = .ok (some record) →
      contents.clockEvent record ∧ record.hash = hash
  clockEventBySeq_within : ∀ {contents : Contents} {s : σ} {seq : Nat} {record : LocalClockEvent},
    Within contents s → Store.clockEventBySeq s seq = .ok record → contents.clockEvent record
  latestClockEventOn_within :
    ∀ {contents : Contents} {s : σ} {chain : UInt32} {record : LocalClockEvent},
    Within contents s → Store.latestClockEventOn s chain = .ok (some record) →
    contents.clockEvent record
  loadNeighbors_within : ∀ {contents : Contents} {s : σ} {id : NodeId} {neighbor : Neighbor},
    Within contents s → (Store.loadNeighbors s)[id]? = some neighbor →
      neighbor.nodeId = id ∧ contents.neighbor neighbor
  within_appendEvent : ∀ {contents : Contents} {s after : σ} {event : Event} {seq : Nat},
    Within contents s → contents.event event → Store.appendEvent s event = .ok (seq, after) →
      Within contents after
  within_appendClockEvent : ∀ {contents : Contents} {s after : σ} {record : LocalClockEvent}
    {seq : Nat}, Within contents s → contents.clockEvent record →
      Store.appendClockEvent s record = .ok (seq, after) → Within contents after
  within_updateClockEvent : ∀ {contents : Contents} {s after : σ} {record : LocalClockEvent},
    Within contents s → contents.clockEvent record → Store.updateClockEvent s record = .ok after →
      Within contents after
  within_putNeighbor : ∀ {contents : Contents} {s after : σ} {neighbor : Neighbor},
    Within contents s → contents.neighbor neighbor → Store.putNeighbor s neighbor = .ok after →
      Within contents after
  within_putRoute : ∀ {contents : Contents} {s after : σ} {destination nextHop : NodeId},
    Within contents s → Store.putRoute s destination nextHop = .ok after → Within contents after
  within_putTimedRoutes : ∀ {contents : Contents} {s after : σ} {table : TimedRouteTable},
    Within contents s → Store.putTimedRoutes s table = .ok after → Within contents after
  within_pruneChain : ∀ {contents : Contents} {s after : σ} {chain : UInt32} {keep : Nat},
    Within contents s → Store.pruneChain s chain keep = .ok after → Within contents after
  within_clear : ∀ {contents : Contents} {s after : σ}, Store.clear s = .ok after →
    Within contents after

end Loti
