import Loti.StorePort

/-!
Sequences of writes through the store port, and the sequence numbers they are given.
-/

namespace Loti

inductive StoreWrite
  | appendEvent (event : Event)
  | appendClockEvent (record : LocalClockEvent)
  | updateClockEvent (record : LocalClockEvent)
  | putNeighbor (neighbor : Neighbor)
  | putRoute (destination nextHop : NodeId)
  | putTimedRoutes (table : TimedRouteTable)
  | pruneChain (chain : UInt32) (keep : Nat)
  | clear

namespace StoreWrite

variable {σ : Type} [Store σ]

def perform (s : σ) : StoreWrite → Except String (Option Nat × σ)
  | .appendEvent event => do
      let (seq, after) ← Store.appendEvent s event
      return (some seq, after)
  | .appendClockEvent record => do
      let (seq, after) ← Store.appendClockEvent s record
      return (some seq, after)
  | .updateClockEvent record => return (none, ← Store.updateClockEvent s record)
  | .putNeighbor neighbor => return (none, ← Store.putNeighbor s neighbor)
  | .putRoute destination nextHop => return (none, ← Store.putRoute s destination nextHop)
  | .putTimedRoutes table => return (none, ← Store.putTimedRoutes s table)
  | .pruneChain chain keep => return (none, ← Store.pruneChain s chain keep)
  | .clear => return (none, ← Store.clear s)

def event? : StoreWrite → Option EventHash
  | .appendEvent event => some event.hash
  | _ => none

def clockEvent? : StoreWrite → Option EventHash
  | .appendClockEvent record => some record.hash
  | _ => none

structure Distinct (writes : List StoreWrite) : Prop where
  events : (writes.filterMap event?).Nodup
  clockEvents : (writes.filterMap clockEvent?).Nodup

theorem Distinct.front {writes : List StoreWrite} {write : StoreWrite}
    (distinct : Distinct (writes ++ [write])) : Distinct writes := by
  have events := distinct.events
  have clockEvents := distinct.clockEvents
  rw [List.filterMap_append] at events clockEvents
  exact ⟨(List.nodup_append.mp events).1, (List.nodup_append.mp clockEvents).1⟩

theorem Distinct.fresh {writes : List StoreWrite} {record : LocalClockEvent}
    (distinct : Distinct (writes ++ [.appendClockEvent record])) :
    record.hash ∉ writes.filterMap clockEvent? := by
  have clockEvents := distinct.clockEvents
  rw [List.filterMap_append, List.nodup_append] at clockEvents
  exact fun earlier => clockEvents.2.2 _ earlier _ (by simp [clockEvent?]) rfl

/-- An update of a record the store holds changes nothing but the learned references. -/
def KeepsContent (s : σ) : StoreWrite → Prop
  | .updateClockEvent record => ∀ old, Store.clockEventByHash s record.hash = .ok (some old) →
      record = { old with referencingEvents := record.referencingEvents }
  | _ => True

end StoreWrite

structure Issued where
  events : List Nat := []
  clockEvents : List Nat := []

def Issued.by (issued : Issued) (number : Option Nat) : StoreWrite → Issued
  | .appendEvent _ => { issued with events := issued.events ++ number.toList }
  | .appendClockEvent _ => { issued with clockEvents := issued.clockEvents ++ number.toList }
  | .clear => {}
  | _ => issued

inductive Written {σ : Type} [Store σ] (empty : σ) : List StoreWrite → Issued → σ → Prop
  | start : Written empty [] {} empty
  | write {writes : List StoreWrite} {issued : Issued} {s after : σ} {write : StoreWrite}
      {number : Option Nat} : Written empty writes issued s → write.KeepsContent s →
        write.perform s = .ok (number, after) →
        Written empty (writes ++ [write]) (issued.by number write) after

end Loti
