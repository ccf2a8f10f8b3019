import Loti.Library.StateExcept
import Loti.OfflineProof

/-!
The discovery bookkeeping of `src/core/node.cpp`: the three tables of discoveries, how
their entries are resolved, and the node's own `ChainCallback`, which drives bounds and
order discoveries off the resolution of chain discoveries.

A callback object of a client is a registration number; invoking it appends to
`notified`, the trace of all callback invocations. The repository's clients do not call
back into the node. The clock does not move during a call, so its reading is a parameter.
-/

namespace Loti

open Std StateExcept

inductive ChainCallback
  | node
  | client (registration : Nat)
deriving DecidableEq

structure Entry (Discovery Callback : Type) where
  discovery : Discovery
  callbacks : List Callback

abbrev ChainEntry := Entry EventChainDiscovery ChainCallback

abbrev BoundsEntry := Entry EventBoundsDiscovery Nat

abbrev OrderEntry := Entry EventOrderDiscovery Nat

inductive Notification
  | chainCompleted (callback : ChainCallback) (event : Event) (chain : EventChain)
  | chainAborted (callback : ChainCallback) (event : Event)
  | boundsCompleted (registration : Nat) (event : Event) (lower upper : Timestamp)
  | boundsAborted (registration : Nat) (event : Event)
  | orderCompleted (registration : Nat) (event1 event2 : Event) (order : Order)
  | orderAborted (registration : Nat) (event1 event2 : Event)
deriving DecidableEq

structure Discoveries where
  chainDiscoveries : ExtTreeMap EventHash ChainEntry := ∅
  boundsDiscoveries : ExtTreeMap EventHash BoundsEntry := ∅
  orderDiscoveries : ExtTreeMap (EventHash × EventHash) OrderEntry := ∅
  notified : List Notification := []

abbrev DiscoveryM := EStateM Fault Discoveries

def notify (notifications : List Notification) : DiscoveryM Unit :=
  modify fun s => { s with notified := s.notified ++ notifications }

/-- The two assertions at the head of every `abort_*` and `complete_*`. -/
def expectInProgress {Discovery Callback : Type} (state : Discovery → DiscoveryState) :
    Option (Entry Discovery Callback) → DiscoveryM (Entry Discovery Callback)
  | some entry =>
      if state entry.discovery = .inProgress then pure entry
      else throw (.assertion .discoveryInProgress)
  | none => throw (.assertion .discoveryFound)

def putChain (hash : EventHash) (entry : ChainEntry) : DiscoveryM Unit :=
  modify fun s => { s with chainDiscoveries := s.chainDiscoveries.insert hash entry }

def putBounds (hash : EventHash) (entry : BoundsEntry) : DiscoveryM Unit :=
  modify fun s => { s with boundsDiscoveries := s.boundsDiscoveries.insert hash entry }

def putOrder (key : EventHash × EventHash) (entry : OrderEntry) : DiscoveryM Unit :=
  modify fun s => { s with orderDiscoveries := s.orderDiscoveries.insert key entry }

def newChainDiscovery (now : Timestamp) (event : Event) (originator : NodeId) (range : TimeRange) :
    EventChainDiscovery where
  startTime := now
  endTime := 0
  originator := originator
  event := event
  range := range
  chain := { event, lowerBound := [], upperBound := [] }
  state := .inProgress

def newBoundsDiscovery (now : Timestamp) (event : Event) : EventBoundsDiscovery where
  startTime := now
  endTime := 0
  event := event
  lowerBound := 0
  upperBound := 0
  state := .inProgress

def newOrderDiscovery (now : Timestamp) (event1 event2 : Event) : EventOrderDiscovery where
  startTime := now
  endTime := 0
  event1 := event1
  event2 := event2
  order := .undetermined
  state := .inProgress

def insertChainDiscovery (now : Timestamp) (event : Event) (originator : NodeId) (range : TimeRange)
    (callback : ChainCallback) : DiscoveryM Unit :=
  putChain event.hash ⟨newChainDiscovery now event originator range, [callback]⟩

def insertBoundsDiscovery (now : Timestamp) (event : Event) (callback : Nat) : DiscoveryM Unit :=
  putBounds event.hash ⟨newBoundsDiscovery now event, [callback]⟩

def insertOrderDiscovery (now : Timestamp) (event1 event2 : Event) (callback : Nat) :
    DiscoveryM Unit :=
  putOrder (event1.hash, event2.hash) ⟨newOrderDiscovery now event1 event2, [callback]⟩

def abortBoundsDiscovery (now : Timestamp) (hash : EventHash) : DiscoveryM Unit := do
  let entry ← expectInProgress (·.state) (← get).boundsDiscoveries[hash]?
  putBounds hash
    { entry with discovery := { entry.discovery with endTime := now, state := .aborted } }
  notify (entry.callbacks.map fun cb => .boundsAborted cb entry.discovery.event)

def completeBoundsDiscovery (now : Timestamp) (hash : EventHash) : DiscoveryM Unit := do
  let entry ← expectInProgress (·.state) (← get).boundsDiscoveries[hash]?
  let d := entry.discovery
  putBounds hash { entry with discovery := { d with endTime := now, state := .completed } }
  notify (entry.callbacks.map fun cb => .boundsCompleted cb d.event d.lowerBound d.upperBound)

def abortOrderDiscovery (now : Timestamp) (key : EventHash × EventHash) : DiscoveryM Unit := do
  let entry ← expectInProgress (·.state) (← get).orderDiscoveries[key]?
  let d := entry.discovery
  putOrder key { entry with discovery := { d with endTime := now, state := .aborted } }
  notify (entry.callbacks.map fun cb => .orderAborted cb d.event1 d.event2)

def completeOrderDiscovery (now : Timestamp) (key : EventHash × EventHash) : DiscoveryM Unit := do
  let entry ← expectInProgress (·.state) (← get).orderDiscoveries[key]?
  let d := entry.discovery
  putOrder key { entry with discovery := { d with endTime := now, state := .completed } }
  notify (entry.callbacks.map fun cb => .orderCompleted cb d.event1 d.event2 d.order)

/-- `Node::compare_event_chains`, which `proof.cpp` mirrors. -/
def compareEventChains (a b : EventChain) : Option Order := OfflineProof.compare a b

def completeBoundsFrom (now : Timestamp) (chain : EventChain) : DiscoveryM Unit := do
  match (← get).boundsDiscoveries[chain.event.hash]? with
  | some entry =>
      if entry.discovery.state = .inProgress then
        match chain.lowerBound.head?, chain.upperBound.getLast? with
        | some front, some back =>
            putBounds chain.event.hash { entry with
              discovery := { entry.discovery with
                lowerBound := front.timestamp, upperBound := back.timestamp } }
            completeBoundsDiscovery now chain.event.hash
        | _, _ => throw .undefinedBehavior
  | none => pure ()

/-- Completes an order discovery if the other event's chain is completed too. -/
def completeOrderAgainst (now : Timestamp) (key : EventHash × EventHash)
    (entry : OrderEntry) (other : EventHash) (compareWith : EventChain → Option Order) :
    DiscoveryM Unit := do
  match (← get).chainDiscoveries[other]? with
  | some found =>
      if found.discovery.state = .completed then
        match compareWith found.discovery.chain with
        | some order =>
            putOrder key { entry with discovery := { entry.discovery with order } }
            completeOrderDiscovery now key
        | none => throw .undefinedBehavior
  | none => pure ()

def completeOrderFrom (now : Timestamp) (chain : EventChain) (key : EventHash × EventHash) :
    DiscoveryM Unit := do
  match (← get).orderDiscoveries[key]? with
  | some entry =>
      if entry.discovery.state = .inProgress then
        if key.1 = chain.event.hash then
          completeOrderAgainst now key entry key.2 fun other => compareEventChains chain other
        else if key.2 = chain.event.hash then
          completeOrderAgainst now key entry key.1 fun other => compareEventChains other chain
  | none => pure ()

def onChainCompleted (now : Timestamp) (chain : EventChain) : DiscoveryM Unit := do
  completeBoundsFrom now chain
  (← get).orderDiscoveries.keys.forM (completeOrderFrom now chain)

def abortOrderFrom (now : Timestamp) (hash : EventHash) (key : EventHash × EventHash) :
    DiscoveryM Unit := do
  match (← get).orderDiscoveries[key]? with
  | some entry =>
      if entry.discovery.state = .inProgress ∧ (key.1 = hash ∨ key.2 = hash) then
        abortOrderDiscovery now key
  | none => pure ()

def onChainAborted (now : Timestamp) (hash : EventHash) : DiscoveryM Unit := do
  when (hash ∈ (← get).boundsDiscoveries) (abortBoundsDiscovery now hash)
  (← get).orderDiscoveries.keys.forM (abortOrderFrom now hash)

def invokeAborted (now : Timestamp) (event : Event) (callback : ChainCallback) :
    DiscoveryM Unit := do
  notify [.chainAborted callback event]
  match callback with
  | .node => onChainAborted now event.hash
  | .client _ => pure ()

def invokeCompleted (now : Timestamp) (event : Event) (chain : EventChain)
    (callback : ChainCallback) : DiscoveryM Unit := do
  notify [.chainCompleted callback event chain]
  match callback with
  | .node => onChainCompleted now chain
  | .client _ => pure ()

def abortChainDiscovery (now : Timestamp) (hash : EventHash) : DiscoveryM Unit := do
  let entry ← expectInProgress (·.state) (← get).chainDiscoveries[hash]?
  putChain hash
    { entry with discovery := { entry.discovery with endTime := now, state := .aborted } }
  entry.callbacks.forM (invokeAborted now entry.discovery.event)

/-- `accepts` is `validate_chain_discovery_result`. -/
def completeChainDiscovery (accepts : EventChain → Bool) (now : Timestamp) (hash : EventHash) :
    DiscoveryM Unit := do
  let entry ← expectInProgress (·.state) (← get).chainDiscoveries[hash]?
  if accepts entry.discovery.chain then
    putChain hash
      { entry with discovery := { entry.discovery with endTime := now, state := .completed } }
    entry.callbacks.forM (invokeCompleted now entry.discovery.event entry.discovery.chain)
  else
    abortChainDiscovery now hash

def purgeChainDiscovery (id : NodeId) (now limit : Timestamp) (hash : EventHash) :
    DiscoveryM Unit := do
  match (← get).chainDiscoveries[hash]? with
  | some entry =>
      let d := entry.discovery
      if d.startTime < limit then
        when (d.originator = id ∧ d.state = .inProgress) (abortChainDiscovery now d.event.hash)
        modify fun s => { s with chainDiscoveries := s.chainDiscoveries.erase hash }
  | none => pure ()

def purgeBoundsDiscovery (now limit : Timestamp) (hash : EventHash) : DiscoveryM Unit := do
  match (← get).boundsDiscoveries[hash]? with
  | some entry =>
      let d := entry.discovery
      if d.startTime < limit then
        when (d.state = .inProgress) (abortBoundsDiscovery now d.event.hash)
        modify fun s => { s with boundsDiscoveries := s.boundsDiscoveries.erase hash }
  | none => pure ()

def purgeOrderDiscovery (now limit : Timestamp) (key : EventHash × EventHash) :
    DiscoveryM Unit := do
  match (← get).orderDiscoveries[key]? with
  | some entry =>
      let d := entry.discovery
      if d.startTime < limit then
        when (d.state = .inProgress) (abortOrderDiscovery now (d.event1.hash, d.event2.hash))
        modify fun s => { s with orderDiscoveries := s.orderDiscoveries.erase key }
  | none => pure ()

def purgeTables (id : NodeId) (now limit : Timestamp) : DiscoveryM Unit := do
  (← get).chainDiscoveries.keys.forM (purgeChainDiscovery id now limit)
  (← get).boundsDiscoveries.keys.forM (purgeBoundsDiscovery now limit)
  (← get).orderDiscoveries.keys.forM (purgeOrderDiscovery now limit)

end Loti
