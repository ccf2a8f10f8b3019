import Loti.ChainBuilding
import Loti.Discovery
import Loti.Routing

/-!
`src/core/node.cpp`: the protocol engine over an arbitrary store. The ports are modelled
by what the node sees of them: the clock by its current reading, the random source by a
stream of salts, the scheduler by the timers armed and not yet fired, the transport and
the signer by the trace of datagrams handed over and of objects signed. Telemetry has no
effect on the node and is left out. An operation that throws keeps the state it reached.
-/

namespace Loti

open Std StateExcept Wire Routing

structure ChainConfig where
  interval : Duration := 0
  keep : Nat := 0

inductive DiscoveryRouting
  | staticShortestPath
  | flood
deriving DecidableEq

structure NodeConfig where
  chains : List ChainConfig := []
  discoveryExpiry : Duration := 0
  discoveryHopLimit : UInt32 := 0
  discoveryRouting : DiscoveryRouting := .staticShortestPath
  discoveryFanout : Nat := 0
  discoveryForwardCap : UInt32 := 0

/-- The constructor's safe defaults: under the flood policy an unset cap is bounded. -/
def NodeConfig.withFloodDefaults (config : NodeConfig) : NodeConfig :=
  if config.discoveryRouting = .flood then
    { config with
      discoveryFanout := if config.discoveryFanout = 0 then 8 else config.discoveryFanout
      discoveryHopLimit := if config.discoveryHopLimit = 0 then 32 else config.discoveryHopLimit
      discoveryForwardCap :=
        if config.discoveryForwardCap = 0 then 8 else config.discoveryForwardCap }
  else config

/-- What stays fixed while a node runs; `config` is the configuration after the defaults. -/
structure NodeEnv where
  id : NodeId
  hasher : Hasher
  signer : Signer
  salts : Nat → Salt
  config : NodeConfig
  wordBits : Nat

def NodeEnv.numChains (env : NodeEnv) : Nat := max 1 env.config.chains.length

structure FloodSeen where
  firstSeen : Timestamp := 0
  forwards : UInt32 := 0

inductive Timer
  | clock (chain : UInt32)
  | purge
deriving DecidableEq

inductive Signed
  | event (event : Event)
  | clockEvent (clockEvent : LocalClockEvent)
deriving DecidableEq

structure Sent where
  destination : NodeId
  datagram : Datagram
deriving DecidableEq

structure NodeState (σ : Type) where
  store : σ
  now : Timestamp
  saltsDrawn : Nat
  neighbors : Neighbors
  unreferencedPerChain : List (List Event)
  destinationToNextHop : ExtTreeMap NodeId NodeId
  timedRoutes : TimedRouteTable
  discoveries : Discoveries
  floodSeen : ExtTreeMap (NodeId × EventHash) FloodSeen
  timers : List Timer
  signed : List Signed
  sent : List Sent

abbrev NodeM (σ : Type) := EStateM Fault (NodeState σ)

variable {σ : Type} [Store σ]

def readStore {α : Type} (read : σ → Except String α) : NodeM σ α := do
  ofExcept .exception (read (← get).store)

def writeStore (write : σ → Except String σ) : NodeM σ Unit := do
  let after ← ofExcept .exception (write (← get).store)
  modify fun s => { s with store := after }

def withDiscoveries {α : Type} (m : DiscoveryM α) : NodeM σ α :=
  zoom NodeState.discoveries (fun d s => { s with discoveries := d }) m

def nextSalt (env : NodeEnv) : NodeM σ Salt := do
  let drawn := (← get).saltsDrawn
  modify fun s => { s with saltsDrawn := drawn + 1 }
  return env.salts drawn

def sign (object : Signed) : NodeM σ Unit :=
  modify fun s => { s with signed := s.signed ++ [object] }

def send (env : NodeEnv) (destination : NodeId) (payload : Payload) : NodeM σ Unit :=
  modify fun s => { s with sent := s.sent ++ [⟨destination, ⟨env.id, payload⟩⟩] }

def arm (timer : Timer) : NodeM σ Unit :=
  modify fun s => { s with timers := s.timers ++ [timer] }

/-! Overlay -/

def addNeighbor (neighbor : NodeId) : NodeM σ Unit := do
  unless neighbor ∈ (← get).neighbors do
    modify fun s => { s with neighbors := s.neighbors.insert neighbor ⟨neighbor, []⟩ }
    writeStore fun store => Store.putNeighbor store ⟨neighbor, []⟩

def learnRoute (destination nextHop : NodeId) : NodeM σ Unit := do
  modify fun s =>
    { s with destinationToNextHop := s.destinationToNextHop.insert destination nextHop }
  writeStore fun store => Store.putRoute store destination nextHop

def learnRouteAt (destination nextHop : NodeId) (validity : TimeRange) : NodeM σ Unit := do
  modify fun s => { s with
    timedRoutes := s.timedRoutes.insert destination
      (s.timedRoutes.getD destination [] ++ [⟨validity, [nextHop]⟩]) }
  let table := (← get).timedRoutes
  writeStore fun store => Store.putTimedRoutes store table

/-! DAG mutation -/

def tipReference (chain : UInt32) (neighbor : Neighbor) : Option EventReference :=
  match neighbor.lastClockEventHashes[chain.toNat]? with
  | some hash => if hash = [] then none else some ⟨neighbor.nodeId, hash⟩
  | none => none

def tipReferences (env : NodeEnv) (store : σ) : Except String (List EventReference) := do
  let tips ← (List.range env.numChains).mapM fun chain =>
    Store.latestClockEventOn store (UInt32.ofNat chain)
  return tips.filterMap fun tip => tip.map fun ce => ce.reference

def makeEvent (env : NodeEnv) (data : Bytes) (salt : Salt)
    (referencedEvents : List EventReference) : Event :=
  let unsigned : Event :=
    { creator := env.id, hash := [], data, salt, referencedEvents, signature := [] }
  let hash := env.hasher.calculateEventHash unsigned
  { unsigned with hash, signature := env.signer.sign hash }

def insertEvent (env : NodeEnv) (data : Bytes) : NodeM σ Event := do
  let salt ← nextSalt env
  let refs ← readStore (tipReferences env)
  let event := makeEvent env data salt refs
  sign (.event event)
  writeStore fun store => Prod.snd <$> Store.appendEvent store event
  return event

def makeClockEvent (env : NodeEnv) (chain : UInt32) (salt : Salt) (timestamp : Timestamp)
    (referencedEvents : List EventReference) : LocalClockEvent :=
  let unsigned : LocalClockEvent :=
    { creator := env.id, hash := [], chain, timestamp, salt, referencedEvents, signature := []
      referencingEvents := [] }
  let hash := env.hasher.calculateClockEventHash unsigned.toClockEvent
  { unsigned with hash, signature := env.signer.sign hash }

/-- The reading of the clock, clamped up to the timestamp of the chain's tip. -/
def clampedStamp (now : Timestamp) : Option LocalClockEvent → Timestamp
  | some last => if now < last.timestamp then last.timestamp else now
  | none => now

/-- The references of a clock event: the chain's tip, each neighbor's tip on the chain, and the
events published since the chain's last tick. -/
def clockReferences (chain : UInt32) (last : Option LocalClockEvent) (neighbors : Neighbors)
    (tail : List Event) : List EventReference :=
  (last.map fun ce => ce.reference).toList ++ (valuesOf neighbors).filterMap (tipReference chain) ++
    tail.map Event.reference

def insertClockEvent (env : NodeEnv) (chain : UInt32) : NodeM σ LocalClockEvent := do
  let salt ← nextSalt env
  let last ← readStore fun store => Store.latestClockEventOn store chain
  let s ← get
  match s.unreferencedPerChain[chain.toNat]? with
  | none => throw .undefinedBehavior
  | some tail =>
      let clockEvent := makeClockEvent env chain salt (clampedStamp s.now last)
        (clockReferences chain last s.neighbors tail)
      sign (.clockEvent clockEvent)
      writeStore fun store => Prod.snd <$> Store.appendClockEvent store clockEvent
      return clockEvent

def publishEvent (env : NodeEnv) (data : Bytes) : NodeM σ Event := do
  let event ← insertEvent env data
  modify fun s => { s with unreferencedPerChain := s.unreferencedPerChain.map (· ++ [event]) }
  return event

def sendClockEventNotification (env : NodeEnv) (clockEvent : LocalClockEvent)
    (neighbor : Neighbor) : NodeM σ Unit :=
  send env neighbor.nodeId (.clockNotification
    { chain := clockEvent.chain
      lastClockEventHash := clockEvent.hash
      neighborLastClockEventHash := neighbor.lastClockEventHashes.getD clockEvent.chain.toNat [] })

def pruneToKeep (env : NodeEnv) (chain : UInt32) : NodeM σ Unit :=
  match env.config.chains[chain.toNat]? with
  | some config =>
      if 0 < config.keep then writeStore fun store => Store.pruneChain store chain config.keep
      else pure ()
  | none => pure ()

def createClockEvent (env : NodeEnv) (chain : UInt32) : NodeM σ Unit := do
  let clockEvent ← insertClockEvent env chain
  modify fun s => { s with unreferencedPerChain := s.unreferencedPerChain.set chain.toNat [] }
  (valuesOf (← get).neighbors).forM (sendClockEventNotification env clockEvent)
  pruneToKeep env chain

def gc (env : NodeEnv) : NodeM σ Unit :=
  (List.range env.config.chains.length).forM fun chain => pruneToKeep env (UInt32.ofNat chain)

/-! Networking -/

def resize (tips : List EventHash) (size : Nat) : List EventHash :=
  tips.take size ++ List.replicate (size - tips.length) []

/-- The table of tips after the size check; the size `chain + 1` is a 32-bit sum. -/
def coveringTips (tips : List EventHash) (chain : UInt32) : List EventHash :=
  if tips.length ≤ chain.toNat then resize tips (chain + 1).toNat else tips

/-- Records on our clock event `theirs` that `neighbor` referenced it from `last`, once. -/
def recordReverseEdge (neighbor : NodeId) (last theirs : EventHash) : NodeM σ Unit := do
  match ← readStore fun store => Store.clockEventByHash store theirs with
  | some own =>
      when (⟨neighbor, last⟩ ∉ own.referencingEvents)
        (writeStore fun store => Store.updateClockEvent store { own with
          referencingEvents := own.referencingEvents ++ [⟨neighbor, last⟩] })
  | none => pure ()

/-- `neighbor` is the entry of `neighbors_` under the datagram's sender. -/
def processClockEventNotification (sender : NodeId) (neighbor : Neighbor) (m : ClockNotification) :
    NodeM σ Unit := do
  let tips := coveringTips neighbor.lastClockEventHashes m.chain
  let updated :=
    { neighbor with lastClockEventHashes := tips.set m.chain.toNat m.lastClockEventHash }
  modify fun s => { s with neighbors := s.neighbors.insert sender updated }
  match tips[m.chain.toNat]? with
  | none => throw .undefinedBehavior
  | some old =>
      when (old ≠ m.lastClockEventHash) (writeStore fun store => Store.putNeighbor store updated)
      recordReverseEdge neighbor.nodeId m.lastClockEventHash m.neighborLastClockEventHash

def nextHops (env : NodeEnv) (destination : NodeId) (ctx : RouteContext) :
    NodeM σ (List NodeId) := do
  let s ← get
  match env.config.discoveryRouting with
  | .staticShortestPath => return staticNextHops s.neighbors s.destinationToNextHop destination
  | .flood =>
      let crosslinked := historyNextHops env.id s.store s.neighbors ctx
      let candidates := tableNextHops s.timedRoutes crosslinked destination ctx
      let sampled := sampledNextHops (fun i => env.salts (s.saltsDrawn + i))
        env.config.discoveryFanout candidates
      set { s with saltsDrawn := s.saltsDrawn + sampled.2 }
      return sampled.1

def forwardTo (env : NodeEnv) (incoming : List NodeId) (request : ChainRequest) (hop : NodeId) :
    NodeM σ Unit := do
  if hop = env.id ∨ hop ∈ incoming then return
  match (← get).neighbors[hop]? with
  | some neighbor => send env neighbor.nodeId (.chainRequest request)
  | none => pure ()

def floodChainRequest (env : NodeEnv) (destination : NodeId) (ctx : RouteContext)
    (base : ChainRequest) : NodeM σ Unit := do
  let hops ← nextHops env destination ctx
  hops.forM (forwardTo env base.path { base with path := base.path ++ [env.id] })

def sendChainResponseRetrace (env : NodeEnv) (originator : NodeId) (chain : EventChain)
    (path : List NodeId) : NodeM σ Unit := do
  match path.getLast? with
  | none => pure ()
  | some next =>
      match (← get).neighbors[next]? with
      | some neighbor =>
          send env neighbor.nodeId (.chainResponse { originator, chain, path := path.dropLast })
      | none => pure ()

def addLowerBound (env : NodeEnv) (chain : EventChain) : NodeM σ (Option EventChain) :=
  readStore fun store => addLocalLowerBound env.id store chain

def addUpperBound (chain : EventChain) : NodeM σ (Option EventChain) :=
  readStore fun store => addLocalUpperBound store chain

/-- Attaches own clock events at both ends, extends both bounds for `neighbor`, and sends the
chain back along `path`; a bound that cannot be attached or extended drops it. -/
def extendAndRetrace (env : NodeEnv) (neighbor : Neighbor) (originator : NodeId)
    (chain : EventChain) (path : List NodeId) : NodeM σ Unit := do
  let some chain ← addLowerBound env chain | return
  let some chain ← addUpperBound chain | return
  let store := (← get).store
  let some chain ← ofExcept id
    (extendLowerBoundForNeighbor env.id neighbor.nodeId store chain) | return
  let some chain ← ofExcept id
    (extendUpperBoundForNeighbor env.id neighbor.nodeId store chain) | return
  sendChainResponseRetrace env originator chain path

/-- The cross-branch fan-in cap; false when this discovery was forwarded often enough. -/
def underForwardCap (env : NodeEnv) (m : ChainRequest) : NodeM σ Bool := do
  if env.config.discoveryForwardCap = 0 then return true
  let s ← get
  let found := s.floodSeen.getD (m.originator, m.event.hash) {}
  let seen := if found.forwards = 0 then { found with firstSeen := s.now } else found
  let capped := env.config.discoveryForwardCap ≤ seen.forwards
  let seen := if capped then seen else { seen with forwards := seen.forwards + 1 }
  set { s with floodSeen := s.floodSeen.insert (m.originator, m.event.hash) seen }
  return !capped

def processChainRequest (env : NodeEnv) (sender : Neighbor) (m : ChainRequest) : NodeM σ Unit := do
  if m.event.creator = env.id then
    let some own ← readStore fun store => Store.eventByHash store m.event.hash | return
    extendAndRetrace env sender m.originator ⟨own, [], []⟩ m.path
  else
    if env.id ∈ m.path then return
    if 0 < m.hopLimit ∧ m.hopLimit.toNat ≤ m.path.length then return
    if ← underForwardCap env m then
      floodChainRequest env m.event.creator ⟨m.range⟩ m

def validateChainDiscoveryResult (env : NodeEnv) (chain : EventChain) : Bool :=
  (verifyChain env.hasher chain env.id env.signer).ok

def setDiscoveredChain (hash : EventHash) (chain : EventChain) : DiscoveryM Unit := do
  match (← get).chainDiscoveries[hash]? with
  | some entry => putChain hash { entry with discovery := { entry.discovery with chain } }
  | none => pure ()

/-- Attaches own clock events to the discovered chain at both ends and resolves the discovery. -/
def resolveChainDiscovery (env : NodeEnv) (hash : EventHash) (chain : EventChain) :
    NodeM σ Unit := do
  let now := (← get).now
  match ← addLowerBound env chain with
  | none => withDiscoveries (abortChainDiscovery now hash)
  | some lower =>
      withDiscoveries (setDiscoveredChain hash lower)
      match ← addUpperBound lower with
      | none => withDiscoveries (abortChainDiscovery now hash)
      | some upper =>
          withDiscoveries (setDiscoveredChain hash upper)
          withDiscoveries (completeChainDiscovery (validateChainDiscoveryResult env) now hash)

def processChainResponse (env : NodeEnv) (sender : Neighbor) (m : ChainResponse) :
    NodeM σ Unit := do
  if m.originator = env.id then
    match (← get).discoveries.chainDiscoveries[m.chain.event.hash]? with
    | some entry =>
        if entry.discovery.state = .inProgress then
          withDiscoveries (setDiscoveredChain m.chain.event.hash m.chain)
          resolveChainDiscovery env m.chain.event.hash m.chain
    | none => pure ()
  else
    if m.path = [] then return
    extendAndRetrace env sender m.originator m.chain m.path

def receive (env : NodeEnv) (datagram : Datagram) : NodeM σ Unit := do
  match (← get).neighbors[datagram.sender]? with
  | none => pure ()
  | some neighbor =>
      match datagram.payload with
      | .clockNotification m => processClockEventNotification datagram.sender neighbor m
      | .chainRequest m => processChainRequest env neighbor m
      | .chainResponse m => processChainResponse env neighbor m

def onPacketReceived (env : NodeEnv) (datagram : Bytes) : NodeM σ Unit :=
  match decode ⟨datagram, env.wordBits⟩ with
  | .ok decoded => receive env decoded
  | .error (.exception _) => pure ()
  | .error fault => throw fault

/-! Application API -/

def discoverEventChain (env : NodeEnv) (event : Event) (range : TimeRange)
    (callback : ChainCallback) : NodeM σ Unit := do
  let now := (← get).now
  match (← get).discoveries.chainDiscoveries[event.hash]? with
  | some entry =>
      match entry.discovery.state with
      | .inProgress =>
          withDiscoveries
            (putChain event.hash { entry with callbacks := entry.callbacks ++ [callback] })
      | .aborted => withDiscoveries (invokeAborted now event callback)
      | .completed => withDiscoveries (invokeCompleted now event entry.discovery.chain callback)
  | none =>
      withDiscoveries (insertChainDiscovery now event env.id range callback)
      if event.creator = env.id then
        resolveChainDiscovery env event.hash ⟨event, [], []⟩
      else
        floodChainRequest env event.creator ⟨range⟩
          { originator := env.id, event := event.reference, range
            hopLimit := env.config.discoveryHopLimit, path := [] }

def discoverEventBounds (env : NodeEnv) (event : Event) (range : TimeRange) (registration : Nat) :
    NodeM σ Unit := do
  let now := (← get).now
  match (← get).discoveries.boundsDiscoveries[event.hash]? with
  | some entry =>
      match entry.discovery.state with
      | .inProgress =>
          withDiscoveries
            (putBounds event.hash { entry with callbacks := entry.callbacks ++ [registration] })
      | .aborted => withDiscoveries (notify [.boundsAborted registration event])
      | .completed =>
          withDiscoveries (notify [.boundsCompleted registration event entry.discovery.lowerBound
            entry.discovery.upperBound])
  | none =>
      withDiscoveries (insertBoundsDiscovery now event registration)
      discoverEventChain env event range .node

def discoverEventOrder (env : NodeEnv) (event1 event2 : Event) (range : TimeRange)
    (registration : Nat) : NodeM σ Unit := do
  let now := (← get).now
  match (← get).discoveries.orderDiscoveries[(event1.hash, event2.hash)]? with
  | some entry =>
      match entry.discovery.state with
      | .inProgress =>
          withDiscoveries (putOrder (event1.hash, event2.hash)
            { entry with callbacks := entry.callbacks ++ [registration] })
      | .aborted => withDiscoveries (notify [.orderAborted registration event1 event2])
      | .completed =>
          withDiscoveries
            (notify [.orderCompleted registration event1 event2 entry.discovery.order])
  | none =>
      withDiscoveries (insertOrderDiscovery now event1 event2 registration)
      discoverEventChain env event1 range .node
      discoverEventChain env event2 range .node

/-- `limit` is a signed difference; its overflow is undefined. -/
def purgeDiscoveries (env : NodeEnv) : NodeM σ Unit := do
  let now := (← get).now
  let limit := now - env.config.discoveryExpiry
  when (limit.toInt ≠ now.toInt - env.config.discoveryExpiry.toInt) (throw .undefinedBehavior)
  withDiscoveries (purgeTables env.id now limit)
  modify fun s => { s with floodSeen := s.floodSeen.filter fun _ seen => !(seen.firstSeen < limit) }

/-! Timers -/

def scheduleClockTimer (env : NodeEnv) (chain : UInt32) : NodeM σ Unit :=
  if chain.toNat < env.config.chains.length then arm (.clock chain) else throw .undefinedBehavior

def start (env : NodeEnv) : NodeM σ Unit := do
  (List.range env.config.chains.length).forM fun chain =>
    match env.config.chains[chain]? with
    | some config =>
        if 0 < config.interval then scheduleClockTimer env (UInt32.ofNat chain) else pure ()
    | none => pure ()
  when (0 < env.config.discoveryExpiry) (arm .purge)

def fireTimer (env : NodeEnv) (timer : Timer) : NodeM σ Unit := do
  if timer ∈ (← get).timers then
    modify fun s => { s with timers := s.timers.erase timer }
    match timer with
    | .clock chain =>
        createClockEvent env chain
        scheduleClockTimer env chain
    | .purge =>
        purgeDiscoveries env
        arm .purge

/-! Persistence -/

def referencedByChain (store : σ) (chain : UInt32) : List Nat → Except String Bool
  | [] => return false
  | seq :: rest => do
      let ce ← Store.clockEventBySeq store seq
      if ce.chain = chain then return true
      referencedByChain store chain rest

/-- Walks the events below `k` newest first until one is referenced by `chain`. -/
def unreferencedTail (store : σ) (chain : UInt32) : Nat → List Event → Except String (List Event)
  | 0, tail => return tail
  | k + 1, tail => do
      let e ← Store.eventBySeq store k
      let seqs ← Store.clockEventsReferencing store e.hash
      if ← referencedByChain store chain seqs then return tail
      unreferencedTail store chain k (e :: tail)

def hydrateWorkingState (env : NodeEnv) : NodeM σ Unit := do
  modify fun s => { s with
    neighbors := Store.loadNeighbors s.store
    destinationToNextHop := Store.loadRoutes s.store
    timedRoutes := Store.loadTimedRoutes s.store
    unreferencedPerChain := List.replicate env.numChains [] }
  (List.range env.numChains).forM fun chain => do
    let tail ← readStore fun store =>
      unreferencedTail store (UInt32.ofNat chain) (Store.eventCount store) []
    modify fun s => { s with unreferencedPerChain := s.unreferencedPerChain.set chain tail }

/-- A new process on the same store: what was in RAM is gone. -/
def restart (env : NodeEnv) : NodeM σ Unit := do
  modify fun s => { s with
    discoveries := { notified := s.discoveries.notified }, floodSeen := ∅, timers := [] }
  hydrateWorkingState env

def load (env : NodeEnv) (events : List Event) (clockEvents : List LocalClockEvent)
    (neighbors : Neighbors) (routes : ExtTreeMap NodeId NodeId) : NodeM σ Unit := do
  writeStore Store.clear
  events.forM fun e => writeStore fun store => Prod.snd <$> Store.appendEvent store e
  clockEvents.forM fun c => writeStore fun store => Prod.snd <$> Store.appendClockEvent store c
  (valuesOf neighbors).forM fun n => writeStore fun store => Store.putNeighbor store n
  routes.toList.forM fun route => writeStore fun store => Store.putRoute store route.1 route.2
  hydrateWorkingState env

def kSnapshotVersion : UInt64 := 3

def writeCount (count : Nat) : Bytes := Writer.u64 (UInt64.ofNat count)

def writeLocalClockEvent (c : LocalClockEvent) : Bytes :=
  Writer.clockEvent c.toClockEvent ++ Writer.refs c.referencingEvents

def writeNeighbor (n : Neighbor) : Bytes :=
  Writer.nodeId n.nodeId ++ writeCount n.lastClockEventHashes.length ++
    n.lastClockEventHashes.flatMap Writer.blob

def snapshot : NodeM σ Bytes := do
  let s ← get
  let events ← readStore fun store =>
    (List.range (Store.eventCount store)).mapM (Store.eventBySeq store)
  let clockEvents := Store.loadClockEvents s.store
  match s.unreferencedPerChain[0]? with
  | none => throw .undefinedBehavior
  | some tail =>
      return Writer.u64 kSnapshotVersion ++
        writeCount events.length ++ events.flatMap Writer.event ++
        writeCount clockEvents.length ++ clockEvents.flatMap writeLocalClockEvent ++
        writeCount tail.length ++ tail.flatMap Writer.event ++
        writeCount s.neighbors.size ++ (valuesOf s.neighbors).flatMap writeNeighbor ++
        writeCount s.destinationToNextHop.size ++
        s.destinationToNextHop.toList.flatMap fun route =>
          Writer.nodeId route.1 ++ Writer.nodeId route.2

def readCounted {α : Type} (buffer : Buffer) (read : ReadM α) : ReadM (List α) := do
  let count ← Reader.u64 buffer
  Reader.times read count.toNat

def readLocalClockEvent (buffer : Buffer) : ReadM LocalClockEvent := do
  let clockEvent ← Reader.clockEvent buffer
  let referencingEvents ← Reader.refs buffer
  return { clockEvent with referencingEvents }

def readNeighbor (buffer : Buffer) : ReadM Neighbor := do
  let nodeId ← Reader.nodeId buffer
  let lastClockEventHashes ← readCounted buffer (Reader.blob buffer)
  return { nodeId, lastClockEventHashes }

def readRoute (buffer : Buffer) : ReadM (NodeId × NodeId) := do
  let destination ← Reader.nodeId buffer
  let nextHop ← Reader.nodeId buffer
  return (destination, nextHop)

structure SnapshotContents where
  events : List Event
  clockEvents : List LocalClockEvent
  neighbors : Neighbors
  routes : ExtTreeMap NodeId NodeId

def readSnapshot (buffer : Buffer) : ReadM SnapshotContents := do
  when ((← Reader.u64 buffer) ≠ kSnapshotVersion)
    (throw (.exception "snapshot: unsupported version"))
  let events ← readCounted buffer (Reader.event buffer)
  let clockEvents ← readCounted buffer (readLocalClockEvent buffer)
  let _unreferenced ← readCounted buffer (Reader.event buffer)
  let neighbors ← readCounted buffer (readNeighbor buffer)
  let routes ← readCounted buffer (readRoute buffer)
  return { events, clockEvents
           neighbors := neighbors.foldl (fun table n => table.insert n.nodeId n) ∅
           routes := routes.foldl (fun table route => table.insert route.1 route.2) ∅ }

def restore (env : NodeEnv) (blob : Bytes) : NodeM σ Unit :=
  match readSnapshot ⟨blob, env.wordBits⟩ 0 with
  | .ok contents _ =>
      load env contents.events contents.clockEvents contents.neighbors contents.routes
  | .error fault _ => throw fault

end Loti
