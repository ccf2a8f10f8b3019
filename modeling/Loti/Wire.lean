import Loti.Hashing
import Loti.Library.StateExcept

/-!
`src/core/wire`: the length-prefixed transport codec and the three datagrams.

A `Reader` operation is a computation over the position `pos_` that keeps it when it
throws. Sizes and positions are `std::size_t` values of the machine's word size, so
their sums wrap; reading or slicing outside the buffer is undefined behaviour.
-/

namespace Loti.Wire

open BigEndian

namespace Writer

def u8 (value : UInt8) : Bytes := [value]

def u32 (value : UInt32) : Bytes := digits 4 value.toNat

def u64 (value : UInt64) : Bytes := digits 8 value.toNat

def nodeId (id : NodeId) : Bytes := id.bytes

def blob (bytes : Bytes) : Bytes := u32 (UInt32.ofNat bytes.length) ++ bytes

def refs (references : List EventReference) : Bytes :=
  u32 (UInt32.ofNat references.length) ++
    references.flatMap fun reference => nodeId reference.creator ++ blob reference.hash

def event (e : Event) : Bytes :=
  nodeId e.creator ++ blob e.hash ++ blob e.data ++ u64 e.salt ++ refs e.referencedEvents ++
    blob e.signature

def clockEvent (c : ClockEvent) : Bytes :=
  nodeId c.creator ++ blob c.hash ++ u64 c.chain.toUInt64 ++ u64 c.timestamp.toUInt64 ++
    u64 c.salt ++ refs c.referencedEvents ++ blob c.signature

def chain (ch : EventChain) : Bytes :=
  event ch.event ++ u32 (UInt32.ofNat ch.lowerBound.length) ++ ch.lowerBound.flatMap clockEvent ++
    u32 (UInt32.ofNat ch.upperBound.length) ++ ch.upperBound.flatMap clockEvent

def timeRange (range : TimeRange) : Bytes := u64 range.lo.toUInt64 ++ u64 range.hi.toUInt64

def nodeIds (ids : List NodeId) : Bytes :=
  u32 (UInt32.ofNat ids.length) ++ ids.flatMap nodeId

end Writer

/-- What a `Reader` reads from: the bytes, on a machine whose `std::size_t` has `wordBits` bits. -/
structure Buffer where
  bytes : Bytes
  wordBits : Nat

/-- A reader operation: the state is `pos_`. -/
abbrev ReadM := EStateM Fault Nat

namespace Reader

def need (buffer : Buffer) (count : Nat) : ReadM Unit := do
  if ((← get) + count) % 2 ^ buffer.wordBits > buffer.bytes.length then
    throw (.exception "wire: truncated datagram")

def ensureCount (buffer : Buffer) (count : UInt32) (minElemBytes : Nat) : ReadM Unit := do
  let remaining := (buffer.bytes.length + 2 ^ buffer.wordBits - (← get)) % 2 ^ buffer.wordBits
  if count.toNat > remaining / minElemBytes then
    throw (.exception "wire: element count exceeds datagram")

def next (buffer : Buffer) : ReadM UInt8 := do
  let pos ← get
  match buffer.bytes[pos]? with
  | some byte =>
      set ((pos + 1) % 2 ^ buffer.wordBits)
      return byte
  | none => throw .undefinedBehavior

def times {α : Type} (read : ReadM α) : Nat → ReadM (List α)
  | 0 => pure []
  | count + 1 => do
      let first ← read
      let rest ← times read count
      return first :: rest

def u8 (buffer : Buffer) : ReadM UInt8 := do
  need buffer 1
  next buffer

def u32 (buffer : Buffer) : ReadM UInt32 := do
  need buffer 4
  return UInt32.ofNat (value (← times (next buffer) 4))

def u64 (buffer : Buffer) : ReadM UInt64 := do
  need buffer 8
  return UInt64.ofNat (value (← times (next buffer) 8))

def nodeId (buffer : Buffer) : ReadM NodeId := do
  need buffer 16
  let bytes ← times (next buffer) 16
  if size : bytes.length = 16 then return ⟨bytes, size⟩ else throw .undefinedBehavior

def blob (buffer : Buffer) : ReadM Bytes := do
  let count ← u32 buffer
  need buffer count.toNat
  let pos ← get
  let stop := (pos + count.toNat) % 2 ^ buffer.wordBits
  -- the iterator pair [pos_, pos_ + n): reversed or past the end is undefined
  if pos ≤ stop ∧ stop ≤ buffer.bytes.length then
    set stop
    return (buffer.bytes.take stop).drop pos
  else
    throw .undefinedBehavior

def refs (buffer : Buffer) : ReadM (List EventReference) := do
  let count ← u32 buffer
  ensureCount buffer count 20
  times (do
    let creator ← nodeId buffer
    let hash ← blob buffer
    return ⟨creator, hash⟩) count.toNat

def event (buffer : Buffer) : ReadM Event := do
  let creator ← nodeId buffer
  let hash ← blob buffer
  let data ← blob buffer
  let salt ← u64 buffer
  let referencedEvents ← refs buffer
  let signature ← blob buffer
  return { creator, hash, data, salt, referencedEvents, signature }

def clockEvent (buffer : Buffer) : ReadM ClockEvent := do
  let creator ← nodeId buffer
  let hash ← blob buffer
  let chain ← u64 buffer
  let timestamp ← u64 buffer
  let salt ← u64 buffer
  let referencedEvents ← refs buffer
  let signature ← blob buffer
  return { creator, hash, chain := chain.toUInt32, timestamp := timestamp.toInt64, salt,
           referencedEvents, signature }

def chain (buffer : Buffer) : ReadM EventChain := do
  let event ← event buffer
  let lo ← u32 buffer
  ensureCount buffer lo 44
  let lowerBound ← times (clockEvent buffer) lo.toNat
  let hi ← u32 buffer
  ensureCount buffer hi 44
  let upperBound ← times (clockEvent buffer) hi.toNat
  return { event, lowerBound, upperBound }

def timeRange (buffer : Buffer) : ReadM TimeRange := do
  let lo ← u64 buffer
  let hi ← u64 buffer
  return { lo := lo.toInt64, hi := hi.toInt64 }

def nodeIds (buffer : Buffer) : ReadM (List NodeId) := do
  let count ← u32 buffer
  ensureCount buffer count 16
  times (nodeId buffer) count.toNat

end Reader

structure ClockNotification where
  chain : UInt32
  lastClockEventHash : EventHash
  neighborLastClockEventHash : EventHash
deriving DecidableEq

/-- `path` is the reverse-path breadcrumb: the senders so far, the originator first. -/
structure ChainRequest where
  originator : NodeId
  event : EventReference
  range : TimeRange
  hopLimit : UInt32
  path : List NodeId
deriving DecidableEq

/-- `path` is what remains of the breadcrumb: its last entry is the next hop. -/
structure ChainResponse where
  originator : NodeId
  chain : EventChain
  path : List NodeId
deriving DecidableEq

inductive Payload
  | clockNotification (message : ClockNotification)
  | chainRequest (message : ChainRequest)
  | chainResponse (message : ChainResponse)
deriving DecidableEq

structure Datagram where
  sender : NodeId
  payload : Payload
deriving DecidableEq

def Payload.type : Payload → UInt8
  | .clockNotification _ => 0
  | .chainRequest _ => 1
  | .chainResponse _ => 2

def Payload.body : Payload → Bytes
  | .clockNotification m =>
      Writer.u64 m.chain.toUInt64 ++ Writer.blob m.lastClockEventHash ++
        Writer.blob m.neighborLastClockEventHash
  | .chainRequest m =>
      Writer.nodeId m.originator ++ Writer.nodeId m.event.creator ++ Writer.blob m.event.hash ++
        Writer.timeRange m.range ++ Writer.u64 m.hopLimit.toUInt64 ++ Writer.nodeIds m.path
  | .chainResponse m =>
      Writer.nodeId m.originator ++ Writer.chain m.chain ++ Writer.nodeIds m.path

def writeHeader (type : UInt8) (sender : NodeId) : Bytes := Writer.u8 type ++ Writer.nodeId sender

def encode (datagram : Datagram) : Bytes :=
  writeHeader datagram.payload.type datagram.sender ++ datagram.payload.body

def senderOf (datagram : Bytes) : Option NodeId :=
  if size : ((datagram.drop 1).take 16).length = 16 then some ⟨(datagram.drop 1).take 16, size⟩
  else none

def readClockNotification (buffer : Buffer) : ReadM ClockNotification := do
  let chain ← Reader.u64 buffer
  let lastClockEventHash ← Reader.blob buffer
  let neighborLastClockEventHash ← Reader.blob buffer
  return { chain := chain.toUInt32, lastClockEventHash, neighborLastClockEventHash }

def readChainRequest (buffer : Buffer) : ReadM ChainRequest := do
  let originator ← Reader.nodeId buffer
  let creator ← Reader.nodeId buffer
  let hash ← Reader.blob buffer
  let range ← Reader.timeRange buffer
  let hopLimit ← Reader.u64 buffer
  let path ← Reader.nodeIds buffer
  return { originator, event := ⟨creator, hash⟩, range, hopLimit := hopLimit.toUInt32, path }

def readChainResponse (buffer : Buffer) : ReadM ChainResponse := do
  let originator ← Reader.nodeId buffer
  let chain ← Reader.chain buffer
  let path ← Reader.nodeIds buffer
  return { originator, chain, path }

def readDatagram (buffer : Buffer) : ReadM Datagram := do
  let type ← Reader.u8 buffer
  let sender ← Reader.nodeId buffer
  match type with
  | 0 => return ⟨sender, .clockNotification (← readClockNotification buffer)⟩
  | 1 => return ⟨sender, .chainRequest (← readChainRequest buffer)⟩
  | 2 => return ⟨sender, .chainResponse (← readChainResponse buffer)⟩
  | _ => throw (.exception "wire: unknown datagram type")

def decode (buffer : Buffer) : Except Fault Datagram :=
  match readDatagram buffer 0 with
  | .ok datagram _ => .ok datagram
  | .error fault _ => .error fault

end Loti.Wire
