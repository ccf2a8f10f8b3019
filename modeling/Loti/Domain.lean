import Mathlib.Data.List.Basic
import Mathlib.Tactic.Linarith
import Loti.Library.BigEndian

/-!
The domain model of `src/core/domain/types.hpp`: identities, references, events,
clock events, the enclosing chain, and the records of the three discoveries.
Byte vectors and deques are lists (front first); `std::map` is the extensional
ordered map of the standard library.
-/

namespace Loti

/-- The assertions of `src/core/node.cpp`. -/
inductive Assertion
  | discoveryFound
  | discoveryInProgress
  | lowerBoundOwn
  | upperBoundOwn
deriving DecidableEq

/-- How a call ends other than by returning: a C++ exception with its `what()` text, a failed
`assert`, an operation the language leaves undefined, or a loop that never exits. -/
inductive Fault
  | exception (what : String)
  | assertion (failed : Assertion)
  | undefinedBehavior
  | diverges
deriving DecidableEq

abbrev Bytes := List UInt8
abbrev EventHash := Bytes
abbrev Signature := Bytes
abbrev Salt := UInt64

instance : LawfulBEq Bytes := List.instLawfulBEq
abbrev Timestamp := Int64
abbrev Duration := Int64

/-- A 128-bit identity. Its sixteen bytes are opaque and compared lexicographically. -/
structure NodeId where
  bytes : Bytes
  size : bytes.length = 16
deriving DecidableEq

theorem NodeId.ext_bytes {left right : NodeId} (same : left.bytes = right.bytes) :
    left = right := by
  cases left
  cases right
  simp_all

instance : Ord NodeId := ⟨fun left right => compare left.bytes right.bytes⟩

instance : Std.TransOrd NodeId :=
  inferInstanceAs (Std.TransCmp (compareOn NodeId.bytes))

instance : Std.LawfulEqOrd NodeId where
  eq_of_compare same := NodeId.ext_bytes (Std.LawfulEqOrd.eq_of_compare (α := Bytes) same)

/-- The implicit constructor from `std::uint64_t`: big-endian in the low eight bytes. -/
def NodeId.ofUInt64 (value : UInt64) : NodeId where
  bytes := List.replicate 8 0 ++ BigEndian.digits 8 value.toNat
  size := by simp

instance : Inhabited NodeId := ⟨NodeId.ofUInt64 0⟩

instance : Ord (EventHash × EventHash) := lexOrd

instance : Std.TransOrd (EventHash × EventHash) := Std.instTransOrdProd

instance : Ord (NodeId × EventHash) := lexOrd

instance : Std.TransOrd (NodeId × EventHash) := Std.instTransOrdProd

def valuesOf {α β : Type} [Ord α] [Std.TransOrd α] (table : Std.ExtTreeMap α β) : List β :=
  table.toList.map Prod.snd

theorem mem_values_iff {α β : Type} [Ord α] [Std.TransOrd α] [Std.LawfulEqOrd α]
    {table : Std.ExtTreeMap α β} {value : β} :
    value ∈ valuesOf table ↔ ∃ key : α, table[key]? = some value := by
  rw [valuesOf, List.mem_map]
  constructor
  · rintro ⟨⟨key, value⟩, entry, rfl⟩
    exact ⟨key, Std.ExtTreeMap.mem_toList_iff_getElem?_eq_some.mp entry⟩
  · rintro ⟨key, found⟩
    exact ⟨(key, value), Std.ExtTreeMap.mem_toList_iff_getElem?_eq_some.mpr found, rfl⟩

/-- A closed window of clock ticks; the default is the whole range. -/
structure TimeRange where
  lo : Timestamp := Int64.minValue
  hi : Timestamp := Int64.maxValue
deriving DecidableEq

def TimeRange.all : TimeRange := {}

def TimeRange.contains (range : TimeRange) (time : Timestamp) : Bool :=
  range.lo ≤ time && time ≤ range.hi

@[ext] structure EventReference where
  creator : NodeId
  hash : EventHash
deriving DecidableEq, Inhabited

structure Event where
  creator : NodeId
  hash : EventHash
  data : Bytes
  salt : Salt
  referencedEvents : List EventReference
  signature : Signature
deriving DecidableEq, Inhabited

structure ClockEvent where
  creator : NodeId
  hash : EventHash
  chain : UInt32
  timestamp : Timestamp
  salt : Salt
  referencedEvents : List EventReference
  signature : Signature
deriving DecidableEq, Inhabited

/-- A clock event of this node, with the reverse cross-links learned from notifications. -/
structure LocalClockEvent extends ClockEvent where
  referencingEvents : List EventReference
deriving DecidableEq, Inhabited

def Event.reference (event : Event) : EventReference := ⟨event.creator, event.hash⟩

def ClockEvent.reference (clockEvent : ClockEvent) : EventReference :=
  ⟨clockEvent.creator, clockEvent.hash⟩

structure EventChain where
  event : Event
  lowerBound : List ClockEvent
  upperBound : List ClockEvent
deriving DecidableEq, Inhabited

/-- A neighbor and, per chain, the newest of its clock events we know (empty: none yet). -/
structure Neighbor where
  nodeId : NodeId
  lastClockEventHashes : List EventHash
deriving DecidableEq

abbrev Neighbors := Std.ExtTreeMap NodeId Neighbor

structure TimedRoute where
  validity : TimeRange
  nextHops : List NodeId
deriving DecidableEq

abbrev TimedRouteTable := Std.ExtTreeMap NodeId (List TimedRoute)

inductive DiscoveryState
  | inProgress
  | completed
  | aborted
deriving DecidableEq

/-- The order of two events. `other` is a byte read from outside that names no enumerator. -/
inductive Order
  | before
  | undetermined
  | after
  | other (value : Int8)
deriving DecidableEq

structure EventChainDiscovery where
  startTime : Timestamp
  endTime : Timestamp
  originator : NodeId
  event : Event
  range : TimeRange
  chain : EventChain
  state : DiscoveryState

structure EventBoundsDiscovery where
  startTime : Timestamp
  endTime : Timestamp
  event : Event
  lowerBound : Timestamp
  upperBound : Timestamp
  state : DiscoveryState

structure EventOrderDiscovery where
  startTime : Timestamp
  endTime : Timestamp
  event1 : Event
  event2 : Event
  order : Order
  state : DiscoveryState

end Loti
