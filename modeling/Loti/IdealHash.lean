import Mathlib.Data.List.Chain
import Loti.ChainValidation

/-!
The hash as an ideal function of the whole object. `calculate_event_hash` and
`calculate_clock_event_hash` run their layouts through SHA-256; here every object, with
its kind and all its content, has a hash of its own.
-/

namespace Loti

inductive Object
  | event (creator : NodeId) (data : Bytes) (salt : Salt) (referencedEvents : List EventReference)
  | clockEvent (creator : NodeId) (chain : UInt32) (timestamp : Timestamp) (salt : Salt)
      (referencedEvents : List EventReference)
deriving DecidableEq

def Event.object (event : Event) : Object :=
  .event event.creator event.data event.salt event.referencedEvents

def ClockEvent.object (clockEvent : ClockEvent) : Object :=
  .clockEvent clockEvent.creator clockEvent.chain clockEvent.timestamp clockEvent.salt
    clockEvent.referencedEvents

def Object.creator : Object → NodeId
  | .event creator _ _ _ => creator
  | .clockEvent creator _ _ _ _ => creator

def Object.referencedEvents : Object → List EventReference
  | .event _ _ _ referencedEvents => referencedEvents
  | .clockEvent _ _ _ _ referencedEvents => referencedEvents

def Object.mentions (object : Object) : List EventHash :=
  object.referencedEvents.map EventReference.hash

def idealHasher (digest : Object → EventHash) (sha256 : Bytes → EventHash) : Hasher where
  sha256 := sha256
  calculateEventHash event := digest event.object
  calculateClockEventHash clockEvent := digest clockEvent.object

def EventChain.objects (chain : EventChain) : List Object :=
  chain.lowerBound.map ClockEvent.object ++ chain.event.object :: chain.upperBound.map
    ClockEvent.object

def Object.link (digest : Object → EventHash) (object : Object) : Link :=
  ⟨⟨object.creator, digest object⟩, object.referencedEvents⟩

variable {digest : Object → EventHash} {sha256 : Bytes → EventHash} {signer : Signer}
    {reference : NodeId}
  {chain : EventChain} {front back : ClockEvent}

theorem Event.link_eq {event : Event} (hashed : digest event.object = event.hash) :
    event.link = event.object.link digest := by
  simp only [Object.link, hashed]
  rfl

theorem ClockEvent.link_eq {clockEvent : ClockEvent}
    (hashed : digest clockEvent.object = clockEvent.hash) :
    clockEvent.link = clockEvent.object.link digest := by
  simp only [Object.link, hashed]
  rfl

section

variable (sound : SoundChain (idealHasher digest sha256) signer reference chain front back)

include sound

theorem links_eq_objects :
    chain.links = chain.objects.map (Object.link digest) := by
  have bound : ∀ {clockEvents : List ClockEvent},
      (∀ ce ∈ clockEvents, Genuine (idealHasher digest sha256) signer ce) →
      clockEvents.map ClockEvent.link = (clockEvents.map ClockEvent.object).map
      (Object.link digest) := by
    intro clockEvents genuine
    rw [List.map_map]
    exact List.map_congr_left fun ce member => ClockEvent.link_eq (genuine ce member).1
  rw [EventChain.links, EventChain.objects, List.map_append, List.map_cons,
    bound sound.lower_genuine, bound sound.upper_genuine, Event.link_eq sound.event_hash]

theorem SoundChain.mentions :
    chain.objects.IsChain fun earlier later => digest earlier ∈ later.mentions := by
  have linked := linked_none_iff.mp sound.linked
  rw [links_eq_objects sound, List.isChain_map] at linked
  exact linked.imp fun earlier later referenced => List.mem_map_of_mem referenced

theorem SoundChain.last_object :
    chain.objects.getLast? = some back.object := by
  obtain ⟨begun, split⟩ := List.getLast?_eq_some_iff.mp sound.back_found
  simp [EventChain.objects, split, List.getLast?_append, List.getLast?_cons]

end

/-- A byte string with a mark at its end; a byte that could be taken for the mark is escaped. -/
def frame : Bytes → Bytes
  | [] => [254]
  | byte :: rest => if 254 ≤ byte then 255 :: byte :: frame rest else byte :: frame rest

def frameRefs : List EventReference → Bytes
  | [] => [0]
  | ref :: rest => 1 :: (ref.creator.bytes ++ (frame ref.hash ++ frameRefs rest))

def Object.encoding : Object → Bytes
  | .event creator data salt refs =>
      0 :: (creator.bytes ++ (writeU64Be salt ++ (frame data ++ frameRefs refs)))
  | .clockEvent creator chain timestamp salt refs =>
      1 :: (creator.bytes ++ (writeU64Be chain.toUInt64 ++ (writeU64Be timestamp.toUInt64 ++
        (writeU64Be salt ++ frameRefs refs))))

theorem frame_cons_ne_mark (byte : UInt8) (rest tail marked : Bytes) :
    frame (byte :: rest) ++ tail ≠ 254 :: marked := by
  by_cases escaped : 254 ≤ byte
  · simp [frame, escaped]
  · simp only [frame, escaped, ↓reduceIte, List.cons_append, ne_eq, List.cons.injEq, not_and]
    rintro rfl
    exact absurd (by decide) escaped

theorem frame_append_inj {first second restFirst restSecond : Bytes}
    (same : frame first ++ restFirst = frame second ++ restSecond) :
    first = second ∧ restFirst = restSecond := by
  induction first generalizing second with
  | nil =>
      cases second with
      | nil => simpa [frame] using same
      | cons byte rest => exact absurd same.symm (frame_cons_ne_mark byte rest restSecond restFirst)
  | cons byte rest ih =>
      cases second with
      | nil => exact absurd same (frame_cons_ne_mark byte rest restFirst restSecond)
      | cons other others =>
          have heads : byte = other ∧ frame rest ++ restFirst = frame others ++ restSecond := by
            by_cases escaped : 254 ≤ byte <;> by_cases escaped' : 254 ≤ other <;>
              simp [frame, escaped, escaped'] at same
            · exact same
            · exact absurd (same.1 ▸ by decide) escaped'
            · exact absurd (same.1 ▸ by decide) escaped
            · exact same
          obtain ⟨rfl, tails⟩ := ih heads.2
          exact ⟨by rw [heads.1], tails⟩

theorem nodeId_append_inj {first second : NodeId} {restFirst restSecond : Bytes}
    (same : first.bytes ++ restFirst = second.bytes ++ restSecond) :
    first = second ∧ restFirst = restSecond := by
  obtain ⟨bytes, rest⟩ := List.append_inj same (by rw [first.size, second.size])
  exact ⟨NodeId.ext_bytes bytes, rest⟩

theorem writeU64Be_append_inj {first second : UInt64} {restFirst restSecond : Bytes}
    (same : writeU64Be first ++ restFirst = writeU64Be second ++ restSecond) :
    first = second ∧ restFirst = restSecond := by
  obtain ⟨bytes, rest⟩ := List.append_inj same (by simp)
  exact ⟨writeU64Be_inj bytes, rest⟩

theorem frameRefs_inj {first second : List EventReference}
    (same : frameRefs first = frameRefs second) : first = second := by
  induction first generalizing second with
  | nil =>
      cases second with
      | nil => rfl
      | cons ref rest => simp [frameRefs] at same
  | cons ref rest ih =>
      cases second with
      | nil => simp [frameRefs] at same
      | cons other others =>
          simp only [frameRefs, List.cons.injEq, true_and] at same
          obtain ⟨creators, body⟩ := nodeId_append_inj same
          obtain ⟨hashes, tail⟩ := frame_append_inj body
          rw [EventReference.ext creators hashes, ih tail]

theorem Object.encoding_injective : Function.Injective Object.encoding := by
  intro first second same
  cases first with
  | event creator data salt refs =>
      cases second with
      | event creator' data' salt' refs' =>
          simp only [Object.encoding, List.cons.injEq, true_and] at same
          obtain ⟨rfl, content⟩ := nodeId_append_inj same
          obtain ⟨rfl, body⟩ := writeU64Be_append_inj content
          obtain ⟨rfl, tail⟩ := frame_append_inj body
          rw [frameRefs_inj tail]
      | clockEvent => simp [Object.encoding] at same
  | clockEvent creator chain timestamp salt refs =>
      cases second with
      | event => simp [Object.encoding] at same
      | clockEvent creator' chain' timestamp' salt' refs' =>
          simp only [Object.encoding, List.cons.injEq, true_and] at same
          obtain ⟨rfl, content⟩ := nodeId_append_inj same
          obtain ⟨chains, body⟩ := writeU64Be_append_inj content
          obtain ⟨timestamps, rest⟩ := writeU64Be_append_inj body
          obtain ⟨rfl, tail⟩ := writeU64Be_append_inj rest
          obtain rfl : timestamp = timestamp' := by
            cases timestamp
            cases timestamp'
            exact congrArg Int64.ofUInt64 timestamps
          rw [frameRefs_inj tail, UInt32.toUInt64_inj.mp chains]

end Loti
