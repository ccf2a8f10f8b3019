import Loti.Domain

/-!
`src/core/hash`: the canonical byte layouts of an event and of a clock event, and the
hash functions the validator and the node call. SHA-256 itself (the vendored picosha2)
is a parameter of the layouts.
-/

namespace Loti

def writeU64Be (value : UInt64) : Bytes := BigEndian.digits 8 value.toNat

def writeRefs (refs : List EventReference) : Bytes :=
  refs.flatMap fun ref => ref.creator.bytes ++ ref.hash

def eventPreimage (event : Event) : Bytes :=
  event.data ++ writeU64Be event.salt ++ writeRefs event.referencedEvents

def clockEventPreimage (clockEvent : ClockEvent) : Bytes :=
  writeU64Be clockEvent.chain.toUInt64 ++ writeU64Be clockEvent.timestamp.toUInt64 ++
    writeU64Be clockEvent.salt ++ writeRefs clockEvent.referencedEvents

/-- The functions of namespace `hash` that the rest of the core calls. The code's own
hasher is `Hasher.ofSha256`. -/
structure Hasher where
  sha256 : Bytes → EventHash
  calculateEventHash : Event → EventHash
  calculateClockEventHash : ClockEvent → EventHash

def Hasher.ofSha256 (sha256 : Bytes → EventHash) : Hasher where
  sha256 := sha256
  calculateEventHash event := sha256 (eventPreimage event)
  calculateClockEventHash clockEvent := sha256 (clockEventPreimage clockEvent)

/-- The hash of an object depends neither on its hash field nor on its signature. -/
structure Hasher.Canonical (hasher : Hasher) : Prop where
  event : ∀ event hash signature,
    hasher.calculateEventHash { event with hash, signature } = hasher.calculateEventHash event
  clockEvent : ∀ clockEvent hash signature,
    hasher.calculateClockEventHash { clockEvent with hash, signature } =
    hasher.calculateClockEventHash clockEvent

theorem Hasher.ofSha256_canonical (sha256 : Bytes → EventHash) :
    (Hasher.ofSha256 sha256).Canonical :=
  ⟨fun _ _ _ => rfl, fun _ _ _ => rfl⟩

@[simp] theorem writeU64Be_length (value : UInt64) : (writeU64Be value).length = 8 := by
  simp [writeU64Be]

theorem writeU64Be_inj {first second : UInt64} (same : writeU64Be first = writeU64Be second) :
    first = second := by
  apply UInt64.toNat_inj.mp
  exact BigEndian.digits_inj first.toNat_lt second.toNat_lt same

@[simp] theorem writeRefs_nil : writeRefs [] = [] := rfl

@[simp] theorem writeRefs_cons (ref : EventReference) (rest : List EventReference) :
    writeRefs (ref :: rest) = ref.creator.bytes ++ ref.hash ++ writeRefs rest := by
  simp [writeRefs]

theorem clockEventPreimage_fields {first second : ClockEvent}
    (same : clockEventPreimage first = clockEventPreimage second) :
    first.chain = second.chain ∧ first.timestamp = second.timestamp ∧ first.salt = second.salt ∧
      writeRefs first.referencedEvents = writeRefs second.referencedEvents := by
  simp only [clockEventPreimage, List.append_assoc] at same
  obtain ⟨chain, later⟩ := List.append_inj same (by simp)
  obtain ⟨timestamp, later⟩ := List.append_inj later (by simp)
  obtain ⟨salt, refs⟩ := List.append_inj later (by simp)
  -- the chain is widened to 64 bits and the timestamp is cast; neither loses anything
  have wide := congrArg UInt64.toNat (writeU64Be_inj chain)
  have cast := congrArg UInt64.toInt64 (writeU64Be_inj timestamp)
  refine ⟨UInt32.toNat_inj.mp (by simpa using wide), by simpa using cast, writeU64Be_inj salt, refs⟩

end Loti
