import Loti.Creation
import Loti.InMemoryStore
import Loti.TamperEvidence

/-!
Whether a signature on a published event can pass for a signature on a clock event.
Events and clock events are hashed without a kind tag, so it can exactly when the hashed
bytes of the event also read as those of a clock event.
-/

namespace Loti

open StateExcept BigEndian

/-- The bytes read as a clock event: the upper half of the chain number is zero, and what
follows the three fixed fields is empty or holds at least a creator. -/
def ReadsAsClockEvent (bytes : Bytes) : Prop :=
  bytes.take 4 = [0, 0, 0, 0] ∧ (bytes.length = 24 ∨ 40 ≤ bytes.length)

theorem writeU64Be_chain (chain : UInt32) : (writeU64Be chain.toUInt64).take 4 = [0, 0, 0, 0] := by
  have bound := chain.toNat_lt
  simp only [writeU64Be, digits, UInt32.toNat_toUInt64, List.take_succ_cons, List.take_zero]
  rw [Nat.div_eq_of_lt (by omega), Nat.div_eq_of_lt (by omega), Nat.div_eq_of_lt (by omega),
    Nat.div_eq_of_lt (by omega)]
  rfl

theorem writeRefs_length (refs : List EventReference) :
    writeRefs refs = [] ∨ 16 ≤ (writeRefs refs).length := by
  cases refs with
  | nil => exact Or.inl rfl
  | cons ref rest =>
      have := ref.creator.size
      right
      simp
      omega

theorem clockEventPreimage_reads (clockEvent : ClockEvent) :
    ReadsAsClockEvent (clockEventPreimage clockEvent) := by
  constructor
  · simp only [clockEventPreimage, List.append_assoc]
    rw [List.take_append_of_le_length (by simp), writeU64Be_chain]
  · rcases writeRefs_length clockEvent.referencedEvents with empty | long
    · simp [clockEventPreimage, empty]
    · right
      simp [clockEventPreimage]
      omega

/-- What follows the fixed fields, as one reference whose hash is everything past the creator. -/
def soleReference (bytes : Bytes) : List EventReference :=
  if size : (bytes.take 16).length = 16 then [⟨⟨bytes.take 16, size⟩, bytes.drop 16⟩] else []

theorem soleReference_bytes {bytes : Bytes} (size : bytes = [] ∨ 16 ≤ bytes.length) :
    writeRefs (soleReference bytes) = bytes := by
  rcases size with rfl | long
  · rfl
  · have full : (bytes.take 16).length = 16 := by simpa using long
    rw [soleReference, dif_pos full]
    simp

def clockEventReading (creator : NodeId) (hash : EventHash) (bytes : Bytes) : ClockEvent where
  creator := creator
  hash := hash
  chain := UInt32.ofNat (value (bytes.take 8))
  timestamp := (UInt64.ofNat (value ((bytes.drop 8).take 8))).toInt64
  salt := UInt64.ofNat (value ((bytes.drop 16).take 8))
  referencedEvents := soleReference (bytes.drop 24)
  signature := []

theorem writeU64Be_ofNat_chain {bytes : Bytes} (size : bytes.length = 8)
    (upper : bytes.take 4 = [0, 0, 0, 0]) :
    writeU64Be (UInt32.ofNat (value bytes)).toUInt64 = bytes := by
  have split : bytes = [0, 0, 0, 0] ++ bytes.drop 4 := by rw [← upper, List.take_append_drop]
  have lower : value bytes = value (bytes.drop 4) := by
    conv_lhs => rw [split]
    simp [value_cons]
  have bound : value bytes < 2 ^ 32 := by
    have := value_lt (bytes.drop 4)
    rwa [List.length_drop, size, ← lower] at this
  rw [writeU64Be, UInt32.toNat_toUInt64, UInt32.toNat_ofNat_of_lt' bound, digits_value size]

theorem clockEventReading_preimage (creator : NodeId) (hash : EventHash) {bytes : Bytes}
    (reads : ReadsAsClockEvent bytes) :
    clockEventPreimage (clockEventReading creator hash bytes) = bytes := by
  obtain ⟨upper, size⟩ := reads
  have chain : writeU64Be (UInt32.ofNat (value (bytes.take 8))).toUInt64 = bytes.take 8 := by
    refine writeU64Be_ofNat_chain (by simp; omega) ?_
    rwa [List.take_take]
  have timestamp :
    writeU64Be (UInt64.ofNat (value ((bytes.drop 8).take 8))) = (bytes.drop 8).take 8 :=
    writeU64Be_ofNat_value (by simp; omega)
  have salt : writeU64Be (UInt64.ofNat (value ((bytes.drop 16).take 8))) = (bytes.drop 16).take 8 :=
    writeU64Be_ofNat_value (by simp; omega)
  have refs : writeRefs (soleReference (bytes.drop 24)) = bytes.drop 24 := by
    apply soleReference_bytes
    rcases size with short | long
    · exact Or.inl (by simp [short])
    · exact Or.inr (by simp; omega)
  have fields :
    bytes = bytes.take 8 ++ (bytes.drop 8).take 8 ++ (bytes.drop 16).take 8 ++ bytes.drop 24 := by
    have inner : bytes.drop 16 = (bytes.drop 16).take 8 ++ bytes.drop 24 := by
      simpa using (List.take_append_drop 8 (bytes.drop 16)).symm
    have middle : bytes.drop 8 = (bytes.drop 8).take 8 ++ bytes.drop 16 := by
      simpa using (List.take_append_drop 8 (bytes.drop 8)).symm
    rw [List.append_assoc, ← inner, List.append_assoc, ← middle, List.take_append_drop]
  simp only [clockEventPreimage, clockEventReading, UInt64.toUInt64_toInt64, chain,
    timestamp, salt, refs]
  exact fields.symm

section

variable {σ : Type} [Store σ]

theorem publishEvent_event {env : NodeEnv} {s after : NodeState σ} {data : Bytes}
    {refs : List EventReference} {event : Event} (tips : tipReferences env s.store = .ok refs)
    (published : publishEvent env data s = .ok event after) :
    event = makeEvent env data (env.salts s.saltsDrawn) refs := by
  have made : Ends (publishEvent env data) s (fun event _ => MakesEvent env s data event) fun _ _ =>
    True := by
    simp only [publishEvent, ends_bind, ends_modify, ends_pure]
    exact (insertEvent_spec env data s).mono (fun _ _ spec => spec.1) fun _ _ _ => trivial
  simp only [Ends, published] at made
  obtain ⟨found, read, rfl⟩ := made
  rw [ok_unique read tips]

/-- A published event shares its hash with a clock event of the same creator exactly when the
data and salt begin with four zero bytes and leave room for the fields of a clock event. -/
theorem publishEvent_separated_iff (env : NodeEnv) (sha256 : Bytes → EventHash)
    (hashes : env.hasher = .ofSha256 sha256) (s after : NodeState σ) (data : Bytes)
    (refs : List EventReference) (event : Event) (tips : tipReferences env s.store = .ok refs)
    (published : publishEvent env data s = .ok event after)
    (noCollision : NoCollision sha256 (eventPreimage event)) :
    (¬∃ c : ClockEvent, c.creator = env.id ∧ c.hash = event.hash ∧
        env.hasher.calculateClockEventHash c = c.hash) ↔
      ¬((data ++ writeU64Be (env.salts s.saltsDrawn)).take 4 = [0, 0, 0, 0] ∧
        (data.length + (writeRefs refs).length = 16 ∨
          32 ≤ data.length + (writeRefs refs).length)) := by
  obtain rfl := publishEvent_event tips published
  set event := makeEvent env data (env.salts s.saltsDrawn) refs
  have preimage :
    eventPreimage event = data ++ writeU64Be (env.salts s.saltsDrawn) ++ writeRefs refs := rfl
  have hash : event.hash = sha256 (eventPreimage event) := by
    simp only [event, makeEvent, hashes]
    rfl
  have reads : ReadsAsClockEvent (eventPreimage event) ↔
      (data ++ writeU64Be (env.salts s.saltsDrawn)).take 4 = [0, 0, 0, 0] ∧
        (data.length + (writeRefs refs).length = 16 ∨
          32 ≤ data.length + (writeRefs refs).length) := by
    rw [ReadsAsClockEvent, preimage, List.take_append_of_le_length (by simp)]
    simp only [List.length_append, writeU64Be_length]
    exact and_congr_right fun _ => by omega
  rw [← reads, not_iff_not, hashes]
  constructor
  · rintro ⟨c, -, sameHash, genuine⟩
    have collides := noCollision (clockEventPreimage c) (genuine.trans (sameHash.trans hash))
    exact collides ▸ clockEventPreimage_reads c
  · intro readable
    refine ⟨clockEventReading env.id event.hash (eventPreimage event), rfl, rfl, ?_⟩
    exact (congrArg sha256 (clockEventReading_preimage _ _ readable)).trans hash.symm

end

def echoEnv : NodeEnv := { NodeEnv.simulated id 1 {} with signer := echoSigner }

def echoStart : NodeState InMemoryStore := .boot echoEnv {}

theorem publishEvent_separated_sample :
    ¬∃ c : ClockEvent, c.creator = echoEnv.id ∧
      c.hash = (makeEvent echoEnv [42] 0 []).hash ∧
      echoEnv.hasher.calculateClockEventHash c = c.hash :=
  (publishEvent_separated_iff echoEnv id rfl echoStart
    (final (publishEvent echoEnv [42]) echoStart) [42] [] (makeEvent echoEnv [42] 0 [])
    rfl rfl fun _ same => same).mpr (by decide)

/-- Sixteen bytes of data that hold a chain number and a timestamp: the event's signature is
the node's signature over a clock event at that time. -/
theorem publishEvent_signs_clockEvent :
    let data := writeU64Be 0 ++ writeU64Be 1000
    let stamped : ClockEvent :=
      { creator := echoEnv.id, hash := [], chain := 0, timestamp := 1000, salt := 0, referencedEvents := []
        signature := [] }
    Ends (publishEvent echoEnv data) echoStart
      (fun event _ =>
        Genuine echoEnv.hasher echoEnv.signer
          { stamped with hash := event.hash, signature := event.signature })
      (fun _ _ => False) := by
  exact ⟨rfl, rfl⟩

end Loti
