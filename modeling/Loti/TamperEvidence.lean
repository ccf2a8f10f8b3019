import Loti.ChainValidation

/-!
How far an object's hash commits to its content. The hashed bytes of an event are the data,
the salt and the references one after the other, with nothing that marks where one ends. Those
of a clock event begin with fields of fixed width.
-/

namespace Loti

open BigEndian

def NoCollision (sha256 : Bytes → EventHash) (preimage : Bytes) : Prop :=
  ∀ other, sha256 other = sha256 preimage → other = preimage

def Event.SameContent (first second : Event) : Prop :=
  first.data = second.data ∧ first.salt = second.salt ∧
    first.referencedEvents = second.referencedEvents

def Event.SameLayout (first second : Event) : Prop :=
  first.data.length = second.data.length ∧
    first.referencedEvents.map (·.hash.length) = second.referencedEvents.map (·.hash.length)

theorem writeRefs_inj {first second : List EventReference}
    (lengths : first.map (·.hash.length) = second.map (·.hash.length))
    (same : writeRefs first = writeRefs second) : first = second := by
  induction first generalizing second with
  | nil => exact (List.map_eq_nil_iff.mp lengths.symm).symm
  | cons ref rest ih =>
      cases second with
      | nil => cases lengths
      | cons other others =>
          simp only [List.map_cons, List.cons.injEq] at lengths
          simp only [writeRefs_cons, List.append_assoc] at same
          obtain ⟨creators, tail⟩ :=
            List.append_inj same (ref.creator.size.trans other.creator.size.symm)
          obtain ⟨hashes, others'⟩ := List.append_inj tail lengths.1
          have refs : ref = other := EventReference.ext (NodeId.ext_bytes creators) hashes
          rw [refs, ih lengths.2 others']

theorem writeRefs_length_of_sized {refs : List EventReference} {size : Nat}
    (sized : ∀ ref ∈ refs, ref.hash.length = size) :
    (writeRefs refs).length = refs.length * (16 + size) := by
  induction refs with
  | nil => simp
  | cons ref rest ih =>
      have tail := ih fun other member => sized other (List.mem_cons_of_mem _ member)
      have head := sized ref List.mem_cons_self
      have creator := ref.creator.size
      simp only [writeRefs_cons, List.length_append, List.length_cons, Nat.add_mul]
      omega

theorem writeRefs_inj_of_sized {first second : List EventReference} {size : Nat}
    (one : ∀ ref ∈ first, ref.hash.length = size) (other : ∀ ref ∈ second, ref.hash.length = size)
    (same : writeRefs first = writeRefs second) : first = second := by
  have total := congrArg List.length same
  rw [writeRefs_length_of_sized one, writeRefs_length_of_sized other] at total
  have count : first.length = second.length := Nat.eq_of_mul_eq_mul_right (by omega) total
  have sizes {refs : List EventReference} (sized : ∀ ref ∈ refs, ref.hash.length = size) :
      refs.map (·.hash.length) = List.replicate refs.length size := by
    rw [List.eq_replicate_iff]
    simpa using sized
  exact writeRefs_inj (by rw [sizes one, sizes other, count]) same

theorem eventPreimage_inj {first second : Event} (layout : first.SameLayout second)
    (same : eventPreimage first = eventPreimage second) : first.SameContent second := by
  simp only [eventPreimage, List.append_assoc] at same
  obtain ⟨data, tail⟩ := List.append_inj same layout.1
  obtain ⟨salt, refs⟩ := List.append_inj tail (by simp)
  exact ⟨data, writeU64Be_inj salt, writeRefs_inj layout.2 refs⟩

/-- A clock event's hashed bytes fix its chain, its time, its salt and the bytes of its references,
and with digests of 32 bytes the references themselves. -/
theorem clockEventPreimage_commits {first second : ClockEvent}
    (same : clockEventPreimage first = clockEventPreimage second) :
    first.chain = second.chain ∧ first.timestamp = second.timestamp ∧ first.salt = second.salt ∧
      writeRefs first.referencedEvents = writeRefs second.referencedEvents ∧
      ((∀ ref ∈ first.referencedEvents, ref.hash.length = 32) →
        (∀ ref ∈ second.referencedEvents, ref.hash.length = 32) →
          first.referencedEvents = second.referencedEvents) := by
  obtain ⟨chain, timestamp, salt, refs⟩ := clockEventPreimage_fields same
  exact ⟨chain, timestamp, salt, refs, fun one other => writeRefs_inj_of_sized one other refs⟩

theorem clockEventPreimage_commits_sample :
    let ref : EventReference := ⟨.ofUInt64 2, List.replicate 32 7⟩
    let first : ClockEvent :=
      { creator := .ofUInt64 1, hash := [1], chain := 3, timestamp := -5, salt := 9
        referencedEvents := [ref], signature := [] }
    let second : ClockEvent := { first with creator := .ofUInt64 4, hash := [2], signature := [8] }
    first.referencedEvents = second.referencedEvents :=
  (clockEventPreimage_commits rfl).2.2.2.2 (by decide) (by decide)

/-- The event with its first reference moved into the data, so that the hashed bytes stay. -/
def absorbFirstReference (event : Event) : Event :=
  match event.referencedEvents with
  | [] => event
  | ref :: rest =>
      let bytes := ref.creator.bytes ++ ref.hash
      { event with
        data := event.data ++ writeU64Be event.salt ++ bytes.take (bytes.length - 8)
        salt := UInt64.ofNat (value (bytes.drop (bytes.length - 8)))
        referencedEvents := rest }

theorem writeU64Be_ofNat_value {bytes : Bytes} (size : bytes.length = 8) :
    writeU64Be (UInt64.ofNat (value bytes)) = bytes := by
  have bound : value bytes < 2 ^ 64 := by
    have := value_lt bytes
    rwa [size] at this
  rw [writeU64Be, UInt64.toNat_ofNat_of_lt' bound, digits_value size]

theorem absorbFirstReference_preimage (event : Event) :
    eventPreimage (absorbFirstReference event) = eventPreimage event := by
  unfold absorbFirstReference
  split
  · rfl
  · rename_i ref rest refs
    have size :
      ((ref.creator.bytes ++ ref.hash).drop ((ref.creator.bytes ++ ref.hash).length - 8)).length =
      8 := by
      have := ref.creator.size
      simp
      omega
    simp only [eventPreimage, writeU64Be_ofNat_value size, refs, writeRefs_cons, List.append_assoc]
    rw [← List.append_assoc (List.take _ _), List.take_append_drop]
    simp

/-- The forgery passes: whenever the lower bound is referenced by a later reference than the
first, the chain of the rewritten event is accepted with the old hash, signature and interval. -/
theorem absorbFirstReference_accepted (sha256 : Bytes → EventHash) (signer : Signer)
    (reference : NodeId) (chain : EventChain) (ref : EventReference) (rest : List EventReference)
    (accepted : (verifyChain (.ofSha256 sha256) chain reference signer).ok = true)
    (refs : chain.event.referencedEvents = ref :: rest)
    (later : ∀ last ∈ chain.lowerBound.getLast?, last.reference ∈ rest) :
    verifyChain (.ofSha256 sha256) { chain with event := absorbFirstReference chain.event }
      reference signer = verifyChain (.ofSha256 sha256) chain reference signer := by
  obtain ⟨front, back, sound⟩ := verifyChain_sound _ _ _ _ accepted
  have forged : (absorbFirstReference chain.event).referencedEvents = rest ∧
      (absorbFirstReference chain.event).reference = chain.event.reference := by
    simp [absorbFirstReference, refs, Event.reference]
  have kept : (absorbFirstReference chain.event).hash = chain.event.hash ∧
      (absorbFirstReference chain.event).signature = chain.event.signature ∧
      (absorbFirstReference chain.event).creator = chain.event.creator := by
    simp [absorbFirstReference, refs]
  have linked := (links_linked_iff chain front sound.front_found).mp sound.linked
  obtain ⟨last, lastFound⟩ : ∃ last, chain.lowerBound.getLast? = some last := by
    obtain ⟨tail, split⟩ := List.head?_eq_some_iff.mp sound.front_found
    rw [split, List.getLast?_cons]
    exact ⟨_, rfl⟩
  have sound' : SoundChain (.ofSha256 sha256) signer reference
      { chain with event := absorbFirstReference chain.event } front back := by
    refine { sound with
      event_hash := ?_, event_signature := ?_, linked := ?_ }
    · exact (congrArg sha256 (absorbFirstReference_preimage chain.event)).trans
        (sound.event_hash.trans kept.1.symm)
    · simp only [kept]
      exact sound.event_signature
    · refine (links_linked_iff { chain with event := absorbFirstReference chain.event } front
        sound.front_found).mpr ⟨linked.1, ?_, ?_⟩
      · simpa [lastReference, lastFound, forged.1, ClockEvent.link] using later last lastFound
      · rw [forged.2]
        exact linked.2.2
  rw [sound'.accepted, sound.accepted]

/-- Two accepted events with one hash have the same content exactly when they agree on the
lengths that the hashed bytes leave open. -/
theorem accepted_sameContent_iff (sha256 : Bytes → EventHash) (signer : Signer)
    (reference1 reference2 : NodeId) (chain1 chain2 : EventChain)
    (accepted1 : (verifyChain (.ofSha256 sha256) chain1 reference1 signer).ok = true)
    (accepted2 : (verifyChain (.ofSha256 sha256) chain2 reference2 signer).ok = true)
    (sameHash : chain1.event.hash = chain2.event.hash)
    (noCollision : NoCollision sha256 (eventPreimage chain2.event)) :
    chain1.event.SameContent chain2.event ↔ chain1.event.SameLayout chain2.event := by
  constructor
  · rintro ⟨data, -, refs⟩
    exact ⟨congrArg List.length data, by rw [refs]⟩
  · intro layout
    obtain ⟨_, _, sound1⟩ := verifyChain_sound _ _ _ _ accepted1
    obtain ⟨_, _, sound2⟩ := verifyChain_sound _ _ _ _ accepted2
    have digests : sha256 (eventPreimage chain1.event) = sha256 (eventPreimage chain2.event) :=
      sound1.event_hash.trans (sameHash.trans sound2.event_hash.symm)
    exact eventPreimage_inj layout (noCollision _ digests)

def echoSigner : Signer where
  sign message := message
  verify message signature _ := signature = message

def signedClockEvent (creator : UInt64) (chain : UInt32) (timestamp : Timestamp)
    (refs : List EventReference) : ClockEvent :=
  let unsigned : ClockEvent :=
    { creator := .ofUInt64 creator, hash := [], chain, timestamp, salt := 0, referencedEvents := refs
      signature := [] }
  { unsigned with hash := clockEventPreimage unsigned, signature := clockEventPreimage unsigned }

def signedEvent (creator : UInt64) (data : Bytes) (refs : List EventReference) : Event :=
  let unsigned : Event :=
    { creator := .ofUInt64 creator, hash := [], data, salt := 5, referencedEvents := refs,
      signature := [] }
  { unsigned with hash := eventPreimage unsigned, signature := eventPreimage unsigned }

def pinnedChain : EventChain :=
  let tip0 := signedClockEvent 1 0 10 []
  let tip1 := signedClockEvent 1 1 10 []
  let event := signedEvent 1 [42] [tip0.reference, tip1.reference]
  { event, lowerBound := [tip1], upperBound := [signedClockEvent 1 1 20 [event.reference]] }

theorem absorbFirstReference_accepted_sample :
    verifyChain (.ofSha256 id) { pinnedChain with event := absorbFirstReference pinnedChain.event }
      (.ofUInt64 1) echoSigner = verifyChain (.ofSha256 id) pinnedChain (.ofUInt64 1) echoSigner :=
  absorbFirstReference_accepted id echoSigner (.ofUInt64 1) pinnedChain _ _
    (by decide) rfl (by decide)

def laterChain : EventChain :=
  { pinnedChain with upperBound := [signedClockEvent 1 1 30 [pinnedChain.event.reference]] }

theorem accepted_sameContent_sample : laterChain.upperBound ≠ pinnedChain.upperBound ∧
    (laterChain.event.SameContent pinnedChain.event ↔
      laterChain.event.SameLayout pinnedChain.event) :=
  ⟨by decide, accepted_sameContent_iff id echoSigner (.ofUInt64 1)
    (.ofUInt64 1) laterChain pinnedChain (by decide) (by decide) rfl fun _ same => same⟩

/-- Both chains are accepted, their events share hash and signature, and the data differ. -/
theorem accepted_content_differs :
    let forgedChain := { pinnedChain with event := absorbFirstReference pinnedChain.event }
    (verifyChain (.ofSha256 id) pinnedChain (.ofUInt64 1) echoSigner).ok = true ∧
      (verifyChain (.ofSha256 id) forgedChain (.ofUInt64 1) echoSigner).ok = true ∧
      forgedChain.event.hash = pinnedChain.event.hash ∧
      forgedChain.event.signature = pinnedChain.event.signature ∧
      forgedChain.event.data ≠ pinnedChain.event.data := by
  decide

end Loti
