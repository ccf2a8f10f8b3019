import Loti.ChainValidation
import Loti.Wire

/-!
`src/core/proof/proof.cpp`: the portable proof, its byte form, and its offline
verification.
-/

namespace Loti.OfflineProof

open Wire

/-- What a proof asserts. `other` is a byte read from outside that names no enumerator. -/
inductive Kind
  | bounds
  | order
  | chain
  | other (value : UInt8)
deriving DecidableEq

structure Reference where
  node : NodeId
  pubkey : Bytes
deriving DecidableEq

structure Proof where
  kind : Kind
  reference : Reference
  chain : EventChain
  chain2 : EventChain
  order : Order
deriving DecidableEq

structure VerifyResult where
  valid : Bool := false
  reason : String := ""
  lower : Timestamp := 0
  upper : Timestamp := 0
  order : Order := .undetermined
deriving DecidableEq

def fingerprint (hasher : Hasher) (publicKey : Bytes) : NodeId where
  bytes := (hasher.sha256 publicKey).take 16 ++
    List.replicate (16 - ((hasher.sha256 publicKey).take 16).length) 0
  size := by simp

/-- The order two chains' intervals imply; the node's `compare_event_chains` is the same
function. `none` is the undefined `front()` or `back()` of an empty bound. -/
def compare (a b : EventChain) : Option Order := do
  let aLower ← a.lowerBound.head?
  let aUpper ← a.upperBound.getLast?
  let bLower ← b.lowerBound.head?
  let bUpper ← b.upperBound.getLast?
  if aUpper.timestamp < bLower.timestamp then return .before
  if bUpper.timestamp < aLower.timestamp then return .after
  return .undetermined

def verify (hasher : Hasher) (p : Proof) (signer : Signer) : VerifyResult :=
  if p.reference.pubkey ≠ [] ∧ fingerprint hasher p.reference.pubkey ≠ p.reference.node then
    { reason := "reference public key does not match the reference node id" }
  else
    let c1 := verifyChain hasher p.chain p.reference.node signer
    if !c1.ok then
      { reason := c1.reason }
    else if p.kind = .order then
      let c2 := verifyChain hasher p.chain2 p.reference.node signer
      if !c2.ok then
        { reason := c2.reason, lower := c1.lower, upper := c1.upper }
      else if compare p.chain p.chain2 ≠ some p.order then
        { reason := "recorded order does not match the chains' intervals"
          lower := c1.lower, upper := c1.upper }
      else
        { valid := true, lower := c1.lower, upper := c1.upper, order := p.order }
    else
      { valid := true, lower := c1.lower, upper := c1.upper }

theorem verify_order {hasher : Hasher} {p : Proof} {signer : Signer}
    (valid : (verify hasher p signer).valid = true)
    (decided : (verify hasher p signer).order ≠ .undetermined) :
    (verifyChain hasher p.chain p.reference.node signer).ok = true ∧
      (verifyChain hasher p.chain2 p.reference.node signer).ok = true ∧
      compare p.chain p.chain2 = some (verify hasher p signer).order := by
  by_cases keyed : p.reference.pubkey ≠ [] ∧
    fingerprint hasher p.reference.pubkey ≠ p.reference.node
  · simp [verify, keyed] at valid
  by_cases first : (verifyChain hasher p.chain p.reference.node signer).ok = true
  · by_cases kind : p.kind = .order
    · by_cases second : (verifyChain hasher p.chain2 p.reference.node signer).ok = true
      · by_cases recorded : compare p.chain p.chain2 = some p.order
        · exact ⟨first, second, by simp [verify, keyed, first, kind, second, recorded]⟩
        · simp [verify, keyed, first, kind, second, recorded] at valid
      · simp [verify, keyed, first, kind, second] at valid
    · simp [verify, keyed, first, kind] at decided
  · simp [verify, keyed, first] at valid

section Compare

variable {a b : EventChain} {aLower aUpper bLower bUpper : ClockEvent}
    (aFirst : a.lowerBound.head? = some aLower)
  (aLast : a.upperBound.getLast? = some aUpper) (bFirst : b.lowerBound.head? = some bLower)
  (bLast : b.upperBound.getLast? = some bUpper)

include aFirst aLast bFirst bLast

theorem compare_before (before : compare a b = some .before) :
    aUpper.timestamp < bLower.timestamp := by
  simp only [compare, aFirst, aLast, bFirst, bLast, Option.bind_eq_bind, Option.bind_some] at before
  split at before
  · assumption
  · split at before <;> cases before

theorem compare_after (after : compare a b = some .after) :
    bUpper.timestamp < aLower.timestamp := by
  simp only [compare, aFirst, aLast, bFirst, bLast, Option.bind_eq_bind, Option.bind_some] at after
  split at after
  · cases after
  · split at after
    · assumption
    · cases after

end Compare

def kMagic : UInt64 := 0x4C4F544950524F46

def kVersion : UInt64 := 1

def Kind.byte : Kind → UInt8
  | .bounds => 0
  | .order => 1
  | .chain => 2
  | .other value => value

def Kind.ofByte : UInt8 → Kind
  | 0 => .bounds
  | 1 => .order
  | 2 => .chain
  | value => .other value

def orderByte : Order → UInt8
  | .before => 255
  | .undetermined => 0
  | .after => 1
  | .other value => value.toUInt8

def orderOfByte : UInt8 → Order
  | 255 => .before
  | 0 => .undetermined
  | 1 => .after
  | value => .other value.toInt8

def serialize (p : Proof) : Bytes :=
  Writer.u64 kMagic ++ Writer.u64 kVersion ++ Writer.u8 p.kind.byte ++
    Writer.nodeId p.reference.node ++ Writer.blob p.reference.pubkey ++
    Writer.chain p.chain ++
    if p.kind = .order then Writer.chain p.chain2 ++ Writer.u8 (orderByte p.order) else []

def readProof (buffer : Buffer) : ReadM Proof := do
  StateExcept.when ((← Reader.u64 buffer) ≠ kMagic)
    (throw (.exception "proof: bad magic (not a LOTI proof)"))
  StateExcept.when ((← Reader.u64 buffer) ≠ kVersion)
    (throw (.exception "proof: unsupported version"))
  let kind := Kind.ofByte (← Reader.u8 buffer)
  let node ← Reader.nodeId buffer
  let pubkey ← Reader.blob buffer
  let chain ← Reader.chain buffer
  if kind = .order then
    let chain2 ← Reader.chain buffer
    let order ← Reader.u8 buffer
    return { kind, reference := ⟨node, pubkey⟩, chain, chain2, order := orderOfByte order }
  else
    return { kind, reference := ⟨node, pubkey⟩, chain, chain2 := default, order := .undetermined }

def deserialize (buffer : Buffer) : Except Fault Proof :=
  match readProof buffer 0 with
  | .ok proof _ => .ok proof
  | .error fault _ => .error fault

end Loti.OfflineProof
