import Loti.CrossLinks
import Loti.OfflineProof

/-!
`src/adapters/os/keystore.cpp`: the signer of a production node. A signature carries the public key
it was made with and a node's id is the fingerprint of its public key, so that a verifier brings no
key of its own. OpenSSL's Ed25519 stands behind `Ed25519`, with what it documents.
-/

namespace Loti

open StateExcept

structure Ed25519 where
  publicOf : Bytes → Bytes
  sign : Bytes → Bytes → Bytes
  verify : Bytes → Bytes → Bytes → Bool
  publicOf_length : ∀ key, (publicOf key).length = 32
  sign_length : ∀ key message, (sign key message).length = 64
  genuine : ∀ key message, verify (publicOf key) message (sign key message) = true

namespace KeyStore

def kEd25519Raw : Nat := 32

def kEd25519Sig : Nat := 64

theorem padded_length (digest : Bytes) :
    (digest.take 16 ++ List.replicate (16 - (digest.take 16).length) 0).length = 16 := by simp

def fingerprint (hasher : Hasher) (publicKey : Bytes) : NodeId where
  bytes := (hasher.sha256 publicKey).take 16 ++
    List.replicate (16 - ((hasher.sha256 publicKey).take 16).length) 0
  size := padded_length (hasher.sha256 publicKey)

theorem fingerprint_eq (hasher : Hasher) (publicKey : Bytes) :
    fingerprint hasher publicKey = OfflineProof.fingerprint hasher publicKey := rfl

end KeyStore

structure KeyStore where
  privateKey : Bytes
  raw : privateKey.length = KeyStore.kEd25519Raw

namespace KeyStore

variable (ed : Ed25519) (hasher : Hasher)

def publicKey (keys : KeyStore) : Bytes := ed.publicOf keys.privateKey

def sign (keys : KeyStore) (message : Bytes) : Signature :=
  ed.sign keys.privateKey message ++ keys.publicKey ed

def verify (message : Bytes) (signature : Signature) (signer : NodeId) : Bool :=
  if signature = [] then false
  else if signature.length ≠ kEd25519Sig + kEd25519Raw then false
  else
    let pub := signature.drop kEd25519Sig
    if fingerprint hasher pub ≠ signer then false
    else ed.verify pub message (signature.take kEd25519Sig)

def nodeId (keys : KeyStore) : NodeId := fingerprint hasher (keys.publicKey ed)

def signer (keys : KeyStore) : Signer := ⟨keys.sign ed, verify ed hasher⟩

theorem verify_sign (keys : KeyStore) (message : Bytes) :
    verify ed hasher message (keys.sign ed message) (keys.nodeId ed hasher) = true := by
  have size : (keys.sign ed message).length = kEd25519Sig + kEd25519Raw := by
    rw [sign, List.length_append, ed.sign_length, publicKey, ed.publicOf_length]
    rfl
  have nonempty : keys.sign ed message ≠ [] := by
    intro empty
    rw [empty] at size
    cases size
  have key : (keys.sign ed message).drop kEd25519Sig = keys.publicKey ed :=
    List.drop_left' (ed.sign_length _ _)
  have signed : (keys.sign ed message).take kEd25519Sig = ed.sign keys.privateKey message :=
    List.take_left' (ed.sign_length _ _)
  unfold verify
  rw [if_neg nonempty, if_neg (not_not_intro size), key, signed]
  exact (if_neg (not_not_intro rfl)).trans (ed.genuine _ _)

end KeyStore

/-! Validation depends on a signer only in what it verifies -/

section Verifiers

variable {hasher : Hasher} {one two : Signer} (alike : one.verify = two.verify)

include alike

theorem walkBound_signer (part : String) (prev : Option EventReference) (bound : List ClockEvent) :
    walkBound hasher one part prev bound = walkBound hasher two part prev bound := by
  induction bound generalizing prev with
  | nil => rfl
  | cons ce rest ih =>
      simp only [walkBound, alike, ih]

theorem verifyChain_signer (chain : EventChain) (reference : NodeId) :
    verifyChain hasher chain reference one = verifyChain hasher chain reference two := by
  unfold verifyChain
  simp only [walkBound_signer alike, alike]

end Verifiers

/-! What a node with a key store signs -/

def Signed.Checks (hasher : Hasher) (signer : Signer) : Signed → Prop
  | .event published => hasher.calculateEventHash published = published.hash ∧
      signer.verify published.hash published.signature published.creator = true
  | .clockEvent ticked => Loti.Genuine hasher signer ticked.toClockEvent

section Runs

variable {σ : Type} [Store σ] {env : NodeEnv} {s : NodeState σ} {ed : Ed25519}
    {sha256 : Bytes → EventHash}

theorem Signed.Genuine.checks {object : Signed} (genuine : object.Genuine env) {signer : Signer}
    (hashed : env.hasher = .ofSha256 sha256)
    (signs : ∀ message, signer.verify message (env.signer.sign message) env.id = true) :
    object.Checks env.hasher signer := by
  have checker : ({ env with signer } : NodeEnv).hasher = .ofSha256 sha256 := hashed
  cases object with
  | event published => exact genuine_event hashed checker signs genuine
  | clockEvent ticked => exact genuine_clockEvent hashed checker signs genuine

def SignsSince (check : Signed → Prop) (start s : NodeState σ) : Prop :=
  ∃ made, s.signed = start.signed ++ made ∧ ∀ object ∈ made, check object

theorem keeps_signsSince {check : Signed → Prop} {start : NodeState σ}
    (checks : ∀ object : Signed, object.Genuine env → check object) (action : NodeAction) :
    Keeps (SignsSince check start) (perform env action) := by
  rintro s ⟨made, signed, checked⟩
  refine (perform_follows action).imp fun after follows => ?_
  obtain ⟨new, grown, makes⟩ := follows.signed
  refine ⟨made ++ new, by rw [grown, signed, List.append_assoc], fun object member => ?_⟩
  rcases List.mem_append.mp member with old | now
  · exact checked object old
  · exact checks object ((makes object).mp now).genuine

/-- Whatever happens to a node that runs with a key store, every event and clock event that it signs
passes the check of a verifier with any key store of its own. -/
theorem signed_checks (keys other : KeyStore) (hashed : env.hasher = .ofSha256 sha256)
    (signer : env.signer = keys.signer ed env.hasher) (named : env.id = keys.nodeId ed env.hasher)
    (actions : List NodeAction) (s : NodeState σ) :
    SignsSince (Signed.Checks env.hasher (other.signer ed env.hasher)) s
    (final (runActions env actions) s) := by
  have signs : ∀ message, (other.signer ed env.hasher).verify message
    (env.signer.sign message) env.id = true := by
    intro message
    rw [signer, named]
    exact KeyStore.verify_sign ed env.hasher keys message
  have kept : Keeps (SignsSince (Signed.Checks env.hasher (other.signer ed env.hasher)) s)
    (runActions env actions) :=
    keeps_runActions fun action _ =>
      keeps_signsSince (fun _ genuine => genuine.checks hashed signs) action
  exact ends_final.mp (kept s ⟨[], by simp, by simp⟩)

end Runs

def shortDigest (bytes : Bytes) : EventHash :=
  let half :=
    BigEndian.digits 16 (bytes.foldl (fun total byte => (total * 31 + byte.toNat) % 16777213) 1)
  half ++ half

theorem shortDigest_length (bytes : Bytes) : (shortDigest bytes).length = 32 := by
  simp [shortDigest, BigEndian.digits_length]

def digestEd25519 : Ed25519 where
  publicOf key := shortDigest key
  sign key message := shortDigest (shortDigest key ++ message) ++ shortDigest message
  verify publicKey message signature :=
    signature == shortDigest (publicKey ++ message) ++ shortDigest message
  publicOf_length := shortDigest_length
  sign_length key message := by simp [shortDigest_length]
  genuine key message := by simp

def sampleKeys : KeyStore := ⟨List.replicate 32 1, rfl⟩

def signedEnv : NodeEnv where
  id := sampleKeys.nodeId digestEd25519 (.ofSha256 shortDigest)
  hasher := .ofSha256 shortDigest
  signer := sampleKeys.signer digestEd25519 (.ofSha256 shortDigest)
  salts := UInt64.ofNat
  config := ({} : NodeConfig).withFloodDefaults
  wordBits := 64

def signedStart : NodeState InMemoryStore := .boot signedEnv {}

def signedRun : List NodeAction :=
  [.setClock 10, .createClockEvent 0, .publishEvent [42], .createClockEvent 0]

def otherKeys : KeyStore := ⟨List.replicate 32 2, rfl⟩

theorem signed_checks_sample :
    (final (runActions signedEnv signedRun) signedStart).signed.length = 3 ∧
    SignsSince (Signed.Checks signedEnv.hasher (otherKeys.signer digestEd25519 signedEnv.hasher))
      signedStart (final (runActions signedEnv signedRun) signedStart) :=
  ⟨by decide +kernel, signed_checks sampleKeys otherKeys rfl rfl rfl signedRun signedStart⟩

end Loti
