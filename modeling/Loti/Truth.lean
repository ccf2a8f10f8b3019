import Mathlib.Logic.Relation
import Loti.DiscoverySoundness
import Loti.World

/-!
What the nodes of a network say about time, against what happened in the run: the results that a
node's clients are told, and the order proofs that anybody checks offline.
-/

namespace Loti

open Std StateExcept OfflineProof

variable {σ : Type} {net : Network} {w : World σ}

/-- The object with the one hash came into being before the object with the other. -/
def World.Precedes (w : World σ) (net : Network) (first second : EventHash) : Prop :=
  ∃ earlier later, net.digest earlier = first ∧ net.digest later = second ∧ later ∈ w.objects ∧
    w.moment earlier < w.moment later

/-- The object with this hash came into being while the node's clock read a value in the
interval. -/
def World.CreatedWithin (w : World σ) (net : Network) (id : NodeId) (hash : EventHash)
    (lower upper : Timestamp) : Prop :=
  ∃ creation ∈ w.log, net.digest creation.object = hash ∧ lower ≤ creation.readings id ∧
    creation.readings id ≤ upper

theorem World.Precedes.trans {first second third : EventHash} (one : w.Precedes net first second)
    (two : w.Precedes net second third) : w.Precedes net first third := by
  obtain ⟨earlier, middle, rfl, rfl, -, below⟩ := one
  obtain ⟨same, later, named, rfl, made, above⟩ := two
  obtain rfl := net.distinct named
  exact ⟨earlier, later, rfl, rfl, made, below.trans above⟩

theorem World.Precedes.irrefl {hash : EventHash} : ¬w.Precedes net hash hash := by
  rintro ⟨earlier, later, rfl, named, -, below⟩
  rw [net.distinct named] at below
  exact Nat.lt_irrefl _ below

variable [Store σ] [LawfulStore σ] {signer : Signer} {reference : NodeId}

theorem Network.Coherent.createdWithin {chain : EventChain} {front back : ClockEvent}
    (coherent : net.Coherent w) (unforgeable : net.Unforgeable signer w)
    (steady : net.steady reference)
    (sound : SoundChain net.hasher signer reference chain front back) :
    w.CreatedWithin net reference chain.event.hash front.timestamp back.timestamp := by
  obtain ⟨-, after, before⟩ := coherent.enclosed unforgeable (net.steady_honest _ steady) sound
  obtain ⟨first, creation, last, firstPlaced, placed, object, lastPlaced, lower, upper⟩ :=
    coherent.bounds unforgeable steady sound
  refine ⟨creation, List.mem_of_getElem? placed, object ▸ sound.event_hash, ?_, ?_⟩
  · rw [lower]
    exact coherent.readings_le steady (Nat.le_of_lt after) firstPlaced placed
  · rw [upper]
    exact coherent.readings_le steady (Nat.le_of_lt before) placed lastPlaced

theorem Network.Coherent.compared {a b : EventChain} (coherent : net.Coherent w)
    (unforgeable : net.Unforgeable signer w) (steady : net.steady reference)
    (one : (verifyChain net.hasher a reference signer).ok = true)
    (two : (verifyChain net.hasher b reference signer).ok = true) :
    (compare a b = some .before → w.Precedes net a.event.hash b.event.hash) ∧
      (compare a b = some .after → w.Precedes net b.event.hash a.event.hash) := by
  obtain ⟨aFront, aBack, aSound⟩ := verifyChain_sound _ _ _ _ one
  obtain ⟨bFront, bBack, bSound⟩ := verifyChain_sound _ _ _ _ two
  have made : ∀ {chain front back}, SoundChain net.hasher signer reference chain front back →
    chain.event.object ∈ w.objects :=
    fun sound => (coherent.enclosed unforgeable (net.steady_honest _ steady) sound).1 _
      (by simp [EventChain.objects])
  constructor
  · intro before
    have apart := compare_before aSound.front_found aSound.back_found bSound.front_found
      bSound.back_found before
    exact ⟨_, _, aSound.event_hash, bSound.event_hash, made bSound,
      coherent.precedes unforgeable steady aSound bSound apart⟩
  · intro after
    have apart := compare_after aSound.front_found aSound.back_found bSound.front_found
      bSound.back_found after
    exact ⟨_, _, bSound.event_hash, aSound.event_hash, made aSound,
      coherent.precedes unforgeable steady bSound aSound apart⟩

/-! Clients -/

def Notification.Holds (net : Network) (w : World σ) (id : NodeId) : Notification → Prop
  | .chainCompleted _ event chain => ∃ front back, chain.lowerBound.head? = some front ∧
      chain.upperBound.getLast? = some back ∧
      w.CreatedWithin net id event.hash front.timestamp back.timestamp
  | .boundsCompleted _ event lower upper => w.CreatedWithin net id event.hash lower upper
  | .orderCompleted _ event1 event2 order =>
      (order = .before → w.Precedes net event1.hash event2.hash) ∧
        (order = .after → w.Precedes net event2.hash event1.hash)
  | _ => True

theorem Network.Reachable.discoveries_sound (reached : net.Reachable w) (id : NodeId) :
    (w.nodes id).Justified (net.env id) := by
  induction reached with
  | initial initial =>
      obtain ⟨store, now, -, booted⟩ := initial.nodes id
      rw [booted]
      exact (boot_served (net.env id) store).sound
  | step reached admissible ih =>
      rename_i w move
      cases move with
      | compose object => exact ih
      | act actor action =>
          by_cases same : id = actor
          · subst same
            simp only [Network.step, Function.update_self]
            refine (ends_final.mp (perform_advances action ih (fun _ _ _ => trivial) ?_)).sound
            cases action <;> simp [Fitting]
          · simp only [Network.step, Function.update_of_ne same]
            exact ih

/-- Whatever adversaries send, what a steady node tells its clients is true of the run: events came
into being within the bounds it reports, by its own clock, and in the order it reports. -/
theorem notifications_hold (reached : net.Reachable w) {id : NodeId} (steady : net.steady id)
    (unforgeable : net.Unforgeable (net.env id).signer w) :
    ∀ notification ∈ (w.nodes id).discoveries.notified, notification.Holds net w id := by
  intro notification told
  have coherent := reached.coherent
  have honest := net.steady_honest id steady
  have accepted : ∀ {chain}, validateChainDiscoveryResult (net.env id) chain = true →
      (verifyChain net.hasher chain id (net.env id).signer).ok = true := by
    intro chain valid
    rwa [validateChainDiscoveryResult, net.hashes id honest, net.identified id honest] at valid
  have justified := (reached.discoveries_sound id).notified notification told
  cases notification with
  | chainAborted callback event => trivial
  | boundsAborted registration event => trivial
  | orderAborted registration event1 event2 => trivial
  | chainCompleted callback event chain =>
      obtain ⟨front, back, sound⟩ := verifyChain_sound _ _ _ _ (accepted justified.1)
      exact ⟨front, back, sound.front_found, sound.back_found,
        justified.2 ▸ coherent.createdWithin unforgeable steady sound⟩
  | boundsCompleted registration event lower upper =>
      obtain ⟨chain, front, back, valid, named, frontFound, backFound, rfl, rfl⟩ := justified
      obtain ⟨front', back', sound⟩ := verifyChain_sound _ _ _ _ (accepted valid)
      obtain rfl := Option.mem_unique frontFound sound.front_found
      obtain rfl := Option.mem_unique backFound sound.back_found
      rw [Notification.Holds, ← named]
      exact coherent.createdWithin unforgeable steady sound
  | orderCompleted registration event1 event2 order =>
      obtain ⟨chain1, chain2, valid1, valid2, named1, named2, compared⟩ := justified
      have truth := coherent.compared unforgeable steady (accepted valid1) (accepted valid2)
      rw [named1, named2] at truth
      exact ⟨fun before => truth.1 (before ▸ compared), fun after => truth.2 (after ▸ compared)⟩

def clientNetwork : Network :=
  { sampleNetwork with
    env := fun id => { sampleNetwork.env id with signer := sampleSigner }
    identified := sampleNetwork.identified
    hashes := sampleNetwork.hashes }

def clientMoves : List Move :=
  sampleMoves ++
    [.act (.ofUInt64 1) (.discoverEventOrder sampleChain.event sampleChain2.event ⟨0, 9⟩ 0)]

def clientWorld : World InMemoryStore := clientMoves.foldl clientNetwork.step sampleStart

theorem clientWorld_reachable : clientNetwork.Reachable clientWorld := by
  have started : clientNetwork.Reachable sampleStart :=
    .initial ⟨rfl, fun node => ⟨{}, 0, InMemoryStore.within_empty _, rfl⟩⟩
  refine started.run ⟨⟨rfl, trivial⟩, ⟨rfl, trivial⟩, ⟨rfl, fun _ => ?_⟩, ⟨rfl, trivial⟩,
    ⟨rfl, fun _ => ?_⟩, ⟨rfl, trivial⟩, ⟨rfl, trivial⟩, ⟨rfl, fun _ => ?_⟩, ⟨rfl, trivial⟩,
    ⟨rfl, trivial⟩, trivial⟩
  · decide +kernel
  · decide +kernel
  · decide +kernel

theorem clientWorld_unforgeable : clientNetwork.Unforgeable sampleSigner clientWorld := by
  intro clockEvent honest genuine
  have authors : ∀ creation ∈ clientWorld.log, creation.author = some (NodeId.ofUInt64 1) := by
    decide +kernel
  have alike : clientWorld.objects = sampleWorld.objects := by decide +kernel
  have member : clockEvent.object ∈ sampleWorld.objects :=
    sampleWorld_unforgeable.mem_objects honest genuine
  rw [← alike] at member
  obtain ⟨creation, listed, placed, -⟩ := World.created member
  exact ⟨creation, placed, (authors creation listed).trans (congrArg some honest.symm)⟩

theorem notifications_hold_sample :
    clientWorld.Precedes clientNetwork sampleChain.event.hash sampleChain2.event.hash := by
  have told : .orderCompleted 0 sampleChain.event sampleChain2.event .before ∈
      (clientWorld.nodes (.ofUInt64 1)).discoveries.notified := by decide +kernel
  exact (notifications_hold clientWorld_reachable rfl clientWorld_unforgeable _ told).1 rfl

/-! Order proofs -/

/-- Somebody holds an order proof that verifies against a steady node and puts one hash before the
other. -/
def VerifiedBefore (net : Network) (w : World σ) (first second : EventHash) : Prop :=
  ∃ signer p, net.Unforgeable signer w ∧ net.steady p.reference.node ∧
    (verify net.hasher p signer).valid = true ∧
    ((verify net.hasher p signer).order = .before ∧
        p.chain.event.hash = first ∧ p.chain2.event.hash = second ∨
      (verify net.hasher p signer).order = .after ∧
        p.chain2.event.hash = first ∧ p.chain.event.hash = second)

theorem VerifiedBefore.precedes {first second : EventHash}
    (verified : VerifiedBefore net w first second) (reached : net.Reachable w) :
    w.Precedes net first second := by
  obtain ⟨signer, p, unforgeable, steady, valid, ordered⟩ := verified
  have decided : (verify net.hasher p signer).order ≠ .undetermined := by
    rcases ordered with ⟨order, -⟩ | ⟨order, -⟩ <;> simp [order]
  obtain ⟨one, two, compared⟩ := verify_order valid decided
  have truth := reached.coherent.compared unforgeable steady one two
  rcases ordered with ⟨order, rfl, rfl⟩ | ⟨order, rfl, rfl⟩
  · exact truth.1 (order ▸ compared)
  · exact truth.2 (order ▸ compared)

/-- Order proofs may be chained, whoever holds them and whichever nodes they refer to: what they add
up to is the order of creation, so that they never run in a circle. -/
theorem verified_orders_hold (reached : net.Reachable w) {first second : EventHash}
    (chained : Relation.TransGen (VerifiedBefore net w) first second) :
    w.Precedes net first second ∧ first ≠ second := by
  have precedes : w.Precedes net first second := by
    induction chained with
    | single verified => exact verified.precedes reached
    | tail _ verified ih => exact ih.trans (verified.precedes reached)
  refine ⟨precedes, ?_⟩
  rintro rfl
  exact precedes.irrefl

theorem verified_orders_hold_sample :
    VerifiedBefore sampleNetwork sampleWorld sampleChain.event.hash sampleChain2.event.hash ∧
      sampleWorld.Precedes sampleNetwork sampleChain.event.hash sampleChain2.event.hash := by
  have verified :
    VerifiedBefore sampleNetwork sampleWorld sampleChain.event.hash sampleChain2.event.hash :=
    ⟨sampleSigner, sampleProof .before, sampleWorld_unforgeable, rfl, by decide +kernel,
      Or.inl ⟨by decide +kernel, rfl, rfl⟩⟩
  exact ⟨verified, (verified_orders_hold sampleWorld_reachable (.single verified)).1⟩

end Loti
