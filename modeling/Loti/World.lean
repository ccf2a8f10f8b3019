import Mathlib.Logic.Function.Basic
import Loti.History
import Loti.IdealHash
import Loti.InMemoryStore
import Loti.Library.Provenance
import Loti.OfflineProof

/-!
A network of honest nodes among adversaries. Honest nodes run the code; adversaries
compose any objects and deliver any datagrams at any time, which covers loss, duplication
and reordering. The world keeps the list of all objects in the order of their creation,
with what every clock read at that moment.

The hash is ideal: an object, or a datagram that reaches an honest node, contains the hash
of an object only once that object exists.
-/

namespace Loti

open Std StateExcept Provenance OfflineProof

structure Network where
  digest : Object → EventHash
  distinct : Function.Injective digest
  sha256 : Bytes → EventHash
  env : NodeId → NodeEnv
  honest : NodeId → Prop
  /-- The honest nodes whose clock readings never decrease. -/
  steady : NodeId → Prop
  steady_honest : ∀ id, steady id → honest id
  identified : ∀ id, honest id → (env id).id = id
  hashes : ∀ id, honest id → (env id).hasher = idealHasher digest sha256

def Network.hasher (net : Network) : Hasher := idealHasher net.digest net.sha256

/-- An object, who made it (an honest node, or some adversary) and the clocks at that moment. -/
structure Creation where
  object : Object
  author : Option NodeId
  readings : NodeId → Timestamp

structure World (σ : Type) where
  nodes : NodeId → NodeState σ
  log : List Creation

def World.readings {σ : Type} (w : World σ) (id : NodeId) : Timestamp := (w.nodes id).now

def World.objects {σ : Type} (w : World σ) : List Object := w.log.map Creation.object

def World.moment {σ : Type} (w : World σ) (object : Object) : Nat := w.objects.idxOf object

inductive Move
  | act (id : NodeId) (action : NodeAction)
  | compose (object : Object)

def Signed.object : Signed → Object
  | .event made => made.object
  | .clockEvent made => made.toClockEvent.object

/-- What an honest node's records hold: existing objects under their own hashes, none stamped
later than a steady clock reads, and tips that are no hashes of future objects. -/
def Network.contents (net : Network) (objects : List Object) (id : NodeId) (now : Timestamp) :
    Contents where
  event event := event.hash = net.digest event.object ∧ event.object ∈ objects
  clockEvent clockEvent := clockEvent.hash = net.digest clockEvent.toClockEvent.object ∧
    clockEvent.toClockEvent.object ∈ objects ∧ (net.steady id → clockEvent.timestamp ≤ now)
  neighbor neighbor := ∀ hash ∈ neighbor.lastClockEventHashes, hash ≠ [] →
    Known net.digest objects hash

variable {σ : Type} [Store σ] {action : NodeAction}

/-- An action may end the process; the node then keeps the state it reached. -/
def Network.step (net : Network) (w : World σ) : Move → World σ
  | .act id action =>
      let before := w.nodes id
      let after := final (perform (net.env id) action) before
      { nodes := Function.update w.nodes id after
        log := w.log ++ (after.signed.drop before.signed.length).map fun object =>
          ⟨object.object, some id, w.readings⟩ }
  | .compose object => { w with log := w.log ++ [⟨object, none, w.readings⟩] }

/-- What an action of node `id` takes from outside contains no hash of a future object, and a
steady clock is not set back. -/
def Network.Allows (net : Network) (w : World σ) (id : NodeId) : NodeAction → Prop
  | .onPacketReceived datagram => ∀ sender m,
      Wire.decode ⟨datagram, (net.env id).wordBits⟩ = .ok ⟨sender, .clockNotification m⟩ →
      m.lastClockEventHash ≠ [] → Known net.digest w.objects m.lastClockEventHash
  | .setClock now => net.steady id → w.readings id ≤ now
  | .restore blob => ∀ snapshot pos,
      readSnapshot ⟨blob, (net.env id).wordBits⟩ 0 = .ok snapshot pos →
      snapshot.Within (net.contents w.objects id (w.readings id))
  | _ => True

def Network.Admissible (net : Network) (w : World σ) : Move → Prop
  | .act id action => net.honest id ∧ net.Allows w id action
  | .compose object => ∀ hash ∈ object.mentions, Known net.digest w.objects hash

variable [LawfulStore σ]

/-- No object exists, and every node was just constructed on a store without records. -/
structure Network.Initial (net : Network) (w : World σ) : Prop where
  log : w.log = []
  nodes : ∀ id, ∃ store now, LawfulStore.Within ⟨fun _ => False, fun _ => False, fun _ =>
    False⟩ store ∧ w.nodes id = { NodeState.boot (net.env id) store with now }

inductive Network.Reachable (net : Network) : World σ → Prop
  | initial {w : World σ} (initial : net.Initial w) : net.Reachable w
  | step {w : World σ} {move : Move} (reached : net.Reachable w)
      (admissible : net.Admissible w move) : net.Reachable (net.step w move)

def Network.Admits (net : Network) : World σ → List Move → Prop
  | _, [] => True
  | w, move :: rest => net.Admissible w move ∧ net.Admits (net.step w move) rest

theorem Network.Reachable.run {net : Network} {w : World σ} {moves : List Move}
    (reached : net.Reachable w) (admits : net.Admits w moves) :
    net.Reachable (moves.foldl net.step w) := by
  induction moves generalizing w with
  | nil => exact reached
  | cons move rest ih => exact ih (reached.step admits.1) admits.2

def Network.Unforgeable (net : Network) (signer : Signer) (w : World σ) : Prop :=
  ∀ clockEvent : ClockEvent, net.honest clockEvent.creator → Genuine net.hasher signer clockEvent →
    ∃ creation, w.log[w.moment clockEvent.object]? = some creation ∧
    creation.author = some clockEvent.creator

structure Network.Coherent (net : Network) (w : World σ) : Prop where
  grounded : Grounded net.digest Object.mentions w.objects
  ordered : w.log.Pairwise fun earlier later => ∀ id, net.steady id →
  earlier.readings id ≤ later.readings id
  elapsed : ∀ creation ∈ w.log, ∀ id, net.steady id → creation.readings id ≤ w.readings id
  stamped : ∀ creation ∈ w.log, ∀ id, net.steady id → creation.author = some id →
    ∀ clockEvent : ClockEvent, creation.object = clockEvent.object →
    clockEvent.timestamp = creation.readings id
  records : ∀ id, net.honest id →
    NodeWithin (net.contents w.objects id (w.readings id)) (w.nodes id)

variable {net : Network} {w : World σ}

theorem contents_implies (net : Network) (objects more : List Object) {id : NodeId}
    {now later : Timestamp} (passes : net.steady id → now ≤ later) :
    (net.contents objects id now).Implies (net.contents (objects ++ more) id later) where
  event _ held := ⟨held.1, List.mem_append_left more held.2⟩
  clockEvent _ held :=
    ⟨held.1, List.mem_append_left more held.2.1, fun steady => Int64.le_trans (held.2.2 steady)
      (passes steady)⟩
  neighbor _ held hash listed nonempty := (held hash listed nonempty).append more

section Making

variable {id : NodeId} {objects : List Object} {now : Timestamp} {s : NodeState σ}

theorem known_reference {clockEvent : LocalClockEvent}
    (held : (net.contents objects id now).clockEvent clockEvent) :
    Known net.digest objects clockEvent.reference.hash := by
  show Known net.digest objects clockEvent.hash
  rw [held.1]
  exact known_of_mem net.distinct held.2.1

theorem makes_grounded {object : Signed}
    (within : NodeWithin (net.contents objects id now) s)
    (makes : Makes (net.env id) s action object) :
    ∀ hash ∈ object.object.mentions, Known net.digest objects hash := by
  intro hash mentioned
  obtain ⟨ref, listed, rfl⟩ := List.mem_map.mp mentioned
  rcases makes.cases with ⟨data, event, rfl, refs, read, rfl⟩ | ⟨chain, clockEvent, rfl, last, tail,
    read, found, rfl⟩
  · obtain ⟨chain, tip, latest, rfl⟩ := tipReferences_mem read listed
    exact known_reference (LawfulStore.latestClockEventOn_within within.store latest)
  · rcases clockReferences_mem listed with ⟨tip, rfl, rfl⟩ | ⟨key, neighbor, hash, known,
      advertised, nonempty, rfl⟩ | ⟨event, published, rfl⟩
    · exact known_reference (LawfulStore.latestClockEventOn_within within.store read)
    · exact (within.neighbors key neighbor known).2 hash (List.mem_of_getElem? advertised) nonempty
    · have held := within.unreferenced tail (List.mem_of_getElem? found) event published
      show Known net.digest objects event.hash
      rw [held.1]
      exact known_of_mem net.distinct held.2

theorem makesClockEvent_stamp {chain : UInt32} {clockEvent : LocalClockEvent}
    (within : NodeWithin (net.contents objects id s.now) s) (steady : net.steady id)
    (makes : MakesClockEvent (net.env id) s chain clockEvent) : clockEvent.timestamp = s.now := by
  obtain ⟨last, tail, read, -, rfl⟩ := makes
  show clampedStamp s.now last = s.now
  cases last with
  | none => rfl
  | some tip =>
      have held := LawfulStore.latestClockEventOn_within within.store read
      exact if_neg (Int64.not_lt.mpr (held.2.2 steady))

theorem makes_signed {object : Signed} (honest : net.honest id)
    (within : NodeWithin (net.contents objects id s.now) s)
    (makes : Makes (net.env id) s action object)
    {after : List Object} (listed : object.object ∈ after) :
    (net.contents after id s.now).signed object := by
  have hashes := net.hashes id honest
  rcases makes.cases with ⟨data, event, rfl, refs, -, rfl⟩ | ⟨chain, clockEvent, rfl, made⟩
  · refine ⟨?_, listed⟩
    simp only [makeEvent, hashes]
    rfl
  · refine ⟨?_, listed, fun steady => ?_⟩
    · obtain ⟨last, tail, -, -, rfl⟩ := made
      simp only [makeClockEvent, hashes]
      rfl
    · rw [makesClockEvent_stamp within steady made]
      exact Int64.le_refl _

end Making

omit [Store σ] [LawfulStore σ] in
theorem allows_takes {id : NodeId} (allows : net.Allows w id action) (more : List Object) :
    Takes (net.contents (w.objects ++ more) id (w.readings id)) (net.env id)
    (w.nodes id) action := by
  cases action with
  | addNeighbor neighbor => exact fun hash listed => by cases listed
  | onPacketReceived datagram =>
      intro sender m decoded _
      refine ⟨fun tips old hash listed nonempty => ?_, fun own held _ _ => held⟩
      rcases mem_coveringTips_set listed with known | rfl | rfl
      · exact old hash known nonempty
      · exact absurd rfl nonempty
      · exact (allows sender m decoded nonempty).append more
  | restore blob =>
      intro snapshot pos read
      have inside := allows snapshot pos read
      have implies := contents_implies net w.objects more
        fun _ : net.steady id => Int64.le_refl (w.readings id)
      exact ⟨fun event listed => implies.event _ (inside.events event listed),
        fun clockEvent listed => implies.clockEvent _ (inside.clockEvents clockEvent listed),
        fun neighbor listed => implies.neighbor _ (inside.neighbors neighbor listed)⟩
  | _ => trivial

theorem Network.Initial.coherent (initial : net.Initial w) : net.Coherent w := by
  have objects : w.objects = [] := by simp [World.objects, initial.log]
  refine ⟨?_, ?_, ?_, ?_, ?_⟩
  · rw [objects]
    exact grounded_nil
  · simp [initial.log]
  · simp [initial.log]
  · simp [initial.log]
  · intro id honest
    obtain ⟨store, now, bare, booted⟩ := initial.nodes id
    rw [booted]
    have empty : NodeWithin _ (NodeState.boot (net.env id) store) := boot_within bare
    refine (empty.mono ⟨?_, ?_, ?_⟩).of_same rfl rfl rfl
    · exact fun _ no => no.elim
    · exact fun _ no => no.elim
    · exact fun _ no => no.elim

theorem Network.Coherent.compose {object : Object} (coherent : net.Coherent w)
    (admissible : net.Admissible w (.compose object)) :
    net.Coherent (net.step w (.compose object)) := by
  have objects : (net.step w (.compose object)).objects = w.objects ++ [object] := by
    simp [World.objects, Network.step]
  refine ⟨?_, ?_, ?_, ?_, ?_⟩
  · rw [objects]
    refine coherent.grounded.append fun other listed => ?_
    obtain rfl := List.mem_singleton.mp listed
    exact admissible
  · refine List.pairwise_append.mpr ⟨coherent.ordered, List.pairwise_singleton _ _, ?_⟩
    intro creation old latest new id steady
    obtain rfl := List.mem_singleton.mp new
    exact coherent.elapsed creation old id steady
  · intro creation listed id steady
    rcases List.mem_append.mp listed with old | new
    · exact coherent.elapsed creation old id steady
    · obtain rfl := List.mem_singleton.mp new
      exact Int64.le_refl _
  · intro creation listed id steady author
    rcases List.mem_append.mp listed with old | new
    · exact coherent.stamped creation old id steady author
    · obtain rfl := List.mem_singleton.mp new
      cases author
  · intro id honest
    rw [objects]
    exact (coherent.records id honest).mono (contents_implies net w.objects [object] fun _ =>
      Int64.le_refl _)

theorem Network.Coherent.act {id : NodeId} (coherent : net.Coherent w)
    (admissible : net.Admissible w (.act id action)) :
    net.Coherent (net.step w (.act id action)) := by
  obtain ⟨honest, allows⟩ := admissible
  have within := coherent.records id honest
  obtain ⟨reading, ⟨made, signed, makes⟩, -, -⟩ : Follows (net.env id) (w.nodes id) action
      (final (perform (net.env id) action) (w.nodes id)) := ends_final.mp (perform_follows action)
  have log : (net.step w (.act id action)).log =
      w.log ++ made.map fun object => ⟨object.object, some id, w.readings⟩ := by
    simp [Network.step, signed]
  have objects : (net.step w (.act id action)).objects = w.objects ++ made.map Signed.object := by
    simp [World.objects, log, Function.comp_def]
  have clocks : ∀ other, net.steady other →
    w.readings other ≤ (net.step w (.act id action)).readings other := by
    intro other steady
    by_cases same : other = id
    · subst same
      simp only [World.readings, Network.step, Function.update_self, reading]
      cases action with
      | setClock now => exact allows steady
      | _ => exact Int64.le_refl _
    · simp only [World.readings, Network.step, Function.update_of_ne same]
      exact Int64.le_refl _
  refine ⟨?_, ?_, ?_, ?_, ?_⟩
  · rw [objects]
    refine coherent.grounded.append fun object listed => ?_
    obtain ⟨signedObject, member, rfl⟩ := List.mem_map.mp listed
    exact makes_grounded within ((makes signedObject).mp member)
  · rw [log]
    refine List.pairwise_append.mpr ⟨coherent.ordered, ?_, ?_⟩
    · refine List.pairwise_map.mpr (List.pairwise_of_forall fun _ _ other _ => Int64.le_refl _)
    · intro creation old latest new other steady
      obtain ⟨object, -, rfl⟩ := List.mem_map.mp new
      exact coherent.elapsed creation old other steady
  · rw [log]
    intro creation listed other steady
    rcases List.mem_append.mp listed with old | new
    · exact Int64.le_trans (coherent.elapsed creation old other steady) (clocks other steady)
    · obtain ⟨object, -, rfl⟩ := List.mem_map.mp new
      exact clocks other steady
  · rw [log]
    intro creation listed other steady author clockEvent same
    rcases List.mem_append.mp listed with old | new
    · exact coherent.stamped creation old other steady author clockEvent same
    · obtain ⟨object, member, rfl⟩ := List.mem_map.mp new
      cases author
      rcases ((makes object).mp member).cases with ⟨data, event, rfl, -⟩ | ⟨chain, tick, rfl, ticks⟩
      · cases same
      · have stamp : tick.timestamp = clockEvent.timestamp := (Object.clockEvent.inj same).2.2.1
        exact stamp.symm.trans (makesClockEvent_stamp within steady ticks)
  · intro other otherHonest
    rw [objects]
    by_cases same : other = id
    · subst same
      have inside := within.mono (contents_implies net w.objects (made.map Signed.object) fun _ =>
        Int64.le_refl _)
      have performed := perform_within action inside
        (fun object new _ => makes_signed honest within new (List.mem_append_right _
          (List.mem_map.mpr ⟨object, (makes object).mpr new, rfl⟩)))
        (allows_takes allows _)
      have later := contents_implies net (w.objects ++ made.map Signed.object) [] (clocks other)
      rw [List.append_nil] at later
      have node : (net.step w (.act other action)).nodes other =
          final (perform (net.env other) action) (w.nodes other) := by simp [Network.step]
      rw [node]
      exact (ends_final.mp performed).mono later
    · simp only [World.readings, Network.step, Function.update_of_ne same]
      exact (coherent.records other otherHonest).mono (contents_implies net w.objects _ fun _ =>
        Int64.le_refl _)

theorem Network.Reachable.coherent (reached : net.Reachable w) : net.Coherent w := by
  induction reached with
  | initial initial => exact initial.coherent
  | @step w move _ admissible ih =>
      cases move with
      | act id action => exact ih.act admissible
      | compose object => exact ih.compose admissible

section Enclosing

variable {signer : Signer} {reference : NodeId} {chain : EventChain} {front back : ClockEvent}

omit [Store σ] [LawfulStore σ] in
theorem World.created {object : Object} (member : object ∈ w.objects) :
    ∃ creation ∈ w.log, w.log[w.moment object]? = some creation ∧ creation.object = object := by
  have found : w.objects[w.moment object]? = some object := List.getElem?_idxOf member
  rw [World.objects, List.getElem?_map, Option.map_eq_some_iff] at found
  obtain ⟨creation, placed, same⟩ := found
  exact ⟨creation, List.mem_of_getElem? placed, placed, same⟩

omit [Store σ] [LawfulStore σ] in
theorem World.mem_objects {object : Object} {creation : Creation}
    (placed : w.log[w.moment object]? = some creation) : object ∈ w.objects := by
  obtain ⟨bound, -⟩ := List.getElem?_eq_some_iff.mp placed
  exact List.idxOf_lt_length_iff.mp (by simpa [World.objects, World.moment] using bound)

omit [Store σ] [LawfulStore σ] in
theorem Network.Unforgeable.mem_objects {clockEvent : ClockEvent}
    (unforgeable : net.Unforgeable signer w) (honest : net.honest clockEvent.creator)
    (genuine : Genuine net.hasher signer clockEvent) :
    clockEvent.object ∈ w.objects := by
  obtain ⟨creation, placed, -⟩ := unforgeable clockEvent honest genuine
  exact World.mem_objects placed

section

variable (coherent : net.Coherent w)

include coherent

theorem Network.Coherent.stamp_eq {clockEvent : ClockEvent} {creation : Creation}
    (unforgeable : net.Unforgeable signer w) (steady : net.steady clockEvent.creator)
    (genuine : Genuine net.hasher signer clockEvent)
    (placed : w.log[w.moment clockEvent.object]? = some creation) :
    clockEvent.timestamp = creation.readings clockEvent.creator := by
  obtain ⟨made, found, author⟩ := unforgeable clockEvent (net.steady_honest _ steady) genuine
  obtain rfl := Option.mem_unique found placed
  obtain ⟨same, listed, again, object⟩ := World.created (World.mem_objects placed)
  obtain rfl := Option.mem_unique again placed
  exact coherent.stamped same listed _ steady author clockEvent object

theorem Network.Coherent.readings_le {earlier later : Creation} {i j : Nat} {id : NodeId}
    (steady : net.steady id) (order : i ≤ j) (first : w.log[i]? = some earlier)
    (second : w.log[j]? = some later) :
    earlier.readings id ≤ later.readings id := by
  obtain ⟨bound, rfl⟩ := List.getElem?_eq_some_iff.mp first
  obtain ⟨bound', rfl⟩ := List.getElem?_eq_some_iff.mp second
  rcases Nat.lt_or_eq_of_le order with before | rfl
  · exact List.pairwise_iff_getElem.mp coherent.ordered i j bound bound' before id steady
  · exact Int64.le_refl _

theorem Network.Coherent.enclosed (unforgeable : net.Unforgeable signer w)
    (honest : net.honest reference)
    (sound : SoundChain net.hasher signer reference chain front back) :
    (∀ object ∈ chain.objects, object ∈ w.objects) ∧
      w.moment front.object < w.moment chain.event.object ∧
      w.moment chain.event.object < w.moment back.object := by
  have backGenuine := sound.upper_genuine back (List.mem_of_getLast? sound.back_found)
  have ends : ∀ last, chain.objects.getLast? = some last → last ∈ w.objects := by
    intro last found
    obtain rfl := Option.mem_unique sound.last_object found
    exact unforgeable.mem_objects (by rwa [sound.back_creator]) backGenuine
  obtain ⟨members, ordered⟩ := coherent.grounded.chain sound.mentions ends
  obtain ⟨-, upper, across⟩ := List.pairwise_append.mp ordered
  refine ⟨members, ?_, ?_⟩
  · exact across _ (List.mem_map_of_mem (List.mem_of_head? sound.front_found)) _ (by simp)
  · exact (List.pairwise_cons.mp upper).1 _
      (List.mem_map_of_mem (List.mem_of_getLast? sound.back_found))

theorem Network.Coherent.bounds (unforgeable : net.Unforgeable signer w)
    (steady : net.steady reference)
    (sound : SoundChain net.hasher signer reference chain front back) :
    ∃ first creation last, w.log[w.moment front.object]? = some first ∧
      w.log[w.moment chain.event.object]? = some creation ∧ creation.object = chain.event.object ∧
      w.log[w.moment back.object]? = some last ∧
      front.timestamp = first.readings reference ∧ back.timestamp = last.readings reference := by
  obtain ⟨members, -, -⟩ := coherent.enclosed unforgeable (net.steady_honest _ steady) sound
  have frontListed := List.mem_of_head? sound.front_found
  have backListed := List.mem_of_getLast? sound.back_found
  obtain ⟨first, -, firstPlaced, -⟩ := World.created (members front.object
    (List.mem_append_left _ (List.mem_map_of_mem frontListed)))
  obtain ⟨creation, -, placed, object⟩ :=
    World.created (members chain.event.object (by simp [EventChain.objects]))
  obtain ⟨last, -, lastPlaced, -⟩ := World.created (members back.object
    (List.mem_append_right _ (List.mem_cons_of_mem _ (List.mem_map_of_mem backListed))))
  refine ⟨first, creation, last, firstPlaced, placed, object, lastPlaced, ?_, ?_⟩
  · rw [coherent.stamp_eq unforgeable (by rwa [sound.front_creator])
      (sound.lower_genuine front frontListed) firstPlaced, sound.front_creator]
  · rw [coherent.stamp_eq unforgeable (by rwa [sound.back_creator])
      (sound.upper_genuine back backListed) lastPlaced, sound.back_creator]

theorem Network.Coherent.precedes {chain' : EventChain} {front' back' : ClockEvent}
    (unforgeable : net.Unforgeable signer w) (steady : net.steady reference)
    (sound : SoundChain net.hasher signer reference chain front back)
    (sound' : SoundChain net.hasher signer reference chain' front' back')
    (apart : back.timestamp < front'.timestamp) :
    w.moment chain.event.object < w.moment chain'.event.object := by
  obtain ⟨-, -, before⟩ := coherent.enclosed unforgeable (net.steady_honest _ steady) sound
  obtain ⟨-, after, -⟩ := coherent.enclosed unforgeable (net.steady_honest _ steady) sound'
  obtain ⟨-, -, last, -, -, -, lastPlaced, -, upper⟩ := coherent.bounds unforgeable steady sound
  obtain ⟨first, -, -, firstPlaced, -, -, -, lower, -⟩ := coherent.bounds unforgeable steady sound'
  by_contra notBefore
  -- the clock would have gone back from the first chain's end to the second chain's begin
  have back := coherent.readings_le steady (by omega) firstPlaced lastPlaced
  rw [← lower, ← upper] at back
  exact Int64.lt_irrefl (Int64.lt_of_lt_of_le apart back)

end

theorem sameObject_of_hash {signer' : Signer} {reference' : NodeId} {chain' : EventChain}
    {front' back' : ClockEvent} (sound : SoundChain net.hasher signer reference chain front back)
    (sound' : SoundChain net.hasher signer' reference' chain' front' back')
    (same : chain.event.hash = chain'.event.hash) : chain.event.object = chain'.event.object :=
  net.distinct (sound.event_hash.trans (same.trans sound'.event_hash.symm))

end Enclosing

/-! A run of one honest node, which shows that the assumptions can be met. -/

def sampleNetwork : Network where
  digest := Object.encoding
  distinct := Object.encoding_injective
  sha256 := id
  env _ :=
    { NodeEnv.simulated id 1 { chains := [{ interval := 1 }] } with
      hasher := idealHasher Object.encoding id }
  honest node := node = NodeId.ofUInt64 1
  steady node := node = NodeId.ofUInt64 1
  steady_honest _ steady := steady
  identified _ honest := honest.symm
  hashes _ _ := rfl

def sampleStart : World InMemoryStore :=
  ⟨fun node => NodeState.boot (sampleNetwork.env node) {}, []⟩

def sampleMoves : List Move :=
  [.createClockEvent 0, .publishEvent [7], .setClock 1, .createClockEvent 0, .setClock 2,
    .createClockEvent 0, .publishEvent [8], .setClock 3, .createClockEvent 0].map
    (.act (NodeId.ofUInt64 1))

def sampleWorld : World InMemoryStore := sampleMoves.foldl sampleNetwork.step sampleStart

def sampleSigner : Signer where
  sign _ := []
  verify hash _ _ := hash ∈ sampleWorld.objects.map Object.encoding

theorem sampleWorld_reachable : sampleNetwork.Reachable sampleWorld := by
  have started : sampleNetwork.Reachable sampleStart :=
    .initial ⟨rfl, fun node => ⟨{}, 0, InMemoryStore.within_empty _, rfl⟩⟩
  refine started.run ⟨⟨rfl, trivial⟩, ⟨rfl, trivial⟩, ⟨rfl, fun _ => ?_⟩, ⟨rfl, trivial⟩,
    ⟨rfl, fun _ => ?_⟩, ⟨rfl, trivial⟩, ⟨rfl, trivial⟩, ⟨rfl, fun _ => ?_⟩, ⟨rfl, trivial⟩, trivial⟩
  · decide +kernel
  · decide +kernel
  · decide +kernel

theorem sampleWorld_unforgeable : sampleNetwork.Unforgeable sampleSigner sampleWorld := by
  intro clockEvent honest genuine
  have authors : ∀ creation ∈ sampleWorld.log, creation.author = some (NodeId.ofUInt64 1) := by
    decide +kernel
  have accepted : clockEvent.hash ∈ sampleWorld.objects.map Object.encoding := by
    simpa [sampleSigner] using genuine.2
  obtain ⟨object, member, same⟩ := List.mem_map.mp accepted
  obtain rfl : object = clockEvent.object := Object.encoding_injective (same.trans genuine.1.symm)
  obtain ⟨creation, listed, placed, -⟩ := World.created member
  exact ⟨creation, placed, (authors creation listed).trans (congrArg some honest.symm)⟩

def sampleTick (salt : Salt) (timestamp : Timestamp) (referencedEvents : List EventReference) :
    ClockEvent :=
  (makeClockEvent (sampleNetwork.env default) 0 salt timestamp referencedEvents).toClockEvent

def sampleEvent (data : Bytes) (salt : Salt) (referencedEvents : List EventReference) : Event :=
  makeEvent (sampleNetwork.env default) data salt referencedEvents

def sampleChain : EventChain :=
  let front := sampleTick 0 0 []
  let event := sampleEvent [7] 1 [front.reference]
  ⟨event, [front], [sampleTick 2 1 [front.reference, event.reference]]⟩

def sampleChain2 : EventChain :=
  let front := sampleTick 3 2 (sampleChain.upperBound.map ClockEvent.reference)
  let event := sampleEvent [8] 4 [front.reference]
  ⟨event, [front], [sampleTick 5 3 [front.reference, event.reference]]⟩

def sampleProof (order : Order) : Proof :=
  { kind := .order, reference := ⟨NodeId.ofUInt64 1, []⟩, chain := sampleChain, chain2 :=
    sampleChain2, order }

/-- In any run, an accepted chain bounds the event in time: it was created after the first and
before the last clock event of the chain, and the reference node's clock then read a value in
the interval. -/
theorem bounds_are_true (reached : net.Reachable w) (signer : Signer)
    (unforgeable : net.Unforgeable signer w) (reference : NodeId) (steady : net.steady reference)
    (chain : EventChain) (accepted : (verifyChain net.hasher chain reference signer).ok = true) :
    ∃ front back creation, chain.lowerBound.head? = some front ∧
      chain.upperBound.getLast? = some back ∧ back.object ∈ w.objects ∧
      w.log[w.moment chain.event.object]? = some creation ∧
      creation.object = chain.event.object ∧
      w.moment front.object < w.moment chain.event.object ∧
      w.moment chain.event.object < w.moment back.object ∧
      (verifyChain net.hasher chain reference signer).lower ≤ creation.readings reference ∧
      creation.readings reference ≤ (verifyChain net.hasher chain reference signer).upper := by
  have coherent := reached.coherent
  obtain ⟨front, back, sound⟩ := verifyChain_sound net.hasher signer reference chain accepted
  obtain ⟨members, after, before⟩ := coherent.enclosed unforgeable
    (net.steady_honest _ steady) sound
  obtain ⟨first, creation, last, firstPlaced, placed, object, lastPlaced, lower, upper⟩ :=
    coherent.bounds unforgeable steady sound
  rw [sound.accepted]
  refine ⟨front, back, creation, sound.front_found, sound.back_found, World.mem_objects lastPlaced,
    placed, object, after, before, ?_, ?_⟩
  · rw [lower]
    exact coherent.readings_le steady (Nat.le_of_lt after) firstPlaced placed
  · rw [upper]
    exact coherent.readings_le steady (Nat.le_of_lt before) placed lastPlaced

theorem bounds_are_true_sample :
    ∃ front back creation, sampleChain.lowerBound.head? = some front ∧
      sampleChain.upperBound.getLast? = some back ∧ back.object ∈ sampleWorld.objects ∧
      sampleWorld.log[sampleWorld.moment sampleChain.event.object]? = some creation ∧
      creation.object = sampleChain.event.object ∧
      sampleWorld.moment front.object < sampleWorld.moment sampleChain.event.object ∧
      sampleWorld.moment sampleChain.event.object < sampleWorld.moment back.object ∧
      (verifyChain sampleNetwork.hasher sampleChain (NodeId.ofUInt64 1) sampleSigner).lower ≤
        creation.readings (NodeId.ofUInt64 1) ∧
      creation.readings (NodeId.ofUInt64 1) ≤
        (verifyChain sampleNetwork.hasher sampleChain (NodeId.ofUInt64 1) sampleSigner).upper :=
  bounds_are_true sampleWorld_reachable sampleSigner sampleWorld_unforgeable
    (NodeId.ofUInt64 1) rfl sampleChain (by decide +kernel)

/-- In any run, two order proofs for the same events never say opposite things, whatever their
reference nodes and chains. -/
theorem orders_never_conflict (reached : net.Reachable w) {signer signer' : Signer}
    (unforgeable : net.Unforgeable signer w) (unforgeable' : net.Unforgeable signer' w)
    (p p' : Proof) (steady : net.steady p.reference.node) (steady' : net.steady p'.reference.node)
    (sameFirst : p.chain.event.hash = p'.chain.event.hash)
    (sameSecond : p.chain2.event.hash = p'.chain2.event.hash)
    (valid : (verify net.hasher p signer).valid = true)
    (before : (verify net.hasher p signer).order = .before) :
    ¬((verify net.hasher p' signer').valid = true ∧
      (verify net.hasher p' signer').order = .after) := by
  rintro ⟨valid', after⟩
  have coherent := reached.coherent
  obtain ⟨first, second, compared⟩ := verify_order valid (by simp [before])
  obtain ⟨first', second', compared'⟩ := verify_order valid' (by simp [after])
  rw [before] at compared
  rw [after] at compared'
  obtain ⟨aFront, aBack, aSound⟩ := verifyChain_sound _ _ _ _ first
  obtain ⟨bFront, bBack, bSound⟩ := verifyChain_sound _ _ _ _ second
  obtain ⟨aFront', aBack', aSound'⟩ := verifyChain_sound _ _ _ _ first'
  obtain ⟨bFront', bBack', bSound'⟩ := verifyChain_sound _ _ _ _ second'
  have forward := coherent.precedes unforgeable steady aSound bSound (compare_before
    aSound.front_found aSound.back_found bSound.front_found bSound.back_found compared)
  have backward := coherent.precedes unforgeable' steady' bSound' aSound' (compare_after
    aSound'.front_found aSound'.back_found bSound'.front_found bSound'.back_found compared')
  rw [sameObject_of_hash aSound aSound' sameFirst,
    sameObject_of_hash bSound bSound' sameSecond] at forward
  omega

theorem orders_never_conflict_sample :
    ¬((verify sampleNetwork.hasher (sampleProof .after) sampleSigner).valid = true ∧
      (verify sampleNetwork.hasher (sampleProof .after) sampleSigner).order = .after) :=
  orders_never_conflict sampleWorld_reachable sampleWorld_unforgeable sampleWorld_unforgeable
    (sampleProof .before) (sampleProof .after) rfl rfl rfl rfl (by decide +kernel)
    (by decide +kernel)

end Loti
