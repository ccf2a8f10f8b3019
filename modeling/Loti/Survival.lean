import Loti.ChainWalks
import Loti.DiscoveryResolution
import Loti.TipTable
import Loti.WireBounds

/-!
What a process outlives. Its callers catch the exceptions of a step; undefined behaviour, a
failed assertion and a walk without end are left. A step that meets `Bearable`, `Novel` and
`ResolutionSafe` has none of these, from any state in which no live clock event mentions one
that came after it.
-/

namespace Loti

open Std StateExcept LocalDag Wire

namespace LocalDag

/-- Clock events are not mentioned before they are made, whoever speaks of them. -/
def novelPolicy : Policy where
  own _ := True
  foreign _ := True
  reading _ _ := True
  ticking dag record := record.hash ∉ Dag.mentions record ∧ ∀ entry ∈ dag.clocks,
  record.hash ∉ Dag.mentions entry.2
  hydrating _ := True

structure Rooted (id : NodeId) (dag : LocalDag) : Prop where
  mine : ∀ entry ∈ dag.clocks, entry.2.creator = id
  unforeseen : Unforeseen dag.toDag

theorem Rooted.apply {env : NodeEnv} {dag : LocalDag} {change : Change} (rooted : Rooted env.id dag)
    (allowed : Allows env novelPolicy dag change) :
    Rooted env.id (dag.apply env.numChains change) := by
  cases change with
  | read now => exact ⟨rooted.mine, rooted.unforeseen⟩
  | publish event => exact ⟨rooted.mine, rooted.unforeseen⟩
  | tick seq record =>
      obtain ⟨⟨chain, salt, tail, heard, -, -, built⟩, -, above, selfless, unmentioned⟩ := allowed
      refine ⟨fun entry live => ?_, rooted.unforeseen.addClockEvent above unmentioned selfless⟩
      rcases List.mem_append.mp live with old | new
      · exact rooted.mine entry old
      · obtain rfl := List.mem_singleton.mp new
        exact congrArg (fun record => record.creator) built
  | prune chain keep =>
      exact ⟨fun entry live => rooted.mine entry (Dag.prune_sublist.subset live),
        rooted.unforeseen.prune⟩
  | hydrate => exact ⟨rooted.mine, rooted.unforeseen⟩

end LocalDag

/-- The hash of what a step makes is the hash of no live clock event, and no one has mentioned
it. -/
def Novel {σ : Type} [Store σ] [DagStore σ] (env : NodeEnv) (s : NodeState σ)
    (action : NodeAction) : Prop :=
  ∀ object ∈ appendedBy env s action,
    (∀ record ∈ object.ticked?, record.hash ∉ Dag.mentions record) ∧
    ∀ entry ∈ (DagStore.dag s.store).clocks, entry.2.hash ≠ object.hash ∧
    object.hash ∉ Dag.mentions entry.2

def RoomFor {σ : Type} (s : NodeState σ) : Except Fault Datagram → Prop
  | .ok ⟨sender, .clockNotification m⟩ => ∀ neighbor ∈ s.neighbors[sender]?,
      m.chain.toNat ≠ 2 ^ 32 - 1 ∨ m.chain.toNat < neighbor.lastClockEventHashes.length
  | _ => True

/-- The inputs with undefined behaviour: a length that wraps (32-bit builds), a tip slot that wraps,
an unknown chain and an expiry limit before the first time there is. -/
def Bearable {σ : Type} (env : NodeEnv) (s : NodeState σ) : NodeAction → Prop
  | .onPacketReceived datagram => (⟨datagram, env.wordBits⟩ : Buffer).Addressable ∧
      (env.wordBits = 32 → (⟨datagram, env.wordBits⟩ : Buffer).LengthsFit) ∧
        RoomFor s (decode ⟨datagram, env.wordBits⟩)
  | .createClockEvent chain => chain.toNat < env.numChains
  | .fireTimer .purge => .purge ∈ s.timers →
      (s.now - env.config.discoveryExpiry).toInt = s.now.toInt - env.config.discoveryExpiry.toInt
  | _ => True

section Step

variable {σ : Type} [Store σ] [DagStore σ] {env : NodeEnv} {s : NodeState σ} {action : NodeAction}

instance (env : NodeEnv) (s : NodeState σ) (action : NodeAction) : Decidable (Novel env s action) :=
  inferInstanceAs (Decidable (∀ object ∈ appendedBy env s action, _))

instance (s : NodeState σ) (result : Except Fault Datagram) : Decidable (RoomFor s result) :=
  match result with
  | .ok ⟨sender, .clockNotification m⟩ => decidable_of_iff (∀ neighbor ∈ s.neighbors[sender]?,
      m.chain.toNat ≠ 2 ^ 32 - 1 ∨ m.chain.toNat < neighbor.lastClockEventHashes.length) Iff.rfl
  | .ok ⟨_, .chainRequest _⟩ | .ok ⟨_, .chainResponse _⟩ | .error _ => isTrue trivial

instance (env : NodeEnv) (s : NodeState σ) (action : NodeAction) :
    Decidable (Bearable env s action) :=
  match action with
  | .onPacketReceived datagram =>
      decidable_of_iff ((⟨datagram, env.wordBits⟩ : Buffer).Addressable ∧
      (env.wordBits = 32 → (⟨datagram, env.wordBits⟩ : Buffer).LengthsFit) ∧
        RoomFor s (decode ⟨datagram, env.wordBits⟩)) Iff.rfl
  | .createClockEvent chain => decidable_of_iff (chain.toNat < env.numChains) Iff.rfl
  | .fireTimer .purge => decidable_of_iff (.purge ∈ s.timers →
      (s.now - env.config.discoveryExpiry).toInt = s.now.toInt - env.config.discoveryExpiry.toInt)
      Iff.rfl
  | .fireTimer (.clock _) | .start | .addNeighbor _ | .learnRoute _ _ | .learnRouteAt _ _
      _ | .publishEvent _
  | .discoverEventChain _ _ _ | .discoverEventBounds _ _ _ | .discoverEventOrder _ _ _
      _ | .setClock _ | .gc
  | .hydrateFromStore | .restart | .restore _ => isTrue trivial

def NodeState.liveClocks (s : NodeState σ) : List Signed :=
  (DagStore.dag s.store).clocks.map fun entry => .clockEvent entry.2

theorem Novel.meets (novel : Novel env s action) (kind : ∀ blob, action ≠ .restore blob) :
    Meets env novelPolicy s.liveClocks s action where
  kind := kind
  reading _ _ := trivial
  hydrating _ := trivial
  ticking := by
    intro record makes stored
    obtain ⟨selfless, fresh⟩ := novel _ (mem_appendedBy_iff.mpr ⟨makes, stored⟩)
    refine ⟨selfless record rfl, fun entry live => ?_⟩
    obtain ⟨old, listed, same⟩ := Dag.mem_bare_clocks.mp live
    rw [← same]
    exact (fresh (entry.1, old) listed).2
  fresh := by
    refine fun object makes stored => ⟨trivial, fun old listed => ?_⟩
    obtain ⟨entry, live, rfl⟩ := List.mem_map.mp listed
    exact ((novel object (mem_appendedBy_iff.mpr ⟨makes, stored⟩)).2 entry live).1
  foreign _ _ _ := trivial

theorem OwnDag.rooted (own : OwnDag env.id s.store) : Rooted env.id (s.localDag s.liveClocks) := by
  refine ⟨fun entry live => ?_, unforeseen_bare_iff.mpr own.unforeseen⟩
  obtain ⟨record, stored, same⟩ := Dag.mem_bare_clocks.mp live
  rw [← same]
  exact own.mine (entry.1, record) stored

theorem perform_ownDag (own : OwnDag env.id s.store) (novel : Novel env s action)
    (kind : ∀ blob, action ≠ .restore blob) :
    EndsIn (perform env action) s (fun after => OwnDag env.id after.store) := by
  have grounded : ∀ entry ∈ (DagStore.dag s.store).clocks, ∃ object ∈ s.liveClocks,
    object.hash = entry.2.hash :=
    fun entry live => ⟨_, List.mem_map_of_mem live, rfl⟩
  refine (perform_evolves action own.sound grounded (novel.meets kind)).imp fun after evolves => ?_
  obtain ⟨new, -, steps⟩ := evolves.steps
  have rooted := steps.keeps (Rooted env.id)
    (fun _ _ rooted allowed => rooted.apply allowed) own.rooted
  refine ⟨⟨evolves.sound, fun entry live => ?_⟩, unforeseen_bare_iff.mp rooted.unforeseen⟩
  exact rooted.mine (entry.1, entry.2.bare) (Dag.mem_bare_clocks.mpr ⟨entry.2, live, rfl⟩)

theorem decode_contained {buffer : Buffer} (addressable : buffer.Addressable)
    (narrow : buffer.wordBits = 32 → buffer.LengthsFit) {fault : Fault}
    (failed : decode buffer = .error fault) :
    fault.Contained := by
  have lengths : buffer.LengthsFit := by
    rcases addressable.1 with bits | bits
    · exact narrow bits
    · exact lengthsFit_of_64 addressable bits
  have inside := (stays_rule addressable lengths).readDatagram 0 (Nat.zero_le _)
  unfold InsideFrom Ends at inside
  unfold decode at failed
  split at inside
  · rename_i read
    simp [read] at failed
  · rename_i read
    rw [read] at failed
    exact Except.error.inj failed ▸ inside.1

theorem perform_survives (own : OwnDag env.id s.store)
    (tails : s.unreferencedPerChain.length = env.numChains)
    (configured : ∀ chain, .clock chain ∈ s.timers → chain.toNat < env.config.chains.length)
    (sound : s.Justified env)
    (kind : ∀ blob, action ≠ .restore blob) (bearable : Bearable env s action)
    (safe : ResolutionSafe env s action) :
    Ends (perform env action) s (fun _ _ => True) (fun fault _ => fault.Contained) := by
  refine perform_raises ⟨fun what => ⟨what, rfl⟩, ?_, ?_, ?_, ?_, ?_⟩ sound safe
  · rintro datagram fault rfl failed
    exact decode_contained bearable.1 bearable.2.1 failed
  · rintro datagram sender neighbor m rfl read known
    have room := bearable.2.2
    rw [read] at room
    exact (processClockEventNotification_updates (room neighbor known)).mono
      (fun _ _ _ => trivial) fun _ _ ended => ended.1
  · exact fun neighbor originator base path =>
      (own.extendAndRetrace_ends neighbor originator base path).mono
      (fun _ _ _ => trivial) fun _ _ refused => refused.1
  · intro strays
    have many : env.config.chains.length ≤ env.numChains := by simp only [NodeEnv.numChains]; omega
    cases action with
    | createClockEvent chain =>
        have known : chain.toNat < env.numChains := bearable
        have outside : s.unreferencedPerChain.length ≤ chain.toNat := strays
        omega
    | fireTimer timer =>
        cases timer with
        | clock chain =>
            have known := configured chain strays.1
            rcases strays.2 with outside | outside <;> omega
        | purge => exact absurd (bearable strays.1) strays.2
    | _ => exact strays.elim
  · exact fun blob restores => absurd restores (kind blob)

end Step

end Loti
