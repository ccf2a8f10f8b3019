import Loti.DiscoverySoundness
import Loti.TamperEvidence

/-!
To whom a completed discovery attributes the event. The creator is not part of an event's
hash, and responses are matched to discoveries by hash alone.
-/

namespace Loti

open Std StateExcept Wire

def SameCreator (asked : Event) (chain : EventChain) : Prop := chain.event.creator = asked.creator

def Answered (d : Discoveries) : Prop :=
  ∀ (hash : EventHash) (entry : ChainEntry),
    d.chainDiscoveries[hash]? = some entry → entry.discovery.state = .completed →
      entry.discovery.chain.event.hash = entry.discovery.event.hash ∧
        entry.discovery.chain.event.creator = entry.discovery.event.creator

theorem Discoveries.Sound.answered {accepts : EventChain → Bool} {d : Discoveries}
    (sound : d.Sound accepts SameCreator) : Answered d := by
  intro hash entry found completed
  obtain ⟨about, encloses, justified⟩ := sound.chains hash entry found
  exact ⟨encloses.trans about.symm, (justified completed).2⟩

def CompletedWith (hash : EventHash) (asked : Event) (chain : EventChain)
    (d : Discoveries) : Prop :=
  ∃ entry, d.chainDiscoveries[hash]? = some entry ∧ entry.discovery.state = .completed ∧
    entry.discovery.event = asked ∧ entry.discovery.chain = chain

theorem completeChainDiscovery_completes {accepts : EventChain → Bool}
    {fits : Event → EventChain → Prop} {d : Discoveries} {hash : EventHash} {entry : ChainEntry}
    (now : Timestamp)
    (sound : d.Sound accepts fits) (found : d.chainDiscoveries[hash]? = some entry)
    (running : entry.discovery.state = .inProgress)
    (accepted : accepts entry.discovery.chain = true)
    (fit : fits entry.discovery.event entry.discovery.chain) :
    EndsIn (completeChainDiscovery accepts now hash) d
      (CompletedWith hash entry.discovery.event entry.discovery.chain) := by
  obtain ⟨about, encloses, -⟩ := sound.chains hash entry found
  simp only [completeChainDiscovery, ends_bind, ends_get, ends_expectInProgress, found]
  refine ⟨?_, by simp [running], by simp⟩
  rintro _ ⟨rfl⟩ -
  rw [if_pos accepted]
  simp only [putChain, ends_bind, ends_modify]
  have told := fun callback (before : Discoveries) (kept : before.Sound accepts fits) =>
    (invokeCompleted_ends entry.discovery.event entry.discovery.chain callback kept accepted
      (encloses.trans about.symm) : Ends (invokeCompleted now _ _ callback) before _ _)
  obtain ⟨resolved, isResolved⟩ : ∃ resolved : ChainEntry, resolved =
      { entry with discovery := { entry.discovery with endTime := now, state := .completed } } :=
      ⟨_, rfl⟩
  have stays : ∀ after, (∃ reached, reached <+: entry.callbacks ∧ Invoking accepts fits
      { d with chainDiscoveries := d.chainDiscoveries.insert hash resolved }
      (reached.map fun callback =>
        ⟨callback, entry.discovery.event.hash, some entry.discovery.chain⟩) after) →
      CompletedWith hash entry.discovery.event entry.discovery.chain after := by
    rintro after ⟨reached, -, kept⟩
    exact ⟨resolved, by rw [kept.2.chains, ExtTreeMap.getElem?_insert_self], by simp [isResolved]⟩
  have placed :
      ({ d with chainDiscoveries := d.chainDiscoveries.insert hash resolved } : Discoveries).Sound
      accepts fits := by
    refine sound.putChain ?_ ?_ fun _ => ?_
    · rw [isResolved, about]
    · rw [isResolved, encloses]
    · simp [isResolved, accepted, fit]
  rw [← isResolved]
  exact (ends_forM_invoke told entry.callbacks placed).imp stays

section

variable {σ : Type} [Store σ] {env : NodeEnv} {s : NodeState σ}

theorem processChainResponse_completes (sender : Neighbor) {m : ChainResponse}
    {entry : ChainEntry} {upper : EventChain}
    (sound : s.Justified env) (home : m.originator = env.id)
    (found : s.discoveries.chainDiscoveries[m.chain.event.hash]? = some entry)
    (running : entry.discovery.state = .inProgress) (spliced : Splices env.id s.store m.chain upper)
    (accepted : validateChainDiscoveryResult env upper = true) :
    EndsIn (processChainResponse env sender m) s
      (fun s' => CompletedWith m.chain.event.hash entry.discovery.event upper s'.discoveries) := by
  obtain ⟨lower, lowered, raised⟩ := spliced
  have splicedEvent : upper.event = m.chain.event := Splices.event ⟨lower, lowered, raised⟩
  obtain ⟨_, -, lowerEq⟩ := addLocalLowerBound_ok lowered
  have begins : Advancing (validateChainDiscoveryResult env) (fun _ _ => True) True s.discoveries
    {} s.discoveries :=
    ⟨sound, .refl s.discoveries⟩
  have awaits : Awaits m.chain.event.hash entry.discovery.event s.discoveries :=
    ⟨entry, found, running, rfl⟩
  simp only [processChainResponse, home, if_true, ends_bind, ends_get, found, running,
    ends_withDiscoveries]
  refine (setDiscoveredChain_ends begins awaits rfl).always ?_
  rintro _ d1 ⟨holds1, awaits1, -⟩
  simp only [resolveChainDiscovery, addLowerBound, addUpperBound, ends_bind, ends_get,
    ends_readStore, lowered]
  refine ⟨?_, by simp⟩
  rintro _ ⟨rfl⟩
  simp only [ends_bind, ends_withDiscoveries, ends_readStore, raised]
  refine (setDiscoveredChain_ends holds1 awaits1 (by rw [lowerEq])).always ?_
  rintro _ d2 ⟨holds2, awaits2, -⟩
  refine ⟨?_, by simp⟩
  rintro _ ⟨rfl⟩
  simp only [ends_bind, ends_withDiscoveries]
  refine (setDiscoveredChain_ends holds2 awaits2 (by rw [splicedEvent])).always ?_
  rintro _ d3 ⟨holds3, ⟨last, lastFound, lastRunning, lastAsked⟩, current⟩
  obtain ⟨-, built⟩ := current last lastFound
  have completed := completeChainDiscovery_completes s.now holds3.1 lastFound lastRunning
    (by rwa [built]) trivial
  rwa [built, lastAsked] at completed

/-- A response that would complete a discovery in progress names the creator asked about. -/
def NamesCreator (env : NodeEnv) (s : NodeState σ) : NodeAction → Prop
  | .onPacketReceived datagram => ∀ sender m entry,
      decode ⟨datagram, env.wordBits⟩ = .ok ⟨sender, .chainResponse m⟩ → sender ∈ s.neighbors →
      m.originator = env.id → s.discoveries.chainDiscoveries[m.chain.event.hash]? = some entry →
      entry.discovery.state = .inProgress →
      (∃ upper, Splices env.id s.store m.chain upper ∧
        validateChainDiscoveryResult env upper = true) →
        m.chain.event.creator = entry.discovery.event.creator
  | _ => True

theorem NamesCreator.fitting {action : NodeAction} (names : NamesCreator env s action) :
    Fitting SameCreator env s action := by
  cases action with
  | onPacketReceived datagram =>
      intro sender m entry upper decoded known home found running spliced accepted
      exact (congrArg Event.creator spliced.event).trans
        (names sender m entry decoded known home found running ⟨upper, spliced, accepted⟩)
  | _ => trivial

theorem not_answered_of_unnamed {action : NodeAction}
    (sound : s.Justified env) (unnamed : ¬NamesCreator env s action) :
    ¬Answered (final (perform env action) s).discoveries := by
  cases action with
  | onPacketReceived datagram =>
      simp only [NamesCreator] at unnamed
      push Not at unnamed
      obtain ⟨sender, m, entry, decoded, known, home, found, running, ⟨upper, spliced, accepted⟩,
        differs⟩ := unnamed
      obtain ⟨neighbor, lookup⟩ := Option.isSome_iff_exists.mp
        (ExtTreeMap.isSome_getElem?_iff_mem.mpr known)
      have completes :=
        processChainResponse_completes neighbor sound home found running spliced accepted
      have handled : EndsIn (perform env (.onPacketReceived datagram)) s
          (fun s' =>
            CompletedWith m.chain.event.hash entry.discovery.event upper s'.discoveries) := by
        simpa [perform, onPacketReceived, decoded, receive, lookup] using completes
      intro answered
      obtain ⟨last, lastFound, completed, asked, built⟩ := ends_final.mp handled
      have creators := (answered _ last lastFound completed).2
      rw [built, asked, spliced.event] at creators
      exact differs creators
  | _ => exact absurd trivial unnamed

theorem perform_keeps_sound {action : NodeAction}
    (sound : s.Justified env) :
    EndsIn (perform env action) s
      (fun after => after.Justified env) := by
  have fitting : Fitting (fun _ _ => True) env s action := by cases action <;> simp [Fitting]
  exact (perform_advances action sound (fun _ _ _ => trivial) fitting).imp fun _ serves =>
    serves.sound

theorem namesCreator_of_answered {actions : List NodeAction}
    (sound : s.Justified env)
    (answered : ∀ performed, performed <+: actions →
      Answered (final (runActions env performed) s).discoveries) :
    EachStep (NamesCreator env) env s actions := by
  induction actions generalizing s with
  | nil => trivial
  | cons action rest ih =>
      constructor
      · by_contra unnamed
        have one := answered [action] (by simp)
        rw [final_runActions_one] at one
        exact not_answered_of_unnamed sound unnamed one
      · intro after performed
        apply ih
        · have kept : Ends (contain (perform env action)) s
              (fun _ last => last.Justified env)
              (fun _ last => True ∧ last.Justified env) :=
            ends_contain ((perform_keeps_sound sound).mono (fun _ _ kept => kept) fun _ _ kept =>
              ⟨trivial, kept⟩)
          simpa only [Ends, performed] using kept
        · intro begun begins
          have later := answered (action :: begun) ((List.prefix_cons_inj action).mpr begins)
          rwa [final_runActions_cons performed] at later

/-- All along a run completed discoveries answer the question asked, if and only if every response
that completes one names the creator asked about. -/
theorem answered_iff_fitting (env : NodeEnv) (store : σ) (actions : List NodeAction) :
    (∀ performed, performed <+: actions →
        Answered (final (runActions env performed) (.boot env store)).discoveries) ↔
      EachStep (NamesCreator env) env (.boot env store) actions := by
  constructor
  · exact namesCreator_of_answered (boot_sound env store)
  · intro names performed begins
    obtain ⟨_, -, served⟩ := runActions_advances env store performed
      (fun event chain same => congrArg Event.creator same)
      ((names.mono_prefix begins).imp fun _ _ _ named => named.fitting)
    exact served.sound.answered

end

def checksum (bytes : Bytes) : EventHash :=
  BigEndian.digits 3 (bytes.foldl (fun total byte => (total * 31 + byte.toNat) % 16777213) 1)

def namedSigner (id : NodeId) : Signer where
  sign message := id.bytes ++ message
  verify message signature creator := signature = creator.bytes ++ message

def Signer.clockEvent (signer : Signer) (creator : NodeId) (timestamp : Timestamp)
    (refs : List EventReference) : ClockEvent :=
  let unsigned : ClockEvent :=
    { creator, hash := [], chain := 0, timestamp, salt := 0, referencedEvents := refs,
      signature := [] }
  let hash := checksum (clockEventPreimage unsigned)
  { unsigned with hash, signature := signer.sign hash }

def Signer.event (signer : Signer) (creator : NodeId) (refs : List EventReference) : Event :=
  let unsigned : Event :=
    { creator, hash := [], data := [42], salt := 0, referencedEvents := refs, signature := [] }
  let hash := checksum (eventPreimage unsigned)
  { unsigned with hash, signature := signer.sign hash }

/-- Node 1 has one neighbor, node 3, which claims an event of node 2 for itself. -/
def claimedEnv : NodeEnv :=
  { NodeEnv.simulated checksum 1 {} with signer := namedSigner (.ofUInt64 1) }

def claimedTip : EventReference :=
  let tick := makeClockEvent claimedEnv 0 0 5 []
  tick.reference

def claimedChain (claimant : UInt64) : EventChain :=
  let victim := namedSigner (.ofUInt64 2)
  let thief := namedSigner (.ofUInt64 claimant)
  let anchor := victim.clockEvent (.ofUInt64 2) 7 [claimedTip]
  let event := thief.event (.ofUInt64 claimant) [anchor.reference]
  { event, lowerBound := [anchor]
    upperBound := [(namedSigner (.ofUInt64 3)).clockEvent (.ofUInt64 3) 9 [event.reference]] }

def claimedRun : List NodeAction :=
  let stolen := claimedChain 3
  [.addNeighbor (.ofUInt64 3), .setClock 5, .createClockEvent 0,
    .onPacketReceived (encode ⟨.ofUInt64 3, .clockNotification
      ⟨0, (stolen.upperBound.map (·.hash)).headD [], []⟩⟩),
    .setClock 10, .createClockEvent 0,
    .discoverEventChain (claimedChain 2).event .all 0,
    .onPacketReceived (encode ⟨.ofUInt64 3, .chainResponse ⟨.ofUInt64 1, stolen, []⟩⟩)]

/-- The discovery asked about node 2's event and completes with the event attributed to node 3. -/
theorem claimedRun_misattributed :
    ((final (runActions claimedEnv claimedRun)
        (.boot claimedEnv ({} : InMemoryStore))).discoveries.chainDiscoveries[
        (claimedChain 2).event.hash]?).map
      (fun entry => (entry.discovery.state, entry.discovery.event.creator,
        entry.discovery.chain.event.creator)) =
    some (.completed, .ofUInt64 2, .ofUInt64 3) := by
  decide +kernel

end Loti
