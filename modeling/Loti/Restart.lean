import Loti.DagInvariants
import Loti.InMemoryDag

/-!
What a restart makes of the events that wait for the next tick. The node keeps them in
memory and reads them back from the reverse index, which pruning thins out: the two agree
as long as the newest event before the tail is still referenced by a live clock event.
-/

namespace Loti

open StateExcept LocalDag

def Signed.ticksOn (chain : UInt32) : Signed → Bool
  | .event _ => false
  | .clockEvent ticked => ticked.chain = chain

def Signed.pins (chain : UInt32) (event : Event) : Signed → Bool
  | .event _ => false
  | .clockEvent ticked => ticked.chain = chain ∧ event.reference ∈ ticked.referencedEvents

def publishedSince (chain : UInt32) (made : List Signed) : List Event :=
  (made.rtakeWhile fun object => !object.ticksOn chain).filterMap Signed.published?

namespace LocalDag

variable {env : NodeEnv} {policy : Policy} {dag : LocalDag} {change : Change}

/-- The newest event before the tail, if any, is referenced by a live clock event of the chain. -/
def Anchored (dag : LocalDag) (chain : UInt32) : Prop :=
  ∀ tail ∈ dag.tails[chain.toNat]?, ∀ event ∈ (dag.events.rdrop tail.length).getLast?,
    dag.Pins chain event.hash

theorem Intact.scan_eq_iff (intact : Intact env policy dag) {chain : UInt32} {tail : List Event}
    (found : dag.tails[chain.toNat]? = some tail) : dag.toDag.scan chain = tail ↔
    dag.Anchored chain := by
  have suffix := intact.tail_suffix _ tail found
  rw [Dag.scan, RingLog.rtakeWhile_eq_iff suffix fun event member => by
    simpa using intact.tail_free chain tail found event member]
  obtain ⟨front, whole⟩ := suffix
  have dropped : dag.events.rdrop tail.length = front := by simp [List.rdrop, ← whole]
  simp only [Anchored, found, Option.mem_def, Option.some.injEq, forall_eq', dropped]
  constructor
  · intro stops event last
    obtain ⟨before, rfl⟩ := List.getLast?_eq_some_iff.mp last
    simpa using stops before event (by rw [← whole, List.append_assoc, List.singleton_append])
  · intro pins before event split
    have same : front = before ++ [event] := List.append_cancel_right (by rw [whole, split]; simp)
    simp [pins event (by simp [same])]

/-- The tail of a chain holds the events since its last tick; every event before them is referenced
by one clock event of the chain, and no event in it by any. -/
structure Pinned (dag : LocalDag) : Prop where
  since : ∀ (chain : UInt32) tail, dag.tails[chain.toNat]? = some tail →
    tail = publishedSince chain dag.made
  once : ∀ event, .event event ∈ dag.made → ∀ (chain : UInt32) tail,
    dag.tails[chain.toNat]? = some tail →
    dag.made.countP (Signed.pins chain event) = if event ∈ tail then 0 else 1

theorem publishedSince_event (chain : UInt32) (made : List Signed) (event : Event) :
    publishedSince chain (made ++ [.event event]) = publishedSince chain made ++ [event] := by
  rw [publishedSince, List.rtakeWhile_concat_pos _ _ _ rfl, List.filterMap_append]
  rfl

theorem publishedSince_clockEvent (chain : UInt32) (made : List Signed) (record : LocalClockEvent) :
    publishedSince chain (made ++ [.clockEvent record]) =
      if record.chain = chain then [] else publishedSince chain made := by
  rw [publishedSince, List.rtakeWhile_concat]
  by_cases here : record.chain = chain
  · simp [Signed.ticksOn, here]
  · simp [Signed.ticksOn, here, publishedSince, Signed.published?]

theorem pinned_initial (numChains : Nat) (now : Timestamp) : Pinned (.initial numChains now) := by
  refine ⟨fun chain tail found => ?_, by simp [initial]⟩
  obtain ⟨-, rfl⟩ : chain.toNat < numChains ∧ [] = tail := by
    simpa [initial, List.getElem?_replicate] using found
  rfl

theorem Intact.tick_pins_iff (intact : Intact env policy dag) (alone : ∀ ref, ¬policy.foreign ref)
    {record : LocalClockEvent} (makes : MakesTick env policy dag record) {tail : List Event}
    (found : dag.tails[record.chain.toNat]? = some tail) {event : Event}
    (published : .event event ∈ dag.made) :
    event.reference ∈ record.referencedEvents ↔ event ∈ tail := by
  obtain ⟨chain, salt, waits, heard, listed, foreign, rfl⟩ := makes
  obtain rfl := Option.mem_unique listed found
  constructor
  · intro referenced
    simp only [makeClockEvent, List.mem_append, or_assoc] at referenced
    rcases referenced with own | told | waiting
    · obtain ⟨tip, latest, same⟩ := Option.map_eq_some_iff.mp (Option.mem_toList.mp own)
      obtain ⟨seq, -, live, -⟩ := Dag.tip_mem latest
      cases intact.same (intact.clock_made _ live) published (congrArg EventReference.hash same)
    · exact absurd (foreign _ told) (alone _)
    · obtain ⟨other, member, same⟩ := List.mem_map.mp waiting
      have stored := (intact.tail_suffix _ waits found).subset member
      exact intact.event_eq stored (intact.mem_events_iff.mpr published)
        (congrArg EventReference.hash same) ▸ member
  · exact fun member => List.mem_append_right _ (List.mem_map_of_mem member)

section

variable (pinned : Pinned dag) (intact : Intact env policy dag) (alone : ∀ ref, ¬policy.foreign ref)

include pinned intact alone

theorem Pinned.publish {event : Event} (allowed : Allows env policy dag (.publish event)) :
    Pinned (dag.apply env.numChains (.publish event)) := by
  have tails : ∀ (chain : UInt32) tail,
      (dag.apply env.numChains (.publish event)).tails[chain.toNat]? = some tail →
      ∃ old, dag.tails[chain.toNat]? = some old ∧ tail = old ++ [event] := by
    intro chain tail found
    obtain ⟨old, known, rfl⟩ := Option.map_eq_some_iff.mp (List.getElem?_map .. ▸ found)
    exact ⟨old, known, rfl⟩
  refine ⟨fun chain tail found => ?_, fun other published chain tail found => ?_⟩
  · obtain ⟨old, known, rfl⟩ := tails chain tail found
    rw [pinned.since chain old known]
    exact (publishedSince_event chain dag.made event).symm
  · obtain ⟨old, known, rfl⟩ := tails chain tail found
    have same : (dag.made ++ [Signed.event event]).countP (Signed.pins chain other) =
        dag.made.countP (Signed.pins chain other) := by
      rw [List.countP_append, List.countP_singleton]
      rfl
    show (dag.made ++ [Signed.event event]).countP (Signed.pins chain other) = _
    rw [same]
    rcases List.mem_append.mp published with before | new
    · have different : other ≠ event := by
        rintro rfl
        exact allowed.2.2 _ before rfl
      rw [pinned.once other before chain old known]
      simp [different]
    · obtain rfl := Signed.event.inj (List.mem_singleton.mp new)
      rw [if_pos (by simp), List.countP_eq_zero]
      intro object member
      cases object with
      | event published => simp [Signed.pins]
      | clockEvent ticked =>
          have unmentioned := intact.unmentioned_fresh
            (fun ref foreign => absurd foreign (alone ref)) allowed.2 member
          simp only [Signed.pins, decide_eq_true_eq, not_and]
          exact fun _ referenced => unmentioned (List.mem_map_of_mem referenced)

theorem Pinned.tick {seq : Nat} {record : LocalClockEvent}
    (allowed : Allows env policy dag (.tick seq record)) :
    Pinned (dag.apply env.numChains (.tick seq record)) := by
  have tails : ∀ (chain : UInt32) tail,
      (dag.apply env.numChains (.tick seq record)).tails[chain.toNat]? = some tail →
      ∃ old, dag.tails[chain.toNat]? = some old ∧
      tail = if record.chain = chain then [] else old := by
    intro chain tail found
    simp only [apply, List.getElem?_set] at found
    by_cases here : record.chain = chain
    · subst here
      rw [if_pos rfl] at found
      split at found
      · rename_i within
        exact ⟨_, List.getElem?_eq_getElem within, by simpa using found.symm⟩
      · cases found
    · have apart : record.chain.toNat ≠ chain.toNat := fun same => here (UInt32.toNat_inj.mp same)
      rw [if_neg apart] at found
      exact ⟨tail, found, by simp [here]⟩
  refine ⟨fun chain tail found => ?_, fun event published chain tail found => ?_⟩
  · obtain ⟨old, known, rfl⟩ := tails chain tail found
    rw [pinned.since chain old known]
    exact (publishedSince_clockEvent chain dag.made record).symm
  · obtain ⟨old, known, rfl⟩ := tails chain tail found
    have before : .event event ∈ dag.made := by
      rcases List.mem_append.mp published with before | new
      · exact before
      · cases List.mem_singleton.mp new
    show (dag.made ++ [Signed.clockEvent record]).countP (Signed.pins chain event) = _
    rw [List.countP_append, List.countP_singleton, pinned.once event before chain old known]
    by_cases here : record.chain = chain
    · subst here
      have iff := intact.tick_pins_iff alone allowed.1 known before
      by_cases waits : event ∈ old
      · simp [Signed.pins, waits, iff.mpr waits]
      · simp [Signed.pins, waits, mt iff.mp waits]
    · simp [Signed.pins, here]

theorem Pinned.apply (allowed : Allows env policy dag change)
    (anchored : change = .hydrate → ∀ chain, dag.Anchored chain) :
    Pinned (dag.apply env.numChains change) := by
  cases change with
  | read now => exact ⟨pinned.since, pinned.once⟩
  | prune chain keep => exact ⟨pinned.since, pinned.once⟩
  | publish event => exact pinned.publish intact alone allowed
  | tick seq record => exact pinned.tick intact alone allowed
  | hydrate =>
      have tails : ∀ (chain : UInt32) tail, (dag.apply env.numChains .hydrate).tails[chain.toNat]? =
          some tail → dag.tails[chain.toNat]? = some tail := by
        intro chain tail found
        obtain ⟨k, listed, rfl⟩ : ∃ k, (List.range env.numChains)[chain.toNat]? = some k ∧
            dag.toDag.scan (UInt32.ofNat k) = tail := by simpa [LocalDag.apply] using found
        obtain ⟨within, rfl⟩ := List.getElem?_eq_some_iff.mp listed
        rw [List.length_range, ← intact.covered] at within
        have known := List.getElem?_eq_getElem within
        rw [known, ← (intact.scan_eq_iff known).mpr (anchored rfl chain)]
        simp
      exact ⟨fun chain tail found => pinned.since chain tail (tails chain tail found),
        fun event published chain tail found => pinned.once event published chain tail
        (tails chain tail found)⟩

end

end LocalDag

section Node

variable {σ : Type} [Store σ] [DagStore σ] {env : NodeEnv} {store : σ} {now : Timestamp}
    {made : List Signed}
  {s : NodeState σ}

def PinnedTail (s : NodeState σ) (chain : UInt32) : Prop :=
  ∀ tail ∈ s.unreferencedPerChain[chain.toNat]?,
    ∀ event ∈ ((DagStore.dag s.store).events.rdrop tail.length).getLast?,
    (DagStore.dag s.store).Pins chain event.hash

instance (s : NodeState σ) (chain : UInt32) : Decidable (PinnedTail s chain) :=
  inferInstanceAs (Decidable (∀ tail ∈ s.unreferencedPerChain[chain.toNat]?, _))

def RestartsPinned (s : NodeState σ) (action : NodeAction) : Prop :=
  action = .hydrateFromStore ∨ action = .restart →
    ∀ k < s.unreferencedPerChain.length, PinnedTail s (UInt32.ofNat k)

instance (s : NodeState σ) (action : NodeAction) : Decidable (RestartsPinned s action) :=
  inferInstanceAs (Decidable (_ → _))

theorem anchored_iff {chain : UInt32} : (s.localDag made).Anchored chain ↔ PinnedTail s chain := by
  simp only [Anchored, PinnedTail, NodeState.localDag, Dag.bare_pins_iff]
  rfl

theorem RestartsPinned.anchored {action : NodeAction} (pinned : RestartsPinned s action)
    (restarts : action = .hydrateFromStore ∨ action = .restart) (chain : UInt32) :
    (s.localDag made).Anchored chain := by
  rw [anchored_iff]
  intro tail found
  have within := (List.getElem?_eq_some_iff.mp found).1
  have here := pinned restarts chain.toNat within
  rw [UInt32.ofNat_toNat] at here
  exact here tail found

variable [LawfulStore σ]

/-- As long as the node starts anew only where its tails are pinned, a tail holds the events since
the last tick and each earlier event is referenced once; and starting anew leaves a tail as it is
exactly where it is pinned. -/
theorem restart_keeps_tails (empty : EmptyStore store)
    (run : Reaches env (fun s action => action.isLocal = true ∧ RestartsPinned s action)
      (.bootAt env store now) made s)
    (distinct : (made.map Signed.hash).Nodup) (chain : UInt32) :
    (∀ tail ∈ s.unreferencedPerChain[chain.toNat]?, tail = publishedSince chain made ∧
      ∀ event, .event event ∈ made →
        made.countP (Signed.pins chain event) =
          if event ∈ publishedSince chain made then 0 else 1) ∧
      ((final (hydrateWorkingState env) s).unreferencedPerChain[chain.toNat]? =
        s.unreferencedPerChain[chain.toNat]? ↔ PinnedTail s chain) := by
  let policy := alonePolicy (fun _ _ => True) fun dag => ∀ chain, dag.Anchored chain
  have tracked : Tracked env policy noNeighbors now made s :=
    run.alone empty distinct (fun _ _ meets => meets.1) (fun _ _ _ _ _ _ _ => trivial)
      fun _ _ _ meets restarts => meets.2.anchored restarts
  have alone : ∀ ref, ¬policy.foreign ref := fun _ foreign => foreign
  obtain ⟨intact, pinned⟩ := tracked.steps.keeps (fun dag => Intact env policy dag ∧ Pinned dag)
    (fun dag change kept allowed =>
      ⟨kept.1.apply (fun ref foreign => absurd foreign (alone ref)) allowed,
      kept.2.apply kept.1 alone allowed fun same => by rw [same] at allowed; exact allowed⟩)
    ⟨intact_initial now, pinned_initial _ now⟩
  refine ⟨fun tail found => ?_, ?_⟩
  · have since := pinned.since chain tail found
    exact ⟨since, fun event published => since ▸ pinned.once event published chain tail found⟩
  · have read := hydrateWorkingState_reads env tracked.sound
    obtain ⟨-, -, -, tails⟩ := ends_final.mp (read.always fun _ _ kept => kept)
    have covered : s.unreferencedPerChain.length = env.numChains := intact.covered
    rw [tails]
    by_cases within : chain.toNat < env.numChains
    · have known := List.getElem?_eq_getElem (covered.symm ▸ within)
      have iff := intact.scan_eq_iff known
      rw [anchored_iff] at iff
      rw [← iff, known]
      simp [within, NodeState.localDag, Dag.bare_scan]
    · have none : s.unreferencedPerChain[chain.toNat]? = none := List.getElem?_eq_none (by omega)
      simp [within, none, PinnedTail]

def restartRun : List NodeAction :=
  [.publishEvent [7], .createClockEvent 0, .createClockEvent 0, .restart]

def restartEnv (keep : Nat) : NodeEnv := NodeEnv.simulated id 1 { chains := [{ keep }] }

def restartStart (keep : Nat) : NodeState InMemoryStore := .bootAt (restartEnv keep) {} 0

def restartState (keep : Nat) : NodeState InMemoryStore :=
  final (runActions (restartEnv keep) restartRun) (restartStart keep)

theorem restart_keeps_tails_sample :
    (∀ tail ∈ (restartState 2).unreferencedPerChain[(0 : UInt32).toNat]?,
      tail = publishedSince 0 (ledger (restartEnv 2) (restartStart 2) restartRun) ∧
      ∀ event, .event event ∈ ledger (restartEnv 2) (restartStart 2) restartRun →
        (ledger (restartEnv 2) (restartStart 2) restartRun).countP (Signed.pins 0 event) =
          if event ∈ publishedSince 0
            (ledger (restartEnv 2) (restartStart 2) restartRun) then 0 else 1) ∧
      ((final (hydrateWorkingState (restartEnv 2))
        (restartState 2)).unreferencedPerChain[(0 : UInt32).toNat]? =
        (restartState 2).unreferencedPerChain[(0 : UInt32).toNat]? ↔
        PinnedTail (restartState 2) 0) := by
  have ran : runActions (restartEnv 2) restartRun (restartStart 2) = .ok () (restartState 2) :=
    ok_of_not_raised (by decide +kernel)
  have each : EachStep (fun s action => action.isLocal = true ∧ RestartsPinned s action)
      (restartEnv 2) (restartStart 2) restartRun := by decide +kernel
  exact restart_keeps_tails InMemoryStore.emptyStore (Reaches.start.run each ran)
    (by decide +kernel) 0

/-- The chain keeps one clock event, so the tick that referenced the event is pruned: after the
restart the event waits again, and the next tick references it a second time. -/
theorem pruned_event_pinned_twice :
    (final (runActions (restartEnv 1) restartRun.dropLast) (restartStart 1)).unreferencedPerChain =
    [[]] ∧ (restartState 1).unreferencedPerChain.map List.length = [1] ∧
      ((ledger (restartEnv 1) (restartStart 1) (restartRun ++ [.createClockEvent 0])).filterMap
        Signed.published?).map (fun event =>
          (ledger (restartEnv 1) (restartStart 1) (restartRun ++ [.createClockEvent 0])).countP
          (Signed.pins 0 event)) = [2] := by
  decide +kernel

end Node

end Loti
