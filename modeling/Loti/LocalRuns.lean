import Loti.LocalDag

/-!
Runs of a node with a ledger of everything it has stored, and the machine's run behind
each of them: runs with honest notifications and a clock that never steps back, and runs
of a node on its own.
-/

namespace Loti

open Std StateExcept LocalDag

section Runs

variable {σ : Type} [Store σ] {env : NodeEnv} {condition : NodeState σ → NodeAction → Prop}
  {policy : Policy} {made : List Signed} {s start : NodeState σ} {action : NodeAction}

def NodeState.bootAt (env : NodeEnv) (store : σ) (now : Timestamp) : NodeState σ :=
  { NodeState.boot env store with now }

inductive Reaches (env : NodeEnv) (condition : NodeState σ → NodeAction → Prop)
    (start : NodeState σ) : List Signed → NodeState σ → Prop
  | start : Reaches env condition start [] start
  | step {made : List Signed} {s after : NodeState σ} (action : NodeAction) :
      Reaches env condition start made s → condition s action →
      contain (perform env action) s = .ok () after →
      Reaches env condition start (made ++ appendedBy env s action) after

def ledger (env : NodeEnv) : NodeState σ → List NodeAction → List Signed
  | _, [] => []
  | s, action :: rest => appendedBy env s action ++ ledger env (final (perform env action) s) rest

omit [Store σ] in
theorem final_of_contain {m : NodeM σ Unit} {after : NodeState σ}
    (ran : contain m s = .ok () after) : after = final m s := by
  rw [← final_contain, final, ran]

theorem Reaches.run {actions : List NodeAction} {after : NodeState σ}
    (reached : Reaches env condition start made s) (each : EachStep condition env s actions)
    (ran : runActions env actions s = .ok () after) :
    Reaches env condition start (made ++ ledger env s actions) after := by
  induction actions generalizing made s with
  | nil =>
      obtain rfl : s = after := by simpa [runActions, pure, EStateM.pure] using ran
      simpa [ledger] using reached
  | cons action rest ih =>
      obtain ⟨middle, performed, more⟩ := runActions_cons_ok_iff.mp ran
      have reached := ih (.step action reached each.1 performed) (each.2 middle performed) more
      rwa [List.append_assoc, final_of_contain performed] at reached

theorem mem_appendedBy_iff {object : Signed} :
    object ∈ appendedBy env s action ↔ Makes env s action object ∧
    Signed.stored s.store object = true := by
  have follows : Follows env s action (final (perform env action) s) :=
    ends_final.mp (perform_follows action)
  obtain ⟨new, signed, makes⟩ := follows.signed
  rw [appendedBy, signed, List.drop_left, List.mem_filter, makes]

theorem Evolves.run [DagStore σ]
    (evolves : Evolves env policy made s (final (perform env action) s)) :
    Steps env policy (s.localDag made)
    ((final (perform env action) s).localDag (made ++ appendedBy env s action)) := by
  obtain ⟨new, signed, steps⟩ := evolves.steps
  rwa [appendedBy, signed, List.drop_left]

def LocalDag.initial (numChains : Nat) (now : Timestamp) : LocalDag where
  events := []
  clocks := []
  tails := List.replicate numChains []
  now := now
  made := []

theorem LocalDag.Steps.clock_made {before after : LocalDag} (steps : Steps env policy before after)
    (start : ∀ entry ∈ before.clocks, .clockEvent entry.2 ∈ before.made) :
    ∀ entry ∈ after.clocks, .clockEvent entry.2 ∈ after.made := by
  refine steps.keeps (fun dag => ∀ entry ∈ dag.clocks, .clockEvent entry.2 ∈ dag.made)
    (fun dag change known allowed => ?_) start
  cases change with
  | read now => exact known
  | publish event => exact fun entry member => List.mem_append_left _ (known entry member)
  | tick seq record =>
      intro entry member
      rcases List.mem_append.mp member with old | new
      · exact List.mem_append_left _ (known entry old)
      · obtain rfl := List.mem_singleton.mp new
        exact List.mem_append_right _ (List.mem_singleton_self _)
  | prune chain keep =>
      intro entry member
      refine known entry ?_
      simp only [apply, Dag.prune] at member
      split at member
      · exact member
      · exact List.mem_of_mem_filter member
  | hydrate => exact known

variable [LawfulStore σ] [DagStore σ] {store : σ} {now : Timestamp} {contents : Contents}

theorem bootAt_localDag (empty : EmptyStore store) :
    DagStore.Sound (NodeState.bootAt env store now).store ∧
      (NodeState.bootAt env store now).localDag [] = LocalDag.initial env.numChains now := by
  have read := hydrateWorkingState_reads env (s := NodeState.fresh store) empty.sound
  obtain ⟨same, -, -, tails⟩ := read.final_of_returns
  change (NodeState.bootAt env store now).store = store at same
  refine ⟨same.symm ▸ empty.sound, ?_⟩
  have waiting :
    (NodeState.bootAt env store now).unreferencedPerChain = List.replicate env.numChains [] := by
    refine tails.trans ?_
    simp [NodeState.fresh, empty.dag, Dag.scan]
  simp only [NodeState.localDag, same, waiting, empty.dag]
  rfl

omit [DagStore σ] in
theorem NodeWithin.told {told : EventReference → Prop} (within : NodeWithin contents s)
    (tips : ∀ neighbor, contents.neighbor neighbor → ∀ hash ∈ neighbor.lastClockEventHashes,
      hash ≠ [] → told ⟨neighbor.nodeId, hash⟩) (chain : UInt32) :
    ∀ ref ∈ (valuesOf s.neighbors).filterMap (tipReference chain), told ref := by
  intro ref member
  obtain ⟨neighbor, listed, named⟩ := List.mem_filterMap.mp member
  obtain ⟨id, known⟩ := mem_values_iff.mp listed
  unfold tipReference at named
  split at named
  · rename_i hash advertised
    split at named
    · cases named
    · rename_i nonempty
      cases named
      exact tips neighbor (within.neighbors id neighbor known).2 hash
        (List.mem_of_getElem? advertised) nonempty
  · cases named

omit [LawfulStore σ] in
theorem stored_readable {object : Signed} (sound : DagStore.Sound store)
    (unused : ∀ entry ∈ (DagStore.dag store).clocks, entry.2.hash ≠ object.hash)
    (stored : Signed.stored store object = true) : DagStore.Readable (σ := σ) object.hash := by
  cases object with
  | event published =>
      cases appended : Store.appendEvent store published with
      | error what => simp [Signed.stored, appended, Except.isOk, Except.toBool] at stored
      | ok result =>
          obtain ⟨after, added⟩ := DagStore.appendEvent_dag sound appended
          exact DagStore.readable_event after (by simp [added, Dag.addEvent])
  | clockEvent ticked =>
      cases appended : Store.appendClockEvent store ticked with
      | error what => simp [Signed.stored, appended, Except.isOk, Except.toBool] at stored
      | ok result =>
          obtain ⟨after, added⟩ := DagStore.appendClockEvent_dag sound unused appended
          have live : (result.1, ticked) ∈ (DagStore.dag result.2).clocks := by
            simp [added, Dag.addClockEvent]
          exact DagStore.readable_clockEvent after live

structure Tracked (env : NodeEnv) (policy : Policy) (contents : Contents) (now : Timestamp)
    (made : List Signed) (s : NodeState σ) : Prop where
  sound : DagStore.Sound s.store
  within : NodeWithin contents s
  readable : ∀ object ∈ made, DagStore.Readable (σ := σ) object.hash
  steps : Steps env policy (.initial env.numChains now) (s.localDag made)

theorem Tracked.clock_made (tracked : Tracked env policy contents now made s)
    {entry : Nat × LocalClockEvent} (live : entry ∈ (DagStore.dag s.store).clocks) :
    .clockEvent entry.2.bare ∈ made :=
  tracked.steps.clock_made (by simp [LocalDag.initial]) (entry.1, entry.2.bare)
    (Dag.mem_bare_clocks.mpr ⟨entry.2, live, rfl⟩)

theorem Reaches.tracked (run : Reaches env condition (.bootAt env store now) made s)
    (empty : EmptyStore store) (distinct : (made.map Signed.hash).Nodup)
    (own : ∀ object ∈ made, policy.own object.hash)
    (makes : ∀ object, contents.signed object) (takes : ∀ s action, condition s action →
      Takes contents env s action)
    (meets : ∀ made (s : NodeState σ) action, Reaches env condition (.bootAt env store now) made s →
      DagStore.Sound s.store → NodeWithin contents s → condition s action →
      (∀ object, Makes env s action object → Signed.stored s.store object = true →
        Fresh policy (s.localDag made) object.hash) → Meets env policy made s action) :
    Tracked env policy contents now made s := by
  induction run with
  | start =>
      refine ⟨(bootAt_localDag empty).1, ?_, by simp,
        (bootAt_localDag empty).2 ▸ Relation.ReflTransGen.refl⟩
      exact (boot_within (empty.within contents)).of_same rfl rfl rfl
  | step action run meetsCondition ran ih =>
      rename_i made s after
      rw [List.map_append, List.nodup_append] at distinct
      have tracked := ih distinct.1 fun object member => own object (List.mem_append_left _ member)
      have fresh : ∀ object, Makes env s action object → Signed.stored s.store object = true →
          Fresh policy (s.localDag made) object.hash := by
        intro object makes stored
        have appended := mem_appendedBy_iff.mpr ⟨makes, stored⟩
        refine ⟨own object (List.mem_append_right _ appended), fun old member => ?_⟩
        exact distinct.2.2 _ (List.mem_map_of_mem member) _ (List.mem_map_of_mem appended)
      have grounded : ∀ entry ∈ (DagStore.dag s.store).clocks, ∃ object ∈ made,
        object.hash = entry.2.hash :=
        fun entry member => ⟨_, tracked.clock_made member, rfl⟩
      obtain rfl := final_of_contain ran
      have evolves := ends_final.mp (perform_evolves action tracked.sound grounded
        (meets made s action run tracked.sound tracked.within meetsCondition fresh))
      refine ⟨evolves.sound, ?_, ?_, tracked.steps.trans evolves.run⟩
      · exact ends_final.mp (perform_within action tracked.within (fun object _ _ => makes object)
          (takes s action meetsCondition))
      · intro object member
        rcases List.mem_append.mp member with old | added
        · exact tracked.readable object old
        · obtain ⟨makesObject, stored⟩ := mem_appendedBy_iff.mp added
          refine stored_readable tracked.sound (fun entry live => ?_) stored
          exact (fresh object makesObject stored).2 _ (tracked.clock_made live)

def openPolicy : Policy where
  own _ := True
  foreign _ := True
  reading _ _ := True
  ticking _ _ := True
  hydrating _ := True

omit [LawfulStore σ] in
theorem perform_evolves_open (kind : ∀ blob, action ≠ .restore blob)
    (sound : DagStore.Sound s.store)
    (grounded : ∀ entry ∈ (DagStore.dag s.store).clocks, ∃ object ∈ made,
      object.hash = entry.2.hash)
    (distinct : ((made ++ appendedBy env s action).map Signed.hash).Nodup) :
    Evolves env openPolicy made s (final (perform env action) s) := by
  rw [List.map_append, List.nodup_append] at distinct
  refine ends_final.mp (perform_evolves action sound grounded
    ⟨kind, fun _ _ => trivial, fun _ => trivial, fun _ _ _ => trivial, fun object makes stored =>
      ?_, fun _ _ _ => trivial⟩)
  refine ⟨trivial, fun old member => ?_⟩
  exact distinct.2.2 _ (List.mem_map_of_mem member) _
    (List.mem_map_of_mem (mem_appendedBy_iff.mpr ⟨makes, stored⟩))

/-- The clock does not step back, no snapshot is restored, and no notification advertises the hash
of one of these objects. -/
structure Undisturbed {σ : Type} (env : NodeEnv) (made : List Signed) (s : NodeState σ)
    (action : NodeAction) : Prop where
  kind : ∀ blob, action ≠ .restore blob
  reading : ∀ now, action = .setClock now → s.now ≤ now
  heard : ∀ datagram sender m, action = .onPacketReceived datagram →
    Wire.decode ⟨datagram, env.wordBits⟩ = .ok ⟨sender, .clockNotification m⟩ →
      ∀ object ∈ made, object.hash ≠ m.lastClockEventHash

def steadyPolicy (own : List EventHash) : Policy where
  own hash := hash ∈ own
  foreign ref := ref.hash ∉ own
  reading dag now := dag.now ≤ now
  ticking _ _ := True
  hydrating _ := True

def unownedTips (own : List EventHash) : Contents where
  event _ := True
  clockEvent _ := True
  neighbor n := ∀ hash ∈ n.lastClockEventHashes, hash = [] ∨ hash ∉ own

omit [Store σ] [LawfulStore σ] [DagStore σ] in
theorem Undisturbed.takes (undisturbed : Undisturbed env made s action) :
    Takes (unownedTips (made.map Signed.hash)) env s action := by
  cases action with
  | addNeighbor neighbor => exact fun hash member => nomatch member
  | onPacketReceived datagram =>
      intro sender m read _
      refine ⟨fun tips known hash member => ?_, fun _ _ _ _ => trivial⟩
      rcases mem_coveringTips_set member with old | rfl | rfl
      · exact known hash old
      · exact Or.inl rfl
      · refine Or.inr fun owned => ?_
        obtain ⟨object, listed, same⟩ := List.mem_map.mp owned
        exact undisturbed.heard datagram sender m rfl read object listed same
  | restore blob => exact absurd rfl (undisturbed.kind blob)
  | _ => trivial

theorem Reaches.undisturbed
    (run : Reaches env (Undisturbed env made) (.bootAt env store now) made s)
    (empty : EmptyStore store) (distinct : (made.map Signed.hash).Nodup) :
    Tracked env (steadyPolicy (made.map Signed.hash))
    (unownedTips (made.map Signed.hash)) now made s := by
  refine run.tracked empty distinct (fun object member => List.mem_map_of_mem member)
    (fun object => by cases object <;> trivial) (fun s action undisturbed => undisturbed.takes)
    fun done before action _ _ within undisturbed fresh => ?_
  refine ⟨undisturbed.kind, undisturbed.reading, fun _ => trivial, fun _ _ _ => trivial, fresh, ?_⟩
  exact within.told fun neighbor known hash member nonempty =>
    (known hash member).resolve_left nonempty

end Runs


/-! Runs without other nodes, with a clock that may step back. -/

def NodeAction.isLocal : NodeAction → Bool
  | .addNeighbor _ | .onPacketReceived _ | .restore _ => false
  | _ => true

def NodeAction.ticks? : NodeAction → Option UInt32
  | .createClockEvent chain => some chain
  | .fireTimer (.clock chain) => some chain
  | _ => none

def alonePolicy (ticking : LocalDag → LocalClockEvent → Prop) (hydrating : LocalDag → Prop) :
    Policy where
  own _ := True
  foreign _ := False
  reading _ _ := True
  ticking := ticking
  hydrating := hydrating

def noNeighbors : Contents where
  event _ := True
  clockEvent _ := True
  neighbor _ := False

section Alone

variable {σ : Type} [Store σ] {env : NodeEnv} {store : σ} {now : Timestamp} {made : List Signed}
    {s : NodeState σ}
  {condition : NodeState σ → NodeAction → Prop} {ticking : LocalDag → LocalClockEvent → Prop}
  {hydrating : LocalDag → Prop}

theorem makes_ticks {action : NodeAction} {record : LocalClockEvent}
    (makes : Makes env s action (.clockEvent record)) : action.ticks? = some record.chain ∧
    MakesClockEvent env s record.chain record := by
  have named : ∀ {chain : UInt32}, MakesClockEvent env s chain record → record.chain = chain := by
    rintro chain ⟨_, _, -, -, rfl⟩
    rfl
  cases action with
  | createClockEvent chain => exact ⟨congrArg some (named makes).symm, named makes ▸ makes⟩
  | fireTimer timer =>
      cases timer with
      | clock chain => exact ⟨congrArg some (named makes.2).symm, named makes.2 ▸ makes.2⟩
      | purge => exact makes.elim
  | _ => exact makes.elim

variable [LawfulStore σ] [DagStore σ]

theorem Reaches.alone (run : Reaches env condition (.bootAt env store now) made s)
    (empty : EmptyStore store) (distinct : (made.map Signed.hash).Nodup)
    (locally : ∀ s action, condition s action → action.isLocal = true)
    (ticks : ∀ made (s : NodeState σ) action record, DagStore.Sound s.store → condition s action →
      Makes env s action (.clockEvent record) → ticking (s.localDag made) record)
    (hydrates : ∀ made (s : NodeState σ) action, condition s action → action = .hydrateFromStore ∨
      action = .restart → hydrating (s.localDag made)) :
    Tracked env (alonePolicy ticking hydrating) noNeighbors now made s := by
  refine run.tracked empty distinct (fun _ _ => trivial)
    (fun object => by cases object <;> trivial) ?_ ?_
  · intro before action meets
    have alone := locally before action meets
    cases action <;> trivial
  · intro done before action _ sound within meets fresh
    refine ⟨fun blob same => ?_, fun _ _ => trivial, hydrates done before action meets,
      fun record makes _ => ticks done before action record sound meets makes, fresh, ?_⟩
    · have alone := locally before action meets
      rw [same] at alone
      cases alone
    · exact within.told fun neighbor known => known.elim

end Alone

end Loti
