import Loti.Backup
import Loti.LocalRuns

/-!
The backup of a node whose chains are never pruned. The snapshot carries no sequence numbers
and only the tail of chain 0: what `restore` rebuilds by appending and scanning is what the
node maintained step by step, as long as no clock event refers to an event before the event
is published.
-/

namespace Loti

open Std StateExcept Wire

namespace Dag

variable {dag other : Dag} {chain : UInt32} {hash : EventHash}

theorem pins_congr (same : dag.clocks.map Prod.snd = other.clocks.map Prod.snd) :
    dag.Pins chain hash ↔ other.Pins chain hash := by
  have listed : ∀ {dag : Dag}, dag.Pins chain hash ↔
      ∃ record ∈ dag.clocks.map Prod.snd, record.chain = chain ∧ hash ∈ mentions record := by
    intro dag
    simp only [Pins, List.mem_map, exists_exists_and_eq_and]
  rw [listed, listed, same]

theorem scan_congr (events : dag.events = other.events)
    (clocks : dag.clocks.map Prod.snd = other.clocks.map Prod.snd) :
    dag.scan chain = other.scan chain := by
  simp only [scan, events, pins_congr clocks]

theorem scan_addEvent {event : Event} (free : ¬dag.Pins chain event.hash) :
    (dag.addEvent event).scan chain = dag.scan chain ++ [event] := by
  have pins : ∀ hash, (dag.addEvent event).Pins chain hash ↔ dag.Pins chain hash := fun _ => Iff.rfl
  simp only [scan, pins]
  rw [addEvent, List.rtakeWhile_concat_pos _ _ _ (by simpa using free)]

theorem scan_addClockEvent {seq : Nat} {record : LocalClockEvent}
    (covers : ∀ event ∈ dag.scan record.chain, event.hash ∈ mentions record) :
    (dag.addClockEvent seq record).scan record.chain = [] := by
  have events : (dag.addClockEvent seq record).events = dag.events := rfl
  rw [scan, events]
  cases last : dag.events using List.reverseRecOn with
  | nil => rfl
  | append_singleton front event =>
      refine List.rtakeWhile_concat_neg _ _ _ ?_
      simp only [pins_addClockEvent, decide_not, Bool.not_eq_true', decide_eq_false_iff_not,
        not_not, true_and]
      by_cases pinned : dag.Pins record.chain event.hash
      · exact .inl pinned
      · refine .inr (covers event ?_)
        rw [scan, last, List.rtakeWhile_concat_pos _ _ _ (by simpa using pinned)]
        simp

theorem scan_addClockEvent_other {seq : Nat} {record : LocalClockEvent}
    (apart : record.chain ≠ chain) :
    (dag.addClockEvent seq record).scan chain = dag.scan chain := by
  have events : (dag.addClockEvent seq record).events = dag.events := rfl
  simp only [scan, events, pins_addClockEvent, apart, false_and, or_false]

end Dag

def NodeEnv.Unpruned (env : NodeEnv) : Prop := ∀ config ∈ env.config.chains, config.keep = 0

/-- Clock events mention no event of the node on a neighbor's word. -/
def unownedPolicy (own : List EventHash) : LocalDag.Policy where
  own _ := True
  foreign ref := ref.hash ∉ own
  reading _ _ := True
  ticking _ _ := True
  hydrating _ := True

/-- The tails are what a scan of the DAG finds, and no clock event refers to an event of the node
that is not stored yet. -/
structure Scanned (env : NodeEnv) (own : List EventHash) (dag : LocalDag) : Prop where
  events : ∀ e ∈ dag.events, .event e ∈ dag.made
  clocks : ∀ entry ∈ dag.clocks, ∃ object ∈ dag.made, object.hash = entry.2.hash
  known : ∀ entry ∈ dag.clocks, ∀ hash ∈ Dag.mentions entry.2, hash ∈ own → ∃ object ∈ dag.made,
  object.hash = hash
  covered : dag.tails.length = env.numChains
  tails : ∀ (chain : UInt32) tail, dag.tails[chain.toNat]? = some tail → tail = dag.scan chain

namespace Scanned

variable {env : NodeEnv} {own : List EventHash} {dag : LocalDag}

theorem rescan (events : ∀ e ∈ dag.events, .event e ∈ dag.made)
    (clocks : ∀ entry ∈ dag.clocks, ∃ object ∈ dag.made, object.hash = entry.2.hash)
    (known : ∀ entry ∈ dag.clocks, ∀ hash ∈ Dag.mentions entry.2, hash ∈ own →
      ∃ object ∈ dag.made, object.hash = hash)
    (tails : dag.tails = (List.range env.numChains).map fun chain =>
      dag.scan (UInt32.ofNat chain)) :
    Scanned env own dag := by
  refine ⟨events, clocks, known, by simp [tails], fun chain tail found => ?_⟩
  rw [tails, List.getElem?_map] at found
  obtain ⟨k, listed, rfl⟩ := Option.map_eq_some_iff.mp found
  obtain ⟨-, rfl⟩ := List.getElem?_eq_some_iff.mp listed
  simp

theorem publish {event : Event} (scanned : Scanned env own dag) (owned : event.hash ∈ own)
    (fresh : ∀ old ∈ dag.made, old.hash ≠ event.hash) :
    Scanned env own (dag.apply env.numChains (.publish event)) := by
  have grown : ∀ {hash}, (∃ object ∈ dag.made, object.hash = hash) →
      ∃ object ∈ dag.made ++ [.event event], object.hash = hash :=
    fun found => found.imp fun _ made => ⟨List.mem_append_left _ made.1, made.2⟩
  refine ⟨fun e member => ?_, fun entry live => grown (scanned.clocks entry live),
    fun entry live hash mentioned owned =>
    grown (scanned.known entry live hash mentioned
      owned), by simpa [LocalDag.apply] using scanned.covered,
    fun chain tail found => ?_⟩
  · rcases List.mem_append.mp member with old | new
    · exact List.mem_append_left _ (scanned.events e old)
    · simp [LocalDag.apply, List.mem_singleton.mp new]
  · obtain ⟨old, known, rfl⟩ := Option.map_eq_some_iff.mp (List.getElem?_map .. ▸ found)
    have free : ¬dag.Pins chain event.hash := by
      rintro ⟨entry, live, -, mentioned⟩
      obtain ⟨object, member, same⟩ := scanned.known entry live event.hash mentioned owned
      exact fresh object member same
    rw [scanned.tails chain old known]
    exact (Dag.scan_addEvent free).symm

theorem tick_refers {chain : UInt32} {salt : Salt} {stamp : Timestamp} {tail : List Event}
    {heard : List EventReference} (scanned : Scanned env own dag)
    (found : dag.tails[chain.toNat]? = some tail) (foreign : ∀ ref ∈ heard, ref.hash ∉ own) :
    ∀ hash ∈ Dag.mentions (makeClockEvent env chain salt stamp
      (((dag.tip chain).map fun ce => ce.reference).toList ++ heard ++ tail.map Event.reference)),
        hash ∈ own → ∃ object ∈ dag.made, object.hash = hash := by
  intro hash mentioned owned
  obtain ⟨ref, listed, rfl⟩ := Dag.mem_mentions mentioned
  simp only [makeClockEvent, List.mem_append, or_assoc] at listed
  rcases listed with tip | told | waits
  · obtain ⟨latest, isTip, rfl⟩ := Option.map_eq_some_iff.mp (Option.mem_toList.mp tip)
    obtain ⟨seq, -, live, -⟩ := Dag.tip_mem isTip
    exact scanned.clocks (seq, latest) live
  · exact absurd owned (foreign ref told)
  · obtain ⟨event, member, rfl⟩ := List.mem_map.mp waits
    have waiting := scanned.tails chain tail found ▸ member
    exact ⟨.event event, scanned.events event ((List.rtakeWhile_suffix _ _).subset waiting), rfl⟩

theorem tick {seq : Nat} {record : LocalClockEvent} (scanned : Scanned env own dag)
    (makes : LocalDag.MakesTick env (unownedPolicy own) dag record) :
    Scanned env own (dag.apply env.numChains (.tick seq record)) := by
  obtain ⟨chain, salt, tail, heard, found, foreign, built⟩ := makes
  have refers := built ▸ scanned.tick_refers found foreign
  obtain rfl : record.chain = chain := by rw [built]; rfl
  have covers : ∀ event ∈ dag.scan record.chain, event.hash ∈ Dag.mentions record := by
    intro event waits
    rw [← scanned.tails _ tail found] at waits
    rw [built]
    exact List.mem_map.mpr
      ⟨event.reference, List.mem_append_right _ (List.mem_map_of_mem waits), rfl⟩
  have grown : ∀ {hash}, (∃ object ∈ dag.made, object.hash = hash) →
      ∃ object ∈ dag.made ++ [.clockEvent record], object.hash = hash :=
    fun found => found.imp fun _ made => ⟨List.mem_append_left _ made.1, made.2⟩
  refine ⟨fun e member => List.mem_append_left _ (scanned.events e member), fun entry live => ?_,
    fun entry live hash mentioned owned => ?_, by simpa [LocalDag.apply] using scanned.covered,
    fun chain other listed => ?_⟩
  · rcases List.mem_append.mp live with old | new
    · exact grown (scanned.clocks entry old)
    · exact ⟨.clockEvent record, by simp [LocalDag.apply], by rw [List.mem_singleton.mp new]; rfl⟩
  · rcases List.mem_append.mp live with old | new
    · exact grown (scanned.known entry old hash mentioned owned)
    · obtain rfl := List.mem_singleton.mp new
      exact grown (refers hash mentioned owned)
  · change (dag.tails.set record.chain.toNat [])[chain.toNat]? = some other at listed
    by_cases here : record.chain = chain
    · subst here
      have within := (List.getElem?_eq_some_iff.mp found).1
      obtain rfl : other = [] := by simpa [within, eq_comm] using listed
      exact (Dag.scan_addClockEvent covers).symm
    · have apart : record.chain.toNat ≠ chain.toNat := fun same => here (UInt32.toNat_inj.mp same)
      rw [List.getElem?_set_ne apart] at listed
      rw [scanned.tails chain other listed]
      exact (Dag.scan_addClockEvent_other here).symm

theorem apply {change : LocalDag.Change} (unpruned : env.Unpruned) (scanned : Scanned env own dag)
    (allowed : LocalDag.Allows env (unownedPolicy own) dag change)
    (owns : ∀ event, .event event ∈ (dag.apply env.numChains change).made → event.hash ∈ own) :
    Scanned env own (dag.apply env.numChains change) := by
  cases change with
  | read now =>
      exact ⟨scanned.events, scanned.clocks, scanned.known, scanned.covered, scanned.tails⟩
  | publish event => exact scanned.publish (owns event (by simp [LocalDag.apply])) allowed.2.2
  | tick seq record => exact scanned.tick allowed.1
  | prune chain keep =>
      obtain ⟨positive, config, listed, rfl⟩ := allowed
      rw [unpruned config listed] at positive
      cases positive
  | hydrate => exact rescan scanned.events scanned.clocks scanned.known rfl

theorem run {after : LocalDag} (unpruned : env.Unpruned) (scanned : Scanned env own dag)
    (steps : LocalDag.Steps env (unownedPolicy own) dag after)
    (owns : ∀ event, .event event ∈ after.made → event.hash ∈ own) : Scanned env own after := by
  refine steps.keeps (fun dag => (∀ event, .event event ∈ dag.made → event.hash ∈ own) →
    Scanned env own dag) (fun dag change kept allowed owns => ?_) (fun _ => scanned) owns
  have before : dag.made ⊆ (dag.apply env.numChains change).made := by
    cases change <;> simp [LocalDag.apply]
  exact (kept fun event member => owns event (before member)).apply unpruned allowed owns

end Scanned

def SnapshotContents.objects (contents : SnapshotContents) : List Signed :=
  contents.events.map Signed.event ++ contents.clockEvents.map fun c => .clockEvent c.bare

def storedBy {σ : Type} [Store σ] (env : NodeEnv) (s : NodeState σ) : NodeAction → List Signed
  | .restore blob =>
      match readSnapshot ⟨blob, env.wordBits⟩ 0 with
      | .ok contents _ => contents.objects
      | .error _ _ => []
  | action => appendedBy env s action

def eventHashes (stored : List Signed) : List EventHash :=
  (stored.filterMap Signed.published?).map fun event => event.hash

/-- The snapshot's clock events are distinct, no neighbor in it has advertised an event of the node,
and no clock event in it refers to an event that the node has yet to publish. -/
structure SnapshotContents.Foregone (own : List EventHash) (stored : List Signed)
    (contents : SnapshotContents) : Prop where
  distinct : (contents.clockEvents.map fun c => c.hash).Nodup
  tips : ∀ n ∈ valuesOf contents.neighbors, ∀ hash ∈ n.lastClockEventHashes, hash ∉ own
  known : ∀ c ∈ contents.clockEvents, ∀ ref ∈ c.referencedEvents, ref.hash ∈ own →
    ∃ object ∈ stored ++ contents.objects, object.hash = ref.hash

section Runs

variable {σ : Type} [Store σ] [DagStore σ] [LoadStore σ] {env : NodeEnv} {own : List EventHash}
    {stored : List Signed}
  {s start : NodeState σ} {action : NodeAction}

/-- The action makes an object with a new hash, if any; it hears of no event of the node; and a
snapshot that it restores is one that the store takes. -/
structure Orderly (env : NodeEnv) (own : List EventHash) (stored : List Signed) (s : NodeState σ)
    (action : NodeAction) : Prop where
  fresh : ∀ object ∈ appendedBy env s action, ∀ old ∈ stored, old.hash ≠ object.hash
  heard : ∀ datagram sender m, action = .onPacketReceived datagram →
    decode ⟨datagram, env.wordBits⟩ = .ok ⟨sender, .clockNotification m⟩ →
    m.lastClockEventHash ∉ own
  loads : ∀ blob contents position, action = .restore blob →
    readSnapshot ⟨blob, env.wordBits⟩ 0 = .ok contents position → contents.Taken σ ∧
    contents.Foregone own stored

inductive Past (env : NodeEnv) (own : List EventHash) (start : NodeState σ) : List Signed →
    NodeState σ → Prop
  | start : Past env own start [] start
  | step {stored : List Signed} {s after : NodeState σ} (action : NodeAction) :
      Past env own start stored s → Orderly env own stored s action →
      contain (perform env action) s = .ok () after →
      Past env own start (stored ++ storedBy env s action) after

variable (σ) in
def backable (own : List EventHash) : Contents where
  event := LoadStore.TakesEvent σ
  clockEvent := LoadStore.TakesClockEvent σ
  neighbor n := ∀ hash ∈ n.lastClockEventHashes, hash = [] ∨ hash ∉ own

omit [DagStore σ] [LoadStore σ] in
theorem storedBy_own (kind : ∀ blob, action ≠ .restore blob) :
    storedBy env s action = appendedBy env s action := by
  cases action <;> first | rfl | exact absurd rfl (kind _)

theorem Past.local {actions : List NodeAction} {after : NodeState σ}
    (past : Past env own start stored s) (alone : ∀ action ∈ actions, action.isLocal = true)
    (ran : runActions env actions s = .ok () after)
    (distinct : ((stored ++ ledger env s actions).map Signed.hash).Nodup) :
    Past env own start (stored ++ ledger env s actions) after := by
  induction actions generalizing stored s with
  | nil =>
      obtain ⟨-, rfl⟩ := EStateM.Result.ok.inj ran
      rwa [ledger, List.append_nil]
  | cons action rest ih =>
      obtain ⟨middle, performed, continued⟩ := runActions_cons_ok_iff.mp ran
      obtain rfl := final_of_contain performed
      have here := alone action (by simp)
      have kind : ∀ blob, action ≠ .restore blob :=
        fun blob same => by simp [same, NodeAction.isLocal] at here
      rw [ledger, ← List.append_assoc] at distinct ⊢
      have apart := distinct.sublist ((List.sublist_append_left _ _).map Signed.hash)
      rw [List.map_append, List.nodup_append] at apart
      have orderly : Orderly env own stored s action := by
        refine ⟨fun object made old member => ?_, fun datagram _ _ same => ?_, fun blob _ _ same =>
          absurd same (kind blob)⟩
        · exact apart.2.2 _ (List.mem_map_of_mem member) _ (List.mem_map_of_mem made)
        · simp [same, NodeAction.isLocal] at here
      have next := past.step action orderly performed
      rw [storedBy_own kind] at next
      exact ih next (fun other member => alone other (List.mem_cons_of_mem _ member))
        continued distinct

theorem Past.ofLocal {actions : List NodeAction} (alone : ∀ action ∈ actions, action.isLocal = true)
    (ran : runActions env actions start = .ok () s)
    (distinct : ((ledger env start actions).map Signed.hash).Nodup) :
    Past env own start (ledger env start actions) s :=
  Past.start.local alone ran distinct

variable [LawfulStore σ]

structure Backed (env : NodeEnv) (own : List EventHash) (stored : List Signed) (s : NodeState σ) :
    Prop where
  sound : DagStore.Sound s.store
  within : NodeWithin (backable σ own) s
  scanned : Scanned env own (s.localDag stored)

omit [LawfulStore σ] in
theorem Orderly.takes (orderly : Orderly env own stored s action) :
    Takes (backable σ own) env s action := by
  cases action with
  | addNeighbor neighbor => exact fun hash member => nomatch member
  | onPacketReceived datagram =>
      intro sender m read _
      refine ⟨fun tips known hash member => ?_, fun record taken _ _ =>
        LoadStore.takesClockEvent_edges _ taken⟩
      rcases mem_coveringTips_set member with old | rfl | rfl
      · exact known hash old
      · exact .inl rfl
      · exact .inr (orderly.heard datagram sender m rfl read)
  | restore blob =>
      intro contents position parsed
      obtain ⟨taken, foregone⟩ := orderly.loads blob contents position rfl parsed
      exact ⟨taken.1, taken.2, fun n listed hash member =>
        .inr (foregone.tips n listed hash member)⟩
  | _ => trivial

omit [LawfulStore σ] in
theorem stored_takes {object : Signed} (stored : Signed.stored s.store object = true) :
    (backable σ own).signed object := by
  cases object with
  | event published =>
      cases appended : Store.appendEvent s.store published with
      | error what => simp [Signed.stored, appended, Except.isOk, Except.toBool] at stored
      | ok result => exact LoadStore.appendEvent_ok_iff.mp ⟨result, appended⟩
  | clockEvent ticked =>
      cases appended : Store.appendClockEvent s.store ticked with
      | error what => simp [Signed.stored, appended, Except.isOk, Except.toBool] at stored
      | ok result => exact LoadStore.appendClockEvent_ok_iff.mp ⟨result, appended⟩

theorem Backed.meets (backed : Backed env own stored s) (orderly : Orderly env own stored s action)
    (kind : ∀ blob, action ≠ .restore blob) : Meets env (unownedPolicy own) stored s action where
  kind := kind
  reading _ _ := trivial
  hydrating _ := trivial
  ticking _ _ _ := trivial
  fresh object makes taken :=
  ⟨trivial, orderly.fresh object (mem_appendedBy_iff.mpr ⟨makes, taken⟩)⟩
  foreign := backed.within.told fun _ known hash member nonempty =>
  (known hash member).resolve_left nonempty

omit [LawfulStore σ] in
theorem restore_rebuilds {blob : Bytes} {contents : SnapshotContents} {position : Nat}
    (parsed : readSnapshot ⟨blob, env.wordBits⟩ 0 = .ok contents position)
    (taken : contents.Taken σ)
    (distinct : (contents.clockEvents.map fun c => c.hash).Nodup) (s : NodeState σ) :
    ∃ after, restore env blob s = .ok () after ∧ DagStore.Sound after.store ∧
      (DagStore.dag after.store).events = contents.events ∧
      (DagStore.dag after.store).clocks.map Prod.snd = contents.clockEvents ∧
      after.unreferencedPerChain =
        ((List.range env.numChains).map fun chain => (DagStore.dag after.store).scan
          (UInt32.ofNat chain)) ∧
      after.neighbors = (valuesOf contents.neighbors).foldl
        (fun table n => table.insert n.nodeId n) ∅ ∧
      after.destinationToNextHop = contents.routes := by
  have loads : restore env blob s = load env contents.events contents.clockEvents contents.neighbors
    contents.routes s := by
    rw [restore, parsed]
  have outcome : Ends (restore env blob) s _ _ := restore_ends
  cases restored : restore env blob s with
  | error fault after =>
      rcases outcome.of_error restored with ⟨_, unread, -⟩ | ⟨_, _, _, again, -, -, refused⟩
      · cases parsed.symm.trans unread
      · obtain ⟨rfl, -⟩ := EStateM.Result.ok.inj (parsed.symm.trans again)
        exact absurd taken refused
  | ok _ after =>
      obtain ⟨sound, events, clocks, tails⟩ := (load_dag distinct).of_ok (loads.symm.trans restored)
      obtain ⟨_, _, store, tails', again, rfl, -, held, -⟩ := outcome.of_ok restored
      obtain ⟨rfl, -⟩ := EStateM.Result.ok.inj (parsed.symm.trans again)
      refine ⟨_, rfl, sound, events, clocks, tails, congrArg Holdings.neighbors held, ?_⟩
      exact (congrArg Holdings.routes held).trans (TableEncoding.foldl_insert_toList _)

theorem Backed.reloads {blob : Bytes} (backed : Backed env own stored s)
    (orderly : Orderly env own stored s (.restore blob)) :
    DagStore.Sound (final (restore env blob) s).store ∧
      Scanned env own
      ((final (restore env blob) s).localDag (stored ++ storedBy env s (.restore blob))) := by
  cases parsed : readSnapshot ⟨blob, env.wordBits⟩ 0 with
  | error fault position =>
      have same : restore env blob s = .error fault s := by
        rw [restore, parsed]
        rfl
      simp only [final, same, storedBy, parsed, List.append_nil]
      exact ⟨backed.sound, backed.scanned⟩
  | ok contents position =>
      obtain ⟨taken, foregone⟩ := orderly.loads blob contents position rfl parsed
      obtain ⟨after, restored, sound, events, clocks, tails, -⟩ :=
        restore_rebuilds parsed taken foregone.distinct s
      have listed : ∀ entry ∈ (DagStore.dag after.store).bare.clocks, ∃ c ∈ contents.clockEvents,
        entry.2 = c.bare := by
        intro entry live
        obtain ⟨record, stored, same⟩ := Dag.mem_bare_clocks.mp live
        exact ⟨record, clocks ▸ List.mem_map_of_mem stored, same.symm⟩
      simp only [final, restored, storedBy, parsed]
      refine ⟨sound, Scanned.rescan (fun e member => ?_) (fun entry live => ?_)
        (fun entry live hash mentioned owned => ?_) ?_⟩
      · have published : e ∈ contents.events := events ▸ member
        simp [NodeState.localDag, SnapshotContents.objects, published]
      · obtain ⟨c, member, same⟩ := listed entry live
        refine ⟨.clockEvent c.bare, ?_, by rw [same]; rfl⟩
        exact List.mem_append_right _ (List.mem_append_right _ (List.mem_map_of_mem member))
      · obtain ⟨c, member, same⟩ := listed entry live
        rw [same] at mentioned
        obtain ⟨ref, refers, rfl⟩ := Dag.mem_mentions mentioned
        exact foregone.known c member ref refers owned
      · simp only [NodeState.localDag, tails, Dag.bare_scan]

theorem Backed.step (unpruned : env.Unpruned) (backed : Backed env own stored s)
    (orderly : Orderly env own stored s action)
    (owns : ∀ event, .event event ∈ stored ++ storedBy env s action → event.hash ∈ own) :
    Backed env own (stored ++ storedBy env s action) (final (perform env action) s) := by
  have within : NodeWithin (backable σ own) (final (perform env action) s) :=
    ends_final.mp (perform_within action backed.within (fun object _ => stored_takes) orderly.takes)
  by_cases restores : ∃ blob, action = .restore blob
  · obtain ⟨blob, rfl⟩ := restores
    obtain ⟨sound, scanned⟩ := backed.reloads orderly
    exact ⟨sound, within, scanned⟩
  · have kind : ∀ blob, action ≠ .restore blob := fun blob same => restores ⟨blob, same⟩
    rw [storedBy_own kind] at owns ⊢
    have grounded : ∀ entry ∈ (DagStore.dag s.store).clocks, ∃ object ∈ stored,
      object.hash = entry.2.hash :=
      fun entry live => backed.scanned.clocks (entry.1, entry.2.bare)
        (Dag.mem_bare_clocks.mpr ⟨entry.2, live, rfl⟩)
    have evolves :=
      ends_final.mp (perform_evolves action backed.sound grounded (backed.meets orderly kind))
    exact ⟨evolves.sound, within, backed.scanned.run unpruned evolves.run owns⟩

theorem bootAt_backed {store : σ} {now : Timestamp} (empty : EmptyStore store) :
    Backed env own [] (.bootAt env store now) := by
  obtain ⟨sound, shown⟩ : DagStore.Sound (NodeState.bootAt env store now).store ∧ _ :=
    bootAt_localDag empty
  refine ⟨sound, (boot_within (empty.within _)).of_same rfl rfl rfl, shown ▸ ?_⟩
  refine ⟨by simp [LocalDag.initial], by simp [LocalDag.initial], by simp [LocalDag.initial],
    by simp [LocalDag.initial], fun chain tail found => ?_⟩
  exact (List.mem_replicate.mp (List.mem_of_getElem? found)).2

theorem Past.backed {store : σ} {now : Timestamp}
    (past : Past env own (.bootAt env store now) stored s)
    (unpruned : env.Unpruned) (empty : EmptyStore store) (owns : ∀ event, .event event ∈ stored →
      event.hash ∈ own) :
    Backed env own stored s := by
  induction past with
  | start => exact bootAt_backed empty
  | step action past orderly ran ih =>
      obtain rfl := final_of_contain ran
      exact (ih fun event member => owns event (List.mem_append_left _ member)).step
        unpruned orderly owns

end Runs

section RoundTrip

variable {σ τ : Type} [Store σ] [Store τ]

def publishedEvents (store : σ) : Except String (List Event) :=
  (List.range (Store.eventCount store)).mapM (Store.eventBySeq store)

structure SameBackup (s : NodeState σ) (after : NodeState τ) : Prop where
  snapshot : ∀ blob, snapshot s = .ok blob s → Loti.snapshot after = .ok blob after
  events : publishedEvents after.store = publishedEvents s.store
  clockEvents : Store.loadClockEvents after.store = Store.loadClockEvents s.store
  neighbors : after.neighbors = s.neighbors
  routes : after.destinationToNextHop = s.destinationToNextHop
  tails : ∀ chain : UInt32,
    after.unreferencedPerChain[chain.toNat]? = s.unreferencedPerChain[chain.toNat]?

variable [DagStore σ] [DagStore τ]

theorem publishedEvents_eq {store : σ} (sound : DagStore.Sound store) :
    publishedEvents store = .ok (DagStore.dag store).events := by
  rw [publishedEvents, DagStore.eventCount_eq sound]
  exact mapM_range_eq fun k event found => DagStore.eventBySeq_eq sound found

variable [LoadStore σ] [LoadStore τ] [LawfulStore σ] {env env' : NodeEnv} {own : List EventHash}
    {stored : List Signed}
  {s : NodeState σ} {blob : Bytes}

theorem Backed.named (backed : Backed env own stored s) :
    (valuesOf s.neighbors).foldl (fun table n => table.insert n.nodeId n) ∅ = s.neighbors :=
  foldl_insert_neighbors fun id n known => (backed.within.neighbors id n known).1

theorem Backed.distinct (backed : Backed env own stored s) :
    ((Store.loadClockEvents s.store).map fun c => c.hash).Nodup := by
  rw [DagStore.loadClockEvents_eq backed.sound, List.map_map]
  exact DagStore.distinct backed.sound

theorem Backed.taken (backed : Backed env own stored s) : s.records.contents.Taken σ := by
  refine ⟨fun e member => ?_, fun c member => ?_⟩
  · obtain ⟨k, found⟩ := List.mem_iff_getElem?.mp member
    exact LawfulStore.eventBySeq_within backed.within.store
      (DagStore.eventBySeq_eq backed.sound found)
  · have listed : c ∈ Store.loadClockEvents s.store := member
    rw [DagStore.loadClockEvents_eq backed.sound] at listed
    obtain ⟨⟨seq, _⟩, live, rfl⟩ := List.mem_map.mp listed
    exact LawfulStore.clockEventBySeq_within backed.within.store
      (DagStore.clockEventBySeq_eq backed.sound live)

theorem Backed.restores (backed : Backed env own stored s) (chains : env'.numChains = env.numChains)
    (taken : snapshot s = .ok blob s) (fits : s.records.Fits)
    (addressable : (⟨blob, env'.wordBits⟩ : Buffer).Addressable)
    (takes : s.records.contents.Taken τ) (t : NodeState τ) :
    ∃ after, restore env' blob t = .ok () after ∧ SameBackup s after := by
  obtain rfl := snapshot_writes backed.sound taken
  have parsed := readSnapshot_write fits addressable (List.prefix_refl _)
  obtain ⟨after, restored, sound, events, clocks, tails, neighbors, routes⟩ :=
    restore_rebuilds parsed takes backed.distinct t
  have clocks_same :
    (DagStore.dag after.store).clocks.map Prod.snd = (DagStore.dag s.store).clocks.map Prod.snd :=
    clocks.trans (DagStore.loadClockEvents_eq backed.sound)
  have tails_same : ∀ chain : UInt32,
      after.unreferencedPerChain[chain.toNat]? = s.unreferencedPerChain[chain.toNat]? := by
    intro chain
    have length : s.unreferencedPerChain.length = env'.numChains :=
      backed.scanned.covered.trans chains.symm
    by_cases within : chain.toNat < env'.numChains
    · have known := List.getElem?_eq_getElem (length.symm ▸ within)
      have scanned : (s.localDag stored).scan chain = (DagStore.dag s.store).scan chain :=
        Dag.bare_scan
      rw [known, backed.scanned.tails chain _ known, scanned, tails]
      simp [within, Dag.scan_congr events clocks_same]
    · rw [tails, List.getElem?_eq_none (by simpa using within), List.getElem?_eq_none (by omega)]
  have neighbors_same : after.neighbors = s.neighbors := by
    have rebuilt : s.records.contents.neighbors = s.neighbors := backed.named
    rw [neighbors, rebuilt, backed.named]
  have routes_same : after.destinationToNextHop = s.destinationToNextHop :=
    routes.trans (TableEncoding.foldl_insert_toList _)
  have clockEvents_same : Store.loadClockEvents after.store = Store.loadClockEvents s.store := by
    rw [DagStore.loadClockEvents_eq sound, DagStore.loadClockEvents_eq backed.sound, clocks_same]
  refine ⟨after, restored, fun blob again => ?_, ?_, clockEvents_same, neighbors_same,
    routes_same, tails_same⟩
  · obtain rfl := snapshot_writes backed.sound again
    have first : ∃ tail, after.unreferencedPerChain[0]? = some tail := by
      have some_chain : 0 < env'.numChains := Nat.lt_of_lt_of_le Nat.zero_lt_one
        (Nat.le_max_left _ _)
      exact ⟨_, List.getElem?_eq_getElem (by simpa [tails] using some_chain)⟩
    have records : after.records = s.records := by
      simp only [NodeState.records, events, clockEvents_same, neighbors_same, routes_same]
      rw [show after.unreferencedPerChain[0]? = s.unreferencedPerChain[0]? from tails_same 0]
      rfl
    obtain ⟨tail, found⟩ := first
    rw [snapshot_eq sound found, records]
  · rw [publishedEvents_eq sound, publishedEvents_eq backed.sound, events]
    rfl

/-- The backup of an unpruned node: restoring it makes the same node, on its own kind of store
always, and on another kind exactly when that store takes the hashes. -/
theorem backup_round_trip {store : σ} {now : Timestamp} (unpruned : env.Unpruned)
    (empty : EmptyStore store) (past : Past env (eventHashes stored)
      (.bootAt env store now) stored s) (chains : env'.numChains = env.numChains)
    (taken : snapshot s = .ok blob s) (fits : s.records.Fits)
    (addressable : (⟨blob, env'.wordBits⟩ : Buffer).Addressable) :
    (∀ t : NodeState σ, ∃ after, restore env' blob t = .ok () after ∧ SameBackup s after) ∧
      ∀ t : NodeState τ, (∃ after, restore env' blob t = .ok () after ∧ SameBackup s after) ↔
        (∀ e ∈ (DagStore.dag s.store).events, LoadStore.TakesEvent τ e) ∧
          ∀ c ∈ Store.loadClockEvents s.store, LoadStore.TakesClockEvent τ c := by
  have owns : ∀ event, .event event ∈ stored → event.hash ∈ eventHashes stored :=
    fun event member =>
    List.mem_map_of_mem (List.mem_filterMap.mpr ⟨.event event, member, rfl⟩)
  have backed := past.backed unpruned empty owns
  refine ⟨backed.restores chains taken fits addressable backed.taken, fun t =>
    ⟨?_, fun takes => ?_⟩⟩
  · rintro ⟨after, restored, -⟩
    obtain rfl := snapshot_writes backed.sound taken
    have parsed := readSnapshot_write fits addressable (List.prefix_refl _)
    have outcome : Ends (restore env' s.records.write) t _ _ := restore_ends
    obtain ⟨_, _, _, _, again, -, -, -, takes⟩ := outcome.of_ok restored
    obtain ⟨rfl, -⟩ := EStateM.Result.ok.inj (parsed.symm.trans again)
    exact takes
  · exact backed.restores chains taken fits addressable takes t

end RoundTrip

def keepsakeEnv : NodeEnv := .simulated (fun bytes => bytes.take 32) 1 {}

def keepsakeRun : List NodeAction := [.publishEvent [7], .createClockEvent 0, .publishEvent [8]]

def keepsakeStart : NodeState InMemoryStore := .bootAt keepsakeEnv {} 0

def keepsake : NodeState InMemoryStore := final (runActions keepsakeEnv keepsakeRun) keepsakeStart

theorem keepsake_reached
    (returned : raised (runActions keepsakeEnv keepsakeRun) keepsakeStart = none) :
    runActions keepsakeEnv keepsakeRun keepsakeStart = .ok () keepsake := ok_of_not_raised returned

/-- The backup of a node in memory, restored into an LMDB node that holds an event of its own. -/
theorem backup_round_trip_sample :
    ∃ after, restore keepsakeEnv (backup keepsake)
      (final (runActions keepsakeEnv [.publishEvent [9]])
      (NodeState.bootAt keepsakeEnv ({} : LmdbStore) 0)) = .ok () after ∧
      SameBackup keepsake after := by
  have facts : raised (runActions keepsakeEnv keepsakeRun) keepsakeStart = none ∧
      raised snapshot keepsake = none ∧ keepsake.records.Fits ∧
      (⟨backup keepsake, keepsakeEnv.wordBits⟩ : Buffer).Addressable ∧
      ((ledger keepsakeEnv keepsakeStart keepsakeRun).map Signed.hash).Nodup ∧
      (∀ e ∈ (DagStore.dag keepsake.store).events, LmdbStore.ValidKey e.hash) ∧
      ∀ c ∈ Store.loadClockEvents keepsake.store, LmdbStore.Storable c := by
    decide +kernel
  obtain ⟨reached, taken, fits, addressable, distinct, events, clockEvents⟩ := facts
  have unpruned : keepsakeEnv.Unpruned := fun config member => nomatch member
  have past :
      Past keepsakeEnv (eventHashes (ledger keepsakeEnv keepsakeStart keepsakeRun)) keepsakeStart
      (ledger keepsakeEnv keepsakeStart keepsakeRun) keepsake :=
    Past.ofLocal (by decide) (keepsake_reached reached) distinct
  exact ((backup_round_trip unpruned InMemoryStore.emptyStore past rfl
    (snapshot_backup taken) fits addressable).2 _).mpr ⟨events, clockEvents⟩

def longTipRun : List NodeAction :=
  [.addNeighbor (.ofUInt64 2),
    .onPacketReceived (encode ⟨.ofUInt64 2, .clockNotification ⟨0, List.replicate 512 7, []⟩⟩),
    .createClockEvent 0]

theorem longTip_backup_refused :
    let s : NodeState InMemoryStore := final (runActions keepsakeEnv longTipRun) keepsakeStart
    raised (runActions keepsakeEnv longTipRun) keepsakeStart = none ∧ raised snapshot s = none ∧
      s.records.Fits ∧ raised (restore keepsakeEnv (backup s))
      (NodeState.bootAt keepsakeEnv ({} : InMemoryStore) 0) = none ∧
      raised (restore keepsakeEnv (backup s)) (NodeState.bootAt keepsakeEnv ({} : LmdbStore) 0) =
        some (.exception (LmdbStore.badValsize "put referencing")) := by
  decide +kernel

end Loti
