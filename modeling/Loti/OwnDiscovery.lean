import Loti.Attribution
import Loti.DagInvariants
import Loti.InMemoryDag

/-!
Discovery of a node's own events. Pruning is conservative: an event whose anchor on some
chain is live, and which that chain has ticked past, is still enclosed. The interval it is
given need not be in order, since each chain has a monotonic floor of its own.
-/

namespace Loti

open Std StateExcept LocalDag

section Building

variable {σ : Type} [Store σ] {id : NodeId} {store : σ} {refs : List EventReference}
    {ce : LocalClockEvent}

theorem ownClockEvent_mem (found : ownClockEvent id store refs = .ok (some ce)) :
    ∃ ref ∈ refs, ref.creator = id ∧ Store.clockEventByHash store ref.hash = .ok (some ce) := by
  induction refs with
  | nil => cases found
  | cons ref rest ih =>
      have later (tail : ownClockEvent id store rest = .ok (some ce)) :
          ∃ other ∈ ref :: rest, other.creator = id ∧
          Store.clockEventByHash store other.hash = .ok (some ce) :=
        (ih tail).imp fun _ listed => ⟨List.mem_cons_of_mem _ listed.1, listed.2⟩
      unfold ownClockEvent at found
      split at found
      · rename_i mine
        obtain ⟨looked, read, rest⟩ := except_bind_ok_iff.mp found
        cases looked with
        | some first =>
            obtain rfl := Option.some.inj (Except.ok.inj rest)
            exact ⟨ref, List.mem_cons_self, mine, read⟩
        | none => exact later rest
      · exact later found

variable [DagStore σ]

theorem ownClockEvent_finds (sound : DagStore.Sound store)
    (readable : ∀ ref ∈ refs, ref.creator = id → DagStore.Readable (σ := σ) ref.hash) {seq : Nat}
    (live : (seq, ce) ∈ (DagStore.dag store).clocks) (mine : ce.creator = id)
    (referenced : ce.reference ∈ refs) :
    ∃ found, ownClockEvent id store refs = .ok (some found) := by
  induction refs with
  | nil => cases referenced
  | cons ref rest ih =>
      have later : ce.reference ∈ rest → ∃ found, ownClockEvent id store rest = .ok (some found) :=
        ih fun other listed => readable other (List.mem_cons_of_mem _ listed)
      unfold ownClockEvent
      split
      · rename_i owned
        obtain ⟨looked, read, answers⟩ := DagStore.clockEventByHash_eq sound
          (readable ref List.mem_cons_self owned)
        rw [read]
        cases looked with
        | some first => exact ⟨first, rfl⟩
        | none =>
            refine later ((List.mem_cons.mp referenced).resolve_left fun same => ?_)
            cases (answers ce).mpr ⟨congrArg EventReference.hash same, seq, live⟩
      · rename_i foreign
        exact later ((List.mem_cons.mp referenced).resolve_left fun same =>
          foreign ((congrArg EventReference.creator same).symm.trans mine))

theorem Splices.own {event : Event} {upper : EventChain} (sound : DagStore.Sound store)
    (readable : DagStore.Readable (σ := σ) event.hash)
    (spliced : Splices id store ⟨event, [], []⟩ upper) :
    ∃ lo up : Nat × LocalClockEvent, lo ∈ (DagStore.dag store).clocks ∧
      up ∈ (DagStore.dag store).clocks ∧ (∃ ref ∈ event.referencedEvents, ref.creator = id ∧
        ref.hash = lo.2.hash) ∧ event.hash ∈ Dag.mentions up.2 ∧
      upper = ⟨event, [lo.2.toClockEvent], [up.2.toClockEvent]⟩ := by
  obtain ⟨lower, lowered, raised⟩ := spliced
  obtain ⟨lo, read, rfl⟩ := addLocalLowerBound_ok lowered
  obtain ⟨ref, listed, mine, looked⟩ := ownClockEvent_mem read
  obtain ⟨named, place, live⟩ := DagStore.clockEventByHash_mem sound looked
  obtain ⟨seqs, referencing, seq, member, up, found, rfl⟩ := addLocalUpperBound_ok raised
  obtain ⟨answer, answered, -, mentions⟩ := DagStore.clockEventsReferencing_eq sound readable
  obtain rfl := ok_unique answered referencing
  obtain ⟨stored, alive, mentioned⟩ := (mentions seq).mp member
  obtain rfl := ok_unique (DagStore.clockEventBySeq_eq sound alive) found
  exact ⟨(place, lo), (seq, stored), live, alive, ⟨ref, listed, mine, named.symm⟩, mentioned, rfl⟩

theorem splices_own {event : Event} {below above : Nat × LocalClockEvent}
    (sound : DagStore.Sound store) (readable : DagStore.Readable (σ := σ) event.hash)
    (refsReadable : ∀ ref ∈ event.referencedEvents, ref.creator = id →
      DagStore.Readable (σ := σ) ref.hash)
    (live : below ∈ (DagStore.dag store).clocks) (mine : below.2.creator = id)
    (referenced : below.2.reference ∈ event.referencedEvents)
    (alive : above ∈ (DagStore.dag store).clocks) (mentioned : event.hash ∈ Dag.mentions above.2) :
    ∃ upper, Splices id store ⟨event, [], []⟩ upper := by
  obtain ⟨lo, found⟩ := ownClockEvent_finds sound refsReadable live mine referenced
  obtain ⟨seqs, referencing, -, mentions⟩ := DagStore.clockEventsReferencing_eq sound readable
  cases seqs with
  | nil => cases (mentions above.1).mpr ⟨above.2, alive, mentioned⟩
  | cons seq rest =>
      obtain ⟨up, upAlive, -⟩ := (mentions seq).mp List.mem_cons_self
      exact ⟨_, splices_of_found found referencing (DagStore.clockEventBySeq_eq sound upAlive)⟩

end Building

section Discovering

variable {σ : Type} [Store σ] {env : NodeEnv} {s : NodeState σ}

theorem discoverEventChain_completes {event : Event} {upper : EventChain} (range : TimeRange)
    (registration : Nat) (unknown : s.discoveries.chainDiscoveries[event.hash]? = none)
    (mine : event.creator = env.id) (spliced : Splices env.id s.store ⟨event, [], []⟩ upper)
    (accepted : validateChainDiscoveryResult env upper = true) :
    ∃ after, perform env (.discoverEventChain event range registration) s = .ok () after ∧
      CompletedWith event.hash event upper after.discoveries := by
  obtain ⟨lower, lowered, raised⟩ := spliced
  have ends : Returns (perform env (.discoverEventChain event range registration)) s
      (fun _ after => CompletedWith event.hash event upper after.discoveries) := by
    simp only [perform, discoverEventChain, resolveChainDiscovery, addLowerBound, addUpperBound,
      insertChainDiscovery, putChain, ends_bind, ends_get, unknown, ends_withDiscoveries,
      ends_modify, mine, if_true, ends_readStore, lowered]
    refine ⟨?_, by simp⟩
    rintro _ ⟨rfl⟩
    simp only [setDiscoveredChain, putChain, ends_bind, ends_get, ends_withDiscoveries,
      ends_readStore, ends_modify, ExtTreeMap.getElem?_insert_self, raised]
    refine ⟨?_, by simp⟩
    rintro _ ⟨rfl⟩
    simp only [ends_bind, ends_get, ends_withDiscoveries, ends_modify,
      ExtTreeMap.getElem?_insert_self, completeChainDiscovery, expectInProgress, newChainDiscovery,
      putChain, if_true, ends_pure, accepted,
      List.forM_eq_forM, List.forM_cons, List.forM_nil, invokeCompleted, notify]
    exact ⟨_, ExtTreeMap.getElem?_insert_self, rfl, rfl, rfl⟩
  obtain ⟨_, after, ran, completed⟩ := ends.returns fun _ _ no => no
  exact ⟨after, ran, completed⟩

end Discovering

section Runs

variable {σ : Type} [Store σ] [LawfulStore σ] [DagStore σ] {env : NodeEnv} {store : σ}
    {now : Timestamp}
  {made : List Signed} {s : NodeState σ}

theorem steady_ordered {own : List EventHash} {dag : LocalDag}
    (steps : Steps env (steadyPolicy own) (.initial env.numChains now) dag) :
    Intact env (steadyPolicy own) dag ∧ TimeOrdered dag := by
  have apart : ∀ ref, (steadyPolicy own).foreign ref → ¬(steadyPolicy own).own ref.hash :=
    fun _ foreign => foreign
  have kept := steps.keeps (fun dag => Intact env (steadyPolicy own) dag ∧ TimeOrdered dag ∧
    ∀ entry ∈ dag.clocks, entry.2.timestamp ≤ dag.now) ?_
    ⟨intact_initial now, by simp [TimeOrdered, initial], by simp [initial]⟩
  · exact ⟨kept.1, kept.2.1⟩
  · rintro dag change ⟨intact, ordered, past⟩ allowed
    refine ⟨intact.apply apart allowed, ordered.apply intact apart allowed ?_, ?_⟩
    · rintro seq record rfl tail - event - entry live -
      obtain ⟨chain, salt, _, heard, -, -, rfl⟩ := allowed.1
      exact Int64.le_trans (past entry live) (clampedStamp_ge dag.now _)
    · cases change with
      | read later => exact fun entry live => Int64.le_trans (past entry live) allowed
      | publish event => exact past
      | prune chain keep => exact fun entry live => past entry (Dag.prune_sublist.subset live)
      | hydrate => exact past
      | tick seq record =>
          intro entry live
          rcases List.mem_append.mp live with old | new
          · exact past entry old
          · obtain rfl := List.mem_singleton.mp new
            obtain ⟨chain, salt, tail, heard, -, -, rfl⟩ := allowed.1
            show clampedStamp dag.now (dag.tip chain) ≤ dag.now
            cases latest : dag.tip chain with
            | none => exact Int64.le_refl _
            | some tip =>
                obtain ⟨place, -, tipLive, -⟩ := Dag.tip_mem latest
                rw [clampedStamp]
                split
                · exact past _ tipLive
                · exact Int64.le_refl _

theorem LocalDag.Intact.accepted {policy : Policy} {dag : LocalDag} (intact : Intact env policy dag)
    (apart : ∀ ref, policy.foreign ref → ¬policy.own ref.hash) (canonical : env.hasher.Canonical)
    (signs : ∀ hash, env.signer.verify hash (env.signer.sign hash) env.id = true) {event : Event}
    (member : event ∈ dag.events) {lo up : LocalClockEvent} (lower : .clockEvent lo ∈ dag.made)
    (upper : .clockEvent up ∈ dag.made) (referenced : lo.reference ∈ event.referencedEvents)
    (mentioned : event.hash ∈ Dag.mentions up) (inOrder : lo.timestamp ≤ up.timestamp) :
    validateChainDiscoveryResult env ⟨event, [lo.toClockEvent], [up.toClockEvent]⟩ = true := by
  have genuine : ∀ ce : LocalClockEvent, .clockEvent ce ∈ dag.made → ce.creator = env.id ∧
      Genuine env.hasher env.signer ce.toClockEvent := by
    intro ce made
    obtain ⟨chain, salt, timestamp, refs, rfl⟩ := intact.genuine _ made
    exact ⟨rfl, canonical.clockEvent _ _ _, signs _⟩
  have made := intact.mem_events_iff.mp member
  obtain ⟨ref, listed, same⟩ := Dag.mem_mentions mentioned
  have linked : event.reference ∈ up.referencedEvents := by
    rwa [intact.reference_eq apart upper listed made same] at listed
  obtain ⟨data, salt, refs, built⟩ := intact.genuine _ made
  have sound : SoundChain env.hasher env.signer env.id ⟨event, [lo.toClockEvent], [up.toClockEvent]⟩
      lo.toClockEvent up.toClockEvent := by
    refine ⟨rfl, rfl, (genuine lo lower).1, (genuine up upper).1, ?_, ?_, ?_, ?_, ?_,
      Int64.not_lt.mpr inOrder⟩
    · simpa using (genuine lo lower).2
    · simpa using (genuine up upper).2
    · rw [built]
      exact canonical.event _ _ _
    · rw [built]
      exact signs _
    · simp only [EventChain.links, List.map_cons, List.map_nil, List.cons_append,
        List.nil_append, Linked]
      exact ⟨by simp, fun _ same => Option.some.inj same ▸ referenced, fun _ same =>
        Option.some.inj same ▸ linked, trivial⟩
  rw [validateChainDiscoveryResult, sound.accepted]

theorem Tracked.spliced {policy : Policy} {contents : Contents}
    (tracked : Tracked env policy contents now made s)
    (intact : Intact env policy (s.localDag made)) {event : Event} (published : .event event ∈ made)
    {upper : EventChain} (spliced : Splices env.id s.store ⟨event, [], []⟩ upper) :
    ∃ lo up : Nat × LocalClockEvent, lo ∈ (s.localDag made).clocks ∧ up ∈ (s.localDag made).clocks ∧
      lo.2.reference ∈ event.referencedEvents ∧ event.hash ∈ Dag.mentions up.2 ∧
      upper = ⟨event, [lo.2.toClockEvent], [up.2.toClockEvent]⟩ := by
  obtain ⟨lo, up, loLive, upLive, ⟨ref, listed, -, sameHash⟩, mentioned, rfl⟩ :=
    spliced.own tracked.sound (tracked.readable _ published)
  obtain ⟨old, made, rfl⟩ := intact.event_refs event
    (intact.mem_events_iff.mpr published) ref listed
  obtain rfl := Signed.clockEvent.inj (intact.same made (tracked.clock_made loLive) sameHash)
  exact ⟨(lo.1, lo.2.bare), (up.1, up.2.bare), Dag.mem_bare_clocks.mpr ⟨lo.2, loLive, rfl⟩,
    Dag.mem_bare_clocks.mpr ⟨up.2, upLive, rfl⟩, listed, mentioned, rfl⟩

/-- An event of this node is enclosed whenever, on some chain, the clock event it references is live
and the chain has ticked since. -/
theorem own_event_discovered {sha256 : Bytes → EventHash}
    (hashes : env.hasher = Hasher.ofSha256 sha256) (signs : ∀ hash, env.signer.verify hash
      (env.signer.sign hash) env.id = true) (empty : EmptyStore store)
    (run : Reaches env (Undisturbed env made) (.bootAt env store now) made s)
      (distinct : (made.map Signed.hash).Nodup)
    {event : Event} (unknown : s.discoveries.chainDiscoveries[event.hash]? = none)
      {ce : LocalClockEvent}
    (live : Store.clockEventByHash s.store ce.hash = .ok (some ce))
      (referenced : ce.reference ∈ event.referencedEvents)
    {later : LocalClockEvent} (ticked : List.Sublist [.event event, .clockEvent later] made)
    (sameChain : later.chain = ce.chain) (range : TimeRange) (registration : Nat) :
    ∃ after, perform env (.discoverEventChain event range registration) s = .ok () after ∧
      ∃ lower upper, CompletedWith event.hash event
      ⟨event, [lower], [upper]⟩ after.discoveries := by
  have tracked := run.undisturbed empty distinct
  obtain ⟨intact, ordered⟩ := steady_ordered tracked.steps
  have apart : ∀ ref, (steadyPolicy (made.map Signed.hash)).foreign ref →
      ¬(steadyPolicy (made.map Signed.hash)).own ref.hash := fun _ foreign => foreign
  have canonical : env.hasher.Canonical := hashes ▸ Hasher.ofSha256_canonical sha256
  have published : .event event ∈ made := ticked.subset List.mem_cons_self
  have member := intact.mem_events_iff.mpr published
  -- the anchor is not the chain's tip, so its successor is live and references the event
  obtain ⟨-, seq, anchor⟩ := DagStore.clockEventByHash_mem tracked.sound live
  have anchorLive : (seq, ce.bare) ∈ (s.localDag made).clocks := Dag.mem_bare_clocks.mpr
    ⟨ce, anchor, rfl⟩
  obtain ⟨next, pair⟩ : ∃ next, [(seq, ce.bare), next] <:+: (s.localDag made).onChain ce.chain := by
    refine (RingLog.last_or_followed (Dag.mem_onChain_iff.mpr ⟨anchorLive, rfl⟩)).resolve_left
      fun last => ?_
    refine intact.ticked event later ce.bare ticked ?_ referenced
    rw [sameChain]
    exact congrArg (Option.map Prod.snd) last
  have pinned := intact.pinned event member ce.chain _ next pair referenced
  obtain ⟨nextLive, -⟩ := Dag.mem_onChain_iff.mp
    (pair.subset (List.mem_cons_of_mem _ List.mem_cons_self))
  obtain ⟨above, aboveLive, sameNext⟩ := Dag.mem_bare_clocks.mp nextLive
  have mine : ∀ {entry : Nat × LocalClockEvent}, entry ∈ (DagStore.dag s.store).clocks →
    entry.2.creator = env.id := by
    intro entry listed
    obtain ⟨chain, salt, timestamp, refs, built⟩ := intact.genuine _ (tracked.clock_made listed)
    exact congrArg (fun record => record.creator) built
  have readable : ∀ ref ∈ event.referencedEvents, ref.creator = env.id →
    DagStore.Readable (σ := σ) ref.hash := by
    intro ref listed _
    obtain ⟨old, madeOld, rfl⟩ := intact.event_refs event member ref listed
    exact tracked.readable _ madeOld
  have mentioned : event.hash ∈ Dag.mentions above := by
    rw [← sameNext] at pinned
    exact List.mem_map_of_mem pinned
  obtain ⟨upper, spliced⟩ := splices_own tracked.sound
    (tracked.readable _ published) readable anchor (mine anchor) referenced aboveLive mentioned
  -- whichever clock events the primitives picked, the validator accepts them
  obtain ⟨lo, up, loLive, upLive, anchored, upMentions, rfl⟩ :=
    tracked.spliced intact published spliced
  have accepted := intact.accepted apart canonical signs member (intact.clock_made lo loLive)
    (intact.clock_made up upLive) anchored upMentions
    (ordered event member lo loLive up upLive anchored upMentions)
  obtain ⟨data, salt, refs, built⟩ := intact.genuine _ published
  have creator : event.creator = env.id := congrArg Event.creator built
  obtain ⟨after, ran, completed⟩ :=
    discoverEventChain_completes range registration unknown creator spliced accepted
  exact ⟨after, ran, _, _, completed⟩

end Runs

/-! A node with a fine chain that keeps one clock event and a coarse one that keeps two. -/

def coarseEnv : NodeEnv := NodeEnv.simulated id 1 { chains := [{ keep := 1 }, { keep := 2 }] }

def coarseRun : List NodeAction :=
  [.createClockEvent 0, .createClockEvent 1, .publishEvent [7], .createClockEvent 0,
    .createClockEvent 1]

def coarseStart : NodeState InMemoryStore := .bootAt coarseEnv {} 0

def coarseLedger : List Signed := ledger coarseEnv coarseStart coarseRun

def coarseState : NodeState InMemoryStore := final (runActions coarseEnv coarseRun) coarseStart

def Signed.ticked? : Signed → Option LocalClockEvent
  | .event _ => none
  | .clockEvent ticked => some ticked

def coarseEvent : Event := (coarseLedger.filterMap Signed.published?).headD default

def coarseTick (k : Nat) : LocalClockEvent := (coarseLedger.filterMap Signed.ticked?).getD k default

theorem coarseRun_undisturbed : Reaches coarseEnv
    (Undisturbed coarseEnv coarseLedger) coarseStart coarseLedger coarseState := by
  have ran : runActions coarseEnv coarseRun coarseStart = .ok () coarseState :=
    ok_of_not_raised (by decide +kernel)
  refine Reaches.start.run (eachStep_of_forall (fun s action member => ?_) _) ran
  have quiet : ∀ action ∈ coarseRun, (∀ blob, action ≠ .restore blob) ∧
      (∀ now, action ≠ .setClock now) ∧ ∀ datagram, action ≠ .onPacketReceived datagram := by
    simp [coarseRun]
  obtain ⟨kind, unread, unheard⟩ := quiet action member
  exact ⟨kind, fun now same => absurd same (unread now), fun datagram _ _ same =>
    absurd same (unheard datagram)⟩

/-- The fine anchor is pruned, the coarse one is live: the event is enclosed. -/
theorem coarse_event_discovered :
    Store.clockEventByHash coarseState.store (coarseTick 0).hash = .ok none ∧
      ∃ after, perform coarseEnv (.discoverEventChain coarseEvent .all 0) coarseState =
        .ok () after ∧ ∃ lower upper, CompletedWith coarseEvent.hash coarseEvent
        ⟨coarseEvent, [lower], [upper]⟩ after.discoveries := by
  have live : Store.clockEventByHash coarseState.store
    (coarseTick 1).hash = .ok (some (coarseTick 1)) := by decide +kernel
  have ticked : List.Sublist [.event coarseEvent, .clockEvent (coarseTick 3)] coarseLedger := by
    decide +kernel
  exact ⟨by decide +kernel, own_event_discovered rfl
    (fun _ => rfl) InMemoryStore.emptyStore coarseRun_undisturbed
    (by decide +kernel) (ExtTreeMap.getElem?_eq_none (by decide +kernel)) live
    (by decide +kernel) ticked
    (by decide +kernel) .all 0⟩

/-! A node on its own, whose clock may step back. -/

section Backward

variable {σ : Type} [Store σ] {env : NodeEnv} {store : σ} {now : Timestamp} {made : List Signed}
    {s : NodeState σ}

def anchorStamp (store : σ) (hash : EventHash) : Option Timestamp :=
  match Store.clockEventByHash store hash with
  | .ok (some ce) => some ce.timestamp
  | _ => none

def tipStamp (store : σ) (chain : UInt32) : Option Timestamp :=
  match Store.latestClockEventOn store chain with
  | .ok (some tip) => some tip.timestamp
  | _ => none

/-- A tick finds each live clock event that a waiting event references stamped no later than the
clock reads or than the chain's tip. -/
def AnchorsPast (s : NodeState σ) (action : NodeAction) : Prop :=
  ∀ chain ∈ action.ticks?, ∀ tail ∈ s.unreferencedPerChain[chain.toNat]?, ∀ event ∈ tail,
    ∀ ref ∈ event.referencedEvents, ∀ stamp ∈ anchorStamp s.store ref.hash,
      stamp ≤ s.now ∨ ∃ floor ∈ tipStamp s.store chain, stamp ≤ floor

-- chains and stamps are machine integers: a quantifier over them must not be decided by listing
-- them all
local instance (priority := high) memForall {α : Type} {p : α → Prop} [DecidablePred p]
    (o : Option α) : Decidable (∀ a ∈ o, p a) := Option.decidableForallMem o

local instance (priority := high) memExists {α : Type} {p : α → Prop} [DecidablePred p]
    (o : Option α) : Decidable (∃ a ∈ o, p a) := Option.decidableExistsMem o

instance (s : NodeState σ) (action : NodeAction) : Decidable (AnchorsPast s action) :=
  inferInstanceAs
    (Decidable (∀ chain ∈ action.ticks?, ∀ tail ∈ s.unreferencedPerChain[chain.toNat]?, _))

variable [LawfulStore σ] [DagStore σ]

omit [LawfulStore σ] in
theorem AnchorsPast.stampsAfter {action : NodeAction} {record : LocalClockEvent}
    (past : AnchorsPast s action) (sound : DagStore.Sound s.store)
    (makes : Makes env s action (.clockEvent record)) :
    StampsAfter (s.localDag made) record := by
  obtain ⟨ticks, last, tail, read, found, built⟩ := makes_ticks makes
  have stamp : record.timestamp = clampedStamp s.now last := congrArg (fun ce => ce.timestamp) built
  intro waiting listed event member entry live referenced
  obtain ⟨ce, stored, same⟩ := Dag.mem_bare_clocks.mp live
  have anchor : anchorStamp s.store entry.2.hash = some entry.2.timestamp := by
    obtain ⟨looked, answer, iff⟩ := DagStore.clockEventByHash_eq sound
      (DagStore.readable_clockEvent sound stored)
    rw [(iff ce).mpr ⟨rfl, _, stored⟩] at answer
    rw [← same]
    simp [anchorStamp, answer]
  rw [stamp]
  rcases past _ ticks waiting listed event member _ referenced _ anchor with
    early | ⟨floor, tip, below⟩
  · exact Int64.le_trans early (clampedStamp_ge s.now last)
  · cases last with
    | none => simp [tipStamp, read] at tip
    | some latest =>
        obtain rfl : latest.timestamp = floor := by simpa [tipStamp, read] using tip
        exact Int64.le_trans below (clampedStamp_ge_tip s.now latest)

/-- If no tick finds an anchor from the future, the bounds of an own event are in order. -/
theorem own_interval_in_order (empty : EmptyStore store)
    (run : Reaches env (fun s action => action.isLocal = true ∧ AnchorsPast s action)
      (.bootAt env store now) made s)
    (distinct : (made.map Signed.hash).Nodup) {event : Event} (published : .event event ∈ made)
      {upper : EventChain}
    (spliced : Splices env.id s.store ⟨event, [], []⟩ upper) :
    ∃ lo up : ClockEvent, upper = ⟨event, [lo], [up]⟩ ∧ lo.timestamp ≤ up.timestamp ∧
      (verifyChain env.hasher upper env.id env.signer).reason ≠
        "inverted interval (upper bound earlier than lower bound)" := by
  have tracked : Tracked env (alonePolicy StampsAfter fun _ => True) noNeighbors now made s :=
    run.alone empty distinct (fun _ _ meets => meets.1)
      (fun _ _ _ _ sound meets makes => meets.2.stampsAfter sound makes) fun _ _ _ _ _ => trivial
  have apart : ∀ ref, (alonePolicy StampsAfter fun _ => True).foreign ref →
    ¬True := fun _ foreign => foreign.elim
  have kept := tracked.steps.keeps
    (fun dag => Intact env (alonePolicy StampsAfter fun _ => True) dag ∧ dag.TimeOrdered)
    (fun dag change kept allowed =>
      ⟨kept.1.apply apart allowed, kept.2.apply kept.1 apart allowed ?_⟩)
    ⟨intact_initial now, by simp [TimeOrdered, initial]⟩
  · obtain ⟨lo, up, loLive, upLive, anchored, mentioned, rfl⟩ :=
      tracked.spliced kept.1 published spliced
    have inOrder := kept.2 event (kept.1.mem_events_iff.mpr published) lo loLive up upLive
      anchored mentioned
    refine ⟨lo.2.toClockEvent, up.2.toClockEvent, rfl, inOrder, fun inverted => ?_⟩
    obtain ⟨front, back, isFront, isBack, below⟩ := verifyChain_inverted inverted
    cases isFront
    cases isBack
    exact Int64.not_lt.mpr inOrder below
  · rintro seq record rfl
    exact allowed.2.2.2

def backwardRun (reading : Timestamp) : List NodeAction :=
  [.setClock 100, .createClockEvent 0, .publishEvent [7], .setClock reading, .createClockEvent 1]

def backwardState (reading : Timestamp) : NodeState InMemoryStore :=
  final (runActions coarseEnv (backwardRun reading)) coarseStart

def backwardEvent (reading : Timestamp) : Event :=
  ((ledger coarseEnv coarseStart (backwardRun reading)).filterMap Signed.published?).headD default

def backwardChain (reading : Timestamp) : EventChain :=
  match addLocalLowerBound coarseEnv.id (backwardState reading).store
    ⟨backwardEvent reading, [], []⟩ with
  | .ok (some lower) =>
      match addLocalUpperBound (backwardState reading).store lower with
      | .ok (some upper) => upper
      | _ => default
  | _ => default

theorem own_interval_in_order_sample :
    ∃ lo up : ClockEvent, backwardChain 150 = ⟨backwardEvent 150, [lo], [up]⟩ ∧
      lo.timestamp ≤ up.timestamp ∧
      (verifyChain coarseEnv.hasher (backwardChain 150) coarseEnv.id coarseEnv.signer).reason ≠
        "inverted interval (upper bound earlier than lower bound)" := by
  have ran : runActions coarseEnv (backwardRun 150) coarseStart = .ok () (backwardState 150) :=
    ok_of_not_raised (by decide +kernel)
  have each : EachStep (fun s action => action.isLocal = true ∧ AnchorsPast s action) coarseEnv
      coarseStart (backwardRun 150) := by decide +kernel
  have published : .event (backwardEvent 150) ∈ ledger coarseEnv coarseStart (backwardRun 150) := by
    decide +kernel
  have lowered : addLocalLowerBound coarseEnv.id (backwardState 150).store
      ⟨backwardEvent 150, [], []⟩ =
        .ok (some ⟨backwardEvent 150, (backwardChain 150).lowerBound, []⟩) := by decide +kernel
  have raised : addLocalUpperBound (backwardState 150).store
      ⟨backwardEvent 150, (backwardChain 150).lowerBound, []⟩ =
        .ok (some (backwardChain 150)) := by decide +kernel
  exact own_interval_in_order InMemoryStore.emptyStore (Reaches.start.run each ran)
    (by decide +kernel) published ⟨_, lowered, raised⟩

/-- The clock steps back from 100 to 50: the event's interval is [100, 50], and its discovery
aborts. -/
theorem backward_clock_inverts :
    (verifyChain coarseEnv.hasher (backwardChain 50) coarseEnv.id coarseEnv.signer).reason =
        "inverted interval (upper bound earlier than lower bound)" ∧
      (backwardChain 50).event = backwardEvent 50 ∧
      (backwardChain 50).lowerBound.map ClockEvent.timestamp = [100] ∧
      (backwardChain 50).upperBound.map ClockEvent.timestamp = [50] ∧
      ((final (perform coarseEnv (.discoverEventChain (backwardEvent 50) .all 0))
        (backwardState 50)).discoveries.notified =
        [.chainAborted (.client 0) (backwardEvent 50)]) := by
  decide +kernel

end Backward

end Loti
