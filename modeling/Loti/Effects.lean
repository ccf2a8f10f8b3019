import Loti.NodeRuns

/-!
What the operations of a node change. The handlers for requests and responses and the
discovery calls write no record: they touch the discoveries, the bookkeeping of the flood
and what is sent.
-/

namespace Loti

open Std StateExcept Wire

variable {σ : Type} [Store σ] {env : NodeEnv} {s : NodeState σ} {start : NodeState σ}
  {post : Unit → NodeState σ → Prop}

section Rules

variable {α : Type} {thrown : Fault → NodeState σ → Prop}

omit [Store σ] in
@[simp] theorem ends_readStore {read : σ → Except String α} {post : α → NodeState σ → Prop} :
    Ends (readStore read) s post thrown ↔
      (∀ value, read s.store = .ok value → post value s) ∧
        ∀ what, read s.store = .error what → thrown (.exception what) s := by
  simp [readStore]

omit [Store σ] in
@[simp] theorem ends_writeStore {write : σ → Except String σ} :
    Ends (writeStore write) s post thrown ↔
      (∀ after, write s.store = .ok after → post () { s with store := after }) ∧
        ∀ what, write s.store = .error what → thrown (.exception what) s := by
  simp [writeStore]

omit [Store σ] in
@[simp] theorem ends_withDiscoveries {m : DiscoveryM α} {post : α → NodeState σ → Prop} :
    Ends (withDiscoveries m) s post thrown ↔
      Ends m s.discoveries (fun value d => post value { s with discoveries := d })
        (fun fault d => thrown fault { s with discoveries := d }) := by
  simp [withDiscoveries]

omit [Store σ] in
@[simp] theorem ends_send {destination : NodeId} {payload : Payload} :
    Ends (send env destination payload) s post thrown ↔
      post () { s with sent := s.sent ++ [⟨destination, ⟨env.id, payload⟩⟩] } := by
  simp [send]

end Rules

/-- The request `base` passed on: to a neighbor that is neither this node nor on the path, with this
node as the last hop of the path. -/
def Sent.Forwards (env : NodeEnv) (s : NodeState σ) (base : ChainRequest) (sent : Sent) : Prop :=
  ∃ hop neighbor, hop ≠ env.id ∧ hop ∉ base.path ∧ s.neighbors[hop]? = some neighbor ∧
    sent = ⟨neighbor.nodeId, ⟨env.id, .chainRequest { base with path := base.path ++ [env.id] }⟩⟩

def Sent.IsRequest (env : NodeEnv) (s : NodeState σ) (sent : Sent) : Prop :=
  ∃ base : ChainRequest, base.originator = env.id ∧ base.path = [] ∧
    base.hopLimit = env.config.discoveryHopLimit ∧ sent.Forwards env s base

def Extended (env : NodeEnv) (store : σ) (neighbor : NodeId) (base chain : EventChain) : Prop :=
  ∃ lower upper front, addLocalLowerBound env.id store base = .ok (some lower) ∧
    addLocalUpperBound store lower = .ok (some upper) ∧
    extendLowerBoundForNeighbor env.id neighbor store upper = .ok (some front) ∧
    extendUpperBoundForNeighbor env.id neighbor store front = .ok (some chain)

/-- A response for `base`, extended for `neighbor` and sent to the last node of `path`. -/
def Sent.IsResponse (env : NodeEnv) (s : NodeState σ) (neighbor : NodeId) (base : EventChain)
    (originator : NodeId) (path : List NodeId) (sent : Sent) : Prop :=
  ∃ next target chain, path.getLast? = some next ∧ s.neighbors[next]? = some target ∧
    Extended env s.store neighbor base chain ∧
    sent = ⟨target.nodeId, ⟨env.id, .chainResponse ⟨originator, chain, path.dropLast⟩⟩⟩

def Transmits (sent : List Sent) (s s' : NodeState σ) : Prop :=
  ∃ drawn seen, s' = { s with saltsDrawn := drawn, floodSeen := seen, sent := s.sent ++ sent }

omit [Store σ] in
theorem Transmits.quiet (s : NodeState σ) (drawn : Nat)
    (seen : ExtTreeMap (NodeId × EventHash) FloodSeen) :
    Transmits [] s { s with saltsDrawn := drawn, floodSeen := seen } := ⟨drawn, seen, by simp⟩

omit [Store σ] in
theorem Transmits.refl (s : NodeState σ) : Transmits [] s s := .quiet s s.saltsDrawn s.floodSeen

omit [Store σ] in
theorem Transmits.trans {first second : List Sent} {s s' s'' : NodeState σ}
    (begins : Transmits first s s') (continues : Transmits second s' s'') :
    Transmits (first ++ second) s s'' := by
  obtain ⟨_, _, rfl⟩ := begins
  obtain ⟨drawn, seen, rfl⟩ := continues
  exact ⟨drawn, seen, by simp⟩

theorem nextHops_transmits (destination : NodeId) (ctx : Routing.RouteContext) :
    Returns (nextHops env destination ctx) s fun _ => Transmits [] s := by
  simp only [nextHops, ends_bind, ends_get]
  split
  · exact .refl s
  · exact .quiet s _ s.floodSeen

omit [Store σ] in
theorem forwardTo_transmits (base : ChainRequest) (hop : NodeId) :
    Returns (forwardTo env base.path { base with path := base.path ++ [env.id] } hop) s
      (fun _ s' => ∃ sent, Transmits sent s s' ∧ ∀ x ∈ sent, x.Forwards env s base) := by
  have nothing : ∃ sent, Transmits sent s s ∧ ∀ x ∈ sent, x.Forwards env s base :=
    ⟨[], .refl s, by simp⟩
  simp only [forwardTo]
  split
  · exact nothing
  · rename_i onward
    simp only [ends_bind, ends_get]
    split
    · rename_i neighbor known
      rw [ends_send]
      rw [not_or] at onward
      refine ⟨[_], ⟨s.saltsDrawn, s.floodSeen, rfl⟩, ?_⟩
      simp only [List.mem_singleton, forall_eq]
      exact ⟨hop, neighbor, onward.1, onward.2, known, rfl⟩
    · exact nothing

theorem floodChainRequest_transmits (destination : NodeId) (ctx : Routing.RouteContext)
    (base : ChainRequest) :
    Returns (floodChainRequest env destination ctx base) s
      (fun _ s' => ∃ sent, Transmits sent s s' ∧ ∀ x ∈ sent, x.Forwards env s base) := by
  simp only [floodChainRequest, ends_bind]
  refine (nextHops_transmits destination ctx).weaken fun hops routed begins => ?_
  apply ends_forM ⟨[], begins, by simp⟩
  rintro hop - before ⟨sent, transmitted, requests⟩
  refine (forwardTo_transmits base hop).weaken fun _ after => ?_
  rintro ⟨more, next, moreRequests⟩
  refine ⟨sent ++ more, transmitted.trans next, fun x member => ?_⟩
  rcases List.mem_append.mp member with old | new
  · exact requests x old
  · obtain ⟨_, _, rfl⟩ := transmitted
    exact moreRequests x new

theorem extendAndRetrace_transmits (neighbor : Neighbor) (originator : NodeId) (base : EventChain)
    (path : List NodeId) :
    Ends (extendAndRetrace env neighbor originator base path) s
      (fun _ s' => ∃ sent, Transmits sent s s' ∧
        ∀ x ∈ sent, x.IsResponse env s neighbor.nodeId base originator path)
      (fun _ s' => s' = s) := by
  have nothing : ∃ sent, Transmits sent s s ∧
      ∀ x ∈ sent, x.IsResponse env s neighbor.nodeId base originator path := ⟨[], .refl s, by simp⟩
  simp only [extendAndRetrace, addLowerBound, addUpperBound, ends_bind, ends_readStore]
  refine ⟨fun lower lowered => ?_, fun _ _ => trivial⟩
  cases lower with
  | none => exact nothing
  | some lower =>
      simp only [ends_bind, ends_readStore]
      refine ⟨fun upper raised => ?_, fun _ _ => trivial⟩
      cases upper with
      | none => exact nothing
      | some upper =>
          simp only [ends_bind, ends_get, ends_ofExcept]
          refine ⟨fun front fronted => ?_, fun _ _ => trivial⟩
          cases front with
          | none => exact nothing
          | some front =>
              simp only [ends_bind, ends_ofExcept]
              refine ⟨fun chain finished => ?_, fun _ _ => trivial⟩
              cases chain with
              | none => exact nothing
              | some chain =>
                  simp only [sendChainResponseRetrace]
                  split
                  · exact nothing
                  · rename_i next last
                    simp only [ends_bind, ends_get]
                    split
                    · rename_i target known
                      rw [ends_send]
                      refine ⟨[_], ⟨s.saltsDrawn, s.floodSeen, rfl⟩, ?_⟩
                      simp only [List.mem_singleton, forall_eq]
                      exact ⟨next, target, chain, last, known,
                        ⟨lower, upper, front, lowered, raised, fronted, finished⟩, rfl⟩
                    · exact nothing

omit [Store σ] in
theorem underForwardCap_transmits (m : ChainRequest) :
    Returns (underForwardCap env m) s fun _ => Transmits [] s := by
  simp only [underForwardCap]
  split
  · exact .refl s
  · simp only [ends_bind, ends_get]
    exact .quiet s s.saltsDrawn _

theorem processChainRequest_transmits (sender : Neighbor) (m : ChainRequest) :
    Ends (processChainRequest env sender m) s
      (fun _ s' => ∃ sent, Transmits sent s s' ∧ ∀ x ∈ sent,
        (m.event.creator ≠ env.id ∧ env.id ∉ m.path ∧
          (0 < m.hopLimit → m.path.length < m.hopLimit.toNat) ∧ x.Forwards env s m) ∨
        ∃ own, m.event.creator = env.id ∧ Store.eventByHash s.store m.event.hash = .ok (some own) ∧
          x.IsResponse env s sender.nodeId ⟨own, [], []⟩ m.originator m.path)
      (fun _ s' => s' = s) := by
  simp only [processChainRequest]
  split
  · rename_i mine
    simp only [ends_bind, ends_readStore]
    refine ⟨fun own read => ?_, fun _ _ => trivial⟩
    cases own with
    | none => exact ⟨[], .refl s, by simp⟩
    | some own =>
        refine (extendAndRetrace_transmits sender m.originator ⟨own, [], []⟩ m.path).weaken
          fun _ after => ?_
        rintro ⟨sent, transmitted, responses⟩
        exact ⟨sent, transmitted, fun x member => Or.inr ⟨own, mine, read, responses x member⟩⟩
  · rename_i foreign
    split
    · exact ⟨[], .refl s, by simp⟩
    · rename_i unvisited
      split
      · exact ⟨[], .refl s, by simp⟩
      · rename_i allowed
        simp only [ends_bind]
        refine (underForwardCap_transmits m).always fun forward counted begins => ?_
        cases forward with
        | false => exact ⟨[], begins, by simp⟩
        | true =>
            refine (floodChainRequest_transmits m.event.creator ⟨m.range⟩ m).always fun _ after =>
              ?_
            rintro ⟨sent, transmitted, requests⟩
            refine ⟨sent, begins.trans transmitted, fun x member =>
              Or.inl ⟨foreign, unvisited, ?_, ?_⟩⟩
            · exact fun limited => Nat.lt_of_not_le fun long => allowed ⟨limited, long⟩
            · obtain ⟨_, _, rfl⟩ := begins
              exact requests x member

def Asks (env : NodeEnv) (s s' : NodeState σ) : Prop :=
  ∃ d drawn seen sent,
    s' = { s with discoveries := d, saltsDrawn := drawn, floodSeen := seen, sent := s.sent ++ sent } ∧
    ∀ x ∈ sent, x.IsRequest env s

omit [Store σ] in
theorem Asks.refl (env : NodeEnv) (s : NodeState σ) : Asks env s s :=
  ⟨s.discoveries, s.saltsDrawn, s.floodSeen, [], by simp, by simp⟩

omit [Store σ] in
theorem Asks.requests {s' s'' : NodeState σ} {sent : List Sent} (asks : Asks env s s')
    (transmits : Transmits sent s' s'') (requests : ∀ x ∈ sent, x.IsRequest env s') :
    Asks env s s'' := by
  obtain ⟨d, _, _, before, rfl, earlier⟩ := asks
  obtain ⟨drawn, seen, rfl⟩ := transmits
  refine ⟨d, drawn, seen, before ++ sent, by simp, fun x member => ?_⟩
  exact (List.mem_append.mp member).elim (earlier x) (requests x)

omit [Store σ] in
theorem withDiscoveries_asks {α : Type} (m : DiscoveryM α) :
    Keeps (Asks env start) (withDiscoveries m) := by
  rintro s ⟨_, drawn, seen, sent, rfl, requests⟩
  have moved : ∀ d, Asks env start { start with
      discoveries := d, saltsDrawn := drawn, floodSeen := seen, sent := start.sent ++ sent } :=
    fun d => ⟨d, drawn, seen, sent, rfl, requests⟩
  rw [ends_withDiscoveries]
  unfold Ends
  split
  · exact moved _
  · exact moved _

omit [Store σ] in
theorem readStore_asks {α : Type} (read : σ → Except String α) :
    Keeps (Asks env start) (readStore read) := by
  intro s asks
  simp [asks]

theorem resolveChainDiscovery_asks (hash : EventHash) (chain : EventChain) :
    Keeps (Asks env start) (resolveChainDiscovery env hash chain) := by
  refine Keeps.bind (fun _ asks => asks) fun s => (readStore_asks _).bind fun lower => ?_
  cases lower with
  | none => exact withDiscoveries_asks _
  | some lower =>
      refine (withDiscoveries_asks _).bind fun _ => (readStore_asks _).bind fun upper => ?_
      cases upper with
      | none => exact withDiscoveries_asks _
      | some upper => exact (withDiscoveries_asks _).bind fun _ => withDiscoveries_asks _

theorem discoverEventChain_asks (event : Event) (range : TimeRange) (callback : ChainCallback) :
    Keeps (Asks env start) (discoverEventChain env event range callback) := by
  refine Keeps.bind (fun _ asks => asks) fun s => Keeps.bind (fun _ asks => asks) fun s' => ?_
  split
  · split
    · exact withDiscoveries_asks _
    · exact withDiscoveries_asks _
    · exact withDiscoveries_asks _
  · refine (withDiscoveries_asks _).bind fun _ => ?_
    split
    · exact resolveChainDiscovery_asks _ _
    · intro before asks
      refine (floodChainRequest_transmits _ _ _).always ?_
      rintro _ after ⟨sent, transmits, requests⟩
      exact asks.requests transmits fun x member => ⟨_, rfl, rfl, rfl, requests x member⟩

theorem discoverEventBounds_asks (event : Event) (range : TimeRange) (registration : Nat) :
    Keeps (Asks env start) (discoverEventBounds env event range registration) := by
  refine Keeps.bind (fun _ asks => asks) fun s => Keeps.bind (fun _ asks => asks) fun s' => ?_
  split
  · split
    · exact withDiscoveries_asks _
    · exact withDiscoveries_asks _
    · exact withDiscoveries_asks _
  · exact (withDiscoveries_asks _).bind fun _ => discoverEventChain_asks event range .node

theorem discoverEventOrder_asks (event1 event2 : Event) (range : TimeRange) (registration : Nat) :
    Keeps (Asks env start) (discoverEventOrder env event1 event2 range registration) := by
  refine Keeps.bind (fun _ asks => asks) fun s => Keeps.bind (fun _ asks => asks) fun s' => ?_
  split
  · split
    · exact withDiscoveries_asks _
    · exact withDiscoveries_asks _
    · exact withDiscoveries_asks _
  · refine (withDiscoveries_asks _).bind fun _ => ?_
    exact (discoverEventChain_asks event1 range .node).bind fun _ =>
      discoverEventChain_asks event2 range .node

theorem processChainResponse_effect (sender : Neighbor) (m : ChainResponse) :
    Ends (processChainResponse env sender m) s
      (fun _ s' => Asks env s s' ∨ ∃ sent, Transmits sent s s' ∧ m.originator ≠ env.id ∧
        ∀ x ∈ sent, x.IsResponse env s sender.nodeId m.chain m.originator m.path)
      (fun _ s' => Asks env s s') := by
  simp only [processChainResponse]
  split
  · have home : Keeps (Asks env s) (do
        withDiscoveries (setDiscoveredChain m.chain.event.hash m.chain)
        resolveChainDiscovery env m.chain.event.hash m.chain) :=
      (withDiscoveries_asks _).bind fun _ => resolveChainDiscovery_asks _ _
    have resolved := (home s (.refl env s)).weaken fun _ s' asks =>
        (Or.inl asks : Asks env s s' ∨ ∃ sent, Transmits sent s s' ∧ m.originator ≠ env.id ∧
        ∀ x ∈ sent, x.IsResponse env s sender.nodeId m.chain m.originator m.path)
    simp only [ends_bind, ends_get]
    split
    · split
      · exact resolved
      · exact Or.inl (.refl env s)
    · exact Or.inl (.refl env s)
  · rename_i foreign
    split
    · exact Or.inl (.refl env s)
    · refine (extendAndRetrace_transmits sender m.originator m.chain m.path).mono ?_ ?_
      · rintro _ after ⟨sent, transmits, responses⟩
        exact Or.inr ⟨sent, transmits, foreign, responses⟩
      · rintro _ after rfl
        exact .refl env after

/-! The operations on records leave everything else alone. -/

section Records

/-- The view shows nothing that the operations on records change. -/
def Aside {τ : Type} (view : NodeState σ → τ) : Prop :=
  ∀ s store drawn neighbors tails routes timed signed, view { s with
    store := store, saltsDrawn := drawn, neighbors := neighbors, unreferencedPerChain := tails
    destinationToNextHop := routes, timedRoutes := timed, signed := signed } = view s

variable {τ : Type} {view : NodeState σ → τ}

omit [Store σ] in
theorem writeStore_aside (aside : Aside view) (write : σ → Except String σ) :
    Preserves view (writeStore write) := by
  intro s
  rw [ends_writeStore]
  exact ⟨fun after _ => aside s after _ _ _ _ _ _, fun _ _ => rfl⟩

omit [Store σ] in
theorem readStore_preserves {α : Type} (read : σ → Except String α) :
    Preserves view (readStore read) := by
  intro s
  simp

omit [Store σ] in
theorem modify_aside {change : NodeState σ → NodeState σ} (same : ∀ s, view (change s) = view s) :
    Preserves (ε := Fault) view (modify change) := by
  intro s
  rw [ends_modify]
  exact same s

section

variable (aside : Aside view)

include aside

theorem addNeighbor_aside (neighbor : NodeId) : Preserves view (addNeighbor neighbor) := by
  intro s
  simp only [addNeighbor, ends_bind, ends_get]
  split
  · rfl
  · simp only [ends_bind, ends_modify, ends_writeStore]
    exact ⟨fun _ _ => aside s _ _ _ _ _ _ _, fun _ _ => aside s _ _ _ _ _ _ _⟩

theorem learnRoute_aside (destination nextHop : NodeId) :
    Preserves view (learnRoute destination nextHop) :=
  Preserves.bind (modify_aside fun s => aside s _ _ _ _ _ _ _) fun _ => writeStore_aside aside _

theorem learnRouteAt_aside (destination nextHop : NodeId) (validity : TimeRange) :
    Preserves view (learnRouteAt destination nextHop validity) :=
  Preserves.bind (modify_aside fun s => aside s _ _ _ _ _ _ _) fun _ =>
    Preserves.bind (fun s => by simp) fun _ => writeStore_aside aside _

theorem insertClockEvent_aside (chain : UInt32) : Preserves view (insertClockEvent env chain) := by
  intro s
  simp only [insertClockEvent, nextSalt, ends_bind, ends_get, ends_modify,
    ends_pure, ends_readStore]
  refine ⟨fun last read => ?_, fun _ _ => aside s _ _ _ _ _ _ _⟩
  split
  · exact aside s _ _ _ _ _ _ _
  · simp only [sign, ends_bind, ends_modify, ends_writeStore, ends_pure]
    exact ⟨fun _ _ => aside s _ _ _ _ _ _ _, fun _ _ => aside s _ _ _ _ _ _ _⟩

theorem publishEvent_aside (data : Bytes) : Preserves view (publishEvent env data) := by
  intro s
  simp only [publishEvent, insertEvent, nextSalt, sign, ends_bind, ends_get, ends_modify,
    ends_pure, ends_readStore, ends_writeStore]
  exact ⟨fun _ _ => ⟨fun _ _ => aside s _ _ _ _ _ _ _, fun _ _ => aside s _ _ _ _ _ _ _⟩,
    fun _ _ => aside s _ _ _ _ _ _ _⟩

theorem pruneToKeep_aside (chain : UInt32) : Preserves view (pruneToKeep env chain) := by
  unfold pruneToKeep
  split
  · split
    · exact writeStore_aside aside _
    · exact fun _ => rfl
  · exact fun _ => rfl

theorem gc_aside : Preserves view (gc env) :=
  preserves_forM fun chain _ => pruneToKeep_aside aside (UInt32.ofNat chain)

theorem recordReverseEdge_aside (neighbor : NodeId) (last theirs : EventHash) :
    Preserves view (recordReverseEdge neighbor last theirs) := by
  refine (readStore_preserves _).bind fun found s => ?_
  cases found with
  | none => rfl
  | some own =>
      rw [ends_when]
      exact ⟨fun _ => writeStore_aside aside _ s, fun _ => rfl⟩

theorem processClockEventNotification_aside (sender : NodeId) (neighbor : Neighbor)
    (m : ClockNotification) : Preserves view (processClockEventNotification sender neighbor m) := by
  refine Preserves.bind (modify_aside fun s => aside s _ _ _ _ _ _ _) fun _ => ?_
  split
  · exact fun _ => rfl
  · refine Preserves.bind (fun s => ?_) fun _ => recordReverseEdge_aside aside _ _ _
    rw [ends_when]
    exact ⟨fun _ => writeStore_aside aside _ s, fun _ => rfl⟩

theorem hydrateWorkingState_aside : Preserves view (hydrateWorkingState env) := by
  refine Preserves.bind (modify_aside fun s => aside s _ _ _ _ _ _ _) fun _ =>
    preserves_forM fun chain _ => ?_
  exact (readStore_preserves _).bind fun tail => modify_aside fun s => aside s _ _ _ _ _ _ _

theorem restore_aside (blob : Bytes) : Preserves view (restore env blob) := by
  unfold restore
  split
  · refine Preserves.bind (writeStore_aside aside _) fun _ => ?_
    refine Preserves.bind (preserves_forM fun _ _ => writeStore_aside aside _) fun _ => ?_
    refine Preserves.bind (preserves_forM fun _ _ => writeStore_aside aside _) fun _ => ?_
    refine Preserves.bind (preserves_forM fun _ _ => writeStore_aside aside _) fun _ => ?_
    exact Preserves.bind (preserves_forM fun _ _ => writeStore_aside aside _) fun _ =>
      hydrateWorkingState_aside aside
  · exact fun _ => rfl

end

def Apart {τ : Type} (view : NodeState σ → τ) : Prop :=
  ∀ s d, view { s with discoveries := d } = view s

omit [Store σ] in
theorem withDiscoveries_apart {α : Type} (apart : Apart view) (m : DiscoveryM α) :
    Preserves view (withDiscoveries m) := by
  intro s
  rw [ends_withDiscoveries]
  unfold Ends
  split
  · exact apart s _
  · exact apart s _

theorem resolveChainDiscovery_apart (apart : Apart view) (hash : EventHash) (chain : EventChain) :
    Preserves view (resolveChainDiscovery env hash chain) := by
  refine Preserves.bind (fun _ => rfl) fun s => (readStore_preserves _).bind fun lower => ?_
  cases lower with
  | none => exact withDiscoveries_apart apart _
  | some lower =>
      refine (withDiscoveries_apart apart _).bind fun _ =>
        (readStore_preserves _).bind fun upper => ?_
      cases upper with
      | none => exact withDiscoveries_apart apart _
      | some upper => exact (withDiscoveries_apart apart _).bind fun _ =>
          withDiscoveries_apart apart _

/-- The actions that only work on records. -/
def NodeAction.aside : NodeAction → Bool
  | .addNeighbor _ | .learnRoute _ _ | .learnRouteAt _ _ _ | .publishEvent
      _ | .gc | .hydrateFromStore | .restore _ => true
  | _ => false

theorem perform_aside (aside : Aside view) {action : NodeAction} (kind : action.aside = true) :
    Preserves view (perform env action) := by
  cases action with
  | addNeighbor neighbor => exact addNeighbor_aside aside neighbor
  | learnRoute destination nextHop => exact learnRoute_aside aside destination nextHop
  | learnRouteAt destination nextHop validity =>
      exact learnRouteAt_aside aside destination nextHop validity
  | publishEvent data => exact fun s => ends_discard.mpr (publishEvent_aside aside data s)
  | gc => exact gc_aside aside
  | hydrateFromStore => exact hydrateWorkingState_aside aside
  | restore blob => exact restore_aside aside blob
  | _ => cases kind

end Records

def NodeAction.asks : NodeAction → Bool
  | .discoverEventChain _ _ _ | .discoverEventBounds _ _ _ | .discoverEventOrder _ _ _ _ => true
  | _ => false

theorem perform_asks {action : NodeAction} (kind : action.asks = true) :
    EndsIn (perform env action) s (Asks env s) := by
  cases action with
  | discoverEventChain event range registration =>
      exact discoverEventChain_asks event range _ s (.refl env s)
  | discoverEventBounds event range registration =>
      exact discoverEventBounds_asks event range registration s (.refl env s)
  | discoverEventOrder event1 event2 range registration =>
      exact discoverEventOrder_asks event1 event2 range registration s (.refl env s)
  | _ => cases kind

section Timers

omit [Store σ] in
theorem scheduleClockTimer_arms (chain : UInt32) :
    EndsIn (scheduleClockTimer env chain) s fun after => ∃ timers, after = { s with timers } := by
  unfold scheduleClockTimer
  split
  · exact ⟨_, rfl⟩
  · exact ⟨s.timers, rfl⟩

omit [Store σ] in
theorem start_arms : EndsIn (Loti.start env) s fun after => ∃ timers,
    after = { s with timers } := by
  refine Keeps.bind (keeps_forM fun chain _ => ?_) (fun _ => ?_) s ⟨s.timers, rfl⟩
  · rintro _ ⟨timers, rfl⟩
    split
    · split
      · exact (scheduleClockTimer_arms _).imp fun _ armed => armed
      · exact ⟨timers, rfl⟩
    · exact ⟨timers, rfl⟩
  · rintro _ ⟨timers, rfl⟩
    rw [ends_when]
    exact ⟨fun _ => ⟨_, rfl⟩, fun _ => ⟨timers, rfl⟩⟩

def NodeState.stopped (s : NodeState σ) : NodeState σ :=
  { s with discoveries := { notified := s.discoveries.notified }, floodSeen := ∅, timers := [] }

theorem ends_restart {thrown : Fault → NodeState σ → Prop} :
    Ends (restart env) s post thrown ↔ Ends (hydrateWorkingState env) s.stopped post thrown := by
  simp only [restart, ends_bind, ends_modify, NodeState.stopped]

end Timers

structure Volatile where
  now : Timestamp
  discoveries : Discoveries
  floodSeen : ExtTreeMap (NodeId × EventHash) FloodSeen
  timers : List Timer

def NodeState.volatile (s : NodeState σ) : Volatile := ⟨s.now, s.discoveries, s.floodSeen, s.timers⟩

omit [Store σ] in
theorem volatile_aside : Aside (NodeState.volatile (σ := σ)) := fun _ _ _ _ _ _ _ _ => rfl

theorem createClockEvent_volatile (chain : UInt32) :
    Preserves NodeState.volatile (createClockEvent (σ := σ) env chain) := by
  refine (insertClockEvent_aside volatile_aside chain).bind fun clockEvent => ?_
  refine Preserves.bind (modify_aside fun s => volatile_aside s _ _ _ _ _ _ _) fun _ => ?_
  refine Preserves.bind (fun s => by simp) fun s => ?_
  refine Preserves.bind (preserves_forM fun neighbor _ => ?_) fun _ =>
    pruneToKeep_aside volatile_aside chain
  intro s
  simp [sendClockEventNotification, NodeState.volatile]

end Loti
