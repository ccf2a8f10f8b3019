import Mathlib.Algebra.Order.BigOperators.Group.Finset
import Mathlib.Tactic.Ring
import Loti.FloodRouting
import Loti.Traffic

/-!
How far a flood spreads. For one discovery a node forwards requests as often as its cap allows,
each time to as many neighbors as its fanout allows, and the originator asks once.
-/

namespace Loti

open Std StateExcept Wire Routing

def Wire.ChainRequest.key (m : ChainRequest) : NodeId × EventHash := (m.originator, m.event.hash)

def Sent.asksFor (key : NodeId × EventHash) (sent : Sent) : Bool :=
  match sent.datagram.payload with
  | .chainRequest m => m.key = key
  | _ => false

def Sent.isRequest (sent : Sent) : Bool :=
  match sent.datagram.payload with
  | .chainRequest _ => true
  | _ => false

/-- The flood policy, with bounds for the width and the fan-in after the constructor's defaults. -/
structure NodeEnv.FloodsWithin (env : NodeEnv) (fanout cap : Nat) : Prop where
  defaulted : ∃ config : NodeConfig, config.discoveryRouting = .flood ∧
    env.config = config.withFloodDefaults
  fanout : env.config.discoveryFanout ≤ fanout
  cap : env.config.discoveryForwardCap.toNat ≤ cap

theorem NodeEnv.FloodsWithin.bounded {env : NodeEnv} {fanout cap : Nat}
    (floods : env.FloodsWithin fanout cap) : env.config.discoveryRouting = .flood ∧
    env.config.discoveryFanout ≠ 0 ∧ env.config.discoveryForwardCap ≠ 0 := by
  obtain ⟨config, flood, same⟩ := floods.defaulted
  rw [same]
  simp only [NodeConfig.withFloodDefaults, flood, if_true]
  refine ⟨trivial, ?_, ?_⟩
  · split
    · decide
    · assumption
  · split
    · decide
    · assumption

section Tally

variable {σ : Type} [Store σ] {env : NodeEnv} {s : NodeState σ} {key : NodeId × EventHash}
    {fanout cap : Nat}
  {s' : NodeState σ}

def NodeState.asked (key : NodeId × EventHash) (s : NodeState σ) : Nat :=
  s.sent.countP (Sent.asksFor key)

def NodeState.forwards (key : NodeId × EventHash) (s : NodeState σ) : Nat :=
  (s.floodSeen.getD key {}).forwards.toNat

def NodeState.tally (key : NodeId × EventHash) (s : NodeState σ) :
    Nat × ExtTreeMap (NodeId × EventHash) FloodSeen :=
  (s.asked key, s.floodSeen)

omit [Store σ] in
theorem tally_aside : Aside (NodeState.tally (σ := σ) key) := fun _ _ _ _ _ _ _ _ => rfl

omit [Store σ] in
theorem floodSeen_aside : Aside (NodeState.floodSeen (σ := σ)) := fun _ _ _ _ _ _ _ _ => rfl

omit [Store σ] in
theorem tally_apart : Apart (NodeState.tally (σ := σ) key) := fun _ _ => rfl

theorem nextHops_stack (flood : env.config.discoveryRouting = .flood) (destination : NodeId)
    (ctx : RouteContext) : Returns (nextHops env destination ctx) s
      (fun hops after =>
          floodNextHops? (fun i => env.salts (s.saltsDrawn + i)) env.config.discoveryFanout env.id
          s.store s.neighbors s.timedRoutes destination ctx = some hops ∧ ∃ drawn,
          after = { s with saltsDrawn := drawn }) := by
  simp only [nextHops, ends_bind, ends_get, flood]
  exact ⟨floodNextHops?_eq .., _, rfl⟩

theorem nextHops_length (floods : env.FloodsWithin fanout cap) (destination : NodeId)
    (ctx : RouteContext) : Returns (nextHops env destination ctx) s
      (fun hops after => hops.length ≤ fanout ∧ ∃ drawn,
        after = { s with saltsDrawn := drawn }) := by
  obtain ⟨flood, wide, -⟩ := floods.bounded
  refine (nextHops_stack flood destination ctx).weaken ?_
  rintro hops after ⟨stack, drawn⟩
  rw [floodNextHops?_eq] at stack
  cases stack
  exact ⟨(sampledNextHops_length wide _).trans floods.fanout, drawn⟩

omit [Store σ] in
theorem forwardAll_sends (incoming : List NodeId) (request : ChainRequest) (hops : List NodeId) :
    Returns (hops.forM (forwardTo (σ := σ) env incoming request)) s
      (fun _ after => ∃ new, after = { s with sent := s.sent ++ new } ∧ new.length ≤ hops.length ∧
        ∀ x ∈ new, x.datagram = ⟨env.id, .chainRequest request⟩) := by
  induction hops generalizing s with
  | nil => exact ⟨[], by simp, by simp, by simp⟩
  | cons hop rest ih =>
      have first : Returns (forwardTo env incoming request hop) s
          (fun _ after => ∃ new, after = { s with sent := s.sent ++ new } ∧ new.length ≤ 1 ∧
            ∀ x ∈ new, x.datagram = ⟨env.id, .chainRequest request⟩) := by
        simp only [forwardTo]
        split
        · exact ⟨[], by simp, by simp, by simp⟩
        · simp only [ends_bind, ends_get]
          split
          · rw [ends_send]
            exact ⟨[_], rfl, by simp, by simp⟩
          · exact ⟨[], by simp, by simp, by simp⟩
      simp only [List.forM_eq_forM, List.forM_cons, ends_bind] at ih ⊢
      refine first.weaken ?_
      rintro _ _ ⟨new, rfl, one, copies⟩
      refine ih.weaken ?_
      rintro _ _ ⟨more, rfl, few, others⟩
      refine ⟨new ++ more, by simp, ?_, fun x member => (List.mem_append.mp member).elim
        (copies x) (others x)⟩
      simp only [List.length_append, List.length_cons]
      omega

theorem floodChainRequest_sends (floods : env.FloodsWithin fanout cap) (destination : NodeId)
    (ctx : RouteContext) (base : ChainRequest) :
    Returns (floodChainRequest env destination ctx base) s
      (fun _ after => ∃ new drawn, after = { s with saltsDrawn := drawn, sent := s.sent ++ new } ∧
        new.length ≤ fanout ∧ ∀ x ∈ new,
        x.datagram = ⟨env.id, .chainRequest { base with path := base.path ++ [env.id] }⟩) := by
  simp only [floodChainRequest, ends_bind]
  refine (nextHops_length floods destination ctx).weaken ?_
  rintro hops _ ⟨few, drawn, rfl⟩
  refine (forwardAll_sends _ _ _).weaken ?_
  rintro _ _ ⟨new, rfl, copies, same⟩
  exact ⟨new, drawn, rfl, copies.trans few, same⟩

omit [Store σ] in
theorem countP_asksFor {new : List Sent} {own : NodeId × EventHash}
    (copies : ∀ x ∈ new, ∃ m, x.datagram.payload = .chainRequest m ∧ m.key = own) :
    new.countP (Sent.asksFor key) = if own = key then new.length else 0 := by
  split
  · rename_i same
    rw [List.countP_eq_length]
    intro x member
    obtain ⟨m, carries, belongs⟩ := copies x member
    simp [Sent.asksFor, carries, belongs, same]
  · rename_i other
    rw [List.countP_eq_zero]
    intro x member
    obtain ⟨m, carries, belongs⟩ := copies x member
    simp [Sent.asksFor, carries, belongs, other]

/-- Every request sent is paid for: `fanout` of them for each forward that was counted, up to the
cap. -/
structure Pays (fanout cap : Nat) (key : NodeId × EventHash) (s s' : NodeState σ) : Prop where
  asked : s'.asked key + fanout * s.forwards key ≤ s.asked key + fanout * s'.forwards key
  capped : s.forwards key ≤ cap → s'.forwards key ≤ cap

omit [Store σ] in
theorem Pays.of_tally (same : s'.tally key = s.tally key) : Pays fanout cap key s s' := by
  obtain ⟨asked, seen⟩ := Prod.mk.inj same
  have forwards : s'.forwards key = s.forwards key := by simp only [NodeState.forwards, seen]
  exact ⟨by rw [asked, forwards], fun below => forwards ▸ below⟩

omit [Store σ] in
theorem Pays.forwarded {m : ChainRequest} {seen : FloodSeen} {new : List Sent} {go : Bool}
    (grown : s'.sent = s.sent ++ new) (noted : s'.floodSeen = s.floodSeen.insert m.key seen)
    (counted : seen.forwards.toNat = s.forwards m.key + go.toNat)
    (below : go = true → s.forwards m.key < cap)
    (few : new.length ≤ fanout * go.toNat) (copies : ∀ x ∈ new, ∃ r,
      x.datagram.payload = .chainRequest r ∧ r.key = m.key) : Pays fanout cap key s s' := by
  have asked : s'.asked key = s.asked key + if m.key = key then new.length else 0 := by
    rw [NodeState.asked, grown, List.countP_append, countP_asksFor copies, NodeState.asked]
  have forwards :
    s'.forwards key = if m.key = key then s.forwards key + go.toNat else s.forwards key := by
    simp only [NodeState.forwards, noted, ExtTreeMap.getD_insert, LawfulEqOrd.compare_eq_iff_eq]
    split
    · rename_i same
      rw [counted, same, NodeState.forwards]
    · rfl
  refine ⟨?_, fun within => ?_⟩
  · rw [asked, forwards]
    split
    · rw [Nat.mul_add]
      omega
    · omega
  · rw [forwards]
    split
    · rename_i same
      cases go with
      | false => simpa using within
      | true =>
          rw [same] at below
          exact below rfl
    · exact within

omit [Store σ] in
theorem underForwardCap_counts (capped : env.config.discoveryForwardCap ≠ 0) (m : ChainRequest) :
    Returns (underForwardCap env m) s
      (fun go after => ∃ seen : FloodSeen,
        after = { s with floodSeen := s.floodSeen.insert m.key seen } ∧
        seen.forwards.toNat = s.forwards m.key + go.toNat ∧
        (go = true → s.forwards m.key < env.config.discoveryForwardCap.toNat)) := by
  simp only [underForwardCap, capped, if_false, ends_bind, ends_get, ends_set, ends_pure]
  refine ⟨_, rfl, ?_⟩
  rw [show s.forwards m.key = (s.floodSeen.getD (m.originator, m.event.hash)
    {}).forwards.toNat from rfl]
  generalize s.floodSeen.getD (m.originator, m.event.hash) {} = found
  have same : (if found.forwards = 0 then { found with firstSeen := s.now } else found).forwards =
    found.forwards := by
    split <;> rfl
  rw [same]
  by_cases full : env.config.discoveryForwardCap ≤ found.forwards
  · simp [full, same]
  · have below : found.forwards.toNat < env.config.discoveryForwardCap.toNat :=
      UInt32.lt_iff_toNat_lt.mp (UInt32.not_le.mp full)
    have bound := env.config.discoveryForwardCap.toNat_lt
    simp only [full, decide_false, Bool.not_false, Bool.toNat_true, below, implies_true,
      and_true, if_false]
    rw [UInt32.toNat_add]
    exact Nat.mod_eq_of_lt (by simp; omega)

omit [Store σ] in
theorem sendChainResponseRetrace_tally (originator : NodeId) (chain : EventChain)
    (path : List NodeId) : Preserves (NodeState.tally (σ := σ) key)
    (sendChainResponseRetrace env originator chain path) := by
  intro s
  unfold sendChainResponseRetrace
  split
  · rfl
  · simp only [ends_bind, ends_get]
    split
    · simp [NodeState.tally, NodeState.asked, Sent.asksFor]
    · rfl

theorem extendAndRetrace_tally (neighbor : Neighbor) (originator : NodeId) (chain : EventChain)
    (path : List NodeId) : Preserves (NodeState.tally (σ := σ) key)
    (extendAndRetrace env neighbor originator chain path) := by
  refine (readStore_preserves _).bind fun lower => ?_
  cases lower with
  | none => exact fun _ => rfl
  | some lower =>
      refine (readStore_preserves _).bind fun upper => ?_
      cases upper with
      | none => exact fun _ => rfl
      | some upper =>
          refine Preserves.bind (fun s => by simp) fun s =>
            Preserves.bind (fun s => by simp) fun front => ?_
          cases front with
          | none => exact fun _ => rfl
          | some front =>
              refine Preserves.bind (fun s => by simp) fun chain => ?_
              cases chain with
              | none => exact fun _ => rfl
              | some chain => exact sendChainResponseRetrace_tally originator chain path

theorem processChainRequest_pays (floods : env.FloodsWithin fanout cap) (sender : Neighbor)
    (m : ChainRequest) :
    EndsIn (processChainRequest env sender m) s (Pays fanout cap key s) := by
  have nothing : Pays fanout cap key s s := .of_tally rfl
  simp only [processChainRequest]
  split
  · simp only [ends_bind, ends_readStore]
    refine ⟨fun own _ => ?_, fun _ _ => nothing⟩
    cases own with
    | none => exact nothing
    | some own =>
        exact (extendAndRetrace_tally sender m.originator ⟨own, [], []⟩ m.path s).imp fun _ => .of_tally
  · split
    · exact nothing
    · split
      · exact nothing
      · simp only [ends_bind]
        refine (underForwardCap_counts floods.bounded.2.2 m).always ?_
        rintro go _ ⟨seen, rfl, counted, below⟩
        cases go with
        | false => exact Pays.forwarded (List.append_nil _).symm rfl counted (by simp) (by simp) (by simp)
        | true =>
            refine (floodChainRequest_sends floods m.event.creator ⟨m.range⟩ m).always ?_
            rintro _ _ ⟨new, drawn, rfl, few, copies⟩
            refine .forwarded rfl rfl counted (fun _ => (below rfl).trans_le floods.cap)
              (by simpa using few) ?_
            exact fun x member => ⟨_, congrArg Datagram.payload (copies x member), rfl⟩

theorem processChainResponse_tally (sender : Neighbor) (m : ChainResponse) :
    Preserves (NodeState.tally (σ := σ) key) (processChainResponse env sender m) := by
  intro s
  simp only [processChainResponse]
  split
  · have resolves : Preserves (NodeState.tally (σ := σ) key) (do
        withDiscoveries (setDiscoveredChain m.chain.event.hash m.chain)
        resolveChainDiscovery env m.chain.event.hash m.chain) :=
      (withDiscoveries_apart tally_apart _).bind fun _ =>
        resolveChainDiscovery_apart tally_apart _ _
    simp only [ends_bind, ends_get]
    split
    · split
      · exact resolves s
      · rfl
    · rfl
  · split
    · rfl
    · exact extendAndRetrace_tally sender m.originator m.chain m.path s

theorem onPacketReceived_pays (floods : env.FloodsWithin fanout cap) (datagram : Bytes) :
    EndsIn (onPacketReceived env datagram) s (Pays fanout cap key s) := by
  have quiet : ∀ {m : NodeM σ Unit}, Preserves (NodeState.tally key) m →
      EndsIn m s (Pays fanout cap key s) :=
    fun preserves => (preserves s).imp fun _ => .of_tally
  unfold onPacketReceived
  split
  · simp only [receive, ends_bind, ends_get]
    split
    · exact .of_tally rfl
    · split
      · exact quiet (processClockEventNotification_aside tally_aside _ _ _)
      · exact processChainRequest_pays floods _ _
      · exact quiet (processChainResponse_tally _ _)
  · exact .of_tally rfl
  · exact .of_tally rfl

/-- What one `discover_event_chain` call sends: requests for the event, and only if the node did not
know of a discovery for it. -/
structure Launches (env : NodeEnv) (fanout : Nat) (event : Event) (s s' : NodeState σ) : Prop where
  seen : s'.floodSeen = s.floodSeen
  sent : ∃ new, s'.sent = s.sent ++ new ∧ new.length ≤ fanout ∧
    (∀ x ∈ new, ∃ m, x.datagram.payload = .chainRequest m ∧ m.key = (env.id, event.hash)) ∧
    (new ≠ [] → event.hash ∉ s.discoveries.chainDiscoveries ∧
      event.hash ∈ s'.discoveries.chainDiscoveries)

omit [Store σ] in
theorem Launches.quiet {event : Event} (same : (s'.sent, s'.floodSeen) = (s.sent, s.floodSeen)) :
    Launches env fanout event s s' := by
  obtain ⟨sent, seen⟩ := Prod.mk.inj same
  exact ⟨seen, [], by simp [sent], by simp, by simp, by simp⟩

theorem discoverEventChain_launches (floods : env.FloodsWithin fanout cap) (event : Event)
    (range : TimeRange) (callback : ChainCallback) :
    EndsIn (discoverEventChain env event range callback) s (Launches env fanout event s) := by
  have apart : Apart fun s : NodeState σ => (s.sent, s.floodSeen) := fun _ _ => rfl
  have quiet : ∀ {m : NodeM σ Unit} (s : NodeState σ),
      Preserves (fun s : NodeState σ => (s.sent, s.floodSeen)) m →
      EndsIn m s (Launches env fanout event s) :=
    fun s preserves => (preserves s).imp fun _ => .quiet
  simp only [discoverEventChain, ends_bind, ends_get]
  split
  · split
    · exact quiet s (withDiscoveries_apart apart _)
    · exact quiet s (withDiscoveries_apart apart _)
    · exact quiet s (withDiscoveries_apart apart _)
  · rename_i absent
    rw [ends_bind, ends_withDiscoveries]
    simp only [insertChainDiscovery, putChain, ends_modify]
    split
    · exact (resolveChainDiscovery_apart apart _ _ _).imp fun _ same => .quiet same
    · refine (floodChainRequest_sends floods _ _ _).always ?_
      rintro _ _ ⟨new, drawn, rfl, few, copies⟩
      refine ⟨rfl, new, rfl, few, fun x member => ?_, fun _ => ⟨?_, ?_⟩⟩
      · exact ⟨_, congrArg Datagram.payload (copies x member), rfl⟩
      · simp [ExtTreeMap.mem_iff_isSome_getElem?, absent]
      · simp

structure Calls (env : NodeEnv) (fanout : Nat) (key : NodeId × EventHash) (s s' : NodeState σ) :
    Prop where
  asked : s'.asked key ≤ s.asked key + if key.1 = env.id then fanout else 0
  remembered : key ∈ s'.floodSeen → s'.forwards key = s.forwards key

omit [Store σ] in
theorem Calls.of_tally (same : s'.tally key = s.tally key) : Calls env fanout key s s' := by
  obtain ⟨asked, seen⟩ := Prod.mk.inj same
  exact ⟨by omega, fun _ => by simp only [NodeState.forwards, seen]⟩

omit [Store σ] in
theorem Calls.trans_same {s' s'' : NodeState σ} (calls : Calls env fanout key s s')
    (same : s''.tally key = s'.tally key) : Calls env fanout key s s'' := by
  obtain ⟨asked, seen⟩ := Prod.mk.inj same
  have forwards : s''.forwards key = s'.forwards key := by simp only [NodeState.forwards, seen]
  exact ⟨asked ▸ calls.asked, fun kept => forwards.trans (calls.remembered (seen ▸ kept))⟩

omit [Store σ] in
theorem Calls.of_same {s₁ s' : NodeState σ} (calls : Calls env fanout key s s')
    (same : s.tally key = s₁.tally key) : Calls env fanout key s₁ s' := by
  obtain ⟨asked, seen⟩ := Prod.mk.inj same
  have forwards : s.forwards key = s₁.forwards key := by simp only [NodeState.forwards, seen]
  exact ⟨asked ▸ calls.asked, fun kept => (calls.remembered kept).trans forwards⟩

omit [Store σ] in
theorem Launches.calls {event : Event} (launches : Launches env fanout event s s') :
    Calls env fanout key s s' := by
  obtain ⟨seen, new, grown, few, requests, -⟩ := launches
  refine ⟨?_, fun _ => by simp only [NodeState.forwards, seen]⟩
  rw [NodeState.asked, grown, List.countP_append, countP_asksFor requests, NodeState.asked]
  split
  · rename_i same
    subst same
    simpa using few
  · omega

omit [Store σ] in
theorem Launches.calls_both {middle s' : NodeState σ} {event1 event2 : Event}
    (first : Launches env fanout event1 s middle) (second : Launches env fanout event2 middle s') :
    Calls env fanout key s s' := by
  obtain ⟨seen, new, grown, few, requests, known⟩ := first
  obtain ⟨seen', more, grown', few', requests', known'⟩ := second
  refine ⟨?_, fun _ => by simp only [NodeState.forwards, seen, seen']⟩
  rw [NodeState.asked, grown', grown, List.countP_append, List.countP_append,
    countP_asksFor requests, countP_asksFor requests', NodeState.asked]
  by_cases same : (env.id, event1.hash) = key
  · subst same
    by_cases again : event2.hash = event1.hash
    · by_cases none : new = []
      · simp only [none, again, if_true, List.length_nil]
        omega
      · have nothing : more = [] := by
          by_contra some
          exact (known' some).1 (again ▸ (known none).2)
        simp only [nothing, again, if_true, List.length_nil]
        omega
    · simp only [Prod.mk.injEq, again, and_false, if_false, if_true]
      omega
  · simp only [same, if_false]
    split
    · rename_i same'
      subst same'
      simpa using few'
    · omega

omit [Store σ] in
theorem purgeDiscoveries_calls (fanout : Nat) (key : NodeId × EventHash) (s : NodeState σ) :
    EndsIn (purgeDiscoveries env) s (Calls env fanout key s) := by
  have unchanged : Calls env fanout key s s := .of_tally rfl
  simp only [purgeDiscoveries, ends_bind, ends_get, ends_when, ends_throw, ends_modify,
    ends_withDiscoveries]
  refine ⟨fun _ => unchanged, fun _ => ?_⟩
  unfold Ends
  split
  · refine ⟨Nat.le_add_right _ _, fun kept => ?_⟩
    simp only [NodeState.forwards, ExtTreeMap.getD_eq_getD_getElem?]
    rw [ExtTreeMap.mem_iff_isSome_getElem?] at kept
    simp only [ExtTreeMap.getElem?_filter'] at kept ⊢
    cases found : s.floodSeen[key]? with
    | none => rfl
    | some seen =>
        rw [found] at kept
        simp [Option.filter] at kept ⊢
        simp [kept]
  · exact ⟨unchanged.asked, unchanged.remembered⟩

omit [Store σ] in
theorem tally_armed {after : NodeState σ} (armed : ∃ timers, after = { s with timers }) :
    after.tally key = s.tally key := by
  obtain ⟨timers, rfl⟩ := armed
  rfl

theorem createClockEvent_tally (chain : UInt32) :
    Preserves (NodeState.tally (σ := σ) key) (createClockEvent env chain) := by
  refine (insertClockEvent_aside tally_aside chain).bind fun clockEvent => ?_
  refine Preserves.bind (modify_aside fun s => tally_aside s _ _ _ _ _ _ _) fun _ => ?_
  refine Preserves.bind (fun s => by simp) fun s => ?_
  refine Preserves.bind (preserves_forM fun neighbor _ => ?_) fun _ =>
    pruneToKeep_aside tally_aside chain
  intro s
  simp [sendClockEventNotification, NodeState.tally, NodeState.asked, Sent.asksFor]

theorem fireTimer_calls (timer : Timer) :
    EndsIn (fireTimer env timer) s (Calls env fanout key s) := by
  simp only [fireTimer, ends_bind, ends_get]
  split
  · simp only [ends_bind, ends_modify]
    cases timer with
    | clock chain =>
        have ticks : Preserves (NodeState.tally (σ := σ) key) (do
            createClockEvent env chain
            scheduleClockTimer env chain) :=
          (createClockEvent_tally chain).bind fun _ _ =>
            (scheduleClockTimer_arms chain).imp fun _ => tally_armed
        exact (ticks _).imp fun _ same => .of_tally same
    | purge =>
        rw [ends_bind]
        refine (purgeDiscoveries_calls fanout key _).mono ?_ ?_
        · exact fun _ _ calls => ⟨calls.asked, calls.remembered⟩
        · exact fun _ _ calls => ⟨calls.asked, calls.remembered⟩
  · exact .of_tally rfl

theorem perform_calls (floods : env.FloodsWithin fanout cap) {action : NodeAction}
    (locally : ∀ bytes, action ≠ .onPacketReceived bytes) :
    EndsIn (perform env action) s (Calls env fanout key s) := by
  have quiet : ∀ {m : NodeM σ Unit}, Preserves (NodeState.tally key) m →
      EndsIn m s (Calls env fanout key s) :=
    fun preserves => (preserves s).imp fun _ => .of_tally
  cases action with
  | start => exact start_arms.imp fun _ armed => .of_tally (tally_armed armed)
  | createClockEvent chain => exact quiet (createClockEvent_tally chain)
  | discoverEventChain event range registration =>
      exact (discoverEventChain_launches floods event range _).imp fun _ => Launches.calls
  | discoverEventBounds event range registration =>
      simp only [perform, discoverEventBounds, ends_bind, ends_get]
      split
      · split
        · exact quiet (withDiscoveries_apart tally_apart _)
        · exact quiet (withDiscoveries_apart tally_apart _)
        · exact quiet (withDiscoveries_apart tally_apart _)
      · rw [ends_bind, ends_withDiscoveries]
        simp only [insertBoundsDiscovery, putBounds, ends_modify]
        exact (discoverEventChain_launches floods event range .node).imp fun _ launches =>
          launches.calls.of_same rfl
  | discoverEventOrder event1 event2 range registration =>
      simp only [perform, discoverEventOrder, ends_bind, ends_get]
      split
      · split
        · exact quiet (withDiscoveries_apart tally_apart _)
        · exact quiet (withDiscoveries_apart tally_apart _)
        · exact quiet (withDiscoveries_apart tally_apart _)
      · rw [ends_bind, ends_withDiscoveries]
        simp only [insertOrderDiscovery, putOrder, ends_modify, ends_bind]
        refine (discoverEventChain_launches floods event1 range .node).mono ?_ ?_
        · intro _ middle first
          exact (discoverEventChain_launches floods event2 range .node).imp
            fun _ second => (first.calls_both second).of_same rfl
        · exact fun _ _ launches => launches.calls.of_same rfl
  | onPacketReceived bytes => exact (locally bytes rfl).elim
  | fireTimer timer => exact fireTimer_calls timer
  | setClock now => exact quiet fun _ => rfl
  | restart =>
      have forgotten : Calls env fanout key s s.stopped :=
        ⟨Nat.le_add_right _ _, fun kept => absurd kept ExtTreeMap.not_mem_empty⟩
      have hydrated : Preserves (NodeState.tally (σ := σ) key) (hydrateWorkingState env) :=
        hydrateWorkingState_aside tally_aside
      exact ends_restart.mpr ((hydrated _).imp fun _ same => forgotten.trans_same same)
  | _ => exact quiet (perform_aside tally_aside rfl)

end Tally

namespace Traffic

section Flood

variable {σ : Type} [Store σ] {peers : Peers} {members : Finset NodeId} {key : NodeId × EventHash}
    {call fanout cap : Nat}
  {w : Traffic σ} {move : Move}

/-- Only members take part, and no node forgets what it has forwarded for the discovery. -/
def Remembers (peers : Peers) (members : Finset NodeId) (key : NodeId × EventHash) (w : Traffic σ)
    (move : Move) : Prop :=
  (∀ id action, move.performed = some (id, action) → id ∈ members) ∧
    ∀ id, key ∈ (w.nodes id).floodSeen → key ∈ ((w.next peers move).nodes id).floodSeen

theorem stateAfter_sent (peers : Peers) (w : Traffic σ) (id : NodeId) (action : NodeAction) :
    (w.stateAfter peers id action).sent =
      (w.nodes id).sent ++ (w.stateAfter peers id action).sent.drop (w.nodes id).sent.length := by
  have sends : Sends (SentBy (peers.env id) (w.nodes id) action) (w.nodes id)
    (w.stateAfter peers id action) :=
    ends_final.mp (perform_sends action)
  obtain ⟨new, grown, -⟩ := sends
  rw [grown, List.drop_left]

omit [Store σ] in
theorem Causes.sender {sent : Sent} (causes : w.Causes move sent) {id : NodeId}
    {action : NodeAction} (performed : move.performed = some (id, action)) :
    sent.datagram.sender = id := by
  cases causes <;> cases performed <;> rfl

variable [LawfulStore σ]

theorem asked_next (allows : w.Allows peers move) (named : ∀ id, NodeWithin .any (w.nodes id))
    (id : NodeId) : ((w.next peers move).nodes id).asked key = (w.nodes id).asked key +
      (w.emits peers move).countP fun sent => sent.datagram.sender = id && sent.asksFor key := by
  have causes := emits_causes allows named
  rcases next_node peers w move id with ⟨others, same⟩ | ⟨action, performed, same⟩
  · have theirs : ∀ sent ∈ w.emits peers move, sent.datagram.sender ≠ id := by
      intro sent emitted mine
      cases performed : move.performed with
      | none => simp [emits, performed] at emitted
      | some taken =>
          rw [(causes sent emitted).sender performed] at mine
          exact others taken.2 (by rw [performed, ← mine])
    rw [same, List.countP_eq_zero.mpr, Nat.add_zero]
    intro sent emitted
    simp [theirs sent emitted]
  · have mine : ∀ sent ∈ w.emits peers move, sent.datagram.sender = id :=
      fun sent emitted => (causes sent emitted).sender performed
    have emitted :
      (w.stateAfter peers id action).sent = (w.nodes id).sent ++ w.emits peers move := by
      rw [stateAfter_sent]
      simp only [emits, performed]
    rw [same, NodeState.asked, emitted, List.countP_append, NodeState.asked]
    congr 1
    refine List.countP_congr fun sent member => ?_
    simp [mine sent member]

def sentFor (w : Traffic σ) (sender : NodeId) (key : NodeId × EventHash) : Nat :=
  w.history.countP fun flight => flight.sent.datagram.sender = sender && flight.sent.asksFor key

def copies (w : Traffic σ) (call : Nat) (key : NodeId × EventHash) : List Flight :=
  w.history.filter fun flight => flight.call = call && flight.sent.asksFor key

structure Bounded (fanout cap : Nat) (members : Finset NodeId) (key : NodeId × EventHash)
    (w : Traffic σ) : Prop where
  senders : ∀ flight ∈ w.history, flight.sent.datagram.sender ∈ members
  callers : ∀ made ∈ w.calls, made.1 ∈ members
  outbox : ∀ id, w.sentFor id key = (w.nodes id).asked key
  paid : ∀ id ∈ members, id ≠ key.1 →
    (w.nodes id).asked key ≤ fanout * (w.nodes id).forwards key ∧ (w.nodes id).forwards key ≤ cap
  launched :
    ∀ call, ((w.copies call key).countP fun flight => flight.sent.datagram.sender = key.1) ≤ fanout

omit [Store σ] [LawfulStore σ] in
theorem forwards_of_not_mem {s : NodeState σ} (absent : key ∉ s.floodSeen) :
    s.forwards key = 0 := by
  simp [NodeState.forwards, ExtTreeMap.getD_eq_fallback absent]

omit [LawfulStore σ] in
theorem paid_next (floods : ∀ id ∈ members, (peers.env id).FloodsWithin fanout cap)
    (allows : w.Allows peers move) (remembers : w.Remembers peers members key move) {id : NodeId}
    (member : id ∈ members) (other : id ≠ key.1)
    (paid : (w.nodes id).asked key ≤ fanout * (w.nodes id).forwards key ∧
      (w.nodes id).forwards key ≤ cap) :
    ((w.next peers move).nodes id).asked key ≤ fanout * ((w.next peers move).nodes id).forwards
      key ∧ ((w.next peers move).nodes id).forwards key ≤ cap := by
  have kept := remembers.2 id
  rcases next_node peers w move id with ⟨-, same⟩ | ⟨action, performed, same⟩
  · rwa [same]
  rw [same] at kept ⊢
  cases move with
  | act node action =>
      cases performed
      have calls : Calls (peers.env id) fanout key (w.nodes id) (w.stateAfter peers id action) :=
        ends_final.mp (perform_calls (floods id member) allows)
      have forwards : (w.stateAfter peers id action).forwards key = (w.nodes id).forwards key := by
        by_cases known : key ∈ (w.stateAfter peers id action).floodSeen
        · exact calls.remembered known
        · rw [forwards_of_not_mem known, forwards_of_not_mem fun before => known (kept before)]
      have asked := calls.asked
      rw [peers.identified id, if_neg other.symm] at asked
      rw [forwards]
      exact ⟨asked.trans paid.1, paid.2⟩
  | deliver flight bytes =>
      cases performed
      have pays : Pays fanout cap key (w.nodes flight.sent.destination)
          (w.stateAfter peers flight.sent.destination (.onPacketReceived bytes)) :=
        ends_final.mp (onPacketReceived_pays (floods _ member) bytes)
      have spent := pays.asked
      exact ⟨by omega, pays.capped paid.2⟩
  | lose flight => cases performed
  | duplicate flight => cases performed

theorem launched_next (floods : ∀ id ∈ members, (peers.env id).FloodsWithin fanout cap)
    (allows : w.Allows peers move) (named : ∀ id, NodeWithin .any (w.nodes id))
    (recorded : w.Recorded) (remembers : w.Remembers peers members key move) :
    ((w.emits peers move).countP fun sent => sent.datagram.sender = key.1 && sent.asksFor key) ≤
      if w.callOf move = w.calls.length then fanout else 0 := by
  have causes := emits_causes allows named
  cases move with
  | act id action =>
      have grown : ((w.next peers (.act id action)).nodes key.1).asked key = _ :=
        asked_next allows named key.1
      have called : w.callOf (.act id action) = w.calls.length := rfl
      rw [if_pos called]
      rcases next_node peers w (.act id action) key.1 with ⟨-, same⟩ | ⟨_, performed, same⟩
      · rw [same] at grown
        omega
      · cases performed
        have calls : Calls (peers.env key.1) fanout key (w.nodes key.1)
          (w.stateAfter peers key.1 action) :=
          ends_final.mp (perform_calls (floods _ (remembers.1 _ _ rfl)) allows)
        have asked := calls.asked
        rw [peers.identified, if_pos rfl, ← same] at asked
        omega
  | deliver flight bytes =>
      refine Nat.le_trans (Nat.le_of_eq (List.countP_eq_zero.mpr fun sent emitted => ?_))
        (Nat.zero_le _)
      simp only [Bool.and_eq_true, decide_eq_true_eq, not_and, Bool.not_eq_true]
      intro mine
      cases causes sent emitted with
      | @forwarded call id sender hop m bytes heard unvisited =>
          -- the path of a request leads through its originator, who is not this node
          have visited := (recorded.callers _ (recorded.sent _ allows.1) m rfl).1
          have foreign : m.originator ≠ key.1 := by
            rintro same
            rw [same, ← show id = key.1 from mine] at visited
            exact unvisited visited
          have different : m.key ≠ key := fun same => foreign (congrArg Prod.fst same)
          exact decide_eq_false different
      | answered => rfl
      | returned => rfl
  | lose flight => simp [emits, Move.performed]
  | duplicate flight => simp [emits, Move.performed]

theorem Bounded.next (bounded : w.Bounded fanout cap members key)
    (floods : ∀ id ∈ members, (peers.env id).FloodsWithin fanout cap) (allows : w.Allows peers move)
    (named : ∀ id, NodeWithin .any (w.nodes id)) (recorded : w.Recorded)
    (remembers : w.Remembers peers members key move) :
    (w.next peers move).Bounded fanout cap members key where
  senders flight member := by
    rcases List.mem_append.mp member with old | new
    · exact bounded.senders flight old
    · obtain ⟨sent, emitted, rfl⟩ := List.mem_map.mp new
      cases performed : move.performed with
      | none => simp [emits, performed] at emitted
      | some taken =>
          rw [(emits_causes allows named sent emitted).sender performed]
          exact remembers.1 _ _ performed
  callers made member := by
    cases move with
    | act id action =>
        rcases List.mem_append.mp member with old | new
        · exact bounded.callers made old
        · rw [List.mem_singleton.mp new]
          exact remembers.1 id action rfl
    | deliver flight bytes => exact bounded.callers made member
    | lose flight => exact bounded.callers made member
    | duplicate flight => exact bounded.callers made member
  outbox id := by
    have history : (w.next peers move).history =
        w.history ++ (w.emits peers move).map (Flight.mk (w.callOf move)) := rfl
    rw [asked_next allows named id, ← bounded.outbox id, sentFor, history, List.countP_append,
      List.countP_map]
    rfl
  paid id member other := paid_next floods allows remembers member other
    (bounded.paid id member other)
  launched call := by
    have step := launched_next floods allows named recorded remembers
    have grown : ((w.next peers move).copies call key).countP
        (fun flight => flight.sent.datagram.sender = key.1) =
        (w.copies call key).countP (fun flight => flight.sent.datagram.sender = key.1) +
          if w.callOf move = call then
            (w.emits peers move).countP fun sent => sent.datagram.sender = key.1 && sent.asksFor key
          else 0 := by
      simp only [copies, Traffic.next, List.filter_append, List.countP_append, List.countP_filter,
        List.countP_map]
      congr 1
      split
      · rename_i same
        simp [Function.comp_def, same]
      · rename_i different
        simp [Function.comp_def, different]
    rw [grown]
    split
    · rename_i same
      split at step
      · rename_i now
        -- the call is made now, so nothing was sent for it before
        have none :
          (w.copies call key).countP (fun flight => flight.sent.datagram.sender = key.1) = 0 := by
          rw [List.countP_eq_zero]
          intro flight member
          have listed := List.mem_filter.mp member
          have earlier := recorded.numbered flight listed.1
          have labelled : flight.call = call := by
            have both := listed.2
            simp only [Bool.and_eq_true, decide_eq_true_eq] at both
            exact both.1
          omega
        omega
      · exact (Nat.add_le_add_left step _).trans (bounded.launched call)
    · exact bounded.launched call

theorem Initial.bounded (initial : w.Initial peers) : w.Bounded fanout cap members key := by
  have fresh : ∀ id, (w.nodes id).sent = [] ∧ (w.nodes id).floodSeen = ∅ := by
    intro id
    obtain ⟨store, now, -, same⟩ := initial.nodes id
    rw [same]
    exact ⟨(hydrateWorkingState_aside sent_aside).final,
      (hydrateWorkingState_aside floodSeen_aside).final⟩
  have asked : ∀ id, (w.nodes id).asked key = 0 := fun id => by simp [NodeState.asked, (fresh id).1]
  refine ⟨by simp [initial.history], by simp [initial.calls], fun id => ?_, fun id _ _ =>
    ?_, fun call => ?_⟩
  · rw [asked id]
    simp [sentFor, initial.history]
  · rw [asked id, forwards_of_not_mem]
    · exact ⟨Nat.zero_le _, Nat.zero_le _⟩
    · simp [(fresh id).2]
  · simp [copies, initial.history]

theorem Arises.bounded (floods : ∀ id ∈ members, (peers.env id).FloodsWithin fanout cap)
    (arises : w.Arises peers (Remembers peers members key)) : w.Bounded fanout cap members key := by
  induction arises with
  | initial initial => exact initial.bounded
  | move move before allows remembers ih =>
      exact ih.next floods allows before.named before.recorded remembers

omit [Store σ] [LawfulStore σ] in
theorem Bounded.copies_le (bounded : w.Bounded fanout cap members key) (call : Nat)
    (caller : key.1 ∈ members) :
    (w.copies call key).length ≤ fanout * (1 + (members.card - 1) * cap) := by
  let sender (flight : Flight) : NodeId := flight.sent.datagram.sender
  let share (id : NodeId) : Nat := ((w.copies call key).map sender).count id
  have share_eq : ∀ id, share id =
      (w.copies call key).countP fun flight => flight.sent.datagram.sender = id := by
    intro id
    simp only [share, sender, List.count_eq_countP, List.countP_map]
    exact List.countP_congr fun flight _ => by simp
  have origin : share key.1 ≤ fanout := (share_eq key.1).trans_le (bounded.launched call)
  have others : ∀ id ∈ members.erase key.1, share id ≤ fanout * cap := by
    intro id member
    obtain ⟨other, member⟩ := Finset.mem_erase.mp member
    obtain ⟨paid, capped⟩ := bounded.paid id member other
    calc share id = (w.copies call key).countP fun flight => flight.sent.datagram.sender = id :=
          share_eq id
      _ ≤ w.sentFor id key := by
        rw [copies, List.countP_filter]
        refine List.countP_mono_left fun flight _ counted => ?_
        simp only [Bool.and_eq_true, decide_eq_true_eq] at counted ⊢
        exact ⟨counted.1, counted.2.2⟩
      _ = (w.nodes id).asked key := bounded.outbox id
      _ ≤ fanout * (w.nodes id).forwards key := paid
      _ ≤ fanout * cap := Nat.mul_le_mul_left fanout capped
  have listed : ∀ id ∈ (((w.copies call key).map sender : List NodeId) : Multiset NodeId),
      id ∈ members := by
    intro id member
    obtain ⟨flight, copy, rfl⟩ := List.mem_map.mp (Multiset.mem_coe.mp member)
    exact bounded.senders flight (List.mem_of_mem_filter copy)
  calc (w.copies call key).length = ∑ id ∈ members, share id := by
        have total := Multiset.sum_count_eq_card listed
        simpa [share] using total.symm
    _ = share key.1 + ∑ id ∈ members.erase key.1, share id :=
        (Finset.add_sum_erase members share caller).symm
    _ ≤ fanout + (members.erase key.1).card * (fanout * cap) :=
        Nat.add_le_add origin (Finset.sum_le_card_nsmul _ _ _ others)
    _ = fanout * (1 + (members.card - 1) * cap) := by
        rw [Finset.card_erase_of_mem caller]
        ring

def Asking (w : Traffic σ) : Prop :=
  ∀ flight ∈ w.history, ∀ m, flight.sent.datagram.payload = .chainRequest m →
    ∀ id event range registration,
    w.calls[flight.call]? = some (id, .discoverEventChain event range registration) →
    m.key = (id, event.hash)

theorem Asking.next (asking : w.Asking)
    (floods : ∀ id ∈ members, (peers.env id).FloodsWithin fanout cap)
    (allows : w.Allows peers move) (named : ∀ id, NodeWithin .any (w.nodes id))
    (recorded : w.Recorded)
    (remembers : w.Remembers peers members key move) : (w.next peers move).Asking := by
  have before :
    ∀ flight ∈ w.history, (w.next peers move).calls[flight.call]? = w.calls[flight.call]? := by
    intro flight member
    have made := List.getElem?_eq_getElem (recorded.numbered flight member)
    rw [made, next_calls peers made]
  intro flight member m carries id event range registration called
  rcases List.mem_append.mp member with old | new
  · rw [before flight old] at called
    exact asking flight old m carries id event range registration called
  · obtain ⟨sent, emitted, rfl⟩ := List.mem_map.mp new
    cases emits_causes allows named sent emitted with
    | notified => cases carries
    | @asked node hop action m mine begins _ _ =>
        cases carries
        obtain ⟨rfl, rfl⟩ : node = id ∧ action = .discoverEventChain event range registration := by
          simpa [Traffic.next, callOf] using called
        have launches : Launches (peers.env node) fanout event (w.nodes node)
            (w.stateAfter peers node (.discoverEventChain event range registration)) :=
          ends_final.mp (discoverEventChain_launches (floods _ (remembers.1 _ _ rfl)) event range _)
        obtain ⟨new, grown, -, requests, -⟩ := launches.sent
        simp only [emits, Move.performed, grown, List.drop_left] at emitted
        obtain ⟨_, ⟨⟩, belongs⟩ := requests _ emitted
        rw [belongs, peers.identified]
    | @forwarded call node sender hop m bytes _ _ _ _ _ _ =>
        cases carries
        have delivered := recorded.sent _ allows.1
        exact asking _ delivered m rfl id event range registration
          ((before _ delivered).symm.trans called)
    | answered => cases carries
    | returned => cases carries

theorem Arises.asking (floods : ∀ id ∈ members, (peers.env id).FloodsWithin fanout cap)
    (arises : w.Arises peers (Remembers peers members key)) : w.Asking := by
  induction arises with
  | initial initial => simp [Asking, initial.history]
  | move move before allows remembers ih =>
      exact ih.next floods allows before.named before.recorded remembers

/-- A discovery causes a bounded number of requests: those for an event that go back to one call,
and all that go back to one `discover_event_chain` call. -/
theorem flood_bounded {fanout cap : Nat}
    (floods : ∀ id ∈ members, (peers.env id).FloodsWithin fanout cap)
    {originator : NodeId} {hash : EventHash}
    (arises : w.Arises peers (Remembers peers members (originator, hash)))
    {call : Nat} {action : NodeAction} (called : w.calls[call]? = some (originator, action)) :
    (w.history.countP fun flight => flight.call = call && flight.sent.asksFor (originator, hash)) ≤
      fanout * (1 + (members.card - 1) * cap) ∧
    ∀ event range registration, action = .discoverEventChain event range registration →
      event.hash = hash →
        (w.history.countP fun flight => flight.call = call && flight.sent.isRequest) ≤
        fanout * (1 + (members.card - 1) * cap) := by
  have bounded := arises.bounded floods
  have asking := arises.asking floods
  have caller : originator ∈ members := bounded.callers _ (List.mem_of_getElem? called)
  have all := bounded.copies_le call caller
  rw [copies, ← List.countP_eq_length_filter] at all
  refine ⟨all, ?_⟩
  rintro event range registration rfl rfl
  refine (List.countP_mono_left fun flight member counted => ?_).trans all
  simp only [Bool.and_eq_true, decide_eq_true_eq] at counted ⊢
  obtain ⟨rfl, request⟩ := counted
  refine ⟨rfl, ?_⟩
  cases carries : flight.sent.datagram.payload with
  | chainRequest m => simp [Sent.asksFor, carries, asking flight member m carries _ _ _ _ called]
  | clockNotification m => simp [Sent.isRequest, carries] at request
  | chainResponse m => simp [Sent.isRequest, carries] at request

end Flood

def RemembersAll {σ : Type} [Store σ] (peers : Peers) (members : Finset NodeId) (w : Traffic σ)
    (move : Move) : Prop :=
  match move.performed with
  | some (id, action) => id ∈ members ∧ ∀ key ∈ (w.nodes id).floodSeen.keys,
      key ∈ (w.stateAfter peers id action).floodSeen
  | none => True

instance {σ : Type} [Store σ] (peers : Peers) (members : Finset NodeId) (w : Traffic σ)
    (move : Move) : Decidable (w.RemembersAll peers members move) :=
  match performed : move.performed with
  | some (id, action) =>
      decidable_of_iff (id ∈ members ∧
          ∀ key ∈ (w.nodes id).floodSeen.keys, key ∈ (w.stateAfter peers id action).floodSeen)
        (by simp [RemembersAll, performed])
  | none => isTrue (by simp [RemembersAll, performed])

theorem RemembersAll.remembers {σ : Type} [Store σ] {peers : Peers} {members : Finset NodeId}
    {w : Traffic σ} {move : Move} (remembers : w.RemembersAll peers members move)
    (key : NodeId × EventHash) : w.Remembers peers members key move := by
  refine ⟨fun id action performed => ?_, fun id known => ?_⟩
  · simp only [RemembersAll, performed] at remembers
    exact remembers.1
  · rcases next_node peers w move id with ⟨-, same⟩ | ⟨action, performed, same⟩
    · rwa [same]
    · simp only [RemembersAll, performed] at remembers
      rw [same]
      exact remembers.2 key (ExtTreeMap.mem_keys.mpr known)

def floodConfig : NodeConfig :=
  { discoveryRouting := .flood, discoveryFanout := 2, discoveryForwardCap := 1 }

def floodPeers : Peers where
  env id := { NodeEnv.simulated checksum 0 floodConfig with id }
  identified _ := rfl
  steady _ := True

def floodTraffic : Traffic InMemoryStore :=
  play floodPeers ⟨fun id => .bootAt (floodPeers.env id) {} 0, 0, [], []⟩ (rowMoves ++ askMoves)

def floodMembers : Finset NodeId := {.ofUInt64 1, .ofUInt64 2, .ofUInt64 3}

def floodEvent : Event :=
  match floodTraffic.calls.getLast? with
  | some (_, .discoverEventChain event _ _) => event
  | _ => default

theorem flood_bounded_sample :
    0 < (floodTraffic.history.countP fun flight => flight.call = 13 && flight.sent.isRequest) ∧
    (floodTraffic.history.countP fun flight => flight.call = 13 && flight.sent.isRequest) ≤ 2 *
    (1 + (3 - 1) * 1) := by
  have floods : ∀ id ∈ floodMembers, (floodPeers.env id).FloodsWithin 2 1 :=
    fun id _ => ⟨⟨floodConfig, rfl, rfl⟩, Nat.le_refl 2, Nat.le_refl 1⟩
  have arises : floodTraffic.Arises floodPeers (RemembersAll floodPeers floodMembers) := by
    refine Arises.play
      (.initial ⟨fun _ => ⟨{}, 0, InMemoryStore.within_empty _, rfl⟩, rfl, rfl, rfl⟩) ?_
    decide +kernel
  have called :
    floodTraffic.calls[13]? = some (.ofUInt64 1, .discoverEventChain floodEvent ⟨0, 100⟩ 5) := by
    decide +kernel
  have bounds := flood_bounded floods
    (arises.mono fun _ _ remembers => remembers.remembers (.ofUInt64 1, floodEvent.hash)) called
  exact ⟨by decide +kernel, bounds.2 floodEvent ⟨0, 100⟩ 5 rfl rfl⟩

end Traffic

end Loti
