import Loti.OrderTracking

/-!
Runs of a node from the insertion of an order discovery on, for as long as it is in
progress: once the node was told of a completed chain for each side, the order is
completed with the comparison of the two, unless a purge dropped a side in between.
-/

namespace Loti

open Std StateExcept

section Node

variable {σ : Type} [Store σ] {env : NodeEnv} {s : NodeState σ} {key : EventHash × EventHash}
    {since : Nat}
  {hash : EventHash} {chain : EventChain}

def TracksOn (since : Nat) (key : EventHash × EventHash) (m : NodeM σ Unit)
    (s : NodeState σ) : Prop :=
  Ends m s (fun _ after => Tracks since key False after.discoveries)
    (fun fault after => fault.Fatal ∨ Tracks since key False after.discoveries)

omit [Store σ] in
theorem tracksOn_of_discoveries {m : NodeM σ Unit} (tracks : Tracks since key False s.discoveries)
    (preserves : Preserves NodeState.discoveries m) : TracksOn since key m s := by
  refine (preserves s).mono (fun _ after same => ?_) fun _ after same => Or.inr ?_
  · rwa [same]
  · rwa [same]

omit [Store σ] in
theorem tracksOn_of_volatile {m : NodeM σ Unit} (tracks : Tracks since key False s.discoveries)
    (preserves : Preserves NodeState.volatile m) : TracksOn since key m s :=
  tracksOn_of_discoveries tracks fun before => (preserves before).imp
    fun _ same => congrArg Volatile.discoveries same

omit [Store σ] in
theorem tracksOn_withDiscoveries {m : DiscoveryM Unit}
    (ends : EndsOrFatal m s.discoveries (Tracks since key False)) :
    TracksOn since key (withDiscoveries m) s := by
  rw [TracksOn, ends_withDiscoveries]
  exact ends.mono (fun _ _ tracks => tracks) fun _ _ fatal => Or.inl fatal

theorem resolveChainDiscovery_tracks (tracks : Tracks since key False s.discoveries)
    (building : Building hash s.discoveries) (encloses : chain.event.hash = hash) :
    TracksOn since key (resolveChainDiscovery env hash chain) s := by
  have abort : ∀ before : NodeState σ, Tracks since key False before.discoveries →
      Building hash before.discoveries →
      TracksOn since key (withDiscoveries (abortChainDiscovery s.now hash)) before :=
      fun before kept building =>
    tracksOn_withDiscoveries (abortChainDiscovery_tracks hash kept fun entry read =>
      (building.about entry read).1)
  unfold TracksOn at abort ⊢
  simp only [resolveChainDiscovery, addLowerBound, addUpperBound, ends_bind,
    ends_get, ends_readStore]
  refine ⟨fun lower lowered => ?_, fun _ _ => Or.inr tracks⟩
  cases lower with
  | none => exact abort s tracks building
  | some lower =>
      obtain ⟨_, -, lowerEq⟩ := addLocalLowerBound_ok lowered
      simp only [ends_bind, ends_withDiscoveries, ends_readStore]
      refine (setDiscoveredChain_tracks tracks building (by rw [lowerEq, encloses])).always ?_
      rintro _ d1 ⟨tracks1, building1⟩
      refine ⟨fun upper raised => ?_, fun _ _ => Or.inr tracks1⟩
      cases upper with
      | none => exact abort _ tracks1 building1
      | some upper =>
          have spliced : Splices env.id s.store chain upper := ⟨lower, lowered, raised⟩
          simp only [ends_bind, ends_withDiscoveries]
          refine (setDiscoveredChain_tracks tracks1 building1
            (by rw [spliced.event, encloses])).always ?_
          rintro _ d2 ⟨tracks2, building2⟩
          exact (completeChainDiscovery_tracks hash tracks2 building2.about).mono
            (fun _ _ kept => kept) fun _ _ fatal => Or.inl fatal

theorem discoverEventChain_tracks (event : Event) (range : TimeRange) (callback : ChainCallback)
    (tracks : Tracks since key False s.discoveries)
    (sound : s.Justified env) :
    TracksOn since key (discoverEventChain env event range callback) s := by
  unfold TracksOn
  simp only [discoverEventChain, ends_bind, ends_get]
  split
  · rename_i entry read
    have encloses := (sound.chains _ entry read).2.1
    split
    · rename_i running
      refine tracksOn_withDiscoveries ?_
      simp only [putChain, ends_modify]
      refine tracks.fades (fades_putChain _ fun old read' => ?_) False.elim
      rwa [← Option.mem_unique read read']
    · rename_i aborted
      have told : EndsOrFatal (invokeAborted s.now event callback) s.discoveries
          (Fades key (Side key event.hash) s.discoveries) :=
        invokeAborted_fades event callback
      refine tracksOn_withDiscoveries (told.weaken fun _ _ fades => ?_)
      exact tracks.fades fades fun side => ⟨event.hash, side, fades.lost ⟨entry, read, aborted⟩⟩
    · rename_i completed
      have found : s.discoveries.Found entry.discovery.chain.event.hash entry.discovery.chain :=
        ⟨entry, encloses ▸ read, completed, rfl⟩
      exact tracksOn_withDiscoveries
        ((invokeCompleted_tracks event callback tracks found).weaken fun _ _ kept => kept.1)
  · rename_i absent
    have opened : Tracks since key False { s.discoveries with
        chainDiscoveries := s.discoveries.chainDiscoveries.insert event.hash
          ⟨newChainDiscovery s.now event env.id range, [callback]⟩ } :=
      tracks.fades (fades_putChain _ fun old read => by simp [absent] at read) False.elim
    simp only [ends_bind, ends_withDiscoveries, insertChainDiscovery, putChain, ends_modify]
    split
    · exact resolveChainDiscovery_tracks opened ⟨_, ExtTreeMap.getElem?_insert_self,
        rfl, rfl, rfl⟩ rfl
    · refine (floodChainRequest_transmits _ _ _).always ?_
      rintro _ _ ⟨sent, ⟨drawn, seen, rfl⟩, -⟩
      exact opened

omit [Store σ] in
theorem notify_tracks (tracks : Tracks since key False s.discoveries) {notification : Notification}
    (other : ∀ event chain, notification ≠ .chainCompleted .node event chain) :
    TracksOn since key (withDiscoveries (notify [notification])) s := by
  refine tracksOn_withDiscoveries ?_
  simp only [notify, ends_modify]
  exact tracks.fades
    (fades_of_same rfl rfl rfl fun event chain => by simp [Ne.symm (other event chain)]) False.elim

theorem discoverEventBounds_tracks (event : Event) (range : TimeRange) (registration : Nat)
    (tracks : Tracks since key False s.discoveries)
    (sound : s.Justified env) :
    TracksOn since key (discoverEventBounds env event range registration) s := by
  unfold TracksOn
  simp only [discoverEventBounds, ends_bind, ends_get]
  split
  · split
    · refine tracksOn_withDiscoveries ?_
      simp only [putBounds, ends_modify]
      exact tracks.fades (fades_of_same rfl rfl (List.append_nil _).symm (by simp)) False.elim
    · exact notify_tracks tracks (by simp)
    · exact notify_tracks tracks (by simp)
  · simp only [ends_bind, ends_withDiscoveries, insertBoundsDiscovery, putBounds, ends_modify]
    refine discoverEventChain_tracks event range .node ?_ ?_
    · exact tracks.fades (fades_of_same rfl rfl (List.append_nil _).symm (by simp)) False.elim
    · exact sound.putBounds rfl (by simp [newBoundsDiscovery])

theorem discoverSides_tracks (event1 event2 : Event) (range : TimeRange)
    (tracks : Tracks since key False s.discoveries)
    (sound : s.Justified env) :
    TracksOn since key (do
      discoverEventChain env event1 range .node
      discoverEventChain env event2 range .node) s := by
  have begins : NodeAdvancing env (fun _ _ => True) False s.discoveries {} s := .start sound
  have advances := discoverEventChain_ends event1 range .node begins fun _ _ _ => trivial
  unfold TracksOn
  rw [ends_bind]
  refine ((discoverEventChain_tracks event1 range .node tracks sound).and advances).mono ?_
    fun _ _ ended => ended.1
  rintro _ after ⟨tracks', sound', -⟩
  exact discoverEventChain_tracks event2 range .node tracks' sound'

omit [Store σ] in
theorem sound_putOrder (event1 event2 : Event) (registration : Nat)
    (sound : s.Justified env) :
    Discoveries.Sound (validateChainDiscoveryResult env) (fun _ _ => True) { s.discoveries with
      orderDiscoveries := s.discoveries.orderDiscoveries.insert (event1.hash, event2.hash)
        ⟨newOrderDiscovery s.now event1 event2, [registration]⟩ } :=
  sound.putOrder rfl (by simp [newOrderDiscovery])

theorem discoverEventOrder_tracks (event1 event2 : Event) (range : TimeRange) (registration : Nat)
    (tracks : Tracks since key False s.discoveries)
    (sound : s.Justified env) :
    TracksOn since key (discoverEventOrder env event1 event2 range registration) s := by
  have put : ∀ entry : OrderEntry,
      ((event1.hash, event2.hash) = key → s.discoveries.orderDiscovery key = some entry.discovery) →
      Tracks since key False { s.discoveries with
        orderDiscoveries := s.discoveries.orderDiscoveries.insert
          (event1.hash, event2.hash) entry } := by
    intro entry unchanged
    refine tracks.fades (fades_of_same rfl ?_ (List.append_nil _).symm (by simp)) False.elim
    rw [orderDiscovery_putOrder]
    split
    · rename_i same
      exact (unchanged same).symm
    · rfl
  unfold TracksOn
  simp only [discoverEventOrder, ends_bind, ends_get]
  split
  · rename_i entry read
    split
    · refine tracksOn_withDiscoveries ?_
      simp only [putOrder, ends_modify]
      refine put _ ?_
      rintro rfl
      simp [Discoveries.orderDiscovery, read]
    · exact notify_tracks tracks (by simp)
    · exact notify_tracks tracks (by simp)
  · rename_i absent
    rw [ends_bind, ends_withDiscoveries]
    simp only [insertOrderDiscovery, putOrder, ends_modify]
    refine discoverSides_tracks event1 event2 range (put _ ?_)
      (sound_putOrder event1 event2 registration sound)
    rintro rfl
    obtain ⟨discovery, present⟩ := tracks.present
    simp [Discoveries.orderDiscovery, absent] at present

theorem discoverEventOrder_begins (event1 event2 : Event) (range : TimeRange) (registration : Nat)
    (absent : s.discoveries.orderDiscoveries[(event1.hash, event2.hash)]? = none)
    (sound : s.Justified env) :
    TracksOn s.discoveries.notified.length (event1.hash, event2.hash)
      (discoverEventOrder env event1 event2 range registration) s := by
  unfold TracksOn
  simp only [discoverEventOrder, ends_bind, ends_get, absent, ends_withDiscoveries,
    insertOrderDiscovery, putOrder, ends_modify]
  rw [← ends_bind]
  refine discoverSides_tracks event1 event2 range ?_
    (sound_putOrder event1 event2 registration sound)
  have put : ∀ discovery, Discoveries.orderDiscovery { s.discoveries with
      orderDiscoveries := s.discoveries.orderDiscoveries.insert (event1.hash, event2.hash)
        ⟨newOrderDiscovery s.now event1 event2, [registration]⟩ } (event1.hash, event2.hash) =
        some discovery →
      discovery.state = .inProgress := by
    intro discovery read
    rw [orderDiscovery_putOrder, if_pos rfl] at read
    exact Option.some.inj read ▸ rfl
  have unheard : ∀ chain, ¬s.discoveries.Heard s.discoveries.notified.length chain := by
    rintro chain ⟨event, member⟩
    simp at member
  constructor
  · exact Nat.le_refl _
  · exact fun chain heard => absurd heard (unheard chain)
  · exact ⟨_, (orderDiscovery_putOrder _ _).trans (if_pos rfl)⟩
  · intro discovery read completed
    rw [put discovery read] at completed
    cases completed
  · intro discovery read aborted
    rw [put discovery read] at aborted
    cases aborted
  · exact fun _ first _ heard => absurd heard (unheard first)

theorem processChainResponse_tracks {sender : Neighbor} {m : Wire.ChainResponse}
    (tracks : Tracks since key False s.discoveries)
    (sound : s.Justified env) :
    TracksOn since key (processChainResponse env sender m) s := by
  unfold TracksOn
  simp only [processChainResponse]
  split
  · simp only [ends_bind, ends_get]
    split
    · rename_i entry read
      obtain ⟨about, encloses, -⟩ := sound.chains _ entry read
      split
      · rename_i running
        simp only [ends_bind, ends_withDiscoveries]
        refine (setDiscoveredChain_tracks tracks ⟨entry, read, running, about, encloses⟩ rfl).always
          ?_
        rintro _ d ⟨tracks, building⟩
        exact resolveChainDiscovery_tracks tracks building rfl
      · exact tracks
    · exact tracks
  · split
    · exact tracks
    · refine (extendAndRetrace_transmits sender m.originator m.chain m.path).mono ?_ ?_
      · rintro _ _ ⟨sent, ⟨drawn, seen, rfl⟩, -⟩
        exact tracks
      · rintro _ _ rfl
        exact Or.inr tracks

theorem onPacketReceived_tracks (datagram : Bytes) (tracks : Tracks since key False s.discoveries)
    (sound : s.Justified env) :
    TracksOn since key (onPacketReceived env datagram) s := by
  unfold TracksOn
  unfold onPacketReceived
  split
  · simp only [receive, ends_bind, ends_get]
    split
    · exact tracks
    · split
      · exact tracksOn_of_volatile tracks (processClockEventNotification_aside volatile_aside _ _ _)
      · refine (processChainRequest_transmits _ _).mono ?_ ?_
        · rintro _ _ ⟨sent, ⟨drawn, seen, rfl⟩, -⟩
          exact tracks
        · rintro _ _ rfl
          exact Or.inr tracks
      · exact processChainResponse_tracks tracks sound
  · exact tracks
  · exact Or.inr tracks

theorem perform_tracks (action : NodeAction) (remembers : ¬action.Forgets)
    (tracks : Tracks since key False s.discoveries)
    (sound : s.Justified env) :
    TracksOn since key (perform env action) s := by
  cases action with
  | start =>
      refine tracksOn_of_discoveries tracks fun before => start_arms.imp ?_
      rintro _ ⟨timers, rfl⟩
      rfl
  | createClockEvent chain => exact tracksOn_of_volatile tracks (createClockEvent_volatile chain)
  | discoverEventChain event range registration =>
      exact discoverEventChain_tracks event range (.client registration) tracks sound
  | discoverEventBounds event range registration =>
      exact discoverEventBounds_tracks event range registration tracks sound
  | discoverEventOrder event1 event2 range registration =>
      exact discoverEventOrder_tracks event1 event2 range registration tracks sound
  | onPacketReceived datagram => exact onPacketReceived_tracks datagram tracks sound
  | fireTimer timer =>
      cases timer with
      | clock chain =>
          unfold TracksOn
          simp only [perform, fireTimer, ends_bind, ends_get]
          split
          · simp only [ends_bind, ends_modify]
            have ticks : TracksOn since key (createClockEvent env chain)
                { s with timers := s.timers.erase (.clock chain) } :=
              tracksOn_of_volatile tracks (createClockEvent_volatile chain)
            refine ticks.weaken fun _ after ticked => ?_
            unfold scheduleClockTimer
            split
            · exact ticked
            · exact Or.inr ticked
          · exact tracks
      | purge => exact absurd trivial remembers
  | setClock now => exact tracks
  | restart => exact absurd trivial remembers
  | _ => exact tracksOn_of_volatile tracks (perform_aside volatile_aside rfl)

end Node

section Runs

variable {σ : Type} [Store σ] {env : NodeEnv} {s after : NodeState σ} {key : EventHash × EventHash}
    {since : Nat}

/-- A purge takes no completed side from the order discovery for `key`, if that stays open
itself. -/
def PurgeKeepsSides (env : NodeEnv) (key : EventHash × EventHash) (s : NodeState σ) :
    NodeAction → Prop
  | .fireTimer .purge => SidesKept (s.now - env.config.discoveryExpiry) key s.discoveries
  | _ => True

instance (env : NodeEnv) (key : EventHash × EventHash) (s : NodeState σ) (action : NodeAction) :
    Decidable (PurgeKeepsSides env key s action) := by
  unfold PurgeKeepsSides
  split <;> infer_instance

theorem fireTimer_purge_joined (tracks : Tracks since key False s.discoveries)
    (opened : s.discoveries.OrderOpen key)
    (kept : SidesKept (s.now - env.config.discoveryExpiry) key s.discoveries) :
    Ends (fireTimer env .purge) s (fun _ after => Joined since key after.discoveries)
      (fun fault after => fault.Fatal ∨ Joined since key after.discoveries) := by
  simp only [fireTimer, ends_bind, ends_get]
  split
  · simp only [ends_bind, ends_modify, purgeDiscoveries, ends_get, ends_when, ends_throw,
      ends_withDiscoveries, arm]
    refine ⟨fun _ => Or.inl (by simp [Fault.Fatal]), fun _ => ?_⟩
    have purges :
        EndsOrFatal (purgeTables env.id s.now (s.now - env.config.discoveryExpiry)) s.discoveries
        (fun d => Purged (s.now - env.config.discoveryExpiry) key s.discoveries d ∧
          Unexpired (s.now - env.config.discoveryExpiry) key d) :=
      purgeTables_purged env.id
    refine purges.mono ?_ fun _ _ fatal => Or.inl fatal
    rintro _ d ⟨purged, unexpired⟩
    exact tracks.purged opened kept purged unexpired
  · exact tracks.joined

theorem restart_joined (tracks : Tracks since key False s.discoveries)
    (opened : s.discoveries.OrderOpen key) :
      Ends (restart env) s (fun _ after => Joined since key after.discoveries)
      (fun fault after => fault.Fatal ∨ Joined since key after.discoveries) := by
  have cleared : Joined since key { notified := s.discoveries.notified } := by
    refine ⟨?_, fun first second heard heard' about about' => ?_⟩
    · rintro ⟨discovery, read, -⟩
      simp [Discoveries.orderDiscovery] at read
    · exact (tracks.caught opened first second heard heard' about about').elim
  have unchanged : ∀ after : NodeState σ, after.volatile = s.stopped.volatile →
      Joined since key after.discoveries := by
    intro after same
    have discoveries : after.discoveries = _ := congrArg Volatile.discoveries same
    rw [discoveries]
    exact cleared
  exact ends_restart.mpr ((hydrateWorkingState_aside volatile_aside _).mono (fun _ => unchanged)
    fun _ after same => Or.inr (unchanged after same))

theorem perform_joined (action : NodeAction) (joined : Joined since key s.discoveries)
    (sound : s.Justified env)
    (opened : s.discoveries.OrderOpen key) (kept : PurgeKeepsSides env key s action) :
    Ends (perform env action) s (fun _ after => Joined since key after.discoveries)
      (fun fault after => fault.Fatal ∨ Joined since key after.discoveries) := by
  have tracks := joined.tracks opened
  by_cases forgets : action.Forgets
  · cases action with
    | fireTimer timer =>
        cases timer with
        | purge => exact fireTimer_purge_joined tracks opened kept
        | clock chain => exact forgets.elim
    | restart => exact restart_joined tracks opened
    | _ => exact forgets.elim
  · exact (perform_tracks action forgets tracks sound).mono (fun _ _ tracks => tracks.joined)
      fun _ _ ended => ended.imp_right Tracks.joined

omit [Store σ] in
theorem holds_of_contain (property : NodeState σ → Prop) {m : NodeM σ Unit}
    (ends : Ends m s (fun _ => property) (fun fault after => fault.Fatal ∨ property after))
    (ran : contain m s = .ok () after) : property after := by
  unfold contain at ran
  split at ran
  · rename_i what last failed
    cases ran
    exact (ends.of_error failed).resolve_left fun fatal => fatal what rfl
  · exact ends.of_ok ran

def SidesSafe (env : NodeEnv) (key : EventHash × EventHash) (s : NodeState σ)
    (action : NodeAction) : Prop :=
  s.discoveries.OrderOpen key ∧ PurgeKeepsSides env key s action

instance (env : NodeEnv) (key : EventHash × EventHash) (s : NodeState σ) (action : NodeAction) :
    Decidable (SidesSafe env key s action) := by
  unfold SidesSafe
  infer_instance

theorem runActions_joined (actions : List NodeAction) (joined : Joined since key s.discoveries)
    (sound : s.Justified env) (safe : EachStep (SidesSafe env key) env s actions)
    (ran : runActions env actions s = .ok () after) :
    Joined since key after.discoveries := by
  induction actions generalizing s with
  | nil =>
      cases ran
      exact joined
  | cons action rest ih =>
      obtain ⟨middle, performed, ran⟩ := runActions_cons_ok_iff.mp ran
      have advances := perform_advances action sound (fun _ _ _ => trivial)
        (fitting_trivially action)
      have next : Joined since key middle.discoveries ∧
          middle.Justified env := by
        refine holds_of_contain (fun middle => Joined since key middle.discoveries ∧
          middle.Justified env) ?_ performed
        refine ((perform_joined action joined sound safe.1.1 safe.1.2).and advances).mono ?_ ?_
        · exact fun _ _ kept => ⟨kept.1, kept.2.sound⟩
        · exact fun _ _ ended => ended.1.imp_right fun kept => ⟨kept, ended.2.sound⟩
      exact ih next.1 next.2 (safe.2 middle performed) ran

/-- An order discovery loses no completed side. After any run, the order of two events is asked for
and inserted; the run goes on while it is in progress, and no purge takes a completed side from it.
When the node has been told of a completed chain for each event since then, the order is completed
with the comparison of those chains. -/
theorem order_completed_of_both_sides (env : NodeEnv) (store : σ) (before later : List NodeAction)
    (event1 event2 : Event) (range : TimeRange) (registration : Nat)
    (s inserted after : NodeState σ) (ran : runActions env before (.boot env store) = .ok () s)
    (absent : s.discoveries.orderDiscoveries[(event1.hash, event2.hash)]? = none)
    (asked : contain (perform env (.discoverEventOrder event1 event2 range registration)) s =
      .ok () inserted)
    (safe : EachStep (SidesSafe env (event1.hash, event2.hash)) env inserted later)
    (continued : runActions env later inserted = .ok () after) (first second : EventChain)
    (told1 : after.discoveries.Heard s.discoveries.notified.length first)
    (about1 : first.event.hash = event1.hash)
    (told2 : after.discoveries.Heard s.discoveries.notified.length second)
    (about2 : second.event.hash = event2.hash) :
    ∃ entry, after.discoveries.orderDiscoveries[(event1.hash, event2.hash)]? = some entry ∧
      entry.discovery.state = .completed ∧
      compareEventChains first second = some entry.discovery.order := by
  obtain ⟨_, -, served⟩ := served_always env store before
  have reached : final (runActions env before) (NodeState.boot env store) = s := by
    rw [final, ran]
  rw [reached] at served
  have advances := perform_advances (.discoverEventOrder event1 event2 range registration)
    served.sound (fun _ _ _ => trivial) (fitting_trivially _)
  have begun :
      Tracks s.discoveries.notified.length (event1.hash, event2.hash) False inserted.discoveries ∧
      inserted.Justified env := by
    refine holds_of_contain
      (fun inserted => Tracks s.discoveries.notified.length (event1.hash, event2.hash) False
      inserted.discoveries ∧ inserted.Justified env) ?_ asked
    refine ((discoverEventOrder_begins event1 event2 range registration absent served.sound).and
      advances).mono ?_ ?_
    · exact fun _ _ kept => ⟨kept.1, kept.2.sound⟩
    · exact fun _ _ ended => ended.1.imp_right fun kept => ⟨kept, ended.2.sound⟩
  exact (runActions_joined later begun.1.joined begun.2 safe continued).completed first second told1
    told2 about1 about2

end Runs

def joinEnv : NodeEnv := .simulated checksum 1 { discoveryExpiry := 100 }

def peerEnv : NodeEnv := .simulated checksum 2 {}

def ownRun : List NodeAction :=
  [.addNeighbor (.ofUInt64 2), .learnRoute (.ofUInt64 2) (.ofUInt64 2), .createClockEvent 0,
    .publishEvent [7], .createClockEvent 0]

def ownNode : NodeState InMemoryStore := final (runActions joinEnv ownRun) (.boot joinEnv {})

def ownFirst : LocalClockEvent := (Store.loadClockEvents ownNode.store).headD default

def ownEvent : Event := makeEvent joinEnv [7] 1 [ownFirst.reference]

def peerFirst : LocalClockEvent :=
  makeClockEvent peerEnv 0 0 0 [ownFirst.reference]

def peerEvent : Event := makeEvent peerEnv [8] 1 [peerFirst.reference]

def peerLast : LocalClockEvent :=
  makeClockEvent peerEnv 0 2 0 [peerFirst.reference, peerEvent.reference]

def sidesRun : List NodeAction :=
  ownRun ++
    [.onPacketReceived (Wire.encode ⟨.ofUInt64 2, .clockNotification ⟨0, peerLast.hash, []⟩⟩),
    .createClockEvent 0, .start, .discoverEventChain ownEvent .all 0, .setClock 10]

def sidesNode : NodeState InMemoryStore := final (runActions joinEnv sidesRun) (.boot joinEnv {})

theorem sidesNode_reached
    (returned : raised (runActions joinEnv sidesRun) (.boot joinEnv ({} : InMemoryStore)) = none) :
    runActions joinEnv sidesRun (.boot joinEnv {}) = .ok () sidesNode := ok_of_not_raised returned

def orderAsked : NodeAction := .discoverEventOrder ownEvent peerEvent .all 1

def orderNode : NodeState InMemoryStore := final (contain (perform joinEnv orderAsked)) sidesNode

def purgedRun (now : Timestamp) : List NodeAction :=
  [.setClock now, .fireTimer .purge, .onPacketReceived (Wire.encode ⟨.ofUInt64 2, .chainResponse
    ⟨.ofUInt64 1, ⟨peerEvent, [peerFirst.toClockEvent], [peerLast.toClockEvent]⟩, []⟩⟩)]

def answeredNode (now : Timestamp) : NodeState InMemoryStore :=
  final (runActions joinEnv (purgedRun now)) orderNode

theorem orderNode_reached
    (returned : raised (contain (perform joinEnv orderAsked)) sidesNode = none) :
    contain (perform joinEnv orderAsked) sidesNode = .ok () orderNode := ok_of_not_raised returned

theorem answeredNode_reached {now : Timestamp}
    (returned : raised (runActions joinEnv (purgedRun now)) orderNode = none) :
    runActions joinEnv (purgedRun now) orderNode = .ok () (answeredNode now) :=
    ok_of_not_raised returned

def ownTick (k : Nat) : ClockEvent :=
  ((Store.loadClockEvents sidesNode.store).getD k default).toClockEvent

def ownChain : EventChain := ⟨ownEvent, [ownTick 0], [ownTick 1]⟩

def peerChain : EventChain :=
  ⟨peerEvent, [ownTick 0, peerFirst.toClockEvent], [peerLast.toClockEvent, ownTick 2]⟩

/-- The purge comes while the chains are recent: the answer completes the order. -/
theorem order_completed_sample :
    ∃ entry, (answeredNode 50).discoveries.orderDiscoveries[(ownEvent.hash, peerEvent.hash)]? =
      some entry ∧ entry.discovery.state = .completed ∧
      compareEventChains ownChain peerChain = some entry.discovery.order := by
  obtain ⟨ran, absent, asked, safe, continued, told1, told2⟩ :
      raised (runActions joinEnv sidesRun) (.boot joinEnv ({} : InMemoryStore)) = none ∧
      (ownEvent.hash, peerEvent.hash) ∉ sidesNode.discoveries.orderDiscoveries ∧
      raised (contain (perform joinEnv orderAsked)) sidesNode = none ∧
      EachStep (SidesSafe joinEnv (ownEvent.hash, peerEvent.hash)) joinEnv orderNode
      (purgedRun 50) ∧
      raised (runActions joinEnv (purgedRun 50)) orderNode = none ∧
      .chainCompleted .node ownEvent ownChain ∈
        (answeredNode 50).discoveries.notified.drop sidesNode.discoveries.notified.length ∧
      .chainCompleted .node peerEvent peerChain ∈
        (answeredNode 50).discoveries.notified.drop sidesNode.discoveries.notified.length := by
    decide +kernel
  exact order_completed_of_both_sides joinEnv ({} : InMemoryStore) sidesRun
    (purgedRun 50) ownEvent peerEvent .all 1 sidesNode orderNode
    (answeredNode 50) (sidesNode_reached ran) (ExtTreeMap.getElem?_eq_none absent)
    (orderNode_reached asked) safe
    (answeredNode_reached continued) ownChain peerChain ⟨ownEvent, told1⟩ rfl ⟨peerEvent, told2⟩ rfl

/-- The chain for the own event, completed before the order was asked for, expires first. The node
was told of it and of the answer, and the order discovery is still in progress. -/
theorem expired_side_loses_order :
    raised (runActions joinEnv sidesRun) (.boot joinEnv ({} : InMemoryStore)) = none ∧
    (ownEvent.hash, peerEvent.hash) ∉ sidesNode.discoveries.orderDiscoveries ∧
    raised (contain (perform joinEnv orderAsked)) sidesNode = none ∧
    raised (runActions joinEnv (purgedRun 105)) orderNode = none ∧
    .chainCompleted .node ownEvent ownChain ∈
      (answeredNode 105).discoveries.notified.drop sidesNode.discoveries.notified.length ∧
    .chainCompleted .node peerEvent peerChain ∈
      (answeredNode 105).discoveries.notified.drop sidesNode.discoveries.notified.length ∧
    (answeredNode 105).discoveries.OrderOpen (ownEvent.hash, peerEvent.hash) := by
  decide +kernel

end Loti
