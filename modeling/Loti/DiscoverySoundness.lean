import Loti.DiscoveryLedger
import Loti.Effects
import Loti.InMemoryStore

/-!
Results of discoveries are sound against arbitrary peers, and what a completed chain
discovery has to do with the event that was asked about.
-/

namespace Loti

open Std StateExcept Ledger

def Advancing (accepts : EventChain → Bool) (fits : Event → EventChain → Prop) (mayForget : Prop)
    (d0 : Discoveries) (made : Requests) (d : Discoveries) : Prop :=
  d.Sound accepts fits ∧ d0.Advances mayForget made d

def Awaits (hash : EventHash) (asked : Event) (d : Discoveries) : Prop :=
  ∃ entry, d.chainDiscoveries[hash]? = some entry ∧ entry.discovery.state = .inProgress ∧
    entry.discovery.event = asked

section Bookkeeping

variable {accepts : EventChain → Bool} {fits : Event → EventChain → Prop} {mayForget : Prop}
    {made : Requests}
  {d d0 d' : Discoveries} {now : Timestamp} {hash : EventHash} {asked : Event}

theorem Advancing.then (holds : Advancing accepts fits mayForget d0 made d)
    (sound : d'.Sound accepts fits) (advances : d.Advances False {} d') :
    Advancing accepts fits mayForget d0 made d' :=
  ⟨sound, holds.2.then (advances.mono False.elim)⟩

theorem Advancing.settleChain {entry resolved : ChainEntry}
    {outcome : Option EventChain} {invoke : ChainCallback → DiscoveryM Unit}
    (holds : Advancing accepts fits mayForget d0 made d)
    (found : d.chainDiscoveries[hash]? = some entry)
    (running : entry.discovery.state = .inProgress) (about : resolved.discovery.event.hash = hash)
    (encloses : resolved.discovery.chain.event.hash = hash)
    (justified : resolved.discovery.state = .completed →
      accepts resolved.discovery.chain = true ∧
      fits resolved.discovery.event resolved.discovery.chain)
    (settled : EventChainDiscovery.account resolved = .settled outcome)
    (body : ∀ callback (d : Discoveries), d.Sound accepts fits → EndsIn (invoke callback) d
      (Invoking accepts fits d [⟨callback, hash, outcome⟩])) :
    EndsIn (entry.callbacks.forM invoke)
      { d with chainDiscoveries := d.chainDiscoveries.insert hash resolved }
      (Advancing accepts fits mayForget d0 made) := by
  have sound := holds.1.putChain about encloses justified
  have finished : ∀ d', (∃ reached, reached <+: entry.callbacks ∧ Invoking accepts fits
      { d with chainDiscoveries := d.chainDiscoveries.insert hash resolved }
      (reached.map fun callback => ⟨callback, hash, outcome⟩) d') →
      Advancing accepts fits mayForget d0 made d' := by
    rintro d' ⟨reached, begins, kept⟩
    exact holds.then kept.1
      (Discoveries.advances_settleChain entry found running settled begins kept.2)
  exact (ends_forM_invoke body entry.callbacks sound).imp finished

theorem abortChainDiscovery_keeps (hash : EventHash) :
    Keeps (Advancing accepts fits mayForget d0 made) (abortChainDiscovery now hash) := by
  intro d holds
  simp only [abortChainDiscovery, putChain, ends_bind, ends_get, ends_modify, ends_expectInProgress]
  refine ⟨fun entry found running => ?_, fun _ _ _ => holds, fun _ => holds⟩
  obtain ⟨about, encloses, -⟩ := holds.1.chains hash entry found
  refine holds.settleChain found running about encloses (by simp) rfl fun callback before sound =>
    ?_
  exact about ▸ invokeAborted_ends entry.discovery.event callback sound

theorem completeChainDiscovery_ends (holds : Advancing accepts fits mayForget d0 made d)
    (fit : ∀ entry, d.chainDiscoveries[hash]? = some entry → accepts entry.discovery.chain = true →
      fits entry.discovery.event entry.discovery.chain) :
    EndsIn (completeChainDiscovery accepts now hash) d
      (Advancing accepts fits mayForget d0 made) := by
  simp only [completeChainDiscovery, ends_bind, ends_get, ends_expectInProgress]
  refine ⟨fun entry found running => ?_, fun _ _ _ => holds, fun _ => holds⟩
  obtain ⟨about, encloses, -⟩ := holds.1.chains hash entry found
  split
  · rename_i accepted
    simp only [putChain, ends_bind, ends_modify]
    refine holds.settleChain found running about encloses
      (fun _ => ⟨accepted, fit entry found accepted⟩) rfl fun callback before sound => ?_
    exact about ▸ invokeCompleted_ends entry.discovery.event entry.discovery.chain callback sound
      accepted (encloses.trans about.symm)
  · exact abortChainDiscovery_keeps hash d holds

theorem setDiscoveredChain_ends {chain : EventChain}
    (holds : Advancing accepts fits mayForget d0 made d)
    (awaits : Awaits hash asked d) (encloses : chain.event.hash = hash) :
    Returns (setDiscoveredChain hash chain) d
      (fun _ d' => Advancing accepts fits mayForget d0 made d' ∧ Awaits hash asked d' ∧
        ∀ entry, d'.chainDiscoveries[hash]? = some entry →
          entry.discovery.event = asked ∧ entry.discovery.chain = chain) := by
  obtain ⟨entry, found, running, rfl⟩ := awaits
  have about := (holds.1.chains hash entry found).1
  simp only [setDiscoveredChain, putChain, ends_bind, ends_get, found, ends_modify]
  refine ⟨holds.then ?_ ⟨?_, .done, .done⟩, ⟨_, ExtTreeMap.getElem?_insert_self, running, rfl⟩, ?_⟩
  · exact holds.1.putChain about encloses (by simp [running])
  · have unseen :
        EventChainDiscovery.account { entry with discovery := { entry.discovery with chain } } =
        EventChainDiscovery.account entry := by
      simp [Entry.account, running]
    simp only [Discoveries.chainBook, ofTable_same found unseen]
    exact .done
  · intro after put
    rw [ExtTreeMap.getElem?_insert_self] at put
    cases put
    exact ⟨rfl, rfl⟩

theorem erase_fewer {Key Value : Type} [Ord Key] [TransOrd Key] (table : ExtTreeMap Key Value)
    (key other : Key) : (table.erase key)[other]? = table[other]? ∨
    (table.erase key)[other]? = none := by
  rw [ExtTreeMap.getElem?_erase]
  split
  · exact Or.inr rfl
  · exact Or.inl rfl

theorem purgeChainDiscovery_keeps (id : NodeId) (limit : Timestamp) (hash : EventHash) :
    Keeps (Advancing accepts fits True d0 made) (purgeChainDiscovery id now limit hash) := by
  have drop : ∀ d, Advancing accepts fits True d0 made d → Advancing accepts fits True d0 made
      { d with chainDiscoveries := d.chainDiscoveries.erase hash } := by
    intro d holds
    refine ⟨{ holds.1 with chains := forall_erase holds.1.chains }, holds.2.then ⟨?_, .done, .done⟩⟩
    exact ofTable_forgets trivial (erase_fewer d.chainDiscoveries hash)
  intro d holds
  simp only [purgeChainDiscovery, ends_bind, ends_get]
  split
  · split
    · simp only [ends_bind, ends_when, ends_modify]
      refine ⟨fun _ => ?_, fun _ => drop d holds⟩
      exact (abortChainDiscovery_keeps _ d holds).weaken fun _ after kept => drop after kept
    · exact holds
  · exact holds

theorem abortBoundsDiscovery_advances (hash : EventHash) :
    Keeps (Advancing accepts fits mayForget d0 made) (abortBoundsDiscovery now hash) := by
  intro d holds
  have resolved : ∀ d', Invoking accepts fits d [] d' →
    Advancing accepts fits mayForget d0 made d' :=
    fun d' kept => holds.then kept.1 kept.2.advances
  exact (abortBoundsDiscovery_keeps hash d ⟨holds.1, .refl d⟩).imp resolved

theorem purgeBoundsDiscovery_keeps (limit : Timestamp) (hash : EventHash) :
    Keeps (Advancing accepts fits True d0 made) (purgeBoundsDiscovery now limit hash) := by
  have drop : ∀ d, Advancing accepts fits True d0 made d → Advancing accepts fits True d0 made
      { d with boundsDiscoveries := d.boundsDiscoveries.erase hash } := by
    intro d holds
    refine ⟨{ holds.1 with bounds := forall_erase holds.1.bounds }, holds.2.then ⟨.done, ?_, .done⟩⟩
    exact ofTable_forgets trivial (erase_fewer d.boundsDiscoveries hash)
  intro d holds
  simp only [purgeBoundsDiscovery, ends_bind, ends_get]
  split
  · split
    · simp only [ends_bind, ends_when, ends_modify]
      refine ⟨fun _ => ?_, fun _ => drop d holds⟩
      exact (abortBoundsDiscovery_advances _ d holds).weaken fun _ after kept => drop after kept
    · exact holds
  · exact holds

theorem purgeOrderDiscovery_keeps (limit : Timestamp) (key : EventHash × EventHash) :
    Keeps (Advancing accepts fits True d0 made) (purgeOrderDiscovery now limit key) := by
  have drop : ∀ d, Advancing accepts fits True d0 made d → Advancing accepts fits True d0 made
      { d with orderDiscoveries := d.orderDiscoveries.erase key } := by
    intro d holds
    refine ⟨{ holds.1 with orders := forall_erase holds.1.orders }, holds.2.then ⟨.done, .done, ?_⟩⟩
    exact ofTable_forgets trivial (erase_fewer d.orderDiscoveries key)
  intro d holds
  simp only [purgeOrderDiscovery, ends_bind, ends_get]
  split
  · split
    · simp only [ends_bind, ends_when, ends_modify]
      refine ⟨fun _ => ?_, fun _ => drop d holds⟩
      have resolved : ∀ d', Invoking accepts fits d [] d' →
        Advancing accepts fits True d0 made d' :=
        fun d' kept => holds.then kept.1 kept.2.advances
      exact (abortOrderDiscovery_keeps _ d ⟨holds.1, .refl d⟩).mono
        (fun _ after kept => drop after (resolved after kept)) fun _ => resolved
    · exact holds
  · exact holds

theorem purgeTables_keeps (id : NodeId) (limit : Timestamp) :
    Keeps (Advancing accepts fits True d0 made) (purgeTables id now limit) := by
  intro d holds
  simp only [purgeTables, ends_bind, ends_get]
  refine (keeps_forM (fun hash _ => purgeChainDiscovery_keeps id limit hash) d holds).weaken ?_
  intro _ d1 kept1
  refine (keeps_forM (fun hash _ => purgeBoundsDiscovery_keeps limit hash) d1 kept1).weaken ?_
  intro _ d2 kept2
  exact keeps_forM (fun key _ => purgeOrderDiscovery_keeps limit key) d2 kept2

end Bookkeeping

section Node

variable {σ : Type} [Store σ] {env : NodeEnv} {s : NodeState σ} {fits : Event → EventChain → Prop}
  {mayForget : Prop} {made : Requests} {d0 : Discoveries}

abbrev NodeState.Sound (env : NodeEnv) (fits : Event → EventChain → Prop)
    (s : NodeState σ) : Prop :=
  s.discoveries.Sound (validateChainDiscoveryResult env) fits

abbrev NodeState.Justified (env : NodeEnv) (s : NodeState σ) : Prop := s.Sound env fun _ _ => True

def NodeAdvancing (env : NodeEnv) (fits : Event → EventChain → Prop) (mayForget : Prop)
    (d0 : Discoveries) (made : Requests) (s : NodeState σ) : Prop :=
  Advancing (validateChainDiscoveryResult env) fits mayForget d0 made s.discoveries

theorem resolveChainDiscovery_ends {hash : EventHash} {asked : Event} {chain : EventChain}
    (holds : NodeAdvancing env fits mayForget d0 made s) (awaits : Awaits hash asked s.discoveries)
    (encloses : chain.event.hash = hash)
    (fit : ∀ upper, Splices env.id s.store chain upper →
      validateChainDiscoveryResult env upper = true → fits asked upper) :
    EndsIn (resolveChainDiscovery env hash chain) s (NodeAdvancing env fits mayForget d0 made) := by
  have abort : ∀ before : NodeState σ, NodeAdvancing env fits mayForget d0 made before →
      EndsIn (withDiscoveries (abortChainDiscovery s.now hash)) before
      (NodeAdvancing env fits mayForget d0 made) := by
    intro before kept
    simp only [ends_withDiscoveries]
    exact abortChainDiscovery_keeps hash _ kept
  simp only [resolveChainDiscovery, addLowerBound, addUpperBound, ends_bind,
    ends_get, ends_readStore]
  refine ⟨fun lower lowered => ?_, fun _ _ => holds⟩
  cases lower with
  | none => exact abort s holds
  | some lower =>
      obtain ⟨_, -, lowerEq⟩ := addLocalLowerBound_ok lowered
      simp only [ends_bind, ends_withDiscoveries, ends_readStore]
      refine (setDiscoveredChain_ends holds awaits (by rw [lowerEq, encloses])).always ?_
      rintro _ d1 ⟨holds1, awaits1, -⟩
      refine ⟨fun upper raised => ?_, fun _ _ => holds1⟩
      cases upper with
      | none => exact abort _ holds1
      | some upper =>
          have spliced : Splices env.id s.store chain upper := ⟨lower, lowered, raised⟩
          simp only [ends_bind, ends_withDiscoveries]
          refine (setDiscoveredChain_ends holds1 awaits1
            (by rw [spliced.event, encloses])).always ?_
          rintro _ d2 ⟨holds2, -, current⟩
          refine completeChainDiscovery_ends holds2 fun entry found accepted => ?_
          obtain ⟨aboutAsked, built⟩ := current entry found
          rw [built] at accepted ⊢
          rw [aboutAsked]
          exact fit upper spliced accepted

omit [Store σ] in
theorem NodeAdvancing.request {more : Requests} {d : Discoveries}
    (holds : NodeAdvancing env fits mayForget d0 made s)
    (sound : d.Sound (validateChainDiscoveryResult env) fits)
    (advances : s.discoveries.Advances mayForget more d) :
    NodeAdvancing env fits mayForget d0 (made ++ more) { s with discoveries := d } :=
  ⟨sound, holds.2.trans advances⟩

omit [Store σ] in
theorem NodeAdvancing.openChain {event : Event} (callback : ChainCallback)
    (discovery : EventChainDiscovery) (holds : NodeAdvancing env fits mayForget d0 made s)
    (absent : s.discoveries.chainDiscoveries[event.hash]? = none) (about : discovery.event = event)
    (bare : discovery.chain.event = event) (running : discovery.state = .inProgress) :
    NodeAdvancing env fits mayForget d0 (made ++ { chains := [(event.hash, callback)] })
      { s with discoveries := { s.discoveries with
          chainDiscoveries := s.discoveries.chainDiscoveries.insert event.hash
            ⟨discovery, [callback]⟩ } } := by
  refine holds.request (holds.1.putChain (congrArg Event.hash about) (congrArg Event.hash bare)
    (by simp [running])) ?_
  exact ⟨ofTable_opens absent (Entry.account_waiting running), .done, .done⟩

omit [Store σ] in
theorem NodeAdvancing.openBounds {event : Event} (registration : Nat)
    (discovery : EventBoundsDiscovery) (holds : NodeAdvancing env fits mayForget d0 made s)
    (absent : s.discoveries.boundsDiscoveries[event.hash]? = none) (about : discovery.event = event)
    (running : discovery.state = .inProgress) :
    NodeAdvancing env fits mayForget d0 (made ++ { bounds := [(event.hash, registration)] })
      { s with discoveries := { s.discoveries with
          boundsDiscoveries := s.discoveries.boundsDiscoveries.insert event.hash
            ⟨discovery, [registration]⟩ } } := by
  refine holds.request (holds.1.putBounds (congrArg Event.hash about) (by simp [running])) ?_
  exact ⟨.done, ofTable_opens absent (Entry.account_waiting running), .done⟩

omit [Store σ] in
theorem NodeAdvancing.openOrder {event1 event2 : Event} (registration : Nat)
    (discovery : EventOrderDiscovery) (holds : NodeAdvancing env fits mayForget d0 made s)
    (absent : s.discoveries.orderDiscoveries[(event1.hash, event2.hash)]? = none)
    (about : discovery.event1 = event1 ∧ discovery.event2 = event2)
    (running : discovery.state = .inProgress) :
    NodeAdvancing env fits mayForget d0
      (made ++ { orders := [((event1.hash, event2.hash), registration)] })
      { s with discoveries := { s.discoveries with
          orderDiscoveries := s.discoveries.orderDiscoveries.insert (event1.hash, event2.hash)
            ⟨discovery, [registration]⟩ } } := by
  refine holds.request (holds.1.putOrder (by simp [about]) (by simp [running])) ?_
  exact ⟨.done, .done, ofTable_opens absent (Entry.account_waiting running)⟩

theorem discoverEventChain_ends (event : Event) (range : TimeRange) (callback : ChainCallback)
    (holds : NodeAdvancing env fits mayForget d0 made s)
    (ownFit : ∀ event chain, chain.event = event → fits event chain) :
    EndsIn (discoverEventChain env event range callback) s
      (NodeAdvancing env fits mayForget d0 (made ++ { chains := [(event.hash, callback)] })) := by
  simp only [discoverEventChain, ends_bind, ends_get]
  split
  · rename_i entry found
    obtain ⟨about, encloses, justified⟩ := holds.1.chains _ entry found
    split
    · rename_i running
      simp only [ends_withDiscoveries, putChain, ends_modify]
      refine holds.request (holds.1.putChain about encloses (by simp [running])) ⟨?_, .done, .done⟩
      exact ofTable_joins found (Entry.account_waiting running)
        (Entry.account_waiting running)
    · rename_i aborted
      have settled : EventChainDiscovery.account entry = .settled none :=
        Entry.account_aborted aborted
      have replayed : ∀ d, Invoking (validateChainDiscoveryResult env) fits s.discoveries
          [⟨callback, event.hash, none⟩] d → NodeAdvancing env fits mayForget d0
            (made ++ { chains := [(event.hash, callback)] }) { s with discoveries := d } :=
            fun d kept =>
        holds.request kept.1
          ((Discoveries.advances_replayChain found settled kept.2).mono False.elim)
      rw [ends_withDiscoveries]
      exact (invokeAborted_ends event callback holds.1).imp replayed
    · rename_i completed
      have settled : EventChainDiscovery.account entry = .settled (some entry.discovery.chain) :=
        Entry.account_completed completed
      have replayed : ∀ d, Invoking (validateChainDiscoveryResult env) fits s.discoveries
          [⟨callback, event.hash, some entry.discovery.chain⟩] d →
            NodeAdvancing env fits mayForget d0 (made ++ { chains := [(event.hash, callback)] })
            { s with discoveries := d } := fun d kept =>
        holds.request kept.1
          ((Discoveries.advances_replayChain found settled kept.2).mono False.elim)
      rw [ends_withDiscoveries]
      exact (invokeCompleted_ends event entry.discovery.chain callback holds.1
        (justified completed).1 encloses).imp replayed
  · rename_i absent
    simp only [ends_bind, ends_withDiscoveries, insertChainDiscovery, putChain, ends_modify]
    have opened := holds.openChain callback
      (newChainDiscovery s.now event env.id range) absent rfl rfl rfl
    split
    · refine resolveChainDiscovery_ends opened ⟨_, ExtTreeMap.getElem?_insert_self, rfl, rfl⟩ rfl ?_
      exact fun upper spliced _ => ownFit event upper spliced.event
    · refine (floodChainRequest_transmits _ _ _).always ?_
      rintro _ _ ⟨sent, ⟨drawn, seen, rfl⟩, -⟩
      exact opened

theorem discoverEventBounds_ends (event : Event) (range : TimeRange) (registration : Nat)
    (holds : NodeAdvancing env fits mayForget d0 made s)
    (ownFit : ∀ event chain, chain.event = event → fits event chain) :
    EndsIn (discoverEventBounds env event range registration) s
      (fun s' => ∃ own : Requests, own.clients = { bounds := [(event.hash, registration)] } ∧
        NodeAdvancing env fits mayForget d0 (made ++ own) s') := by
  simp only [discoverEventBounds, ends_bind, ends_get]
  split
  · rename_i entry found
    obtain ⟨about, justified⟩ := holds.1.bounds _ entry found
    split
    · rename_i running
      simp only [ends_withDiscoveries, putBounds, ends_modify]
      refine ⟨{ bounds := [(event.hash, registration)] }, rfl,
        holds.request (holds.1.putBounds about (by simp [running])) ⟨.done, ?_, .done⟩⟩
      exact ofTable_joins found (Entry.account_waiting running) (Entry.account_waiting running)
    · rename_i aborted
      simp only [ends_withDiscoveries, notify, ends_modify]
      refine ⟨{ bounds := [(event.hash, registration)] }, rfl,
        holds.request (holds.1.notify (by simp [Notification.Justified])) ?_⟩
      exact Discoveries.advances_replayBounds found (Entry.account_aborted aborted) rfl
    · rename_i completed
      simp only [ends_withDiscoveries, notify, ends_modify]
      refine ⟨{ bounds := [(event.hash, registration)] }, rfl,
        holds.request
        (holds.1.notify (by simpa [Notification.Justified] using justified completed)) ?_⟩
      exact Discoveries.advances_replayBounds found (Entry.account_completed completed) rfl
  · rename_i absent
    simp only [ends_bind, ends_withDiscoveries, insertBoundsDiscovery, putBounds, ends_modify]
    have asked := discoverEventChain_ends event range .node
      (holds.openBounds registration (newBoundsDiscovery s.now event) absent rfl rfl) ownFit
    exact asked.imp fun _ kept => ⟨_, rfl, by rwa [Requests.append_assoc] at kept⟩

theorem discoverEventOrder_ends (event1 event2 : Event) (range : TimeRange) (registration : Nat)
    (holds : NodeAdvancing env fits mayForget d0 made s)
    (ownFit : ∀ event chain, chain.event = event → fits event chain) :
    EndsIn (discoverEventOrder env event1 event2 range registration) s
      (fun s' => ∃ own : Requests,
        own.clients = { orders := [((event1.hash, event2.hash), registration)] } ∧
        NodeAdvancing env fits mayForget d0 (made ++ own) s') := by
  simp only [discoverEventOrder, ends_bind, ends_get]
  split
  · rename_i entry found
    obtain ⟨about, justified⟩ := holds.1.orders _ entry found
    split
    · rename_i running
      simp only [ends_withDiscoveries, putOrder, ends_modify]
      refine ⟨{ orders := [((event1.hash, event2.hash), registration)] }, rfl,
        holds.request (holds.1.putOrder about (by simp [running])) ⟨.done, .done, ?_⟩⟩
      exact ofTable_joins found (Entry.account_waiting running) (Entry.account_waiting running)
    · rename_i aborted
      simp only [ends_withDiscoveries, notify, ends_modify]
      refine ⟨{ orders := [((event1.hash, event2.hash), registration)] }, rfl,
        holds.request (holds.1.notify (by simp [Notification.Justified])) ?_⟩
      exact Discoveries.advances_replayOrder found (Entry.account_aborted aborted) rfl
    · rename_i completed
      simp only [ends_withDiscoveries, notify, ends_modify]
      refine ⟨{ orders := [((event1.hash, event2.hash), registration)] }, rfl,
        holds.request
        (holds.1.notify (by simpa [Notification.Justified] using justified completed)) ?_⟩
      exact Discoveries.advances_replayOrder found (Entry.account_completed completed) rfl
  · rename_i absent
    simp only [ends_bind, ends_withDiscoveries, insertOrderDiscovery, putOrder, ends_modify]
    have first := discoverEventChain_ends event1 range .node
      (holds.openOrder registration (newOrderDiscovery s.now event1 event2) absent
        ⟨rfl, rfl⟩ rfl) ownFit
    refine first.mono (fun _ after kept => ?_) fun _ _ kept =>
      ⟨_, rfl, by rwa [Requests.append_assoc] at kept⟩
    have second := discoverEventChain_ends event2 range .node kept ownFit
    exact second.imp
      fun _ kept => ⟨_, rfl, by rwa [Requests.append_assoc, Requests.append_assoc] at kept⟩

end Node

def NodeAction.requests : NodeAction → Requests
  | .discoverEventChain event _ registration => { chains := [(event.hash, .client registration)] }
  | .discoverEventBounds event _ registration => { bounds := [(event.hash, registration)] }
  | .discoverEventOrder event1 event2 _ registration =>
      { orders := [((event1.hash, event2.hash), registration)] }
  | _ => {}

def NodeAction.Forgets : NodeAction → Prop
  | .fireTimer .purge => True
  | .restart => True
  | _ => False

section Runs

variable {σ : Type} [Store σ] {env : NodeEnv} {s : NodeState σ} {fits : Event → EventChain → Prop}

def Fitting (fits : Event → EventChain → Prop) (env : NodeEnv) (s : NodeState σ) : NodeAction → Prop
  | .onPacketReceived datagram => ∀ sender m entry upper,
      Wire.decode ⟨datagram, env.wordBits⟩ = .ok ⟨sender, .chainResponse m⟩ → sender ∈ s.neighbors →
      m.originator = env.id → s.discoveries.chainDiscoveries[m.chain.event.hash]? = some entry →
      entry.discovery.state = .inProgress → Splices env.id s.store m.chain upper →
      validateChainDiscoveryResult env upper = true → fits entry.discovery.event upper
  | _ => True

section

variable (sound : s.Sound env fits)

include sound

omit [Store σ] in
theorem NodeAdvancing.start {mayForget : Prop} :
    NodeAdvancing env fits mayForget s.discoveries {} s :=
  ⟨sound, .refl s.discoveries⟩

omit [Store σ] in
theorem advances_of_volatile {m : NodeM σ Unit} {mayForget : Prop}
   
    (preserves : Preserves NodeState.volatile m) :
    EndsIn m s (NodeAdvancing env fits mayForget s.discoveries {}) := by
  have unchanged : ∀ after : NodeState σ, after.volatile = s.volatile →
      NodeAdvancing env fits mayForget s.discoveries {} after := by
    intro after same
    have discoveries : after.discoveries = s.discoveries := congrArg Volatile.discoveries same
    rw [NodeAdvancing, discoveries]
    exact ⟨sound, .refl s.discoveries⟩
  exact (preserves s).imp unchanged

theorem processChainResponse_advances {sender : Neighbor} {m : Wire.ChainResponse}
   
    (fit : ∀ entry upper, m.originator = env.id →
      s.discoveries.chainDiscoveries[m.chain.event.hash]? = some entry →
      entry.discovery.state = .inProgress →
      Splices env.id s.store m.chain upper → validateChainDiscoveryResult env upper = true →
      fits entry.discovery.event upper) :
    EndsIn (processChainResponse env sender m) s
      (NodeAdvancing env fits False s.discoveries {}) := by
  have begins : NodeAdvancing env fits False s.discoveries {} s := .start sound
  simp only [processChainResponse]
  split
  · rename_i home
    simp only [ends_bind, ends_get]
    split
    · rename_i entry found
      split
      · rename_i running
        simp only [ends_bind, ends_withDiscoveries]
        have awaits : Awaits m.chain.event.hash entry.discovery.event s.discoveries :=
          ⟨entry, found, running, rfl⟩
        refine (setDiscoveredChain_ends begins awaits rfl).always ?_
        rintro _ d ⟨holds, awaits, -⟩
        exact resolveChainDiscovery_ends holds awaits rfl fun upper =>
          fit entry upper home found running
      · exact begins
    · exact begins
  · split
    · exact begins
    · refine (extendAndRetrace_transmits sender m.originator m.chain m.path).mono ?_ ?_
      · rintro _ _ ⟨sent, ⟨drawn, seen, rfl⟩, -⟩
        exact begins
      · rintro _ _ rfl
        exact begins

theorem onPacketReceived_advances {datagram : Bytes}
   
    (fitting : Fitting fits env s (.onPacketReceived datagram)) :
    EndsIn (onPacketReceived env datagram) s (NodeAdvancing env fits False s.discoveries {}) := by
  have begins : NodeAdvancing env fits False s.discoveries {} s := .start sound
  unfold onPacketReceived
  split
  · rename_i decoded read
    simp only [receive, ends_bind, ends_get]
    split
    · exact begins
    · rename_i neighbor known
      split
      · exact advances_of_volatile sound (processClockEventNotification_aside volatile_aside _ _ _)
      · refine (processChainRequest_transmits _ _).mono ?_ ?_
        · rintro _ _ ⟨sent, ⟨drawn, seen, rfl⟩, -⟩
          exact begins
        · rintro _ _ rfl
          exact begins
      · rename_i m response
        refine processChainResponse_advances sound fun entry upper => ?_
        refine fitting decoded.sender m entry upper ?_ ?_
        · rw [read, ← response]
        · exact ExtTreeMap.isSome_getElem?_iff_mem.mp (by simp [known])
  · exact begins
  · exact begins

omit [Store σ] in
theorem purgeDiscoveries_advances :
    EndsIn (purgeDiscoveries env) s (NodeAdvancing env fits True s.discoveries {}) := by
  simp only [purgeDiscoveries, ends_bind, ends_get, ends_when, ends_throw,
    ends_withDiscoveries, ends_modify]
  exact ⟨fun _ => .start sound, fun _ => purgeTables_keeps env.id _ s.discoveries
    ⟨sound, .refl s.discoveries⟩⟩

end

omit [Store σ] in
theorem NodeAdvancing.armed {forgets : Prop} {d0 : Discoveries} {made : Requests}
    {after : NodeState σ} (advancing : NodeAdvancing env fits forgets d0 made s)
    (armed : ∃ timers, after = { s with timers }) :
    NodeAdvancing env fits forgets d0 made after := by
  obtain ⟨timers, rfl⟩ := armed
  exact advancing

theorem fireTimer_advances (timer : Timer) (sound : s.Sound env fits) :
    EndsIn (fireTimer env timer) s
    (NodeAdvancing env fits (NodeAction.fireTimer timer).Forgets s.discoveries {}) := by
  simp only [fireTimer, ends_bind, ends_get]
  split
  · simp only [ends_bind, ends_modify]
    cases timer with
    | clock chain =>
        simp only [ends_bind]
        refine (advances_of_volatile (s := { s with timers := s.timers.erase (.clock chain) }) sound
          (createClockEvent_volatile chain)).weaken fun _ after ticked => ?_
        exact (scheduleClockTimer_arms chain).imp fun _ => NodeAdvancing.armed ticked
    | purge =>
        simp only [ends_bind]
        exact (purgeDiscoveries_advances (s := { s with timers := s.timers.erase .purge })
          sound).imp fun _ purged => purged
  · exact .start sound

theorem restart_advances (sound : s.Sound env fits) :
    EndsIn (restart env) s (NodeAdvancing env fits True s.discoveries {}) := by
  have cleared : NodeAdvancing env fits True s.discoveries {} s.stopped := by
    unfold NodeState.stopped
    refine ⟨⟨by simp, by simp, by simp, sound.notified⟩, ?_, ?_, ?_⟩
    · exact ofTable_forgets trivial fun hash => Or.inr (by simp)
    · exact ofTable_forgets trivial fun hash => Or.inr (by simp)
    · exact ofTable_forgets trivial fun key => Or.inr (by simp)
  have unchanged : ∀ after : NodeState σ, after.volatile = s.stopped.volatile →
      NodeAdvancing env fits True s.discoveries {} after := by
    intro after same
    have discoveries : after.discoveries = _ := congrArg Volatile.discoveries same
    rw [NodeAdvancing, discoveries]
    exact cleared
  exact ends_restart.mpr ((hydrateWorkingState_aside volatile_aside _).imp unchanged)

def Serves (env : NodeEnv) (fits : Event → EventChain → Prop) (action : NodeAction)
    (d0 : Discoveries) (s : NodeState σ) : Prop :=
  ∃ made : Requests, made.clients = action.requests ∧ (action.Forgets → made = {}) ∧
    NodeAdvancing env fits action.Forgets d0 made s

omit [Store σ] in
theorem Serves.sound {action : NodeAction} {d0 : Discoveries}
    (serves : Serves env fits action d0 s) : s.Sound env fits :=
  serves.choose_spec.2.2.1

omit [Store σ] in
theorem serves_of_advances {m : NodeM σ Unit} {action : NodeAction} (quiet : action.requests = {})
    (advances : EndsIn m s (NodeAdvancing env fits action.Forgets s.discoveries {})) :
    EndsIn m s (Serves env fits action s.discoveries) :=
  advances.imp fun _ moved => ⟨{}, quiet.symm, fun _ => rfl, moved⟩

theorem perform_advances (action : NodeAction)
    (sound : s.Sound env fits)
    (ownFit : ∀ event chain, chain.event = event → fits event chain)
    (fitting : Fitting fits env s action) :
    EndsIn (perform env action) s (Serves env fits action s.discoveries) := by
  have begins : NodeAdvancing env fits False s.discoveries {} s := .start sound
  cases action with
  | start => exact serves_of_advances rfl (start_arms.imp fun _ => begins.armed)
  | createClockEvent chain =>
      exact serves_of_advances rfl (advances_of_volatile sound (createClockEvent_volatile chain))
  | discoverEventChain event range registration =>
      exact (discoverEventChain_ends event range (.client registration) begins ownFit).imp
        fun _ moved => ⟨_, rfl, False.elim, moved⟩
  | discoverEventBounds event range registration =>
      refine (discoverEventBounds_ends event range registration begins ownFit).imp ?_
      rintro _ ⟨own, asked, moved⟩
      exact ⟨_, asked, False.elim, moved⟩
  | discoverEventOrder event1 event2 range registration =>
      refine (discoverEventOrder_ends event1 event2 range registration begins ownFit).imp ?_
      rintro _ ⟨own, asked, moved⟩
      exact ⟨_, asked, False.elim, moved⟩
  | onPacketReceived datagram => exact serves_of_advances rfl (onPacketReceived_advances sound fitting)
  | fireTimer timer => exact serves_of_advances rfl (fireTimer_advances timer sound)
  | setClock now => exact ⟨{}, rfl, False.elim, begins⟩
  | restart => exact serves_of_advances rfl (restart_advances sound)
  | _ => exact serves_of_advances rfl (advances_of_volatile sound (perform_aside volatile_aside rfl))

def requestsOf (actions : List NodeAction) : Requests where
  chains := actions.flatMap (·.requests.chains)
  bounds := actions.flatMap (·.requests.bounds)
  orders := actions.flatMap (·.requests.orders)

theorem requestsOf_snoc (actions : List NodeAction) (action : NodeAction) :
    requestsOf (actions ++ [action]) = requestsOf actions ++ action.requests := by
  ext1
  · exact List.flatMap_append.trans (congrArg _ (List.flatMap_singleton _ _))
  · exact List.flatMap_append.trans (congrArg _ (List.flatMap_singleton _ _))
  · exact List.flatMap_append.trans (congrArg _ (List.flatMap_singleton _ _))

theorem boot_discoveries (env : NodeEnv) (store : σ) :
    (NodeState.boot env store).discoveries = {} := by
  have same : (NodeState.boot env store).volatile = (NodeState.fresh store).volatile :=
    (hydrateWorkingState_aside volatile_aside).final
  exact congrArg Volatile.discoveries same

theorem boot_sound (env : NodeEnv) (store : σ) :
    (NodeState.boot env store).Sound env fits := by
  rw [NodeState.Sound, boot_discoveries]
  constructor <;> simp

def Served (env : NodeEnv) (fits : Event → EventChain → Prop) (performed : List NodeAction)
    (s : NodeState σ) : Prop :=
  ∃ made : Requests, made.clients = requestsOf performed ∧ NodeAdvancing env fits True {} made s

omit [Store σ] in
theorem Served.sound {performed : List NodeAction} (served : Served env fits performed s) :
    s.Sound env fits :=
  served.choose_spec.2.1

omit [Store σ] in
theorem Served.serve {performed : List NodeAction} {action : NodeAction} {after : NodeState σ}
    (served : Served env fits performed s) (serves : Serves env fits action s.discoveries after) :
    Served env fits (performed ++ [action]) after := by
  obtain ⟨made, clients, -, advances⟩ := served
  obtain ⟨more, asked, -, sound, moved⟩ := serves
  refine ⟨made ++ more, ?_, sound, advances.trans (moved.mono fun _ => trivial)⟩
  rw [Requests.clients_append, clients, asked, requestsOf_snoc]

theorem boot_served (env : NodeEnv) (store : σ) : Served env fits [] (.boot env store) := by
  refine ⟨{}, rfl, boot_sound env store, ?_⟩
  rw [boot_discoveries]
  exact .refl {}

theorem runActions_advances (env : NodeEnv) (store : σ) (actions : List NodeAction)
    (ownFit : ∀ event chain, chain.event = event → fits event chain)
    (fitting : EachStep (Fitting fits env) env (.boot env store) actions) :
    ∃ performed, performed <+: actions ∧
      Served env fits performed (final (runActions env actions) (.boot env store)) := by
  have step : ∀ done action (s : NodeState σ), Served env fits done s → Fitting fits env s action →
      Ends (perform env action) s (fun _ => Served env fits (done ++ [action]))
        (fun _ after => True ∧ Served env fits (done ++ [action]) after) := by
    intro done action s served fits
    exact (perform_advances action served.sound ownFit fits).mono
      (fun _ after serves => served.serve serves) fun _ after serves =>
      ⟨trivial, served.serve serves⟩
  have ran := ends_runActions step actions (boot_served env store) fitting
  have finished : EndsIn (runActions env actions) (NodeState.boot env store)
      (fun after => ∃ performed, performed <+: actions ∧ Served env fits performed after) :=
    ran.mono (fun _ after kept => ⟨actions, List.prefix_refl _, kept⟩) fun _ _ ended => ended.2
  exact ends_final.mp finished

/-- What a callback receives is what the node's validator accepts, for a request that was made. -/
def Notification.Correct (env : NodeEnv) (actions : List NodeAction) : Notification → Prop
  | .chainCompleted callback event chain =>
      (verifyChain env.hasher chain env.id env.signer).ok = true ∧ chain.event.hash = event.hash ∧
        ∀ registration, callback = .client registration → ∃ asked range,
          .discoverEventChain asked range registration ∈ actions ∧ chain.event.hash = asked.hash
  | .boundsCompleted registration event lower upper =>
      lower ≤ upper ∧ Bounded (validateChainDiscoveryResult env) event.hash lower upper ∧
        ∃ asked range, .discoverEventBounds asked range registration ∈ actions ∧
        event.hash = asked.hash
  | .orderCompleted registration event1 event2 order =>
      Ordered (validateChainDiscoveryResult env) event1.hash event2.hash order ∧
        ∃ asked1 asked2 range, .discoverEventOrder asked1 asked2 range registration ∈ actions ∧
          event1.hash = asked1.hash ∧ event2.hash = asked2.hash
  | _ => True

theorem Bounded.le {env : NodeEnv} {hash : EventHash} {lower upper : Timestamp}
    (bounded : Bounded (validateChainDiscoveryResult env) hash lower upper) : lower ≤ upper := by
  obtain ⟨chain, front, back, accepted, -, frontFound, backFound, rfl, rfl⟩ := bounded
  obtain ⟨front', back', sound⟩ := verifyChain_sound _ _ _ _ accepted
  obtain rfl := Option.mem_unique frontFound sound.front_found
  obtain rfl := Option.mem_unique backFound sound.back_found
  exact Int64.not_lt.mp sound.interval

/-- In every run, of whatever datagrams and calls, all results delivered to callbacks are
correct. -/
theorem notified_correct (env : NodeEnv) (store : σ) (actions : List NodeAction) :
    ∀ notification ∈ (final (runActions env actions) (.boot env store)).discoveries.notified,
      notification.Correct env actions := by
  intro notification told
  have fitting : EachStep (Fitting (fun _ _ => True) env) env (.boot env store) actions := by
    refine eachStep_of_forall (fun s action _ => ?_) _
    cases action <;> simp [Fitting]
  obtain ⟨performed, begun, made, clients, sound, advances⟩ :=
    runActions_advances env store actions (fun _ _ _ => trivial) fitting
  have justified := sound.notified notification told
  cases notification with
  | chainAborted callback event => trivial
  | boundsAborted registration event => trivial
  | orderAborted registration event1 event2 => trivial
  | chainCompleted callback event chain =>
      refine ⟨justified.1, justified.2, ?_⟩
      rintro registration rfl
      have registered := advances.chains.notice_made (by simp [Discoveries.chainBook, ofTable]) rfl
        (List.mem_filterMap.mpr ⟨_, told, rfl⟩)
      have asked : (event.hash, .client registration) ∈ (requestsOf performed).chains := by
        rw [← clients]
        exact List.mem_filter.mpr ⟨registered, by simp⟩
      obtain ⟨action, member, requested⟩ := List.mem_flatMap.mp asked
      cases action with
      | discoverEventChain wanted range number =>
          obtain ⟨same, rfl⟩ : event.hash = wanted.hash ∧ registration = number := by
            simpa [NodeAction.requests] using requested
          exact ⟨wanted, range, begun.subset member, justified.2.trans same⟩
      | _ => cases requested
  | boundsCompleted registration event lower upper =>
      refine ⟨justified.le, justified, ?_⟩
      have asked : (event.hash, registration) ∈ (requestsOf performed).bounds := by
        rw [← clients]
        exact advances.bounds.notice_made (by simp [Discoveries.boundsBook, ofTable]) rfl
          (List.mem_filterMap.mpr ⟨_, told, rfl⟩)
      obtain ⟨action, member, requested⟩ := List.mem_flatMap.mp asked
      cases action with
      | discoverEventBounds wanted range number =>
          obtain ⟨same, rfl⟩ : event.hash = wanted.hash ∧ registration = number := by
            simpa [NodeAction.requests] using requested
          exact ⟨wanted, range, begun.subset member, same⟩
      | _ => cases requested
  | orderCompleted registration event1 event2 order =>
      refine ⟨justified, ?_⟩
      have asked : ((event1.hash, event2.hash), registration) ∈ (requestsOf performed).orders := by
        rw [← clients]
        exact advances.orders.notice_made (by simp [Discoveries.orderBook, ofTable]) rfl
          (List.mem_filterMap.mpr ⟨_, told, rfl⟩)
      obtain ⟨action, member, requested⟩ := List.mem_flatMap.mp asked
      cases action with
      | discoverEventOrder wanted1 wanted2 range number =>
          obtain ⟨⟨same1, same2⟩, rfl⟩ : (event1.hash = wanted1.hash ∧ event2.hash = wanted2.hash) ∧
              registration = number := by
            simpa [NodeAction.requests] using requested
          exact ⟨wanted1, wanted2, range, begun.subset member, same1, same2⟩
      | _ => cases requested

end Runs

/-! A node that asks about an event of its own. -/

def tellingEnv : NodeEnv := NodeEnv.simulated id 1 { chains := [{ keep := 2 }] }

def tellingStart : NodeState InMemoryStore := .boot tellingEnv {}

def tellingRun : List NodeAction := [.createClockEvent 0, .publishEvent [7], .createClockEvent 0]

def toldEvent : Event :=
  (final (runActions tellingEnv tellingRun) tellingStart).store.events.headD default

theorem notified_correct_sample : (Notification.boundsCompleted 0 toldEvent 0 0).Correct tellingEnv
    (tellingRun ++ [.discoverEventBounds toldEvent .all 0]) :=
  notified_correct tellingEnv ({} : InMemoryStore) _ _ (by decide +kernel)

end Loti
