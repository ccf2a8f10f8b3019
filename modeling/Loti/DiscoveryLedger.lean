import Loti.Discovery
import Loti.Library.Ledger

/-!
The discovery tables as three ledgers of pending requests. Every operation of the
bookkeeping moves each ledger by its rules, and keeps what a completed discovery says
justified by accepted chains.
-/

namespace Loti

open Std StateExcept Ledger

def Entry.account {Discovery Callback Result : Type} (state : Discovery → DiscoveryState)
    (result : Discovery → Result) (entry : Entry Discovery Callback) :
    Account (Option Result) Callback :=
  match state entry.discovery with
  | .inProgress => .waiting entry.callbacks
  | .completed => .settled (some (result entry.discovery))
  | .aborted => .settled none

section Accounts

variable {Discovery Callback Result : Type} {state : Discovery → DiscoveryState}
    {result : Discovery → Result}
  {entry : Entry Discovery Callback}

theorem Entry.account_waiting (running : state entry.discovery = .inProgress) :
    entry.account state result = .waiting entry.callbacks := by
  simp [account, running]

theorem Entry.account_aborted (aborted : state entry.discovery = .aborted) :
    entry.account state result = .settled none := by
  simp [account, aborted]

theorem Entry.account_completed (completed : state entry.discovery = .completed) :
    entry.account state result = .settled (some (result entry.discovery)) := by
  simp [account, completed]

theorem Entry.account_settled (finished : state entry.discovery ≠ .inProgress) :
    ∃ outcome, entry.account state result = .settled outcome := by
  cases reached : state entry.discovery with
  | inProgress => exact absurd reached finished
  | completed => exact ⟨_, account_completed reached⟩
  | aborted => exact ⟨_, account_aborted reached⟩

theorem Entry.state_of_account {entry' : Entry Discovery Callback}
    (same : entry'.account state result = entry.account state result) :
    state entry'.discovery = state entry.discovery := by
  unfold account at same
  split at same <;> split at same <;> simp_all

end Accounts

abbrev EventChainDiscovery.account (entry : ChainEntry) :
    Account (Option EventChain) ChainCallback :=
  entry.account (·.state) (·.chain)

abbrev EventBoundsDiscovery.account (entry : BoundsEntry) :
    Account (Option (Timestamp × Timestamp)) Nat :=
  entry.account (·.state) fun d => (d.lowerBound, d.upperBound)

abbrev EventOrderDiscovery.account (entry : OrderEntry) : Account (Option Order) Nat :=
  entry.account (·.state) (·.order)

def Notification.chainNotice : Notification →
    Option (Notice EventHash (Option EventChain) ChainCallback)
  | .chainCompleted callback event chain => some ⟨callback, event.hash, some chain⟩
  | .chainAborted callback event => some ⟨callback, event.hash, none⟩
  | _ => none

def Notification.boundsNotice : Notification →
    Option (Notice EventHash (Option (Timestamp × Timestamp)) Nat)
  | .boundsCompleted registration event lower upper =>
      some ⟨registration, event.hash, some (lower, upper)⟩
  | .boundsAborted registration event => some ⟨registration, event.hash, none⟩
  | _ => none

def Notification.orderNotice : Notification →
    Option (Notice (EventHash × EventHash) (Option Order) Nat)
  | .orderCompleted registration event1 event2 order =>
      some ⟨registration, (event1.hash, event2.hash), some order⟩
  | .orderAborted registration event1 event2 =>
      some ⟨registration, (event1.hash, event2.hash), none⟩
  | _ => none

namespace Discoveries

def chainBook (d : Discoveries) : Book EventHash (Option EventChain) ChainCallback :=
  ofTable EventChainDiscovery.account d.chainDiscoveries
    (d.notified.filterMap Notification.chainNotice)

def boundsBook (d : Discoveries) : Book EventHash (Option (Timestamp × Timestamp)) Nat :=
  ofTable EventBoundsDiscovery.account d.boundsDiscoveries
    (d.notified.filterMap Notification.boundsNotice)

def orderBook (d : Discoveries) : Book (EventHash × EventHash) (Option Order) Nat :=
  ofTable EventOrderDiscovery.account d.orderDiscoveries
    (d.notified.filterMap Notification.orderNotice)

end Discoveries

def Bounded (accepts : EventChain → Bool) (hash : EventHash) (lower upper : Timestamp) : Prop :=
  ∃ chain front back, accepts chain = true ∧ chain.event.hash = hash ∧
    chain.lowerBound.head? = some front ∧ chain.upperBound.getLast? = some back ∧
    lower = front.timestamp ∧ upper = back.timestamp

def Ordered (accepts : EventChain → Bool) (hash1 hash2 : EventHash) (order : Order) : Prop :=
  ∃ chain1 chain2, accepts chain1 = true ∧ accepts chain2 = true ∧ chain1.event.hash = hash1 ∧
    chain2.event.hash = hash2 ∧ compareEventChains chain1 chain2 = some order

def Notification.Justified (accepts : EventChain → Bool) : Notification → Prop
  | .chainCompleted _ event chain => accepts chain = true ∧ chain.event.hash = event.hash
  | .boundsCompleted _ event lower upper => Bounded accepts event.hash lower upper
  | .orderCompleted _ event1 event2 order => Ordered accepts event1.hash event2.hash order
  | _ => True

/-- The tables are keyed by what their entries are about, and completed entries are justified;
`fits` is what else the chain of a completed discovery has to do with the event asked about. -/
structure Discoveries.Sound (accepts : EventChain → Bool) (fits : Event → EventChain → Prop)
    (d : Discoveries) : Prop where
  chains : ∀ (hash : EventHash) (entry : ChainEntry),
    d.chainDiscoveries[hash]? = some entry →
      entry.discovery.event.hash = hash ∧ entry.discovery.chain.event.hash = hash ∧
        (entry.discovery.state = .completed →
          accepts entry.discovery.chain = true ∧ fits entry.discovery.event entry.discovery.chain)
  bounds : ∀ (hash : EventHash) (entry : BoundsEntry),
    d.boundsDiscoveries[hash]? = some entry →
      entry.discovery.event.hash = hash ∧
        (entry.discovery.state = .completed →
          Bounded accepts hash entry.discovery.lowerBound entry.discovery.upperBound)
  orders : ∀ (key : EventHash × EventHash) (entry : OrderEntry),
    d.orderDiscoveries[key]? = some entry →
      (entry.discovery.event1.hash, entry.discovery.event2.hash) = key ∧
        (entry.discovery.state = .completed → Ordered accepts key.1 key.2 entry.discovery.order)
  notified : ∀ notification ∈ d.notified, notification.Justified accepts

/-- What an invocation of chain callbacks may change: it has delivered these notices, and the
node's own callback resolves bounds and order discoveries. -/
structure Discoveries.Invoked
    (delivered : List (Notice EventHash (Option EventChain) ChainCallback))
    (d d' : Discoveries) : Prop where
  chains : d'.chainDiscoveries = d.chainDiscoveries
  notices : d'.notified.filterMap Notification.chainNotice =
    d.notified.filterMap Notification.chainNotice ++ delivered
  bounds : Runs False d.boundsBook [] d'.boundsBook
  orders : Runs False d.orderBook [] d'.orderBook

section Silent

variable {notification : Notification}

theorem Notification.silent_of_chain {notice : Notice EventHash (Option EventChain) ChainCallback}
    (told : notification.chainNotice = some notice) :
    notification.boundsNotice = none ∧ notification.orderNotice = none := by
  cases notification <;> simp_all [boundsNotice, chainNotice, orderNotice]

theorem Notification.silent_of_bounds
    {notice : Notice EventHash (Option (Timestamp × Timestamp)) Nat}
    (told : notification.boundsNotice = some notice) :
    notification.chainNotice = none ∧ notification.orderNotice = none := by
  cases notification <;> simp_all [boundsNotice, chainNotice, orderNotice]

theorem Notification.silent_of_order {notice : Notice (EventHash × EventHash) (Option Order) Nat}
    (told : notification.orderNotice = some notice) :
    notification.chainNotice = none ∧ notification.boundsNotice = none := by
  cases notification <;> simp_all [boundsNotice, chainNotice, orderNotice]

end Silent

section Tables

variable {Key Value : Type} [Ord Key] [TransOrd Key]

theorem insert_insert_same [LawfulEqOrd Key] (table : ExtTreeMap Key Value) (key : Key)
    (first second : Value) :
    (table.insert key first).insert key second = table.insert key second := by
  apply ExtTreeMap.ext_getElem?
  intro other
  simp only [ExtTreeMap.getElem?_insert]
  split <;> rfl

theorem forall_insert [LawfulEqOrd Key] {property : Key → Value → Prop}
    {table : ExtTreeMap Key Value} {key : Key} {value : Value}
    (old : ∀ (k : Key) (v : Value), table[k]? = some v → property k v) (new : property key value) :
    ∀ (k : Key) (v : Value), (table.insert key value)[k]? = some v → property k v := by
  intro k v found
  rw [ExtTreeMap.getElem?_insert] at found
  split at found
  · rename_i same
    obtain rfl := LawfulEqCmp.compare_eq_iff_eq.mp same
    cases found
    exact new
  · exact old k v found

theorem forall_erase {property : Key → Value → Prop} {table : ExtTreeMap Key Value} {key : Key}
    (old : ∀ (k : Key) (v : Value), table[k]? = some v → property k v) :
    ∀ (k : Key) (v : Value), (table.erase key)[k]? = some v → property k v := by
  intro k v found
  rw [ExtTreeMap.getElem?_erase] at found
  split at found
  · cases found
  · exact old k v found

end Tables

namespace Discoveries

variable {accepts : EventChain → Bool} {fits : Event → EventChain → Prop} {d d0 : Discoveries}
  {delivered : List (Notice EventHash (Option EventChain) ChainCallback)} {now : Timestamp}

theorem Invoked.refl (d : Discoveries) : d.Invoked [] d := ⟨rfl, by simp, .done, .done⟩

theorem Invoked.trans {d d' d'' : Discoveries}
    {more : List (Notice EventHash (Option EventChain) ChainCallback)}
    (first : d.Invoked delivered d') (second : d'.Invoked more d'') :
    d.Invoked (delivered ++ more) d'' :=
  ⟨second.chains.trans first.chains, by rw [second.notices, first.notices, List.append_assoc],
    first.bounds.trans second.bounds, first.orders.trans second.orders⟩

theorem Invoked.then {d d' d'' : Discoveries} (first : d.Invoked delivered d')
    (second : d'.Invoked [] d'') : d.Invoked delivered d'' := by
  have both := first.trans second
  rwa [List.append_nil] at both

theorem invoked_tell {notification : Notification}
    {notice : Notice EventHash (Option EventChain) ChainCallback}
    (told : notification.chainNotice = some notice) :
    d.Invoked [notice] { d with notified := d.notified ++ [notification] } := by
  have silent := Notification.silent_of_chain told
  refine ⟨rfl, by simp [told], ?_, ?_⟩
  · simpa [boundsBook, silent] using Runs.done
  · simpa [orderBook, silent] using Runs.done

theorem Sound.notify {notifications : List Notification} (sound : d.Sound accepts fits)
    (justified : ∀ notification ∈ notifications, notification.Justified accepts) :
    ({ d with notified := d.notified ++ notifications } : Discoveries).Sound accepts fits :=
  { sound with
    notified := fun notification member =>
      (List.mem_append.mp member).elim (sound.notified notification) (justified notification) }

theorem Sound.putChain {hash : EventHash} {entry : ChainEntry}
    (sound : d.Sound accepts fits) (about : entry.discovery.event.hash = hash)
    (encloses : entry.discovery.chain.event.hash = hash)
    (justified : entry.discovery.state = .completed →
      accepts entry.discovery.chain = true ∧ fits entry.discovery.event entry.discovery.chain) :
    ({ d with chainDiscoveries := d.chainDiscoveries.insert hash entry } : Discoveries).Sound
      accepts fits :=
  { sound with chains := forall_insert sound.chains ⟨about, encloses, justified⟩ }

theorem Sound.putBounds {hash : EventHash} {entry : BoundsEntry}
    (sound : d.Sound accepts fits) (about : entry.discovery.event.hash = hash)
    (justified : entry.discovery.state = .completed →
      Bounded accepts hash entry.discovery.lowerBound entry.discovery.upperBound) :
    ({ d with boundsDiscoveries := d.boundsDiscoveries.insert hash entry } : Discoveries).Sound
      accepts fits :=
  { sound with bounds := forall_insert sound.bounds ⟨about, justified⟩ }

theorem Sound.putOrder {key : EventHash × EventHash} {entry : OrderEntry}
    (sound : d.Sound accepts fits)
    (about : (entry.discovery.event1.hash, entry.discovery.event2.hash) = key)
    (justified : entry.discovery.state = .completed →
      Ordered accepts key.1 key.2 entry.discovery.order) :
    ({ d with orderDiscoveries := d.orderDiscoveries.insert key entry } : Discoveries).Sound
      accepts fits :=
  { sound with orders := forall_insert sound.orders ⟨about, justified⟩ }

end Discoveries

section Resolution

variable {accepts : EventChain → Bool} {fits : Event → EventChain → Prop} {d d0 : Discoveries}
  {delivered : List (Notice EventHash (Option EventChain) ChainCallback)} {now : Timestamp}

theorem ends_expectInProgress {Discovery Callback : Type} {state : Discovery → DiscoveryState}
    {found : Option (Entry Discovery Callback)} {post : Entry Discovery Callback →
      Discoveries → Prop}
    {thrown : Fault → Discoveries → Prop} :
    Ends (expectInProgress state found) d post thrown ↔
      (∀ entry, found = some entry → state entry.discovery = .inProgress → post entry d) ∧
      (∀ entry, found = some entry → state entry.discovery ≠ .inProgress →
        thrown (.assertion .discoveryInProgress) d) ∧
      (found = none → thrown (.assertion .discoveryFound) d) := by
  cases found with
  | none => simp [expectInProgress]
  | some entry =>
      by_cases running : state entry.discovery = .inProgress <;> simp [expectInProgress, running]

def Invoking (accepts : EventChain → Bool) (fits : Event → EventChain → Prop) (d0 : Discoveries)
    (delivered : List (Notice EventHash (Option EventChain) ChainCallback)) (d : Discoveries) :
    Prop :=
  d.Sound accepts fits ∧ d0.Invoked delivered d

theorem Invoking.settleBounds {hash : EventHash} (entry : BoundsEntry)
    {resolved : BoundsEntry} {outcome : Option (Timestamp × Timestamp)}
    {tell : Nat → Notification} (holds : Invoking accepts fits d0 delivered d)
    (found : d.boundsDiscoveries[hash]? = some entry)
    (running : entry.discovery.state = .inProgress)
    (about : resolved.discovery.event.hash = hash)
    (justified : resolved.discovery.state = .completed →
      Bounded accepts hash resolved.discovery.lowerBound resolved.discovery.upperBound)
    (settled : EventBoundsDiscovery.account resolved = .settled outcome)
    (told : ∀ registration, (tell registration).boundsNotice = some ⟨registration, hash, outcome⟩ ∧
      (tell registration).Justified accepts) :
    Invoking accepts fits d0 delivered { d with
      boundsDiscoveries := d.boundsDiscoveries.insert hash resolved
      notified := d.notified ++ entry.callbacks.map tell } := by
  have silent := fun registration => Notification.silent_of_bounds (told registration).1
  refine ⟨(holds.1.putBounds about justified).notify ?_, holds.2.then ⟨rfl, ?_, ?_, ?_⟩⟩
  · intro notification member
    obtain ⟨registration, -, rfl⟩ := List.mem_map.mp member
    exact (told registration).2
  · simp [List.filterMap_map, silent]
  · have notices : (entry.callbacks.map tell).filterMap Notification.boundsNotice =
        entry.callbacks.map fun registration => ⟨registration, hash, outcome⟩ := by
      simp [List.filterMap_map, told]
    simp only [Discoveries.boundsBook, List.filterMap_append, notices]
    exact ofTable_settles found (Entry.account_waiting running) settled (List.prefix_refl _)
  · simpa [Discoveries.orderBook, List.filterMap_map, silent] using Runs.done

theorem Invoking.settleOrder {key : EventHash × EventHash} (entry : OrderEntry)
    {resolved : OrderEntry} {outcome : Option Order} {tell : Nat → Notification}
    (holds : Invoking accepts fits d0 delivered d) (found : d.orderDiscoveries[key]? = some entry)
    (running : entry.discovery.state = .inProgress)
    (about : (resolved.discovery.event1.hash, resolved.discovery.event2.hash) = key)
    (justified : resolved.discovery.state = .completed →
      Ordered accepts key.1 key.2 resolved.discovery.order)
    (settled : EventOrderDiscovery.account resolved = .settled outcome)
    (told : ∀ registration, (tell registration).orderNotice = some ⟨registration, key, outcome⟩ ∧
      (tell registration).Justified accepts) :
    Invoking accepts fits d0 delivered { d with
      orderDiscoveries := d.orderDiscoveries.insert key resolved
      notified := d.notified ++ entry.callbacks.map tell } := by
  have silent := fun registration => Notification.silent_of_order (told registration).1
  refine ⟨(holds.1.putOrder about justified).notify ?_, holds.2.then ⟨rfl, ?_, ?_, ?_⟩⟩
  · intro notification member
    obtain ⟨registration, -, rfl⟩ := List.mem_map.mp member
    exact (told registration).2
  · simp [List.filterMap_map, silent]
  · simpa [Discoveries.boundsBook, List.filterMap_map, silent] using Runs.done
  · have notices : (entry.callbacks.map tell).filterMap Notification.orderNotice =
        entry.callbacks.map fun registration => ⟨registration, key, outcome⟩ := by
      simp [List.filterMap_map, told]
    simp only [Discoveries.orderBook, List.filterMap_append, notices]
    exact ofTable_settles found (Entry.account_waiting running) settled (List.prefix_refl _)

theorem abortBoundsDiscovery_keeps (hash : EventHash) :
    Keeps (Invoking accepts fits d0 delivered) (abortBoundsDiscovery now hash) := by
  intro d holds
  simp only [abortBoundsDiscovery, ends_bind, ends_get, ends_expectInProgress, putBounds,
    notify, ends_modify]
  refine ⟨fun entry found running => ?_, fun _ _ _ => holds, fun _ => holds⟩
  have about := (holds.1.bounds hash entry found).1
  refine holds.settleBounds entry found running about (by simp) rfl fun registration =>
    ⟨?_, trivial⟩
  simp [Notification.boundsNotice, about]

theorem completeBoundsFrom_keeps (chain : EventChain) (accepted : accepts chain = true) :
    Keeps (Invoking accepts fits d0 delivered) (completeBoundsFrom now chain) := by
  intro d holds
  simp only [completeBoundsFrom, ends_bind, ends_get]
  split
  · rename_i entry found
    split
    · rename_i running
      split
      · rename_i front back frontFound backFound
        have about := (holds.1.bounds _ entry found).1
        have bounded : Bounded accepts chain.event.hash front.timestamp back.timestamp :=
          ⟨chain, front, back, accepted, rfl, frontFound, backFound, rfl, rfl⟩
        simp only [completeBoundsDiscovery, putBounds, notify, ends_bind, ends_get, ends_modify,
          ends_expectInProgress, ExtTreeMap.getElem?_insert_self, insert_insert_same]
        refine ⟨?_, by simp [running], by simp⟩
        rintro _ ⟨rfl⟩ -
        refine holds.settleBounds entry found running about
          (fun _ => bounded) rfl fun registration => ⟨?_, ?_⟩
        · simp [Notification.boundsNotice, about]
        · simpa [Notification.Justified, about] using bounded
      · exact holds
    · exact holds
  · exact holds

theorem abortOrderDiscovery_keeps (key : EventHash × EventHash) :
    Keeps (Invoking accepts fits d0 delivered) (abortOrderDiscovery now key) := by
  intro d holds
  simp only [abortOrderDiscovery, ends_bind, ends_get, ends_expectInProgress, putOrder,
    notify, ends_modify]
  refine ⟨fun entry found running => ?_, fun _ _ _ => holds, fun _ => holds⟩
  have about := (holds.1.orders key entry found).1
  refine holds.settleOrder entry found running about (by simp) rfl fun registration => ⟨?_, trivial⟩
  simp [Notification.orderNotice, about]

theorem abortOrderFrom_keeps (hash : EventHash) (key : EventHash × EventHash) :
    Keeps (Invoking accepts fits d0 delivered) (abortOrderFrom now hash key) := by
  intro d holds
  simp only [abortOrderFrom, ends_bind, ends_get]
  split
  · split
    · exact abortOrderDiscovery_keeps key d holds
    · exact holds
  · exact holds

theorem completeOrderAgainst_ends {key : EventHash × EventHash} {entry : OrderEntry}
    {other : EventHash} {compareWith : EventChain → Option Order}
    (holds : Invoking accepts fits d0 delivered d)
    (found : d.orderDiscoveries[key]? = some entry) (running : entry.discovery.state = .inProgress)
    (compares : ∀ chain order, accepts chain = true → chain.event.hash = other →
      compareWith chain = some order → Ordered accepts key.1 key.2 order) :
    EndsIn (completeOrderAgainst now key entry other compareWith) d
      (Invoking accepts fits d0 delivered) := by
  simp only [completeOrderAgainst, ends_bind, ends_get]
  split
  · rename_i chainEntry chainFound
    split
    · rename_i completed
      split
      · rename_i order compared
        obtain ⟨-, encloses, justified⟩ := holds.1.chains other chainEntry chainFound
        have ordered := compares _ order (justified completed).1 encloses compared
        have about := (holds.1.orders key entry found).1
        simp only [completeOrderDiscovery, putOrder, notify, ends_bind, ends_get, ends_modify,
          ends_expectInProgress, ExtTreeMap.getElem?_insert_self, insert_insert_same]
        refine ⟨?_, by simp [running], by simp⟩
        rintro _ ⟨rfl⟩ -
        refine holds.settleOrder entry found running about
          (fun _ => ordered) rfl fun registration => ⟨?_, ?_⟩
        · simp [Notification.orderNotice, about]
        · subst about
          exact ordered
      · exact holds
    · exact holds
  · exact holds

theorem completeOrderFrom_keeps (chain : EventChain) (accepted : accepts chain = true)
    (key : EventHash × EventHash) :
    Keeps (Invoking accepts fits d0 delivered) (completeOrderFrom now chain key) := by
  intro d holds
  simp only [completeOrderFrom, ends_bind, ends_get]
  split
  · rename_i entry found
    split
    · rename_i running
      split
      · rename_i first
        refine completeOrderAgainst_ends holds found running fun other order otherAccepted
          about compared => ?_
        exact ⟨chain, other, accepted, otherAccepted, first.symm, about, compared⟩
      · split
        · rename_i second
          refine completeOrderAgainst_ends holds found running fun other order otherAccepted
            about compared => ?_
          exact ⟨other, chain, otherAccepted, accepted, about, second.symm, compared⟩
        · exact holds
    · exact holds
  · exact holds

theorem onChainCompleted_keeps (chain : EventChain) (accepted : accepts chain = true) :
    Keeps (Invoking accepts fits d0 delivered) (onChainCompleted now chain) := by
  refine (completeBoundsFrom_keeps chain accepted).bind fun _ d holds => ?_
  exact keeps_forM (fun key _ => completeOrderFrom_keeps chain accepted key) d holds

theorem onChainAborted_keeps (hash : EventHash) :
    Keeps (Invoking accepts fits d0 delivered) (onChainAborted now hash) := by
  intro d holds
  simp only [onChainAborted, ends_bind, ends_get, ends_when]
  have orders : ∀ before, Invoking accepts fits d0 delivered before →
      EndsIn (before.orderDiscoveries.keys.forM (abortOrderFrom now hash)) before
        (Invoking accepts fits d0 delivered) :=
    fun before kept => keeps_forM (fun key _ => abortOrderFrom_keeps hash key) before kept
  refine ⟨fun _ => ?_, fun _ => orders d holds⟩
  exact (abortBoundsDiscovery_keeps hash d holds).weaken fun _ after kept => orders after kept

theorem invokeAborted_ends (event : Event) (callback : ChainCallback)
    (sound : d.Sound accepts fits) : EndsIn (invokeAborted now event callback) d
    (Invoking accepts fits d [⟨callback, event.hash, none⟩]) := by
  have told : Invoking accepts fits d [⟨callback, event.hash, none⟩]
      { d with notified := d.notified ++ [.chainAborted callback event] } := by
    exact ⟨sound.notify (by simp [Notification.Justified]), Discoveries.invoked_tell rfl⟩
  simp only [invokeAborted, notify, ends_bind, ends_modify]
  cases callback with
  | node => exact onChainAborted_keeps event.hash _ told
  | client registration => exact told

theorem invokeCompleted_ends (event : Event) (chain : EventChain) (callback : ChainCallback)
    (sound : d.Sound accepts fits) (accepted : accepts chain = true)
    (about : chain.event.hash = event.hash) :
    EndsIn (invokeCompleted now event chain callback) d
      (Invoking accepts fits d [⟨callback, event.hash, some chain⟩]) := by
  have told : Invoking accepts fits d [⟨callback, event.hash, some chain⟩]
      { d with notified := d.notified ++ [.chainCompleted callback event chain] } := by
    exact ⟨sound.notify (by simp [Notification.Justified, accepted, about]),
      Discoveries.invoked_tell rfl⟩
  simp only [invokeCompleted, notify, ends_bind, ends_modify]
  cases callback with
  | node => exact onChainCompleted_keeps chain accepted _ told
  | client registration => exact told

theorem ends_forM_invoke {invoke : ChainCallback → DiscoveryM Unit} {hash : EventHash}
    {outcome : Option EventChain}
    (body : ∀ callback d, d.Sound accepts fits → EndsIn (invoke callback) d
      (Invoking accepts fits d [⟨callback, hash, outcome⟩]))
    (callbacks : List ChainCallback) (sound : d.Sound accepts fits) :
    EndsIn (callbacks.forM invoke) d (fun d' => ∃ reached, reached <+: callbacks ∧
        Invoking accepts fits d (reached.map fun callback => ⟨callback, hash, outcome⟩) d') := by
  induction callbacks generalizing d with
  | nil => exact ⟨[], List.nil_prefix, sound, .refl d⟩
  | cons callback rest ih =>
      simp only [List.forM_eq_forM, List.forM_cons, ends_bind] at ih ⊢
      have one : [callback] <+: callback :: rest := by simp
      refine (body callback d sound).mono (fun _ after first => ?_) fun _ after first =>
        ⟨_, one, first⟩
      have extend : ∀ d', (∃ reached, reached <+: rest ∧
            Invoking accepts fits after
            (reached.map fun callback => ⟨callback, hash, outcome⟩) d') →
          ∃ reached, reached <+: callback :: rest ∧
            Invoking accepts fits d (reached.map fun callback => ⟨callback, hash, outcome⟩) d' := by
        rintro d' ⟨reached, begins, kept⟩
        exact ⟨callback :: reached, List.prefix_cons_inj callback |>.mpr begins, kept.1,
          first.2.trans kept.2⟩
      exact (ih first.1).imp extend

end Resolution

@[ext] structure Requests where
  chains : List (EventHash × ChainCallback) := []
  bounds : List (EventHash × Nat) := []
  orders : List ((EventHash × EventHash) × Nat) := []

def Requests.append (first second : Requests) : Requests where
  chains := first.chains ++ second.chains
  bounds := first.bounds ++ second.bounds
  orders := first.orders ++ second.orders

instance : Append Requests := ⟨Requests.append⟩

theorem Requests.append_none (made : Requests) : made ++ ({} : Requests) = made := by
  simp only [HAppend.hAppend, Append.append, Requests.append]
  simp

theorem Requests.append_assoc (first second third : Requests) :
    first ++ second ++ third = first ++ (second ++ third) := by
  ext1
  · exact List.append_assoc ..
  · exact List.append_assoc ..
  · exact List.append_assoc ..

def Requests.clients (made : Requests) : Requests :=
  { made with chains := made.chains.filter fun request => request.2 ≠ .node }

theorem Requests.clients_append (first second : Requests) :
    (first ++ second).clients = first.clients ++ second.clients := by
  ext1
  · exact List.filter_append ..
  · rfl
  · rfl

structure Discoveries.Advances (mayForget : Prop) (made : Requests) (d d' : Discoveries) :
    Prop where
  chains : Runs mayForget d.chainBook made.chains d'.chainBook
  bounds : Runs mayForget d.boundsBook made.bounds d'.boundsBook
  orders : Runs mayForget d.orderBook made.orders d'.orderBook

namespace Discoveries

variable {mayForget : Prop} {made more : Requests} {d d' d'' : Discoveries}

theorem Advances.refl (d : Discoveries) : d.Advances mayForget {} d := ⟨.done, .done, .done⟩

theorem Advances.trans (first : d.Advances mayForget made d')
    (second : d'.Advances mayForget more d'') : d.Advances mayForget (made ++ more) d'' :=
  ⟨first.chains.trans second.chains, first.bounds.trans second.bounds,
    first.orders.trans second.orders⟩

theorem Advances.then (first : d.Advances mayForget made d')
    (second : d'.Advances mayForget {} d'') : d.Advances mayForget made d'' := by
  have both := first.trans second
  rwa [made.append_none] at both

theorem Advances.mono {allowed : Prop} (implies : mayForget → allowed)
    (advances : d.Advances mayForget made d') : d.Advances allowed made d' :=
  ⟨advances.chains.mono implies, advances.bounds.mono implies, advances.orders.mono implies⟩

theorem Invoked.advances (invoked : d.Invoked [] d') : d.Advances False {} d' := by
  refine ⟨?_, invoked.bounds, invoked.orders⟩
  rw [chainBook, chainBook, invoked.chains, invoked.notices, List.append_nil]
  exact .done

theorem advances_settleChain {hash : EventHash} (entry : ChainEntry)
    {resolved : ChainEntry} {outcome : Option EventChain}
    {reached : List ChainCallback} (found : d.chainDiscoveries[hash]? = some entry)
    (running : entry.discovery.state = .inProgress)
    (settled : EventChainDiscovery.account resolved = .settled outcome)
    (begins : reached <+: entry.callbacks)
    (invoked : ({ d with chainDiscoveries := d.chainDiscoveries.insert hash resolved } :
      Discoveries).Invoked (reached.map fun callback => ⟨callback, hash, outcome⟩) d') : d.Advances
      False {} d' := by
  refine ⟨?_, invoked.bounds, invoked.orders⟩
  rw [chainBook, chainBook, invoked.chains, invoked.notices]
  exact ofTable_settles found (Entry.account_waiting running) settled begins

theorem advances_replayChain {hash : EventHash} {entry : ChainEntry}
    {outcome : Option EventChain} {callback : ChainCallback}
    (found : d.chainDiscoveries[hash]? = some entry)
    (settled : EventChainDiscovery.account entry = .settled outcome)
    (invoked : d.Invoked [⟨callback, hash, outcome⟩] d') :
    d.Advances False { chains := [(hash, callback)] } d' := by
  refine ⟨?_, invoked.bounds, invoked.orders⟩
  rw [chainBook, chainBook, invoked.chains, invoked.notices]
  exact ofTable_replays found settled

theorem advances_replayBounds {hash : EventHash} {entry : BoundsEntry}
    {outcome : Option (Timestamp × Timestamp)} {registration : Nat} {notification : Notification}
    (found : d.boundsDiscoveries[hash]? = some entry)
    (settled : EventBoundsDiscovery.account entry = .settled outcome)
    (told : notification.boundsNotice = some ⟨registration, hash, outcome⟩) :
    d.Advances mayForget { bounds := [(hash, registration)] }
      { d with notified := d.notified ++ [notification] } := by
  have silent := Notification.silent_of_bounds told
  refine ⟨?_, ?_, ?_⟩
  · simpa [chainBook, silent] using Runs.done
  · simpa [boundsBook, told] using ofTable_replays found settled
  · simpa [orderBook, silent] using Runs.done

theorem advances_replayOrder {key : EventHash × EventHash} {entry : OrderEntry}
    {outcome : Option Order} {registration : Nat} {notification : Notification}
    (found : d.orderDiscoveries[key]? = some entry)
    (settled : EventOrderDiscovery.account entry = .settled outcome)
    (told : notification.orderNotice = some ⟨registration, key, outcome⟩) :
    d.Advances mayForget { orders := [(key, registration)] }
      { d with notified := d.notified ++ [notification] } := by
  have silent := Notification.silent_of_order told
  refine ⟨?_, ?_, ?_⟩
  · simpa [chainBook, silent] using Runs.done
  · simpa [boundsBook, silent] using Runs.done
  · simpa [orderBook, told] using ofTable_replays found settled

end Discoveries

end Loti
