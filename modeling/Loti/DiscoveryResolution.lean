import Loti.Attribution
import Loti.Faults

/-!
Every discovery is resolved at most once. The node registers itself as a chain callback
for each bounds and each order discovery, and its callback for an aborted chain aborts a
bounds discovery without looking at its state; the assertion there holds as long as that
callback runs at most once for an open bounds discovery and never for a resolved one.
-/

namespace Loti

open Std StateExcept Ledger Wire

structure Local (hash : EventHash) (d d' : Discoveries) : Prop where
  chains : ∀ other ≠ hash, d'.chainDiscoveries[other]? = d.chainDiscoveries[other]?
  bounds : ∀ other ≠ hash, d'.boundsDiscoveries[other]? = d.boundsDiscoveries[other]?
  absent : d.boundsDiscoveries[hash]? = none → d'.boundsDiscoveries[hash]? = none

structure Told (hash : EventHash) (d d' : Discoveries) : Prop where
  chains : d'.chainDiscoveries = d.chainDiscoveries
  bounds : ∀ other ≠ hash, d'.boundsDiscoveries[other]? = d.boundsDiscoveries[other]?
  absent : d.boundsDiscoveries[hash]? = none → d'.boundsDiscoveries[hash]? = none

def BoundsOpen (hash : EventHash) (d : Discoveries) : Prop :=
  ∃ entry, d.boundsDiscoveries[hash]? = some entry ∧ entry.discovery.state = .inProgress

/-- These callbacks of a chain discovery for `hash` can be told that it is aborted. -/
def AbortSafe (hash : EventHash) (callbacks : List ChainCallback) (d : Discoveries) : Prop :=
  callbacks.count .node = 0 ∨ d.boundsDiscoveries[hash]? = none ∨
    callbacks.count .node = 1 ∧ BoundsOpen hash d

def EventChain.Enclosing (chain : EventChain) : Prop :=
  ∃ front back, chain.lowerBound.head? = some front ∧ chain.upperBound.getLast? = some back

def Discoveries.Enclosed (d : Discoveries) : Prop :=
  ∀ (hash : EventHash) (entry : ChainEntry), d.chainDiscoveries[hash]? = some entry →
    entry.discovery.state = .completed → entry.discovery.chain.Enclosing

section Bookkeeping

variable {d d' d'' : Discoveries} {hash : EventHash} {now : Timestamp}

theorem compare_enclosing {a b : EventChain} (first : a.Enclosing) (second : b.Enclosing) :
    ∃ order, compareEventChains a b = some order := by
  obtain ⟨aLower, aUpper, aFront, aBack⟩ := first
  obtain ⟨bLower, bUpper, bFront, bBack⟩ := second
  simp only [compareEventChains, OfflineProof.compare, aFront, aBack, bFront, bBack,
    Option.bind_eq_bind, Option.bind_some]
  split
  · exact ⟨_, rfl⟩
  · split <;> exact ⟨_, rfl⟩

theorem Local.refl (hash : EventHash) (d : Discoveries) : Local hash d d :=
  ⟨fun _ _ => rfl, fun _ _ => rfl, fun absent => absent⟩

theorem Local.trans (first : Local hash d d') (second : Local hash d' d'') : Local hash d d'' :=
  ⟨fun other different => (second.chains other different).trans (first.chains other different),
    fun other different => (second.bounds other different).trans (first.bounds other different),
    fun absent => second.absent (first.absent absent)⟩

theorem Told.refl (hash : EventHash) (d : Discoveries) : Told hash d d :=
  ⟨rfl, fun _ _ => rfl, fun absent => absent⟩

theorem Told.trans (first : Told hash d d') (second : Told hash d' d'') : Told hash d d'' :=
  ⟨second.chains.trans first.chains,
    fun other different => (second.bounds other different).trans (first.bounds other different),
    fun absent => second.absent (first.absent absent)⟩

theorem Told.local (told : Told hash d d') : Local hash d d' :=
  ⟨fun _ _ => by rw [told.chains], told.bounds, told.absent⟩

theorem Told.enclosed (told : Told hash d d') (enclosed : d.Enclosed) : d'.Enclosed := by
  rwa [Discoveries.Enclosed, told.chains]

theorem told_of_same (hash : EventHash) (chains : d'.chainDiscoveries = d.chainDiscoveries)
    (bounds : d'.boundsDiscoveries = d.boundsDiscoveries) : Told hash d d' :=
  ⟨chains, fun _ _ => by rw [bounds], fun absent => by rw [bounds, absent]⟩

theorem insert_elsewhere {Value : Type} (table : ExtTreeMap EventHash Value) (value : Value)
    {other : EventHash} (different : other ≠ hash) :
    (table.insert hash value)[other]? = table[other]? := by
  rw [ExtTreeMap.getElem?_insert, if_neg]
  exact fun same => different (LawfulEqCmp.compare_eq_iff_eq.mp same).symm

theorem Discoveries.Enclosed.putChain {entry : ChainEntry} (enclosed : d.Enclosed)
    (enclosing : entry.discovery.state = .completed → entry.discovery.chain.Enclosing) :
    Discoveries.Enclosed { d with chainDiscoveries := d.chainDiscoveries.insert hash entry } := by
  intro other found there
  rw [ExtTreeMap.getElem?_insert] at there
  split at there
  · exact Option.some.inj there ▸ enclosing
  · exact enclosed other found there

theorem local_putChain (entry : ChainEntry) :
    Local hash d { d with chainDiscoveries := d.chainDiscoveries.insert hash entry } :=
  ⟨fun _ different => insert_elsewhere _ _ different, fun _ _ => rfl, fun absent => absent⟩

theorem told_putBounds {entry : BoundsEntry} {notified : List Notification}
    (present : d.boundsDiscoveries[hash]? ≠ none) :
    Told hash d { d with boundsDiscoveries := d.boundsDiscoveries.insert hash entry, notified } :=
  ⟨rfl, fun _ different => insert_elsewhere _ _ different, fun absent => absurd absent present⟩

theorem AbortSafe.congr {callbacks : List ChainCallback} (safe : AbortSafe hash callbacks d)
    (same : d'.boundsDiscoveries[hash]? = d.boundsDiscoveries[hash]?) :
    AbortSafe hash callbacks d' := by
  unfold AbortSafe BoundsOpen at *
  rwa [same]

theorem abortOrderFrom_returns (key : EventHash × EventHash) :
    Returns (abortOrderFrom now hash key) d fun _ => Told hash d := by
  simp only [abortOrderFrom, ends_bind, ends_get]
  split
  · rename_i entry found
    split
    · rename_i running
      simp only [abortOrderDiscovery, putOrder, notify, ends_bind, ends_get, ends_modify,
        ends_expectInProgress, found]
      refine ⟨fun _ _ _ => told_of_same hash rfl rfl, ?_, by simp⟩
      rintro _ ⟨rfl⟩ stopped
      exact absurd running.1 stopped
    · exact .refl hash d
  · exact .refl hash d

theorem completeOrderAgainst_returns {key : EventHash × EventHash} {entry : OrderEntry}
    {other : EventHash} {compareWith : EventChain → Option Order}
    (running : entry.discovery.state = .inProgress)
    (enclosed : d.Enclosed) (compares : ∀ chain, chain.Enclosing →
      ∃ order, compareWith chain = some order) :
    Returns (completeOrderAgainst now key entry other compareWith) d fun _ => Told hash d := by
  simp only [completeOrderAgainst, ends_bind, ends_get]
  split
  · rename_i found there
    split
    · rename_i completed
      split
      · simp only [completeOrderDiscovery, putOrder, notify, ends_bind, ends_get, ends_modify,
          ends_expectInProgress, ExtTreeMap.getElem?_insert_self]
        exact ⟨fun _ _ _ => told_of_same hash rfl rfl, by simp [running], by simp⟩
      · rename_i incomparable
        obtain ⟨order, compared⟩ := compares _ (enclosed other found there completed)
        cases compared.symm.trans incomparable
    · exact .refl hash d
  · exact .refl hash d

theorem completeOrderFrom_returns {chain : EventChain} (enclosing : chain.Enclosing)
    (enclosed : d.Enclosed) (key : EventHash × EventHash) :
    Returns (completeOrderFrom now chain key) d fun _ => Told hash d := by
  simp only [completeOrderFrom, ends_bind, ends_get]
  split
  · split
    · rename_i running
      split
      · exact completeOrderAgainst_returns running enclosed fun _ => compare_enclosing enclosing
      · split
        · exact completeOrderAgainst_returns running enclosed fun _ other =>
            compare_enclosing other enclosing
        · exact .refl hash d
    · exact .refl hash d
  · exact .refl hash d

theorem ends_forM_told {Item : Type} {items : List Item} {body : Item → DiscoveryM Unit}
    (step : ∀ item before, Told hash d before →
      Returns (body item) before (fun _ => Told hash before))
    (start : Told hash d d') : Returns (items.forM body) d' fun _ => Told hash d := by
  refine ends_forM start fun item _ before told => ?_
  exact (step item before told).weaken fun _ _ more => told.trans more

theorem onChainCompleted_returns {chain : EventChain} (about : chain.event.hash = hash)
    (enclosing : chain.Enclosing) (enclosed : d.Enclosed) :
    Returns (onChainCompleted now chain) d fun _ => Told hash d := by
  have orders : ∀ before, Told hash d before →
      Returns (before.orderDiscoveries.keys.forM (completeOrderFrom now chain)) before fun _ =>
      Told hash d := fun before told =>
    ends_forM_told
      (fun key _ same => completeOrderFrom_returns enclosing (same.enclosed enclosed) key) told
  simp only [onChainCompleted, ends_bind, completeBoundsFrom, ends_get, about]
  split
  · rename_i entry found
    split
    · rename_i running
      split
      · simp only [completeBoundsDiscovery, putBounds, notify, ends_bind, ends_get, ends_modify,
          ends_expectInProgress, ExtTreeMap.getElem?_insert_self, insert_insert_same]
        exact ⟨fun _ _ _ => orders _ (told_putBounds (by simp [found])), by simp [running], by simp⟩
      · rename_i missing
        obtain ⟨front, back, frontFound, backFound⟩ := enclosing
        exact missing front back frontFound backFound
    · exact orders d (.refl hash d)
  · exact orders d (.refl hash d)

theorem onChainAborted_returns (ready : d.boundsDiscoveries[hash]? = none ∨ BoundsOpen hash d) :
    Returns (onChainAborted now hash) d fun _ => Told hash d := by
  have orders : ∀ before, Told hash d before →
      Returns (before.orderDiscoveries.keys.forM (abortOrderFrom now hash)) before fun _ =>
      Told hash d := fun before told =>
    ends_forM_told (fun key _ _ => abortOrderFrom_returns key) told
  simp only [onChainAborted, ends_bind, ends_get, ends_when]
  refine ⟨fun present => ?_, fun _ => orders d (.refl hash d)⟩
  rcases ready with absent | ⟨entry, found, running⟩
  · exact absurd present (by simpa using absent)
  · simp only [abortBoundsDiscovery, putBounds, notify, ends_bind, ends_get, ends_modify,
      ends_expectInProgress, found]
    refine ⟨fun _ _ _ => orders _ (told_putBounds (by simp [found])), ?_, by simp⟩
    rintro _ ⟨rfl⟩ stopped
    exact absurd running stopped

theorem invokeCompleted_returns (event : Event) {chain : EventChain}
    (about : chain.event.hash = hash) (enclosing : chain.Enclosing) (enclosed : d.Enclosed)
    (callback : ChainCallback) :
    Returns (invokeCompleted now event chain callback) d fun _ => Told hash d := by
  simp only [invokeCompleted, notify, ends_bind, ends_modify]
  have told :
    Told hash d { d with notified := d.notified ++ [.chainCompleted callback event chain] } :=
    told_of_same hash rfl rfl
  cases callback with
  | node =>
      exact (onChainCompleted_returns about enclosing (told.enclosed enclosed)).weaken fun _ _
        more => told.trans more
  | client registration => exact told

theorem invokeAborted_returns (event : Event) (about : event.hash = hash) (callback : ChainCallback)
    (ready : callback = .node → d.boundsDiscoveries[hash]? = none ∨ BoundsOpen hash d) :
    Returns (invokeAborted now event callback) d
      (fun _ d' => Told hash d d' ∧
        (callback ≠ .node → d'.boundsDiscoveries = d.boundsDiscoveries)) := by
  subst about
  simp only [invokeAborted, notify, ends_bind, ends_modify]
  have told :
    Told event.hash d { d with notified := d.notified ++ [.chainAborted callback event] } :=
    told_of_same event.hash rfl rfl
  cases callback with
  | node =>
      refine Ends.mono (onChainAborted_returns ?_) ?_ fun _ _ no => no
      · exact ready rfl
      · exact fun _ _ more => ⟨told.trans more, by simp⟩
  | client registration => exact ⟨told, fun _ => rfl⟩

/-- The callbacks of an aborted chain discovery. The node's is the only one that looks at the bounds
discovery, and what is left of the list has no second one for it. -/
theorem ends_forM_invokeAborted (event : Event) (about : event.hash = hash)
    (callbacks : List ChainCallback) (safe : AbortSafe hash callbacks d) :
    Returns (callbacks.forM (invokeAborted now event)) d fun _ => Told hash d := by
  induction callbacks generalizing d with
  | nil => exact .refl hash d
  | cons callback rest ih =>
      simp only [List.forM_eq_forM, List.forM_cons, ends_bind] at ih ⊢
      have ready : callback = .node → d.boundsDiscoveries[hash]? = none ∨ BoundsOpen hash d := by
        rintro rfl
        rcases safe with none | absent | ⟨-, opened⟩
        · simp at none
        · exact Or.inl absent
        · exact Or.inr opened
      refine (invokeAborted_returns event about callback ready).weaken ?_
      rintro _ after ⟨told, untouched⟩
      have restSafe : AbortSafe hash rest after := by
        by_cases own : callback = .node
        · subst own
          rcases safe with none | absent | ⟨once, -⟩
          · simp at none
          · exact Or.inr (Or.inl (told.absent absent))
          · exact Or.inl (by simpa using once)
        · have fewer : AbortSafe hash rest d := by
            simpa only [AbortSafe, List.count_cons_of_ne own] using safe
          exact fewer.congr (by rw [untouched own])
      exact (ih restSafe).weaken fun _ _ more => told.trans more

variable {entry : ChainEntry} {limit : Timestamp}

section

variable (found : d.chainDiscoveries[hash]? = some entry)
    (running : entry.discovery.state = .inProgress) (about : entry.discovery.event.hash = hash)

include found running about

theorem abortChainDiscovery_returns
   
    (safe : AbortSafe hash entry.callbacks d) :
    Returns (abortChainDiscovery now hash) d fun _ => Local hash d := by
  simp only [abortChainDiscovery, putChain, ends_bind, ends_get, ends_modify,
    ends_expectInProgress, found]
  refine ⟨?_, by simp [running], by simp⟩
  rintro _ ⟨rfl⟩ -
  refine Ends.mono (ends_forM_invokeAborted entry.discovery.event about entry.callbacks ?_) ?_
    fun _ _ no => no
  · exact safe.congr rfl
  · exact fun _ _ told => (local_putChain _).trans told.local

theorem completeChainDiscovery_returns {accepts : EventChain → Bool}
   
    (encloses : entry.discovery.chain.event.hash = hash)
    (enclosing : accepts entry.discovery.chain = true → entry.discovery.chain.Enclosing)
    (enclosed : d.Enclosed)
    (safe : accepts entry.discovery.chain = false → AbortSafe hash entry.callbacks d) :
    Returns (completeChainDiscovery accepts now hash) d
      (fun _ d' => Local hash d d' ∧ (accepts entry.discovery.chain = true →
        ∃ last, d'.chainDiscoveries[hash]? = some last ∧ last.discovery.state = .completed)) := by
  simp only [completeChainDiscovery, ends_bind, ends_get, ends_expectInProgress, found]
  refine ⟨?_, by simp [running], by simp⟩
  rintro _ ⟨rfl⟩ -
  split
  · rename_i accepted
    simp only [putChain, ends_bind, ends_modify]
    have placed :
      Discoveries.Enclosed { d with chainDiscoveries := d.chainDiscoveries.insert hash { entry with
        discovery := { entry.discovery with endTime := now, state := .completed } } } :=
      enclosed.putChain fun _ => enclosing accepted
    refine (ends_forM_told
      (fun callback _ same => invokeCompleted_returns _ encloses (enclosing accepted)
      (same.enclosed placed) callback) (.refl hash _)).weaken ?_
    intro _ after told
    refine ⟨(local_putChain _).trans told.local, fun _ => ?_⟩
    exact ⟨_, by rw [told.chains, ExtTreeMap.getElem?_insert_self], rfl⟩
  · rename_i rejected
    have safe := safe (by simpa using rejected)
    refine (abortChainDiscovery_returns found running about safe).weaken ?_
    exact fun _ _ kept => ⟨kept, fun accepted => absurd accepted rejected⟩

end

/-- Every chain discovery that a purge with this limit aborts can be aborted. -/
def PurgeSafe (id : NodeId) (limit : Timestamp) (d : Discoveries) : Prop :=
  ∀ (hash : EventHash) (entry : ChainEntry),
    d.chainDiscoveries[hash]? = some entry → entry.discovery.startTime < limit →
      entry.discovery.originator = id → entry.discovery.state = .inProgress →
      AbortSafe hash entry.callbacks d

theorem PurgeSafe.erase {id : NodeId} (safe : PurgeSafe id limit d) (kept : Local hash d d') :
    PurgeSafe id limit { d' with chainDiscoveries := d'.chainDiscoveries.erase hash } := by
  intro other entry found
  rw [ExtTreeMap.getElem?_erase] at found
  split at found
  · cases found
  · rename_i different
    have elsewhere : other ≠ hash := fun same =>
      different (LawfulEqCmp.compare_eq_iff_eq.mpr same.symm)
    rw [kept.chains other elsewhere] at found
    intro expired ours running
    exact (safe other entry found expired ours running).congr (kept.bounds other elsewhere)

variable {accepts : EventChain → Bool} {fits : Event → EventChain → Prop} {d0 : Discoveries}
    {made : Requests}

section

variable (holds : Advancing accepts fits True d0 made d)

include holds

theorem purgeChainDiscovery_returns {id : NodeId}
    (safe : PurgeSafe id limit d) (hash : EventHash) :
    Returns (purgeChainDiscovery id now limit hash) d
      (fun _ d' => Advancing accepts fits True d0 made d' ∧ PurgeSafe id limit d') := by
  have purged : Returns (purgeChainDiscovery id now limit hash) d fun _ => PurgeSafe id limit := by
    simp only [purgeChainDiscovery, ends_bind, ends_get]
    split
    · rename_i entry found
      have about := (holds.1.chains hash entry found).1
      split
      · rename_i expired
        simp only [ends_bind, ends_when, ends_modify, about]
        refine ⟨fun ours => ?_, fun _ => safe.erase (.refl hash d)⟩
        refine (abortChainDiscovery_returns found ours.2 about
          (safe hash entry found expired ours.1 ours.2)).weaken ?_
        exact fun _ _ kept => safe.erase kept
      · exact safe
    · exact safe
  exact ((purgeChainDiscovery_keeps id limit hash d holds).and purged).mono (fun _ _ kept => kept)
    fun _ _ ended => ended.2

theorem purgeBoundsDiscovery_returns (hash : EventHash) :
    Returns (purgeBoundsDiscovery now limit hash) d fun _ =>
    Advancing accepts fits True d0 made := by
  have purged : Returns (purgeBoundsDiscovery now limit hash) d fun _ _ => True := by
    simp only [purgeBoundsDiscovery, ends_bind, ends_get]
    split
    · rename_i entry found
      have about := (holds.1.bounds hash entry found).1
      split
      · simp only [ends_bind, ends_when, ends_modify, about, abortBoundsDiscovery, putBounds,
          notify, ends_get, ends_expectInProgress, found]
        refine ⟨fun running => ⟨fun _ _ _ => trivial, ?_, by simp⟩, fun _ => trivial⟩
        rintro _ ⟨rfl⟩ stopped
        exact absurd running stopped
      · trivial
    · trivial
  exact ((purgeBoundsDiscovery_keeps limit hash d holds).and purged).mono (fun _ _ kept => kept.1)
    fun _ _ ended => ended.2

theorem purgeOrderDiscovery_returns (key : EventHash × EventHash) :
    Returns (purgeOrderDiscovery now limit key) d fun _ => Advancing accepts fits True d0 made := by
  have purged : Returns (purgeOrderDiscovery now limit key) d fun _ _ => True := by
    simp only [purgeOrderDiscovery, ends_bind, ends_get]
    split
    · rename_i entry found
      have about := (holds.1.orders key entry found).1
      split
      · simp only [ends_bind, ends_when, ends_modify, about, abortOrderDiscovery, putOrder,
          notify, ends_get, ends_expectInProgress, found]
        refine ⟨fun running => ⟨fun _ _ _ => trivial, ?_, by simp⟩, fun _ => trivial⟩
        rintro _ ⟨rfl⟩ stopped
        exact absurd running stopped
      · trivial
    · trivial
  exact ((purgeOrderDiscovery_keeps limit key d holds).and purged).mono (fun _ _ kept => kept.1)
    fun _ _ ended => ended.2

theorem purgeTables_returns {id : NodeId}
    (safe : PurgeSafe id limit d) :
    Returns (purgeTables id now limit) d fun _ _ => True := by
  simp only [purgeTables, ends_bind, ends_get]
  have chains : Returns (d.chainDiscoveries.keys.forM (purgeChainDiscovery id now limit)) d
      (fun _ d1 => Advancing accepts fits True d0 made d1 ∧ PurgeSafe id limit d1) :=
    ends_forM ⟨holds, safe⟩ fun hash _ before kept => purgeChainDiscovery_returns kept.1 kept.2 hash
  refine chains.weaken ?_
  rintro _ d1 ⟨kept1, -⟩
  refine (ends_forM kept1 fun hash _ before kept =>
    purgeBoundsDiscovery_returns kept hash).weaken ?_
  intro _ d2 kept2
  refine (ends_forM kept2 fun key _ before kept => purgeOrderDiscovery_returns kept key).weaken ?_
  exact fun _ _ _ => trivial

end

end Bookkeeping

section Node

variable {σ : Type} [Store σ] {env : NodeEnv} {s : NodeState σ} {fits : Event → EventChain → Prop}

def FailsToBuild (env : NodeEnv) (store : σ) (chain : EventChain) : Prop :=
  addLocalLowerBound env.id store chain = .ok none ∨
  (∃ lower, addLocalLowerBound env.id store chain = .ok (some lower) ∧
    addLocalUpperBound store lower = .ok none) ∨
  ∃ upper, Splices env.id store chain upper ∧ validateChainDiscoveryResult env upper = false

def AbortsAtOnce (env : NodeEnv) (s : NodeState σ) (event : Event) : Prop :=
  match s.discoveries.chainDiscoveries[event.hash]? with
  | some entry => entry.discovery.state = .aborted
  | none => event.creator = env.id ∧ FailsToBuild env s.store ⟨event, [], []⟩

omit [Store σ] in
theorem validate_enclosing {chain : EventChain}
    (accepted : validateChainDiscoveryResult env chain = true) : chain.Enclosing := by
  obtain ⟨front, back, sound⟩ := verifyChain_sound _ _ _ _ accepted
  exact ⟨front, back, sound.front_found, sound.back_found⟩

omit [Store σ] in
theorem Discoveries.Sound.enclosed {d : Discoveries}
    (sound : d.Sound (validateChainDiscoveryResult env) fits) : d.Enclosed :=
  fun hash entry found completed =>
    validate_enclosing ((sound.chains hash entry found).2.2 completed).1

theorem resolveChainDiscovery_contained {hash : EventHash} {chain : EventChain}
    {entry : ChainEntry} (found : s.discoveries.chainDiscoveries[hash]? = some entry)
    (running : entry.discovery.state = .inProgress) (about : entry.discovery.event.hash = hash)
    (encloses : chain.event.hash = hash) (enclosed : s.discoveries.Enclosed)
    (safe : FailsToBuild env s.store chain → AbortSafe hash entry.callbacks s.discoveries) :
    Ends (resolveChainDiscovery env hash chain) s
      (fun _ s' => s'.store = s.store ∧ Local hash s.discoveries s'.discoveries ∧
        (FailsToBuild env s.store chain ∨ ∃ last,
          s'.discoveries.chainDiscoveries[hash]? = some last ∧ last.discovery.state = .completed))
      (fun fault _ => fault.Contained) := by
  have placed : ∀ current : EventChain, Local hash s.discoveries { s.discoveries with
      chainDiscoveries := s.discoveries.chainDiscoveries.insert hash
        { entry with discovery := { entry.discovery with chain := current } } } := fun _ =>
        local_putChain _
  simp only [resolveChainDiscovery, addLowerBound, addUpperBound, ends_bind,
    ends_get, ends_readStore]
  refine ⟨fun lower lowered => ?_, fun what _ => ⟨what, rfl⟩⟩
  cases lower with
  | none =>
      have fails : FailsToBuild env s.store chain := Or.inl lowered
      rw [ends_withDiscoveries]
      exact (abortChainDiscovery_returns found running about (safe fails)).always fun _ _ kept =>
        ⟨rfl, kept, Or.inl fails⟩
  | some lower =>
      obtain ⟨_, -, lowerEq⟩ := addLocalLowerBound_ok lowered
      simp only [ends_bind, ends_withDiscoveries, ends_readStore, setDiscoveredChain, putChain,
        ends_get, found, ends_modify]
      refine ⟨fun upper raised => ?_, fun what _ => ⟨what, rfl⟩⟩
      cases upper with
      | none =>
          have fails : FailsToBuild env s.store chain := Or.inr (Or.inl ⟨lower, lowered, raised⟩)
          rw [ends_withDiscoveries]
          refine Ends.mono (abortChainDiscovery_returns ExtTreeMap.getElem?_insert_self ?_ ?_ ?_) ?_
            fun _ _ no => no.elim
          · exact running
          · exact about
          · exact (safe fails).congr rfl
          · exact fun _ _ kept => ⟨rfl, (placed lower).trans kept, Or.inl fails⟩
      | some upper =>
          have spliced : Splices env.id s.store chain upper := ⟨lower, lowered, raised⟩
          simp only [ends_bind, ends_withDiscoveries, ends_get, ExtTreeMap.getElem?_insert_self,
            ends_modify, insert_insert_same]
          refine Ends.mono
            (completeChainDiscovery_returns ExtTreeMap.getElem?_insert_self ?_ ?_ ?_
              validate_enclosing ?_ fun rejected => ?_) ?_ fun _ _ no => no.elim
          · exact running
          · exact about
          · rw [spliced.event, encloses]
          · exact enclosed.putChain fun completed => by simp [running] at completed
          · exact (safe (Or.inr (Or.inr ⟨upper, spliced, rejected⟩))).congr rfl
          · rintro _ d ⟨kept, completes⟩
            refine ⟨trivial, (placed upper).trans kept, ?_⟩
            by_cases accepted : validateChainDiscoveryResult env upper = true
            · exact Or.inr (completes accepted)
            · exact Or.inl (Or.inr (Or.inr ⟨upper, spliced, by simpa using accepted⟩))

/-- A request for a chain. The node asks for itself only when an abort at once finds no resolved
bounds discovery; and an aborted discovery is left behind only by an abort at once. -/
theorem discoverEventChain_contained (event : Event) (range : TimeRange) (callback : ChainCallback)
    (sound : s.Sound env fits)
    (ready : callback = .node → AbortsAtOnce env s event →
      s.discoveries.boundsDiscoveries[event.hash]? = none ∨ BoundsOpen event.hash s.discoveries) :
    Ends (discoverEventChain env event range callback) s
      (fun _ s' => s'.store = s.store ∧ Local event.hash s.discoveries s'.discoveries ∧
        (AbortsAtOnce env s event ∨ ∃ last,
          s'.discoveries.chainDiscoveries[event.hash]? = some last ∧
          last.discovery.state ≠ .aborted))
      (fun fault _ => fault.Contained) := by
  simp only [discoverEventChain, ends_bind, ends_get]
  split
  · rename_i entry found
    obtain ⟨-, encloses, -⟩ := sound.chains _ entry found
    split
    · rename_i running
      simp only [ends_withDiscoveries, putChain, ends_modify]
      exact ⟨trivial, local_putChain _,
        Or.inr ⟨_, ExtTreeMap.getElem?_insert_self, by simp [running]⟩⟩
    · rename_i aborted
      have atOnce : AbortsAtOnce env s event := by simpa [AbortsAtOnce, found] using aborted
      rw [ends_withDiscoveries]
      refine (invokeAborted_returns event rfl callback fun own => ready own atOnce).always ?_
      exact fun _ _ kept => ⟨rfl, kept.1.local, Or.inl atOnce⟩
    · rename_i completed
      rw [ends_withDiscoveries]
      refine (invokeCompleted_returns event encloses
        (sound.enclosed _ entry found completed) sound.enclosed callback).always ?_
      exact fun _ _ told =>
        ⟨rfl, told.local, Or.inr ⟨entry, by rw [told.chains, found], by simp [completed]⟩⟩
  · rename_i absent
    simp only [ends_bind, ends_withDiscoveries, insertChainDiscovery, putChain, ends_modify]
    split
    · rename_i own
      have atOnce : FailsToBuild env s.store ⟨event, [], []⟩ →
        AbortsAtOnce env s event := fun fails => by
        simpa [AbortsAtOnce, absent] using ⟨own, fails⟩
      refine Ends.mono (resolveChainDiscovery_contained ExtTreeMap.getElem?_insert_self rfl rfl rfl
        (sound.enclosed.putChain (by simp [newChainDiscovery])) fun fails => ?_) ?_ fun _ _
        contained => contained
      · cases callback with
        | client registration => exact Or.inl (by simp)
        | node =>
            rcases ready rfl (atOnce fails) with none | opened
            · exact Or.inr (Or.inl none)
            · exact Or.inr (Or.inr ⟨by simp, opened⟩)
      · rintro _ after ⟨sameStore, kept, outcome⟩
        refine ⟨sameStore, (local_putChain _).trans kept, ?_⟩
        rcases outcome with fails | ⟨last, lastFound, completed⟩
        · exact Or.inl (atOnce fails)
        · exact Or.inr ⟨last, lastFound, by simp [completed]⟩
    · refine (floodChainRequest_transmits _ _ _).always ?_
      rintro _ _ ⟨sent, ⟨drawn, seen, rfl⟩, -⟩
      exact ⟨rfl, local_putChain _,
        Or.inr ⟨_, ExtTreeMap.getElem?_insert_self, by simp [newChainDiscovery]⟩⟩

theorem discoverEventBounds_contained (event : Event) (range : TimeRange) (registration : Nat)
    (sound : s.Sound env fits) :
    Ends (discoverEventBounds env event range registration) s (fun _ _ => True)
    (fun fault _ => fault.Contained) := by
  simp only [discoverEventBounds, ends_bind, ends_get]
  split
  · split <;> simp [putBounds, notify]
  · simp only [ends_bind, ends_withDiscoveries, insertBoundsDiscovery, putBounds, ends_modify]
    refine Ends.mono (discoverEventChain_contained event range .node
      (sound.putBounds rfl (by simp [newBoundsDiscovery]))
      fun _ _ => Or.inr ?_) (fun _ _ _ => trivial) fun _ _ contained => contained
    exact ⟨_, ExtTreeMap.getElem?_insert_self, rfl⟩

/-- The two chain requests of an order discovery find no resolved bounds discovery to abort, and no
open one twice. -/
def OrderSafe (env : NodeEnv) (s : NodeState σ) (event1 event2 : Event) : Prop :=
  ∀ event ∈ [event1, event2], AbortsAtOnce env s event →
    s.discoveries.boundsDiscoveries[event.hash]? = none ∨
      BoundsOpen event.hash s.discoveries ∧ event1.hash ≠ event2.hash

theorem discoverEventOrder_contained (event1 event2 : Event) (range : TimeRange)
    (registration : Nat) (sound : s.Sound env fits)
    (ownFit : ∀ event chain, chain.event = event → fits event chain)
    (safe : s.discoveries.orderDiscoveries[(event1.hash, event2.hash)]? = none →
      OrderSafe env s event1 event2) :
    Ends (discoverEventOrder env event1 event2 range registration) s (fun _ _ => True)
      (fun fault _ => fault.Contained) := by
  simp only [discoverEventOrder, ends_bind, ends_get]
  split
  · split <;> simp [putOrder, notify]
  · rename_i absent
    simp only [ends_bind, ends_withDiscoveries, insertOrderDiscovery, putOrder, ends_modify]
    obtain ⟨opened, isOpened⟩ : ∃ opened : NodeState σ,
      opened = { s with discoveries := { s.discoveries with
        orderDiscoveries := s.discoveries.orderDiscoveries.insert (event1.hash, event2.hash)
          ⟨newOrderDiscovery s.now event1 event2, [registration]⟩ } } := ⟨_, rfl⟩
    have openedSound : opened.Sound env fits := by
      rw [isOpened]
      exact sound.putOrder rfl (by simp [newOrderDiscovery])
    have openedSafe : OrderSafe env opened event1 event2 := by
      rw [isOpened]
      exact safe absent
    rw [← isOpened]
    clear isOpened
    have begins : NodeAdvancing env fits False opened.discoveries {} opened := .start openedSound
    have first := discoverEventChain_contained event1 range .node openedSound fun _ atOnce =>
      (openedSafe event1 (by simp) atOnce).imp id And.left
    refine ((discoverEventChain_ends event1 range .node begins ownFit).and first).mono ?_
      fun _ _ ended => ended.2
    rintro _ after ⟨advanced, sameStore, kept, outcome⟩
    refine (discoverEventChain_contained event2 range .node advanced.1 fun _ atOnce => ?_).weaken
      fun _ _ _ => trivial
    by_cases same : event1.hash = event2.hash
    · -- the second request repeats the first one, which has left the bounds discovery as it was: missing
      rcases outcome with aborts | ⟨last, found, finished⟩
      · rcases openedSafe event1 (by simp) aborts with none | ⟨-, different⟩
        · exact Or.inl (same ▸ kept.absent none)
        · exact absurd same different
      · rw [AbortsAtOnce, ← same, found] at atOnce
        exact absurd atOnce finished
    · have different : event2.hash ≠ event1.hash := fun equal => same equal.symm
      have before : AbortsAtOnce env opened event2 := by
        rwa [AbortsAtOnce, kept.chains _ different, sameStore] at atOnce
      rcases openedSafe event2 (by simp) before with none | ⟨running, -⟩
      · exact Or.inl (by rw [kept.bounds _ different, none])
      · refine Or.inr ?_
        rwa [BoundsOpen, kept.bounds _ different]

theorem processChainResponse_raises {sender : Neighbor} {m : ChainResponse} {fine : Fault → Prop}
    (covers : ∀ what, fine (.exception what))
    (relays : Ends (extendAndRetrace env sender m.originator m.chain m.path) s
      (fun _ _ => True) fun fault _ => fine fault)
    (sound : s.Sound env fits)
    (safe : ∀ entry, m.originator = env.id →
      s.discoveries.chainDiscoveries[m.chain.event.hash]? = some entry →
      entry.discovery.state = .inProgress → FailsToBuild env s.store m.chain →
      AbortSafe m.chain.event.hash entry.callbacks s.discoveries) :
    Ends (processChainResponse env sender m) s (fun _ _ => True) (fun fault _ => fine fault) := by
  simp only [processChainResponse]
  split
  · rename_i home
    simp only [ends_bind, ends_get]
    split
    · rename_i entry found
      have about := (sound.chains _ entry found).1
      split
      · rename_i running
        simp only [ends_bind, ends_withDiscoveries, setDiscoveredChain, putChain, ends_get,
          found, ends_modify]
        refine Ends.mono
          (resolveChainDiscovery_contained ExtTreeMap.getElem?_insert_self running about rfl
          (sound.enclosed.putChain fun completed => by simp [running] at completed) fun fails => ?_)
          (fun _ _ _ => trivial)
          fun _ _ => Fault.Contained.covered covers
        exact (safe entry home found running fails).congr rfl
      · trivial
    · trivial
  · split
    · trivial
    · exact relays

end Node

/-- No step can fail an assertion of the helpers that resolve discoveries. -/
def ResolutionSafe {σ : Type} [Store σ] (env : NodeEnv) (s : NodeState σ) : NodeAction → Prop
  | .discoverEventOrder event1 event2 _ _ =>
      s.discoveries.orderDiscoveries[(event1.hash, event2.hash)]? = none →
        OrderSafe env s event1 event2
  | .onPacketReceived datagram => ∀ sender m entry,
      decode ⟨datagram, env.wordBits⟩ = .ok ⟨sender, .chainResponse m⟩ → sender ∈ s.neighbors →
      m.originator = env.id → s.discoveries.chainDiscoveries[m.chain.event.hash]? = some entry →
      entry.discovery.state = .inProgress → FailsToBuild env s.store m.chain →
      AbortSafe m.chain.event.hash entry.callbacks s.discoveries
  | .fireTimer .purge =>
      .purge ∈ s.timers → PurgeSafe env.id (s.now - env.config.discoveryExpiry) s.discoveries
  | _ => True

section Runs

variable {σ : Type} [Store σ] {env : NodeEnv} {s : NodeState σ}

/-- A chain that the node does not have, or an expiry limit before the first time there is. -/
def Strays (env : NodeEnv) (s : NodeState σ) : NodeAction → Prop
  | .createClockEvent chain => s.unreferencedPerChain.length ≤ chain.toNat
  | .fireTimer (.clock chain) => .clock chain ∈ s.timers ∧
      (s.unreferencedPerChain.length ≤ chain.toNat ∨ env.config.chains.length ≤ chain.toNat)
  | .fireTimer .purge => .purge ∈ s.timers ∧
      (s.now - env.config.discoveryExpiry).toInt ≠ s.now.toInt - env.config.discoveryExpiry.toInt
  | _ => False

/-- Where a step can end other than by an exception or an assertion of `ResolutionSafe`, its faults
are `fine`. -/
structure Shelters (env : NodeEnv) (fine : Fault → Prop) (s : NodeState σ) (action : NodeAction) :
    Prop where
  covers : ∀ what, fine (.exception what)
  rejects : ∀ datagram fault, action = .onPacketReceived datagram →
    decode ⟨datagram, env.wordBits⟩ = .error fault → fine fault
  notified : ∀ datagram sender neighbor m, action = .onPacketReceived datagram →
    decode ⟨datagram, env.wordBits⟩ = .ok ⟨sender, .clockNotification m⟩ →
      s.neighbors[sender]? = some neighbor →
      Ends (processClockEventNotification sender neighbor m) s (fun _ _ => True) fun fault _ =>
      fine fault
  relays : ∀ neighbor originator base path,
    Ends (extendAndRetrace env neighbor originator base path) s (fun _ _ => True) fun fault _ =>
    fine fault
  strays : Strays env s action → fine .undefinedBehavior
  restores : ∀ blob, action = .restore blob → Raises fine (restore (σ := σ) env blob)

variable {fine : Fault → Prop}

theorem onPacketReceived_raises {datagram : Bytes}
    (shelters : Shelters env fine s (.onPacketReceived datagram)) (sound : s.Justified env)
    (safe : ResolutionSafe env s (.onPacketReceived datagram)) :
    Ends (onPacketReceived env datagram) s (fun _ _ => True) (fun fault _ => fine fault) := by
  unfold onPacketReceived
  split
  · rename_i decoded read
    simp only [receive, ends_bind, ends_get]
    split
    · trivial
    · rename_i neighbor known
      split
      · rename_i m notification
        exact shelters.notified datagram decoded.sender neighbor m rfl
          (by rw [read, ← notification]) known
      · exact processChainRequest_raises (fun what _ => shelters.covers what) fun _ =>
          shelters.relays _ _ _ _
      · rename_i m response
        refine processChainResponse_raises shelters.covers
          (shelters.relays _ _ _ _) sound fun entry => ?_
        refine safe decoded.sender m entry ?_ ?_
        · rw [read, ← response]
        · exact ExtTreeMap.isSome_getElem?_iff_mem.mp (by simp [known])
  · trivial
  · rename_i failed
    exact shelters.rejects datagram _ rfl failed

theorem fireTimer_raises {timer : Timer} (shelters : Shelters env fine s (.fireTimer timer))
    (sound : s.Justified env)
    (safe : ResolutionSafe env s (.fireTimer timer)) :
    Ends (fireTimer env timer) s (fun _ _ => True) (fun fault _ => fine fault) := by
  simp only [fireTimer, ends_bind, ends_get]
  split
  · rename_i pending
    simp only [ends_bind, ends_modify]
    cases timer with
    | clock chain =>
        rw [ends_bind]
        refine Ends.mono (createClockEvent_raises shelters.covers fun short => ?_) ?_ fun _ _
          raised => raised
        · exact shelters.strays ⟨pending, Or.inl short⟩
        · exact fun _ after _ => scheduleClockTimer_raises
            (fun outside => shelters.strays ⟨pending, Or.inr outside⟩) after
    | purge =>
        simp only [ends_bind, purgeDiscoveries, ends_get, ends_when, ends_throw,
          ends_withDiscoveries, ends_modify]
        refine ⟨fun overflows => shelters.strays ⟨pending, overflows⟩, fun _ => ?_⟩
        exact (purgeTables_returns ⟨sound, .refl _⟩ (safe pending)).always fun _ _ _ => trivial
  · trivial

theorem perform_raises {action : NodeAction} (shelters : Shelters env fine s action)
    (sound : s.Justified env)
    (safe : ResolutionSafe env s action) :
    Ends (perform env action) s (fun _ _ => True) (fun fault _ => fine fault) := by
  have covers := shelters.covers
  cases action with
  | start => exact start_raises s
  | addNeighbor neighbor =>
      simp only [perform, addNeighbor, ends_bind, ends_get]
      split <;> simp [covers]
  | learnRoute destination nextHop => simp [perform, learnRoute, covers]
  | learnRouteAt destination nextHop validity => simp [perform, learnRouteAt, covers]
  | publishEvent data => simp [perform, publishEvent, insertEvent, nextSalt, sign, covers]
  | createClockEvent chain => exact createClockEvent_raises covers shelters.strays
  | discoverEventChain event range registration =>
      exact (discoverEventChain_contained event range (.client registration) sound (by simp)).mono
        (fun _ _ _ => trivial) fun _ _ => Fault.Contained.covered covers
  | discoverEventBounds event range registration =>
      exact (discoverEventBounds_contained event range registration sound).mono
        (fun _ _ _ => trivial) fun _ _ => Fault.Contained.covered covers
  | discoverEventOrder event1 event2 range registration =>
      exact (discoverEventOrder_contained event1 event2 range registration sound
        (fun _ _ _ => trivial) safe).mono (fun _ _ _ => trivial) fun _ _ =>
        Fault.Contained.covered covers
  | onPacketReceived datagram => exact onPacketReceived_raises shelters sound safe
  | fireTimer timer => exact fireTimer_raises shelters sound safe
  | setClock now => trivial
  | gc => exact raises_forM (fun chain => pruneToKeep_raises covers _) s
  | hydrateFromStore => exact hydrateWorkingState_raises covers s
  | restart => exact (raises_modify _).bind (fun _ => hydrateWorkingState_raises covers) s
  | restore blob => exact shelters.restores blob rfl s

theorem shelters_ordinary (action : NodeAction) : Shelters env Fault.Ordinary s action where
  covers := ordinary_exception
  rejects _ _ _ failed := decode_ordinary failed
  notified _ _ _ _ _ _ _ := processClockEventNotification_ordinary _ _ _
  relays := extendAndRetrace_ordinary
  strays _ := ordinary_undefinedBehavior
  restores blob _ := restore_ordinary blob

theorem fitting_trivially (action : NodeAction) : Fitting (fun _ _ => True) env s action := by
  cases action <;> simp [Fitting]

theorem runActions_ordinary (env : NodeEnv) (store : σ) (actions : List NodeAction)
    (safe : EachStep (ResolutionSafe env) env (.boot env store) actions) :
    ∀ fault, raised (runActions env actions) (.boot env store) = some fault → fault.Ordinary := by
  have step : ∀ done action (s : NodeState σ), Served env (fun _ _ => True) done s →
      ResolutionSafe env s action →
        Ends (perform env action) s (fun _ => Served env (fun _ _ => True) (done ++ [action]))
        (fun fault after => fault.Ordinary ∧ Served env (fun _ _ => True)
          (done ++ [action]) after) := by
    intro done action s served safe
    have advances := perform_advances action served.sound (fun _ _ _ => trivial)
      (fitting_trivially action)
    exact ((perform_raises (shelters_ordinary action) served.sound safe).and advances).mono
      (fun _ _ kept => served.serve kept.2) fun _ _ ended => ⟨ended.1, served.serve ended.2⟩
  intro fault ended
  exact ends_raised (ends_runActions step actions (boot_served env store) safe) ended
    |>.choose_spec.1

structure Decided (d d' : Discoveries) : Prop where
  chains : ∀ (hash : EventHash) (entry entry' : ChainEntry),
    d.chainDiscoveries[hash]? = some entry → entry.discovery.state ≠ .inProgress →
    d'.chainDiscoveries[hash]? = some entry' → entry'.discovery.state = entry.discovery.state
  bounds : ∀ (hash : EventHash) (entry entry' : BoundsEntry),
    d.boundsDiscoveries[hash]? = some entry → entry.discovery.state ≠ .inProgress →
    d'.boundsDiscoveries[hash]? = some entry' → entry'.discovery.state = entry.discovery.state
  orders : ∀ (key : EventHash × EventHash) (entry entry' : OrderEntry),
    d.orderDiscoveries[key]? = some entry → entry.discovery.state ≠ .inProgress →
    d'.orderDiscoveries[key]? = some entry' → entry'.discovery.state = entry.discovery.state

omit [Store σ] in
theorem Serves.decided {action : NodeAction} {d : Discoveries}
    (serves : Serves env (fun _ _ => True) action d s) : Decided d s.discoveries := by
  obtain ⟨made, -, calm, -, advances⟩ := serves
  constructor
  · intro hash entry entry' found finished found'
    exact Entry.state_of_account
      (advances.chains.entry_stays (fun forgets => by rw [calm forgets]) found found'
      (Entry.account_settled finished))
  · intro hash entry entry' found finished found'
    exact Entry.state_of_account
      (advances.bounds.entry_stays (fun forgets => by rw [calm forgets]) found found'
      (Entry.account_settled finished))
  · intro key entry entry' found finished found'
    exact Entry.state_of_account
      (advances.orders.entry_stays (fun forgets => by rw [calm forgets]) found found'
      (Entry.account_settled finished))

theorem Decided.refl (d : Discoveries) : Decided d d := by
  constructor
  · intro hash entry entry' found _ found'
    rw [Option.mem_unique found found']
  · intro hash entry entry' found _ found'
    rw [Option.mem_unique found found']
  · intro key entry entry' found _ found'
    rw [Option.mem_unique found found']

theorem served_always (env : NodeEnv) (store : σ) (actions : List NodeAction) :
    ∃ performed, performed <+: actions ∧
      Served env (fun _ _ => True) performed (final (runActions env actions) (.boot env store)) :=
  runActions_advances env store actions (fun _ _ _ => trivial)
    (eachStep_of_forall (fun _ action _ => fitting_trivially action) _)

theorem runActions_decided (env : NodeEnv) (store : σ) (performed : List NodeAction)
    (action : NodeAction) : Decided (final (runActions env performed) (.boot env store)).discoveries
      (final (runActions env (performed ++ [action])) (.boot env store)).discoveries := by
  obtain ⟨_, -, served⟩ := served_always env store performed
  rw [final_runActions_snoc]
  unfold final at served ⊢
  cases ran : runActions env performed (.boot env store) with
  | error fault after => exact .refl _
  | ok value after =>
      rw [ran] at served
      have advances := perform_advances action served.sound (fun _ _ _ => trivial)
        (fitting_trivially action)
      exact (ends_final.mp advances : Serves env _ action _ _).decided

structure ToldOnce (actions : List NodeAction) (d : Discoveries) : Prop where
  chains : ∀ hash registration, d.chainBook.notifiedOf hash (.client registration) ≤
    timesMade (requestsOf actions).chains hash (.client registration)
  bounds : ∀ hash registration, d.boundsBook.notifiedOf hash registration ≤
    timesMade (requestsOf actions).bounds hash registration
  orders : ∀ key registration, d.orderBook.notifiedOf key registration ≤
    timesMade (requestsOf actions).orders key registration

theorem runActions_toldOnce (env : NodeEnv) (store : σ) (actions : List NodeAction) :
    ToldOnce actions (final (runActions env actions) (.boot env store)).discoveries := by
  obtain ⟨performed, ⟨rest, rfl⟩, made, clients, -, advances⟩ := served_always env store actions
  constructor
  · intro hash registration
    calc
      _ ≤ timesMade made.chains hash (.client registration) :=
        advances.chains.notified_le (by simp [Discoveries.chainBook, ofTable]) rfl hash
          (.client registration)
      _ = timesMade (requestsOf performed).chains hash (.client registration) := by
        rw [← clients]
        exact (timesMade_filter made.chains (by simp)).symm
      _ ≤ _ := timesMade_flatMap_le _ performed rest hash (ChainCallback.client registration)
  · intro hash registration
    calc
      _ ≤ timesMade made.clients.bounds hash registration :=
        advances.bounds.notified_le (by simp [Discoveries.boundsBook, ofTable]) rfl
          hash registration
      _ = timesMade (requestsOf performed).bounds hash registration := by rw [clients]
      _ ≤ _ := timesMade_flatMap_le _ performed rest hash registration
  · intro key registration
    calc
      _ ≤ timesMade made.clients.orders key registration :=
        advances.orders.notified_le (by simp [Discoveries.orderBook, ofTable]) rfl key registration
      _ = timesMade (requestsOf performed).orders key registration := by rw [clients]
      _ ≤ _ := timesMade_flatMap_le _ performed rest key registration

/-- Every discovery is resolved at most once: in a run of safe steps no assertion about a
discovery's state fails, a resolved discovery keeps its state, and no callback is told more often
than it was registered. -/
theorem discoveries_resolved_once (env : NodeEnv) (store : σ) (actions : List NodeAction)
    (safe : EachStep (ResolutionSafe env) env (.boot env store) actions) :
    (∀ fault, raised (runActions env actions) (.boot env store) = some fault → fault.Ordinary) ∧
    (∀ performed action, performed ++ [action] <+: actions →
      Decided (final (runActions env performed) (.boot env store)).discoveries
        (final (runActions env (performed ++ [action])) (.boot env store)).discoveries) ∧
    ToldOnce actions (final (runActions env actions) (.boot env store)).discoveries :=
  ⟨runActions_ordinary env store actions safe, fun performed action _ =>
    runActions_decided env store performed action, runActions_toldOnce env store actions⟩

end Runs

def askedEvent (data : UInt8) : Event where
  creator := .ofUInt64 2
  hash := [data]
  data := [data]
  salt := 0
  referencedEvents := []
  signature := []

def bareResponse : Bytes :=
  encode ⟨.ofUInt64 3, .chainResponse ⟨.ofUInt64 1, ⟨askedEvent 1, [], []⟩, []⟩⟩

def askedRun : List NodeAction :=
  [.addNeighbor (.ofUInt64 3), .discoverEventBounds (askedEvent 1) .all 0,
    .onPacketReceived bareResponse]

theorem askedRun_resolved_once :
    EachStep (ResolutionSafe claimedEnv) claimedEnv (.boot claimedEnv ({} : InMemoryStore))
      askedRun ∧
    ToldOnce askedRun (final (runActions claimedEnv askedRun)
      (.boot claimedEnv ({} : InMemoryStore))).discoveries ∧
    (final (runActions claimedEnv askedRun)
      (.boot claimedEnv ({} : InMemoryStore))).discoveries.boundsBook.notifiedOf [1] 0 = 1 := by
  have asked : EachStep (fun s _ =>
        (∀ entry ∈ s.discoveries.chainDiscoveries[(askedEvent 1).hash]?,
          entry.callbacks = [.node]) ∧
        ∀ entry ∈ s.discoveries.boundsDiscoveries[(askedEvent 1).hash]?,
          entry.discovery.state = .inProgress)
      claimedEnv (.boot claimedEnv ({} : InMemoryStore)) askedRun := by decide +kernel
  have read : decode ⟨bareResponse, claimedEnv.wordBits⟩ = .ok ⟨.ofUInt64 3,
      .chainResponse ⟨.ofUInt64 1, ⟨askedEvent 1, [], []⟩, []⟩⟩ := by decide +kernel
  have safe : EachStep (ResolutionSafe claimedEnv) claimedEnv
      (.boot claimedEnv ({} : InMemoryStore)) askedRun := by
    refine asked.imp fun s action listed once => ?_
    simp only [askedRun, List.mem_cons, List.not_mem_nil, or_false] at listed
    rcases listed with rfl | rfl | rfl
    · trivial
    · trivial
    · intro sender m entry decoded _ _ registered _ _
      cases read.symm.trans decoded
      refine Or.inr ?_
      cases found : s.discoveries.boundsDiscoveries[(askedEvent 1).hash]? with
      | none => exact Or.inl rfl
      | some bounds =>
          rw [once.1 entry registered]
          exact Or.inr ⟨rfl, bounds, found, once.2 bounds found⟩
  exact ⟨safe, (discoveries_resolved_once claimedEnv ({} : InMemoryStore) askedRun safe).2.2,
    by decide +kernel⟩

def twiceRun : List NodeAction :=
  [.addNeighbor (.ofUInt64 3), .discoverEventBounds (askedEvent 1) .all 0,
    .discoverEventOrder (askedEvent 1) (askedEvent 2) .all 1, .onPacketReceived bareResponse]

theorem twiceRun_fails_assertion :
    raised (runActions claimedEnv twiceRun) (.boot claimedEnv ({} : InMemoryStore)) =
      some (.assertion .discoveryInProgress) := by
  decide +kernel

end Loti
