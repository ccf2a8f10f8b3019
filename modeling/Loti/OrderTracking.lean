import Loti.DiscoveryResolution

/-!
An order discovery keeps nothing of the two chains it waits for: when one side completes,
the node's callback looks the other up in the table of chain discoveries. Here is what that
lookup finds while the order discovery is in progress, and when a purge takes it away.
-/

namespace Loti

open Std StateExcept

def Fault.Fatal (fault : Fault) : Prop :=
  ∀ what, fault ≠ .exception what

/-- However the bookkeeping ends, `post` holds, or a fault ends the process. -/
abbrev EndsOrFatal {α : Type} (m : DiscoveryM α) (d : Discoveries) (post : Discoveries → Prop) :
    Prop :=
  Ends m d (fun _ => post) fun fault _ => fault.Fatal

namespace Discoveries

def Found (d : Discoveries) (hash : EventHash) (chain : EventChain) : Prop :=
  ∃ entry, d.chainDiscoveries[hash]? = some entry ∧ entry.discovery.state = .completed ∧
    entry.discovery.chain = chain

def Lost (d : Discoveries) (hash : EventHash) : Prop :=
  ∃ entry, d.chainDiscoveries[hash]? = some entry ∧ entry.discovery.state = .aborted

def Heard (d : Discoveries) (since : Nat) (chain : EventChain) : Prop :=
  ∃ event, .chainCompleted .node event chain ∈ d.notified.drop since

def orderDiscovery (d : Discoveries) (key : EventHash × EventHash) : Option EventOrderDiscovery :=
  d.orderDiscoveries[key]?.map (·.discovery)

def OrderOpen (d : Discoveries) (key : EventHash × EventHash) : Prop :=
  ∃ discovery, d.orderDiscovery key = some discovery ∧ discovery.state = .inProgress

end Discoveries

def Side (key : EventHash × EventHash) (hash : EventHash) : Prop :=
  key.1 = hash ∨ key.2 = hash

/-- What a step may change that tells the node of no completed chain: resolved chain discoveries
stay, and the order discovery for `key` stays or, if `aborts` holds, is aborted. -/
structure Fades (key : EventHash × EventHash) (aborts : Prop) (d d' : Discoveries) : Prop where
  chains : ∀ (hash : EventHash) (entry : ChainEntry),
    d.chainDiscoveries[hash]? = some entry → entry.discovery.state ≠ .inProgress →
      d'.chainDiscoveries[hash]? = some entry
  silent : ∃ more, d'.notified = d.notified ++ more ∧ ∀ event chain,
    .chainCompleted .node event chain ∉ more
  order : d'.orderDiscovery key = d.orderDiscovery key ∨
    aborts ∧ d.OrderOpen key ∧ ∃ discovery, d'.orderDiscovery key = some discovery ∧
    discovery.state = .aborted

/-- What the node knows about the order discovery for `key` that it inserted after `since`
notifications. A completed side that it was told of can be looked up, a completed order compares the
two chains, and both sides are known to an open one only while `pending` holds. -/
structure Tracks (since : Nat) (key : EventHash × EventHash) (pending : Prop) (d : Discoveries) :
    Prop where
  length : since ≤ d.notified.length
  heard : ∀ chain, d.Heard since chain → Side key chain.event.hash → d.Found chain.event.hash chain
  present : ∃ discovery, d.orderDiscovery key = some discovery
  compared : ∀ discovery, d.orderDiscovery key = some discovery → discovery.state = .completed →
    ∃ first second, d.Found key.1 first ∧ d.Found key.2 second ∧
      compareEventChains first second = some discovery.order
  aborted : ∀ discovery, d.orderDiscovery key = some discovery → discovery.state = .aborted →
    ∃ hash, Side key hash ∧ d.Lost hash
  caught : d.OrderOpen key → ∀ first second, d.Heard since first → d.Heard since second →
    first.event.hash = key.1 → second.event.hash = key.2 → pending

section Bookkeeping

variable {d d' d'' : Discoveries} {key other : EventHash × EventHash}
    {aborts aborts' pending pending' : Prop}
  {hash : EventHash} {chain : EventChain} {since : Nat} {now : Timestamp} {more : List Notification}

theorem Discoveries.Found.unique {first second : EventChain} (found : d.Found hash first)
    (found' : d.Found hash second) : first = second := by
  obtain ⟨entry, read, -, rfl⟩ := found
  obtain ⟨entry', read', -, rfl⟩ := found'
  rw [Option.mem_unique read read']

theorem Discoveries.Found.not_lost (found : d.Found hash chain) : ¬d.Lost hash := by
  rintro ⟨entry', read', aborted⟩
  obtain ⟨entry, read, completed, -⟩ := found
  obtain rfl := Option.mem_unique read read'
  rw [completed] at aborted
  cases aborted

theorem Fades.refl (key : EventHash × EventHash) (d : Discoveries) : Fades key aborts d d :=
  ⟨fun _ _ found _ => found, ⟨[], by simp⟩, Or.inl rfl⟩

theorem Fades.trans (first : Fades key aborts d d') (second : Fades key aborts d' d'') :
    Fades key aborts d d'' := by
  constructor
  · exact fun hash entry found resolved => second.chains hash entry
      (first.chains hash entry found resolved) resolved
  · obtain ⟨more, grown, none⟩ := first.silent
    obtain ⟨most, grown', none'⟩ := second.silent
    exact ⟨more ++ most, by rw [grown', grown, List.append_assoc], by simp [none, none']⟩
  · rcases second.order with same | ⟨may, opened, gone⟩
    · rcases first.order with same' | ⟨may, opened, gone⟩
      · exact Or.inl (same.trans same')
      · exact Or.inr ⟨may, opened, by rwa [same]⟩
    · rcases first.order with same' | ⟨_, _, discovery, read, aborted⟩
      · exact Or.inr ⟨may, by rwa [Discoveries.OrderOpen, same'] at opened, gone⟩
      · obtain ⟨discovery', read', running⟩ := opened
        rw [Option.mem_unique read' read, aborted] at running
        cases running

theorem Fades.mono (fades : Fades key aborts d d') (weaker : aborts → aborts') :
    Fades key aborts' d d' :=
  ⟨fades.chains, fades.silent, fades.order.imp_right fun ⟨may, rest⟩ => ⟨weaker may, rest⟩⟩

theorem Fades.found (fades : Fades key aborts d d') (found : d.Found hash chain) :
    d'.Found hash chain := by
  obtain ⟨entry, read, completed, same⟩ := found
  exact ⟨entry, fades.chains hash entry read (by simp [completed]), completed, same⟩

theorem Fades.lost (fades : Fades key aborts d d') (lost : d.Lost hash) : d'.Lost hash := by
  obtain ⟨entry, read, aborted⟩ := lost
  exact ⟨entry, fades.chains hash entry read (by simp [aborted]), aborted⟩

theorem heard_of_silent (grown : d'.notified = d.notified ++ more)
    (none : ∀ event chain, .chainCompleted .node event chain ∉ more)
    (begun : since ≤ d.notified.length) (heard : d'.Heard since chain) : d.Heard since chain := by
  obtain ⟨event, member⟩ := heard
  rw [grown, List.drop_append_of_le_length begun] at member
  exact ⟨event, (List.mem_append.mp member).resolve_right (none event chain)⟩

theorem Fades.heard (fades : Fades key aborts d d') (begun : since ≤ d.notified.length)
    (heard : d'.Heard since chain) : d.Heard since chain := by
  obtain ⟨more, grown, none⟩ := fades.silent
  exact heard_of_silent grown none begun heard

theorem Tracks.mono (tracks : Tracks since key pending d) (weaker : pending → pending') :
    Tracks since key pending' d :=
  { tracks with
    caught := fun opened first second heard heard' about about' =>
      weaker (tracks.caught opened first second heard heard' about about') }

theorem Tracks.fades (tracks : Tracks since key pending d) (fades : Fades key aborts d d')
    (lost : aborts → ∃ hash, Side key hash ∧ d'.Lost hash) : Tracks since key pending d' where
  length := by
    obtain ⟨more, grown, -⟩ := fades.silent
    rw [grown, List.length_append]
    exact Nat.le_add_right_of_le tracks.length
  heard chain heard about :=
    fades.found (tracks.heard chain (fades.heard tracks.length heard) about)
  present := by
    rcases fades.order with same | ⟨-, -, discovery, read, -⟩
    · rw [same]
      exact tracks.present
    · exact ⟨discovery, read⟩
  compared discovery read completed := by
    rcases fades.order with same | ⟨-, -, discovery', read', aborted⟩
    · obtain ⟨first, second, found, found', compared⟩ := tracks.compared discovery
        (same ▸ read) completed
      exact ⟨first, second, fades.found found, fades.found found', compared⟩
    · rw [Option.mem_unique read read', aborted] at completed
      cases completed
  aborted discovery read gone := by
    rcases fades.order with same | ⟨may, -, -⟩
    · obtain ⟨hash, side, lost⟩ := tracks.aborted discovery (same ▸ read) gone
      exact ⟨hash, side, fades.lost lost⟩
    · exact lost may
  caught opened first second heard heard' := by
    rcases fades.order with same | ⟨-, -, discovery', read', aborted⟩
    · exact tracks.caught (by rwa [Discoveries.OrderOpen, same] at opened) first second
        (fades.heard tracks.length heard) (fades.heard tracks.length heard')
    · obtain ⟨discovery, read, running⟩ := opened
      rw [Option.mem_unique read read', aborted] at running
      cases running

/-! The operations that tell the node of no completed chain -/

theorem fades_of_same (chains : d'.chainDiscoveries = d.chainDiscoveries)
    (order : d'.orderDiscovery key = d.orderDiscovery key)
    (grown : d'.notified = d.notified ++ more)
    (none : ∀ event chain, .chainCompleted .node event chain ∉ more) :
    Fades key aborts d d' :=
  ⟨fun _ _ found _ => by rwa [chains], ⟨more, grown, none⟩, Or.inl order⟩

theorem fades_putChain (entry : ChainEntry)
    (unresolved : ∀ old, d.chainDiscoveries[hash]? = some old → old.discovery.state = .inProgress) :
    Fades key aborts d { d with chainDiscoveries := d.chainDiscoveries.insert hash entry } where
  chains other old read resolved := by
    have different : other ≠ hash := by
      rintro rfl
      exact resolved (unresolved old read)
    exact (insert_elsewhere _ _ different).trans read
  silent := ⟨[], by simp⟩
  order := Or.inl rfl

theorem orderDiscovery_putOrder (entry : OrderEntry) (notified : List Notification) :
    ({ d with orderDiscoveries := d.orderDiscoveries.insert other entry, notified } :
      Discoveries).orderDiscovery key =
      if other = key then some entry.discovery else d.orderDiscovery key := by
  simp only [Discoveries.orderDiscovery, ExtTreeMap.getElem?_insert, LawfulEqCmp.compare_eq_iff_eq]
  split <;> rfl

theorem abortBoundsDiscovery_fades (hash : EventHash) :
    EndsOrFatal (abortBoundsDiscovery now hash) d (Fades key aborts d) := by
  simp only [abortBoundsDiscovery, putBounds, notify, ends_bind, ends_get, ends_modify,
    ends_expectInProgress]
  refine ⟨fun entry _ _ => ?_, by simp [Fault.Fatal], by simp [Fault.Fatal]⟩
  exact fades_of_same rfl rfl rfl (by simp)

theorem completeBoundsFrom_fades (chain : EventChain) :
    EndsOrFatal (completeBoundsFrom now chain) d (Fades key aborts d) := by
  simp only [completeBoundsFrom, ends_bind, ends_get]
  split
  · split
    · split
      · simp only [completeBoundsDiscovery, putBounds, notify, ends_bind, ends_get, ends_modify,
          ends_expectInProgress]
        refine ⟨fun entry _ _ => ?_, by simp [Fault.Fatal], by simp [Fault.Fatal]⟩
        exact fades_of_same rfl rfl rfl (by simp)
      · simp [Fault.Fatal]
    · exact .refl key d
  · exact .refl key d

theorem abortOrderDiscovery_fades (other : EventHash × EventHash) :
    EndsOrFatal (abortOrderDiscovery now other) d (Fades key (other = key) d) := by
  simp only [abortOrderDiscovery, putOrder, notify, ends_bind, ends_get, ends_modify,
    ends_expectInProgress]
  refine ⟨fun entry found running => ?_, by simp [Fault.Fatal], by simp [Fault.Fatal]⟩
  refine ⟨fun _ _ found _ => found, ⟨_, rfl, by simp⟩, ?_⟩
  rw [orderDiscovery_putOrder]
  split
  · rename_i same
    subst same
    exact Or.inr ⟨rfl, ⟨entry.discovery, by simp [Discoveries.orderDiscovery, found], running⟩,
      _, rfl, rfl⟩
  · exact Or.inl rfl

theorem abortOrderFrom_fades (hash : EventHash) (other : EventHash × EventHash) :
    EndsOrFatal (abortOrderFrom now hash other) d (Fades key (Side key hash) d) := by
  simp only [abortOrderFrom, ends_bind, ends_get]
  split
  · split
    · rename_i concerned
      refine (abortOrderDiscovery_fades other).weaken fun _ _ fades => fades.mono ?_
      rintro rfl
      exact concerned.2
    · exact .refl key d
  · exact .refl key d

theorem ends_forM_fades {Item : Type} {items : List Item} {body : Item → DiscoveryM Unit}
    (step : ∀ item d, EndsOrFatal (body item) d (Fades key aborts d)) :
    EndsOrFatal (items.forM body) d (Fades key aborts d) := by
  refine ends_forM (.refl key d) fun item _ before fades => ?_
  exact (step item before).weaken fun _ _ more => fades.trans more

theorem onChainAborted_fades (hash : EventHash) :
    EndsOrFatal (onChainAborted now hash) d (Fades key (Side key hash) d) := by
  have orders : ∀ before, Fades key (Side key hash) d before →
      EndsOrFatal (before.orderDiscoveries.keys.forM (abortOrderFrom now hash)) before
        (Fades key (Side key hash) d) := fun before fades =>
    (ends_forM_fades fun other _ => abortOrderFrom_fades hash other).weaken fun _ _ more =>
      fades.trans more
  simp only [onChainAborted, ends_bind, ends_get, ends_when]
  refine ⟨fun _ => ?_, fun _ => orders d (.refl key d)⟩
  exact (abortBoundsDiscovery_fades hash).weaken fun _ after fades => orders after fades

theorem invokeAborted_fades (event : Event) (callback : ChainCallback) :
    EndsOrFatal (invokeAborted now event callback) d (Fades key (Side key event.hash) d) := by
  simp only [invokeAborted, notify, ends_bind, ends_modify]
  have told : Fades key (Side key event.hash) d
      { d with notified := d.notified ++ [.chainAborted callback event] } :=
      fades_of_same rfl rfl rfl (by simp)
  cases callback with
  | node => exact (onChainAborted_fades event.hash).weaken fun _ _ more => told.trans more
  | client registration => exact told

theorem abortChainDiscovery_fades (hash : EventHash)
    (concerns : ∀ entry, d.chainDiscoveries[hash]? = some entry →
      Side key entry.discovery.event.hash → aborts) :
    EndsOrFatal (abortChainDiscovery now hash) d (fun d' => Fades key aborts d d' ∧
      d'.Lost hash) := by
  simp only [abortChainDiscovery, putChain, ends_bind, ends_get, ends_modify, ends_expectInProgress]
  refine ⟨fun entry found running => ?_, by simp [Fault.Fatal], by simp [Fault.Fatal]⟩
  have unresolved : ∀ old, d.chainDiscoveries[hash]? = some old →
    old.discovery.state = .inProgress := by
    intro old read
    rwa [← Option.mem_unique found read]
  have told :
      ∀ callback before, EndsOrFatal (invokeAborted now entry.discovery.event callback) before
      (Fades key (Side key entry.discovery.event.hash) before) :=
    fun callback _ => invokeAborted_fades entry.discovery.event callback
  refine (ends_forM_fades told).weaken ?_
  intro _ after fades
  refine ⟨(fades_putChain _ unresolved).trans (fades.mono (concerns entry found)), fades.lost ?_⟩
  exact ⟨_, ExtTreeMap.getElem?_insert_self, rfl⟩

/-! The operations that may complete a side -/

theorem Tracks.uncaught (tracks : Tracks since key pending d) (side : Side key hash)
    (absent : ¬∃ chain, d.Found hash chain) : Tracks since key False d := by
  refine { tracks with caught := fun _ first second heard heard' about about' => ?_ }
  rcases side with rfl | rfl
  · exact absent ⟨first, about ▸ tracks.heard first heard (Or.inl about.symm)⟩
  · exact absent ⟨second, about' ▸ tracks.heard second heard' (Or.inr about'.symm)⟩

theorem Tracks.settle {first second : EventChain} {entry : OrderEntry}
    (tracks : Tracks since key pending d) (found : d.Found key.1 first)
    (found' : d.Found key.2 second) (completed : entry.discovery.state = .completed)
    (compared : compareEventChains first second = some entry.discovery.order)
    (none : ∀ event chain, .chainCompleted .node event chain ∉ more) :
    Tracks since key False { d with
      orderDiscoveries := d.orderDiscoveries.insert key entry
      notified := d.notified ++ more } := by
  have put : ∀ discovery, Discoveries.orderDiscovery { d with
      orderDiscoveries := d.orderDiscoveries.insert key entry
      notified := d.notified ++ more } key = some discovery → discovery = entry.discovery := by
    intro discovery read
    rw [orderDiscovery_putOrder, if_pos rfl] at read
    exact (Option.some.inj read).symm
  constructor
  · exact Nat.le_trans tracks.length (by simp)
  · exact fun chain heard => tracks.heard chain (heard_of_silent rfl none tracks.length heard)
  · exact ⟨_, (orderDiscovery_putOrder entry _).trans (if_pos rfl)⟩
  · intro discovery read _
    rw [put discovery read]
    exact ⟨first, second, found, found', compared⟩
  · intro discovery read aborted
    rw [put discovery read, completed] at aborted
    cases aborted
  · rintro ⟨discovery, read, running⟩
    rw [put discovery read, completed] at running
    cases running

theorem completeOrderAgainst_tracks {entry : OrderEntry} {compareWith : EventChain → Option Order}
    (tracks : Tracks since key pending d) (running : entry.discovery.state = .inProgress)
    (side : Side key hash)
    (compares : ∀ other order, d.Found hash other → compareWith other = some order →
      ∃ first second, d.Found key.1 first ∧ d.Found key.2 second ∧
      compareEventChains first second = some order) :
    EndsOrFatal (completeOrderAgainst now key entry hash compareWith) d
      (fun d' => Tracks since key False d' ∧ d'.chainDiscoveries = d.chainDiscoveries) := by
  simp only [completeOrderAgainst, ends_bind, ends_get]
  split
  · rename_i chainEntry read
    split
    · rename_i completed
      split
      · rename_i order compared
        obtain ⟨first, second, found, found', ordered⟩ :=
          compares _ order ⟨_, read, completed, rfl⟩ compared
        simp only [completeOrderDiscovery, putOrder, notify, ends_bind, ends_get, ends_modify,
          ends_expectInProgress, ExtTreeMap.getElem?_insert_self, insert_insert_same]
        refine ⟨?_, by simp [running], by simp⟩
        rintro _ ⟨rfl⟩ -
        exact ⟨tracks.settle found found' rfl ordered (by simp), trivial⟩
      · simp [Fault.Fatal]
    · rename_i unfinished
      refine ⟨tracks.uncaught side ?_, rfl⟩
      rintro ⟨chain, entry', read', completed, -⟩
      exact unfinished (Option.mem_unique read read' ▸ completed)
  · rename_i absent
    refine ⟨tracks.uncaught side ?_, rfl⟩
    rintro ⟨chain, entry', read', -⟩
    rw [absent] at read'
    cases read'

theorem completeOrderFrom_other (chain : EventChain) (different : other ≠ key) :
    EndsOrFatal (completeOrderFrom now chain other) d (Fades key False d) := by
  have against : ∀ entry hash compareWith,
      EndsOrFatal (completeOrderAgainst now other entry hash compareWith) d
      (Fades key False d) := by
    intro entry hash compareWith
    simp only [completeOrderAgainst, ends_bind, ends_get]
    split
    · split
      · split
        · simp only [completeOrderDiscovery, putOrder, notify, ends_bind, ends_get, ends_modify,
            ends_expectInProgress, insert_insert_same]
          refine ⟨fun entry _ _ => ?_, by simp [Fault.Fatal], by simp [Fault.Fatal]⟩
          exact fades_of_same rfl
            ((orderDiscovery_putOrder _ _).trans (if_neg different)) rfl (by simp)
        · simp [Fault.Fatal]
      · exact .refl key d
    · exact .refl key d
  simp only [completeOrderFrom, ends_bind, ends_get]
  split
  · split
    · split
      · exact against _ _ _
      · split
        · exact against _ _ _
        · exact .refl key d
    · exact .refl key d
  · exact .refl key d

theorem completeOrderFrom_self (tracks : Tracks since key (Side key chain.event.hash) d)
    (found : d.Found chain.event.hash chain) :
    EndsOrFatal (completeOrderFrom now chain key) d
      (fun d' => Tracks since key False d' ∧ d'.chainDiscoveries = d.chainDiscoveries) := by
  simp only [completeOrderFrom, ends_bind, ends_get]
  split
  · rename_i entry read
    split
    · rename_i running
      split
      · rename_i first
        refine completeOrderAgainst_tracks tracks running
          (Or.inr rfl) fun second order found' compared => ?_
        exact ⟨chain, second, first ▸ found, found', compared⟩
      · rename_i notFirst
        split
        · rename_i second
          refine completeOrderAgainst_tracks tracks running
            (Or.inl rfl) fun first order found' compared => ?_
          exact ⟨first, chain, found', second ▸ found, compared⟩
        · rename_i notSecond
          exact ⟨tracks.mono fun side => side.elim notFirst notSecond, rfl⟩
    · rename_i resolved
      refine ⟨{ tracks with caught := ?_ }, rfl⟩
      rintro ⟨discovery, opened, running⟩
      simp only [Discoveries.orderDiscovery, read, Option.map_some, Option.some.injEq] at opened
      exact absurd (opened ▸ running) resolved
  · rename_i absent
    obtain ⟨discovery, present⟩ := tracks.present
    simp [Discoveries.orderDiscovery, absent] at present

theorem completeOrderFrom_loop (keys : List (EventHash × EventHash))
    (tracks : Tracks since key (key ∈ keys ∧ Side key chain.event.hash) d)
    (found : d.Found chain.event.hash chain) :
    EndsOrFatal (keys.forM (completeOrderFrom now chain)) d
      (fun d' => Tracks since key False d' ∧ d'.Found chain.event.hash chain) := by
  induction keys generalizing d with
  | nil => exact ⟨tracks.mono (by simp), found⟩
  | cons other rest ih =>
      simp only [List.forM_eq_forM, List.forM_cons, ends_bind] at ih ⊢
      by_cases same : other = key
      · subst same
        refine (completeOrderFrom_self (tracks.mono And.right) found).weaken ?_
        rintro _ after ⟨tracks, chains⟩
        refine ih (tracks.mono False.elim) ?_
        rwa [Discoveries.Found, chains]
      · refine (completeOrderFrom_other chain same).weaken ?_
        intro _ after fades
        refine ih ((tracks.fades fades False.elim).mono ?_) (fades.found found)
        rintro ⟨member, side⟩
        exact ⟨(List.mem_cons.mp member).resolve_left (Ne.symm same), side⟩

theorem onChainCompleted_tracks (tracks : Tracks since key (Side key chain.event.hash) d)
    (found : d.Found chain.event.hash chain) :
    EndsOrFatal (onChainCompleted now chain) d (fun d' => Tracks since key False d' ∧
      d'.Found chain.event.hash chain) := by
  have bounds : EndsOrFatal (completeBoundsFrom now chain) d (Fades key False d) :=
    completeBoundsFrom_fades chain
  simp only [onChainCompleted, ends_bind, ends_get]
  refine bounds.weaken ?_
  intro _ after fades
  have tracks := tracks.fades fades False.elim
  refine completeOrderFrom_loop _ (tracks.mono fun side => ⟨?_, side⟩) (fades.found found)
  obtain ⟨discovery, present⟩ := tracks.present
  obtain ⟨entry, read, -⟩ := Option.map_eq_some_iff.mp present
  exact ExtTreeMap.mem_keys.mpr (ExtTreeMap.isSome_getElem?_iff_mem.mp (by simp [read]))

theorem invokeCompleted_tracks (event : Event) (callback : ChainCallback)
    (tracks : Tracks since key False d) (found : d.Found chain.event.hash chain) :
    EndsOrFatal (invokeCompleted now event chain callback) d
      (fun d' => Tracks since key False d' ∧ d'.Found chain.event.hash chain) := by
  simp only [invokeCompleted, notify, ends_bind, ends_modify]
  cases callback with
  | node =>
      have told : ∀ other, Discoveries.Heard
          { d with notified := d.notified ++ [.chainCompleted .node event chain] } since other →
          d.Heard since other ∨ other = chain := by
        rintro other ⟨asked, member⟩
        rw [List.drop_append_of_le_length tracks.length] at member
        rcases List.mem_append.mp member with old | new
        · exact Or.inl ⟨asked, old⟩
        · exact Or.inr (by simp_all)
      refine onChainCompleted_tracks { tracks with length := ?_, heard := ?_, caught := ?_ } found
      · exact Nat.le_trans tracks.length (by simp)
      · intro other heard side
        rcases told other heard with old | rfl
        · exact tracks.heard other old side
        · exact found
      · intro opened first second heard heard' about about'
        rcases told first heard with old | rfl
        · rcases told second heard' with old' | rfl
          · exact (tracks.caught opened first second old old' about about').elim
          · exact Or.inr about'.symm
        · exact Or.inl about.symm
  | client registration =>
      have fades : Fades key False d
          { d with notified :=
            d.notified ++ [.chainCompleted (.client registration) event chain] } :=
        fades_of_same rfl rfl rfl (by simp)
      exact ⟨tracks.fades fades False.elim, found⟩

theorem abortChainDiscovery_tracks (hash : EventHash) (tracks : Tracks since key False d)
    (about : ∀ entry, d.chainDiscoveries[hash]? = some entry → entry.discovery.event.hash = hash) :
    EndsOrFatal (abortChainDiscovery now hash) d (Tracks since key False) := by
  have fading : EndsOrFatal (abortChainDiscovery now hash) d
    (fun d' => Fades key (Side key hash) d d' ∧ d'.Lost hash) :=
    abortChainDiscovery_fades hash fun entry read side => about entry read ▸ side
  refine fading.weaken ?_
  rintro _ after ⟨fades, lost⟩
  exact tracks.fades fades fun side => ⟨hash, side, lost⟩

theorem completeChainDiscovery_tracks {accepts : EventChain → Bool} (hash : EventHash)
    (tracks : Tracks since key False d)
    (about : ∀ entry, d.chainDiscoveries[hash]? = some entry →
      entry.discovery.event.hash = hash ∧ entry.discovery.chain.event.hash = hash) :
    EndsOrFatal (completeChainDiscovery accepts now hash) d (Tracks since key False) := by
  simp only [completeChainDiscovery, ends_bind, ends_get, ends_expectInProgress]
  refine ⟨fun entry found running => ?_, by simp [Fault.Fatal], by simp [Fault.Fatal]⟩
  split
  · simp only [putChain, ends_bind, ends_modify]
    have unresolved : ∀ old, d.chainDiscoveries[hash]? = some old →
      old.discovery.state = .inProgress := by
      intro old read
      rwa [← Option.mem_unique found read]
    have told : ∀ callback before, Tracks since key False before ∧
        before.Found entry.discovery.chain.event.hash entry.discovery.chain →
        EndsOrFatal (invokeCompleted now entry.discovery.event entry.discovery.chain callback)
          before (fun after => Tracks since key False after ∧
            after.Found entry.discovery.chain.event.hash entry.discovery.chain) :=
      fun callback before kept =>
        invokeCompleted_tracks entry.discovery.event callback kept.1 kept.2
    refine (ends_forM ⟨?_, ?_⟩ fun callback _ => told callback).weaken fun _ _ kept => kept.1
    · exact tracks.fades (fades_putChain _ unresolved) False.elim
    · rw [(about entry found).2]
      exact ⟨_, ExtTreeMap.getElem?_insert_self, rfl, rfl⟩
  · exact abortChainDiscovery_tracks hash tracks fun entry read => (about entry read).1

def Building (hash : EventHash) (d : Discoveries) : Prop :=
  ∃ entry, d.chainDiscoveries[hash]? = some entry ∧ entry.discovery.state = .inProgress ∧
    entry.discovery.event.hash = hash ∧ entry.discovery.chain.event.hash = hash

theorem Building.about (building : Building hash d) (entry : ChainEntry)
    (read : d.chainDiscoveries[hash]? = some entry) :
    entry.discovery.event.hash = hash ∧ entry.discovery.chain.event.hash = hash := by
  obtain ⟨entry', read', -, about⟩ := building
  rwa [Option.mem_unique read read']

theorem setDiscoveredChain_tracks (tracks : Tracks since key False d) (building : Building hash d)
    (encloses : chain.event.hash = hash) :
    Returns (setDiscoveredChain hash chain) d fun _ d' => Tracks since key False d' ∧
    Building hash d' := by
  obtain ⟨entry, read, running, about, -⟩ := building
  simp only [setDiscoveredChain, putChain, ends_bind, ends_get, read, ends_modify]
  refine ⟨tracks.fades (fades_putChain _ fun old read' => ?_) False.elim, ?_⟩
  · rwa [← Option.mem_unique read read']
  · exact ⟨_, ExtTreeMap.getElem?_insert_self, running, about, encloses⟩

/-! The purge -/

/-- What a purge with this limit may change: completed chain discoveries that did not expire stay,
and the order discovery for `key` stays or is no longer open. -/
structure Purged (limit : Timestamp) (key : EventHash × EventHash) (d d' : Discoveries) : Prop where
  chains : ∀ (hash : EventHash) (entry : ChainEntry),
    d.chainDiscoveries[hash]? = some entry → entry.discovery.state = .completed →
      ¬entry.discovery.startTime < limit → d'.chainDiscoveries[hash]? = some entry
  silent : ∃ more, d'.notified = d.notified ++ more ∧ ∀ event chain,
    .chainCompleted .node event chain ∉ more
  order : d'.orderDiscovery key = d.orderDiscovery key ∨ ¬d'.OrderOpen key

def Unexpired (limit : Timestamp) (key : EventHash × EventHash) (d : Discoveries) : Prop :=
  ∀ discovery, d.orderDiscovery key = some discovery → discovery.state = .inProgress →
    ¬discovery.startTime < limit

variable {limit : Timestamp}

theorem Fades.purged (fades : Fades key aborts d d') : Purged limit key d d' where
  chains hash entry read completed _ := fades.chains hash entry read (by simp [completed])
  silent := fades.silent
  order := by
    refine fades.order.imp_right ?_
    rintro ⟨-, -, discovery, read, aborted⟩ ⟨discovery', read', running⟩
    rw [Option.mem_unique read' read, aborted] at running
    cases running

theorem Purged.refl (limit : Timestamp) (key : EventHash × EventHash) (d : Discoveries) :
    Purged limit key d d :=
  ⟨fun _ _ read _ _ => read, ⟨[], by simp⟩, Or.inl rfl⟩

theorem Purged.trans (first : Purged limit key d d') (second : Purged limit key d' d'') :
    Purged limit key d d'' := by
  constructor
  · intro hash entry read completed recent
    exact second.chains hash entry (first.chains hash entry read completed recent) completed recent
  · obtain ⟨more, grown, none⟩ := first.silent
    obtain ⟨most, grown', none'⟩ := second.silent
    exact ⟨more ++ most, by rw [grown', grown, List.append_assoc], by simp [none, none']⟩
  · rcases second.order with same | closed
    · rw [same, Discoveries.OrderOpen, same]
      exact first.order
    · exact Or.inr closed

theorem Unexpired.purged (unexpired : Unexpired limit key d) (purged : Purged limit key d d') :
    Unexpired limit key d' := by
  intro discovery read running
  rcases purged.order with same | closed
  · exact unexpired discovery (same ▸ read) running
  · exact absurd ⟨discovery, read, running⟩ closed

theorem ends_forM_purged {Item : Type} {items : List Item} {body : Item → DiscoveryM Unit}
    (step : ∀ item d, EndsOrFatal (body item) d (Purged limit key d)) :
    EndsOrFatal (items.forM body) d (Purged limit key d) := by
  refine ends_forM (.refl limit key d) fun item _ before purged => ?_
  exact (step item before).weaken fun _ _ more => purged.trans more

theorem purgeChainDiscovery_purged (id : NodeId) (hash : EventHash) :
    EndsOrFatal (purgeChainDiscovery id now limit hash) d (Purged limit key d) := by
  simp only [purgeChainDiscovery, ends_bind, ends_get]
  split
  · rename_i entry read
    split
    · rename_i expired
      -- the entry that is erased had expired before its callbacks ran
      have erase : ∀ after, Fades key True d after →
          Purged limit key d
          { after with chainDiscoveries := after.chainDiscoveries.erase hash } := by
        intro after fades
        have purged : Purged limit key d after := fades.purged
        refine { purged with chains := fun other kept read' completed recent => ?_ }
        have different : hash ≠ other := by
          rintro rfl
          exact recent (Option.mem_unique read read' ▸ expired)
        rw [ExtTreeMap.getElem?_erase, if_neg fun same =>
          different (LawfulEqCmp.compare_eq_iff_eq.mp same)]
        exact purged.chains other kept read' completed recent
      simp only [ends_bind, ends_when, ends_modify]
      refine ⟨fun _ => ?_, fun _ => erase d (.refl key d)⟩
      have aborted : EndsOrFatal (abortChainDiscovery now entry.discovery.event.hash) d
          (fun d' => Fades key True d d' ∧ d'.Lost entry.discovery.event.hash) :=
        abortChainDiscovery_fades _ fun _ _ _ => trivial
      exact aborted.weaken fun _ after kept => erase after kept.1
    · exact .refl limit key d
  · exact .refl limit key d

theorem purgeBoundsDiscovery_purged (hash : EventHash) :
    EndsOrFatal (purgeBoundsDiscovery now limit hash) d (Purged limit key d) := by
  have erase : ∀ after, Purged limit key d after →
      Purged limit key d { after with boundsDiscoveries := after.boundsDiscoveries.erase hash } :=
    fun _ purged => ⟨purged.chains, purged.silent, purged.order⟩
  simp only [purgeBoundsDiscovery, ends_bind, ends_get]
  split
  · rename_i entry read
    split
    · simp only [ends_bind, ends_when, ends_modify]
      refine ⟨fun _ => ?_, fun _ => erase d (.refl limit key d)⟩
      have aborted : EndsOrFatal (abortBoundsDiscovery now entry.discovery.event.hash) d
        (Fades key False d) := abortBoundsDiscovery_fades _
      exact aborted.weaken fun _ after fades => erase after fades.purged
    · exact .refl limit key d
  · exact .refl limit key d

theorem orderDiscovery_erase :
    ({ d with orderDiscoveries := d.orderDiscoveries.erase other } : Discoveries).orderDiscovery
    key =
      if other = key then none else d.orderDiscovery key := by
  simp only [Discoveries.orderDiscovery, ExtTreeMap.getElem?_erase, LawfulEqCmp.compare_eq_iff_eq]
  split <;> rfl

theorem purgeOrderDiscovery_purged (other : EventHash × EventHash) :
    EndsOrFatal (purgeOrderDiscovery now limit other) d
      (fun d' => Purged limit key d d' ∧ (other = key → Unexpired limit key d')) := by
  have erase : ∀ after, Purged limit key d after →
      Purged limit key d { after with orderDiscoveries := after.orderDiscoveries.erase other } ∧
        (other = key →
          Unexpired limit key
          { after with orderDiscoveries := after.orderDiscoveries.erase other }) := by
    intro after purged
    refine ⟨⟨purged.chains, purged.silent, ?_⟩, fun same discovery read => ?_⟩
    · rw [Discoveries.OrderOpen, orderDiscovery_erase]
      split
      · simp
      · exact purged.order
    · rw [orderDiscovery_erase, if_pos same] at read
      cases read
  simp only [purgeOrderDiscovery, ends_bind, ends_get]
  split
  · rename_i entry read
    split
    · simp only [ends_bind, ends_when, ends_modify]
      refine ⟨fun _ => ?_, fun _ => erase d (.refl limit key d)⟩
      have aborted : EndsOrFatal
          (abortOrderDiscovery now (entry.discovery.event1.hash, entry.discovery.event2.hash)) d
          (Fades key ((entry.discovery.event1.hash, entry.discovery.event2.hash) = key) d) :=
        abortOrderDiscovery_fades _
      exact aborted.weaken fun _ after fades => erase after fades.purged
    · rename_i recent
      refine ⟨.refl limit key d, ?_⟩
      rintro rfl discovery read' -
      simp only [Discoveries.orderDiscovery, read, Option.map_some, Option.some.injEq] at read'
      exact read' ▸ recent
  · rename_i absent
    refine ⟨.refl limit key d, ?_⟩
    rintro rfl discovery read'
    simp [Discoveries.orderDiscovery, absent] at read'

theorem purgeOrderDiscovery_loop (keys : List (EventHash × EventHash))
    (begun : key ∈ keys ∨ Unexpired limit key d) :
      EndsOrFatal (keys.forM (purgeOrderDiscovery now limit)) d
      (fun d' => Purged limit key d d' ∧ Unexpired limit key d') := by
  induction keys generalizing d with
  | nil => exact ⟨.refl limit key d, begun.resolve_left (by simp)⟩
  | cons other rest ih =>
      simp only [List.forM_eq_forM, List.forM_cons, ends_bind] at ih ⊢
      have one : EndsOrFatal (purgeOrderDiscovery now limit other) d
          (fun d' => Purged limit key d d' ∧ (other = key → Unexpired limit key d')) :=
          purgeOrderDiscovery_purged other
      refine one.weaken ?_
      rintro _ after ⟨purged, reached⟩
      have left : key ∈ rest ∨ Unexpired limit key after := by
        rcases begun with member | unexpired
        · rcases List.mem_cons.mp member with same | later
          · exact Or.inr (reached same.symm)
          · exact Or.inl later
        · exact Or.inr (unexpired.purged purged)
      exact (ih left).weaken fun _ _ more => ⟨purged.trans more.1, more.2⟩

theorem purgeTables_purged (id : NodeId) :
    EndsOrFatal (purgeTables id now limit) d (fun d' => Purged limit key d d' ∧
      Unexpired limit key d') := by
  simp only [purgeTables, ends_bind, ends_get]
  have chains : ∀ d, EndsOrFatal (d.chainDiscoveries.keys.forM (purgeChainDiscovery id now limit)) d
      (Purged limit key d) := fun _ =>
    ends_forM_purged fun hash _ => purgeChainDiscovery_purged id hash
  have bounds : ∀ d, EndsOrFatal (d.boundsDiscoveries.keys.forM (purgeBoundsDiscovery now limit)) d
      (Purged limit key d) := fun _ =>
    ends_forM_purged fun hash _ => purgeBoundsDiscovery_purged hash
  refine (chains d).weaken fun _ d1 purged1 => ?_
  refine (bounds d1).weaken fun _ d2 purged2 => ?_
  have listed : key ∈ d2.orderDiscoveries.keys ∨ Unexpired limit key d2 := by
    by_cases member : key ∈ d2.orderDiscoveries
    · exact Or.inl (ExtTreeMap.mem_keys.mpr member)
    · refine Or.inr fun discovery read => ?_
      simp [Discoveries.orderDiscovery, ExtTreeMap.getElem?_eq_none member] at read
  refine (purgeOrderDiscovery_loop _ listed).weaken fun _ d3 purged3 => ?_
  exact ⟨(purged1.trans purged2).trans purged3.1, purged3.2⟩

end Bookkeeping

/-- What the run so far says about the order discovery for `key`: while it is open the node knows
its sides, and once the node was told of both chains it is completed with their order. -/
structure Joined (since : Nat) (key : EventHash × EventHash) (d : Discoveries) : Prop where
  tracks : d.OrderOpen key → Tracks since key False d
  completed : ∀ first second, d.Heard since first → d.Heard since second →
    first.event.hash = key.1 → second.event.hash = key.2 →
      ∃ entry, d.orderDiscoveries[key]? = some entry ∧ entry.discovery.state = .completed ∧
      compareEventChains first second = some entry.discovery.order

section Joins

variable {d d' : Discoveries} {key : EventHash × EventHash} {since : Nat} {limit : Timestamp}

theorem Tracks.joined (tracks : Tracks since key False d) : Joined since key d := by
  refine ⟨fun _ => tracks, fun first second heard heard' about about' => ?_⟩
  have found := tracks.heard first heard (Or.inl about.symm)
  have found' := tracks.heard second heard' (Or.inr about'.symm)
  rw [about] at found
  rw [about'] at found'
  obtain ⟨discovery, present⟩ := tracks.present
  cases state : discovery.state with
  | inProgress =>
      exact (tracks.caught ⟨discovery, present, state⟩ first second heard heard' about about').elim
  | completed =>
      obtain ⟨first', second', found1, found2, compared⟩ := tracks.compared discovery present state
      obtain ⟨entry, read, rfl⟩ := Option.map_eq_some_iff.mp present
      exact ⟨entry, read, state, by rwa [found.unique found1, found'.unique found2]⟩
  | aborted =>
      obtain ⟨hash, rfl | rfl, lost⟩ := tracks.aborted discovery present state
      · exact absurd lost found.not_lost
      · exact absurd lost found'.not_lost

def SidesKept (limit : Timestamp) (key : EventHash × EventHash) (d : Discoveries) : Prop :=
  Unexpired limit key d → ∀ hash entry, Side key hash → d.chainDiscoveries[hash]? = some entry →
    entry.discovery.state = .completed → ¬entry.discovery.startTime < limit

instance (d : Discoveries) (key : EventHash × EventHash) : Decidable (d.OrderOpen key) :=
  inferInstanceAs
    (Decidable (∃ discovery, discovery ∈ d.orderDiscovery key ∧ discovery.state = .inProgress))

instance (limit : Timestamp) (key : EventHash × EventHash) (d : Discoveries) :
    Decidable (Unexpired limit key d) :=
  inferInstanceAs (Decidable (∀ discovery, discovery ∈ d.orderDiscovery key →
    discovery.state = .inProgress → ¬discovery.startTime < limit))

instance (limit : Timestamp) (key : EventHash × EventHash) (d : Discoveries) :
    Decidable (SidesKept limit key d) :=
  decidable_of_iff (Unexpired limit key d → ∀ hash ∈ [key.1, key.2], ∀ entry,
    entry ∈ d.chainDiscoveries[hash]? → entry.discovery.state = .completed →
    ¬entry.discovery.startTime < limit) (by
      refine imp_congr_right fun _ =>
        ⟨fun kept hash entry side => kept hash ?_ entry, fun kept hash member entry => ?_⟩
      · rcases side with rfl | rfl <;> simp
      · exact kept hash entry ((List.mem_pair.mp member).imp Eq.symm Eq.symm))

theorem Tracks.purged (tracks : Tracks since key False d) (opened : d.OrderOpen key)
    (kept : SidesKept limit key d) (purged : Purged limit key d d')
    (unexpired : Unexpired limit key d') : Joined since key d' := by
  obtain ⟨more, grown, none⟩ := purged.silent
  have heard : ∀ chain, d'.Heard since chain → d.Heard since chain := fun chain =>
    heard_of_silent grown none tracks.length
  refine ⟨fun opened' => ?_, fun first second told told' about about' => ?_⟩
  · have same := purged.order.resolve_right fun closed => closed opened'
    have recent : Unexpired limit key d := fun discovery read =>
      unexpired discovery (same.trans read)
    have found : ∀ hash chain, Side key hash → d.Found hash chain → d'.Found hash chain := by
      rintro hash chain side ⟨entry, read, completed, rfl⟩
      exact ⟨entry, purged.chains hash entry read completed
        (kept recent hash entry side read completed), completed, rfl⟩
    obtain ⟨discovery, present, running⟩ := opened
    have running' : ∀ discovery, d'.orderDiscovery key = some discovery →
      discovery.state = .inProgress := by
      intro discovery' read
      rwa [Option.mem_unique read (same.trans present)]
    constructor
    · rw [grown, List.length_append]
      exact Nat.le_add_right_of_le tracks.length
    · exact fun chain told side => found _ _ side (tracks.heard chain (heard chain told) side)
    · exact ⟨discovery, same.trans present⟩
    · intro discovery read completed
      rw [running' discovery read] at completed
      cases completed
    · intro discovery read aborted
      rw [running' discovery read] at aborted
      cases aborted
    · intro _ first second told told'
      exact tracks.caught ⟨discovery, present, running⟩ first second (heard first told)
        (heard second told')
  · exact (tracks.caught opened first second (heard first told)
      (heard second told') about about').elim

end Joins

end Loti
