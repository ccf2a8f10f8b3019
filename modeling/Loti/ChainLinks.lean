import Loti.OwnDiscovery

/-!
Chains whose elements reference one another, and what the chain-building primitives do to them.
Links are checked on the creator and the hash of an element; the reverse index of the store is
keyed by the hash alone, and the walks start from the stored record with the hash of an endpoint.
-/

namespace Loti

open Std StateExcept LocalDag RingLog

def EventChain.Linked (chain : EventChain) : Prop :=
  chain.links.IsChain fun earlier later => earlier.reference ∈ later.referencedEvents

instance (chain : EventChain) : Decidable chain.Linked :=
  inferInstanceAs
    (Decidable (chain.links.IsChain fun earlier later =>
      earlier.reference ∈ later.referencedEvents))

theorem links_getLast? (chain : EventChain) :
    chain.links.getLast?.map Link.reference = some chain.backReference := by
  rw [EventChain.links, List.getLast?_append, List.getLast?_cons, List.getLast?_map,
    EventChain.backReference]
  cases chain.upperBound.getLast? <;> simp [Event.link, ClockEvent.link]

theorem linked_prepend_iff {chain : EventChain} {ce : ClockEvent} :
    EventChain.Linked { chain with lowerBound := ce :: chain.lowerBound } ↔
      chain.Linked ∧ ce.reference ∈ chain.frontReferences := by
  simp only [EventChain.Linked, EventChain.links, EventChain.frontReferences, List.map_cons,
    List.cons_append]
  cases chain.lowerBound with
  | nil => exact List.isChain_cons_cons.trans and_comm
  | cons front rest => exact List.isChain_cons_cons.trans and_comm

theorem linked_concat_iff {chain : EventChain} {ce : ClockEvent} :
    EventChain.Linked { chain with upperBound := chain.upperBound ++ [ce] } ↔
      chain.Linked ∧ chain.backReference ∈ ce.referencedEvents := by
  have split : ({ chain with upperBound := chain.upperBound ++ [ce] } : EventChain).links =
    chain.links ++ [ce.link] := by
    simp [EventChain.links]
  have named := links_getLast? chain
  rw [EventChain.Linked, split, List.isChain_append]
  constructor
  · rintro ⟨linked, -, joined⟩
    obtain ⟨last, ends, same⟩ := Option.map_eq_some_iff.mp named
    exact ⟨linked, same ▸ joined last ends ce.link rfl⟩
  · rintro ⟨linked, references⟩
    refine ⟨linked, List.isChain_singleton _, fun last ends next begins => ?_⟩
    cases begins
    rw [Option.mem_def.mp ends] at named
    exact Option.some.inj named ▸ references

structure OwnClocks {σ : Type} [Store σ] [DagStore σ] (id : NodeId) (store : σ) : Prop where
  sound : DagStore.Sound store
  mine : ∀ entry ∈ (DagStore.dag store).clocks, entry.2.creator = id

structure OwnLog {σ : Type} [Store σ] [DagStore σ] (id : NodeId) (store : σ) :
    Prop extends OwnClocks id store where
  follows : ∀ chain first second, [first, second] <:+: (DagStore.dag store).onChain chain →
    first.2.reference ∈ second.2.referencedEvents

section Runs

variable {σ : Type} [Store σ] [LawfulStore σ] [DagStore σ] {env : NodeEnv} {policy : Policy}
    {contents : Contents}
  {now : Timestamp} {made : List Signed} {s : NodeState σ} {store : σ}

theorem Tracked.chained (tracked : Tracked env policy contents now made s) :
    Chained env (s.localDag made) :=
  tracked.steps.keeps (Chained env) (fun _ _ chained allowed => chained.apply allowed)
    (chained_initial _ now)

theorem Tracked.ownLog (tracked : Tracked env policy contents now made s) :
    OwnLog env.id s.store where
  sound := tracked.sound
  mine := by
    intro entry listed
    obtain ⟨chain, salt, timestamp, refs, built⟩ := tracked.chained.genuine _
      (tracked.clock_made listed)
    exact congrArg (fun record => record.creator) built
  follows := by
    intro chain first second pair
    have bare := tracked.chained.linked chain (first.1, first.2.bare) (second.1, second.2.bare)
    refine (bare ?_).1
    change _ <:+: (DagStore.dag s.store).bare.onChain chain
    rw [Dag.bare_onChain]
    exact pair.map fun entry => (entry.1, entry.2.bare)

omit [Store σ] [LawfulStore σ] [DagStore σ] in
theorem takes_any {action : NodeAction} : Takes .any env s action := by
  cases action <;> try trivial
  case onPacketReceived => exact fun _ _ _ _ => ⟨fun _ _ => trivial, fun _ _ _ _ => trivial⟩
  case restore => exact fun _ _ _ => ⟨fun _ _ => trivial, fun _ _ => trivial, fun _ _ => trivial⟩

theorem Reaches.open {condition : NodeState σ → NodeAction → Prop}
    (run : Reaches env condition (.bootAt env store now) made s) (empty : EmptyStore store)
    (distinct : (made.map Signed.hash).Nodup)
    (kind : ∀ s action, condition s action → ∀ blob, action ≠ .restore blob) :
    Tracked env openPolicy .any now made s := by
  refine run.tracked empty distinct (fun _ _ => trivial) (fun object => by cases object <;> trivial)
    (fun _ _ _ => takes_any) fun done before action _ _ _ meets fresh => ?_
  exact ⟨kind before action meets, fun _ _ => trivial, fun _ => trivial, fun _ _ _ => trivial,
    fresh, fun _ _ _ => trivial⟩

end Runs

section Primitives

variable {σ : Type} [Store σ] [DagStore σ] {id neighbor : NodeId} {store : σ}
    {chain out : EventChain}
  {refs : List EventReference} {ce : LocalClockEvent} {current : LocalClockEvent}
  {next : LocalClockEvent}

theorem OwnClocks.found (log : OwnClocks id store)
    (found : ownClockEvent id store refs = .ok (some ce)) :
    (∃ seq, (seq, ce) ∈ (DagStore.dag store).clocks) ∧ ce.reference ∈ refs := by
  obtain ⟨ref, listed, mine, looked⟩ := ownClockEvent_mem found
  obtain ⟨named, seq, live⟩ := DagStore.clockEventByHash_mem log.sound looked
  refine ⟨⟨seq, live⟩, ?_⟩
  have same : ce.reference = ref :=
    congrArg₂ EventReference.mk ((log.mine _ live).trans mine.symm) named
  exact same ▸ listed

theorem OwnLog.addLocalLowerBound (log : OwnLog id store) (linked : chain.Linked)
    (attached : addLocalLowerBound id store chain = .ok (some out)) : out.Linked := by
  obtain ⟨ce, found, rfl⟩ := addLocalLowerBound_ok attached
  exact linked_prepend_iff.mpr ⟨linked, (log.found found).2⟩

def Dag.Oldest (dag : Dag) (kind : LocalClockEvent → Prop) (entry : Nat × LocalClockEvent) : Prop :=
  entry ∈ dag.clocks ∧ kind entry.2 ∧ ∀ other ∈ dag.clocks, kind other.2 → entry.1 ≤ other.1

theorem Dag.Oldest.unique {dag : Dag} {kind : LocalClockEvent → Prop}
    {entry other : Nat × LocalClockEvent} (sorted : Ascending dag.clocks)
    (oldest : dag.Oldest kind entry) (again : dag.Oldest kind other) : other = entry := by
  have first := oldest.2.2 other again.1 again.2.1
  have second := again.2.2 entry oldest.1 oldest.2.1
  have numbers : (dag.clocks.map Prod.fst).Nodup := List.pairwise_map.mpr (sorted.imp Nat.ne_of_lt)
  exact List.inj_on_of_nodup_map numbers again.1 oldest.1 (Nat.le_antisymm second first)

/-- The oldest live clock event that mentions the hash of the last element references that
element. -/
def BackNamed (dag : Dag) (chain : EventChain) : Prop :=
  ∀ entry, dag.Oldest (fun record => chain.backReference.hash ∈ Dag.mentions record) entry →
    chain.backReference ∈ entry.2.referencedEvents

/-- No live clock event mentions the hash of the last element under another creator. -/
def BackSingle (dag : Dag) (chain : EventChain) : Prop :=
  ∀ entry ∈ dag.clocks, ∀ ref ∈ entry.2.referencedEvents, ref.hash = chain.backReference.hash →
    ref.creator = chain.backReference.creator

omit [Store σ] [DagStore σ] in
theorem BackSingle.backNamed {dag : Dag} (single : BackSingle dag chain) : BackNamed dag chain := by
  intro entry oldest
  obtain ⟨ref, listed, same⟩ := List.mem_map.mp oldest.2.1
  have named : ref = chain.backReference := congrArg₂ EventReference.mk
    (single entry oldest.1 ref listed same) same
  exact named ▸ listed

theorem referencing_oldest {hash : EventHash} {seq : Nat} {rest : List Nat}
    (sound : DagStore.Sound store)
    (read : Store.clockEventsReferencing store hash = .ok (seq :: rest))
    (found : Store.clockEventBySeq store seq = .ok ce) :
    (DagStore.dag store).Oldest (fun record => hash ∈ Dag.mentions record) (seq, ce) := by
  obtain ⟨answer, answered, ordered, mentions⟩ := DagStore.clockEventsReferencing_eq sound
    (DagStore.readable_referencing read)
  obtain rfl := ok_unique answered read
  obtain ⟨record, live, mentioned⟩ := (mentions seq).mp List.mem_cons_self
  obtain rfl := ok_unique (DagStore.clockEventBySeq_eq sound live) found
  refine ⟨live, mentioned, fun other otherLive kind => ?_⟩
  rcases List.mem_cons.mp ((mentions other.1).mpr ⟨other.2, otherLive, kind⟩) with same | later
  · exact same.symm.le
  · exact (List.pairwise_cons.mp ordered).1 other.1 later

theorem addLocalUpperBound_linked_iff (sound : DagStore.Sound store) (linked : chain.Linked)
    (attached : addLocalUpperBound store chain = .ok (some out)) :
    out.Linked ↔ BackNamed (DagStore.dag store) chain := by
  simp only [Loti.addLocalUpperBound, ← backReference_hash] at attached
  obtain ⟨seqs, read, attached⟩ := except_bind_ok_iff.mp attached
  cases seqs with
  | nil => cases attached
  | cons seq rest =>
      obtain ⟨ce, found, attached⟩ := except_bind_ok_iff.mp attached
      obtain rfl := Option.some.inj (Except.ok.inj attached)
      have oldest := referencing_oldest sound read found
      rw [linked_concat_iff, and_iff_right linked]
      constructor
      · rintro references entry first
        rw [oldest.unique (DagStore.sorted sound) first]
        exact references
      · exact fun named => named (seq, ce) oldest

theorem OwnLog.extendLowerFrom (log : OwnLog id store) {fuel : Nat}
    (begins : chain.frontReferences = current.referencedEvents)
    (extended : extendLowerFrom id neighbor store fuel current chain = .ok (some out)) :
    out.Linked ↔ chain.Linked := by
  induction fuel generalizing current chain with
  | zero => cases extended
  | succ fuel ih =>
      unfold Loti.extendLowerFrom at extended
      split at extended
      · obtain rfl := Option.some.inj (Except.ok.inj extended)
        rfl
      · split at extended
        · cases extended
        · cases extended
        · rename_i prev found
          rw [ih rfl extended, linked_prepend_iff]
          exact and_iff_left (begins ▸ (log.found found).2)

/-- Where the walk back goes past the first element, that element references what the stored record
with its hash does. -/
def FrontStands (id neighbor : NodeId) (store : σ) (chain : EventChain) : Prop :=
  ∀ front ∈ chain.lowerBound.head?, ∀ current prev,
    Store.clockEventByHash store front.hash = .ok (some current) →
    (∀ ref ∈ current.referencedEvents, ref.creator ≠ neighbor) →
      ownClockEvent id store current.referencedEvents = .ok (some prev) →
      prev.reference ∈ front.referencedEvents

theorem OwnLog.extendLowerBound_linked_iff (log : OwnLog id store) (linked : chain.Linked)
    (extended : extendLowerBoundForNeighbor id neighbor store chain = .ok (some out)) :
    out.Linked ↔ FrontStands id neighbor store chain := by
  unfold extendLowerBoundForNeighbor at extended
  split at extended
  · cases extended
  rename_i front rest bound
  have head : chain.lowerBound.head? = some front := by rw [bound]; rfl
  split at extended
  · cases extended
  split at extended
  · cases extended
  · cases extended
  rename_i current stored
  -- the first round looks at the stored record, not at the element
  unfold Loti.extendLowerFrom at extended
  split at extended
  · rename_i crosses
    obtain rfl := Option.some.inj (Except.ok.inj extended)
    refine iff_of_true linked fun other here again prev same foreign _ => ?_
    obtain rfl := Option.mem_unique head here
    obtain rfl := Option.some.inj (ok_unique stored same)
    obtain ⟨ref, listed, named⟩ := List.any_eq_true.mp crosses
    exact absurd (of_decide_eq_true named) (foreign ref listed)
  · rename_i crosses
    split at extended
    · cases extended
    · cases extended
    rename_i prev found
    rw [log.extendLowerFrom rfl extended, linked_prepend_iff, EventChain.frontReferences, bound]
    constructor
    · rintro ⟨-, references⟩ other here again other' same _ own
      obtain rfl := Option.mem_unique head here
      obtain rfl := Option.some.inj (ok_unique stored same)
      obtain rfl := Option.some.inj (ok_unique found own)
      exact references
    · intro stands
      refine ⟨linked, stands front head current prev stored (fun ref listed named => ?_) found⟩
      exact crosses (List.any_eq_true.mpr ⟨ref, listed, decide_eq_true named⟩)

/-- A clock event mentions none that came after it. -/
def Unforeseen (dag : Dag) : Prop :=
  ∀ entry ∈ dag.clocks, ∀ other ∈ dag.clocks, other.2.hash ∈ Dag.mentions entry.2 →
    other.1 < entry.1

instance (dag : Dag) : Decidable (Unforeseen dag) :=
  inferInstanceAs (Decidable (∀ entry ∈ dag.clocks, _))

/-- What the walk forward goes to from `current`: the oldest clock event of this kind. -/
def Succeeds (id : NodeId) (current record : LocalClockEvent) : Prop :=
  current.hash ∈ Dag.mentions record ∧ record.creator = id ∧ record.chain = current.chain

theorem successorOnChain_oldest {seqs : List Nat} (sound : DagStore.Sound store)
    (read : Store.clockEventsReferencing store current.hash = .ok seqs)
    (found : successorOnChain id store current.chain seqs = .ok (some next)) :
    ∃ place, (DagStore.dag store).Oldest (Succeeds id current) (place, next) := by
  obtain ⟨answer, answered, ordered, mentions⟩ := DagStore.clockEventsReferencing_eq sound
    (DagStore.readable_referencing read)
  obtain rfl := ok_unique answered read
  obtain ⟨own, placed, passed, place, rest, rfl, stored, before⟩ := successorOnChain_some found
  obtain ⟨record, live, mentioned⟩ := (mentions place).mp (by simp)
  obtain rfl := ok_unique (DagStore.clockEventBySeq_eq sound live) stored
  refine ⟨place, live, ⟨mentioned, own, placed⟩, fun other otherLive kind => ?_⟩
  rcases List.mem_append.mp ((mentions other.1).mpr ⟨other.2, otherLive, kind.1⟩) with
    skipped | later
  · exact absurd kind.2
      (before other.1 skipped other.2 (DagStore.clockEventBySeq_eq sound otherLive))
  · rcases List.mem_cons.mp later with same | after
    · exact same.symm.le
    · exact (List.pairwise_cons.mp (List.pairwise_append.mp ordered).2.1).1 other.1 after

theorem OwnLog.successor (log : OwnLog id store) (unforeseen : Unforeseen (DagStore.dag store))
    {seq place : Nat} (live : (seq, current) ∈ (DagStore.dag store).clocks)
    (oldest : (DagStore.dag store).Oldest (Succeeds id current) (place, next)) :
    [(seq, current), (place, next)] <:+: (DagStore.dag store).onChain current.chain := by
  obtain ⟨nextLive, ⟨mentioned, -, placed⟩, least⟩ := oldest
  have later : seq < place := unforeseen (place, next) nextLive (seq, current) live mentioned
  have sorted := (DagStore.sorted log.sound).sublist
    (List.filter_sublist (p := fun entry => entry.2.chain = current.chain))
  have nextHere : (place, next) ∈ (DagStore.dag store).onChain current.chain :=
    Dag.mem_onChain_iff.mpr ⟨nextLive, placed⟩
  -- the successor on the chain mentions the clock event too, so the first that does is no later
  rcases last_or_followed (Dag.mem_onChain_iff.mpr ⟨live, rfl⟩) with
    last | ⟨⟨follower, successor⟩, pair⟩
  · obtain ⟨front, whole⟩ := List.getLast?_eq_some_iff.mp last
    rw [Dag.onChain, onLane] at whole nextHere
    rw [whole] at sorted nextHere
    rcases List.mem_append.mp nextHere with old | new
    · have := (List.pairwise_append.mp sorted).2.2 _ old _ (List.mem_singleton_self _)
      omega
    · cases List.mem_singleton.mp new
      omega
  · obtain ⟨followerLive, here⟩ := Dag.mem_onChain_iff.mp
      (pair.subset (List.mem_cons_of_mem _ List.mem_cons_self))
    have mentionsIt : current.hash ∈ Dag.mentions successor :=
      List.mem_map_of_mem (log.follows _ _ _ pair)
    have first : place ≤ follower :=
      least _ followerLive ⟨mentionsIt, log.mine _ followerLive, here⟩
    rw [eq_of_between sorted pair nextHere later first]
    exact pair

def WalksOn (id neighbor : NodeId) (dag : Dag) (current next : LocalClockEvent) : Prop :=
  (∀ ref ∈ current.referencingEvents, ref.creator ≠ neighbor) ∧ ∃ place,
    dag.Oldest (Succeeds id current) (place, next)

/-- From `start` on, each clock event that the walk forward goes to references the one it came
from. -/
def NamedFrom (id neighbor : NodeId) (dag : Dag) (start : LocalClockEvent) : Prop :=
  ∀ current next, Relation.ReflTransGen (WalksOn id neighbor dag) start current →
    WalksOn id neighbor dag current next → current.reference ∈ next.referencedEvents

theorem WalksOn.namedFrom_iff {dag : Dag} (sorted : Ascending dag.clocks)
    (walks : WalksOn id neighbor dag current next) :
    NamedFrom id neighbor dag current ↔ current.reference ∈ next.referencedEvents ∧
    NamedFrom id neighbor dag next := by
  have unique : ∀ other, WalksOn id neighbor dag current other → other = next := by
    rintro other ⟨-, again, oldest⟩
    obtain ⟨-, place, first⟩ := walks
    exact congrArg Prod.snd (first.unique sorted oldest)
  constructor
  · exact fun named => ⟨named current next .refl walks, fun a b path => named a b (path.head walks)⟩
  · rintro ⟨first, rest⟩ a b path on
    rcases Relation.ReflTransGen.cases_head path with rfl | ⟨other, again, tail⟩
    · exact unique b on ▸ first
    · exact rest a b (unique other again ▸ tail) on

theorem extendUpperFrom_linked_iff (sound : DagStore.Sound store) {fuel : Nat}
    (ends : chain.backReference = current.reference)
    (extended : extendUpperFrom id neighbor store fuel current chain = .ok (some out)) :
    out.Linked ↔ chain.Linked ∧ NamedFrom id neighbor (DagStore.dag store) current := by
  induction fuel generalizing current chain with
  | zero => cases extended
  | succ fuel ih =>
      unfold extendUpperFrom at extended
      split at extended
      · rename_i referenced
        obtain rfl := Option.some.inj (Except.ok.inj extended)
        refine (and_iff_left fun a b path on => ?_).symm
        -- the walk is over: the neighbor references `current`
        obtain ⟨ref, listed, named⟩ := List.any_eq_true.mp referenced
        have stays : ∀ next, ¬WalksOn id neighbor (DagStore.dag store) current next :=
          fun next walks => walks.1 ref listed (of_decide_eq_true named)
        rcases Relation.ReflTransGen.cases_head path with rfl | ⟨other, again, -⟩
        · exact absurd on (stays b)
        · exact absurd again (stays other)
      · rename_i open'
        split at extended
        · cases extended
        · cases extended
        · rename_i next found
          obtain ⟨seqs, read, successor⟩ := except_bind_ok_iff.mp found
          have walks : WalksOn id neighbor (DagStore.dag store) current next := by
            refine ⟨fun ref listed named => open' ?_, successorOnChain_oldest sound read successor⟩
            exact List.any_eq_true.mpr ⟨ref, listed, decide_eq_true named⟩
          rw [ih (by simp [EventChain.backReference]) extended, linked_concat_iff, ends,
            walks.namedFrom_iff (DagStore.sorted sound), and_assoc]

/-- From the live record of the last element on, the walk forward goes along references. -/
def WalkNamed (id neighbor : NodeId) (dag : Dag) (chain : EventChain) : Prop :=
  ∀ back ∈ chain.upperBound.getLast?, ∀ entry ∈ dag.clocks, entry.2.hash = back.hash →
    NamedFrom id neighbor dag entry.2

theorem OwnLog.extendUpperBound_linked_iff (log : OwnLog id store) (linked : chain.Linked)
    (extended : extendUpperBoundForNeighbor id neighbor store chain = .ok (some out)) :
    out.Linked ↔ WalkNamed id neighbor (DagStore.dag store) chain := by
  unfold extendUpperBoundForNeighbor at extended
  split at extended
  · cases extended
  rename_i back last
  split at extended
  · cases extended
  rename_i own
  split at extended
  · cases extended
  · cases extended
  rename_i start stored
  obtain ⟨named, seq, live⟩ := DagStore.clockEventByHash_mem log.sound stored
  have ends : chain.backReference = start.reference := by
    rw [EventChain.backReference, last]
    exact congrArg₂ EventReference.mk ((not_not.mp own).trans (log.mine _ live).symm) named.symm
  rw [extendUpperFrom_linked_iff log.sound ends extended, and_iff_right linked]
  constructor
  · intro walk other here entry again same
    obtain rfl := Option.mem_unique last here
    rw [← List.inj_on_of_nodup_map (DagStore.distinct log.sound) live again (named.trans same.symm)]
    exact walk
  · exact fun walk => walk back last (seq, start) live named

theorem OwnLog.walkNamed (log : OwnLog id store) (unforeseen : Unforeseen (DagStore.dag store)) :
    WalkNamed id neighbor (DagStore.dag store) chain := by
  intro back _ start stored _ current next path on
  obtain ⟨seq, live⟩ : ∃ seq, (seq, current) ∈ (DagStore.dag store).clocks := by
    rcases Relation.ReflTransGen.cases_tail path with rfl | ⟨_, _, -, place, oldest⟩
    · exact ⟨start.1, stored⟩
    · exact ⟨place, oldest.1⟩
  obtain ⟨-, place, oldest⟩ := on
  exact log.follows _ _ _ (log.successor unforeseen live oldest)

end Primitives

/-- Attaching an own clock event below keeps the chain linked; the other three do exactly on their
conditions: the oldest clock event that mentions the last element's hash names it by its creator, an
element at the front that the walk back goes past references what the stored record with its hash
references, and the walk forward goes along references, as it does where no hash was advertised
before its clock event was there. -/
theorem primitives_linked_iff {σ : Type} [Store σ] [LawfulStore σ] [DagStore σ] {env : NodeEnv}
    {store : σ} {now : Timestamp} {made : List Signed} {s : NodeState σ} (empty : EmptyStore store)
    (run : Reaches env (fun _ action => ∀ blob, action ≠ .restore blob)
      (.bootAt env store now) made s)
    (distinct : (made.map Signed.hash).Nodup) (neighbor : NodeId) (chain : EventChain)
      (linked : chain.Linked) :
    (∀ out, addLocalLowerBound env.id s.store chain = .ok (some out) → out.Linked) ∧
      (∀ out, addLocalUpperBound s.store chain = .ok (some out) →
        (out.Linked ↔ BackNamed (DagStore.dag s.store) chain)) ∧
      (BackSingle (DagStore.dag s.store) chain → BackNamed (DagStore.dag s.store) chain) ∧
      (∀ out, extendLowerBoundForNeighbor env.id neighbor s.store chain = .ok (some out) →
        (out.Linked ↔ FrontStands env.id neighbor s.store chain)) ∧
      (∀ out, extendUpperBoundForNeighbor env.id neighbor s.store chain = .ok (some out) →
        (out.Linked ↔ WalkNamed env.id neighbor (DagStore.dag s.store) chain)) ∧
      (Unforeseen (DagStore.dag s.store) →
        WalkNamed env.id neighbor (DagStore.dag s.store) chain) := by
  have log := (run.open empty distinct fun _ _ kind => kind).ownLog
  exact ⟨fun _ attached => log.addLocalLowerBound linked attached,
    fun _ attached => addLocalUpperBound_linked_iff log.sound linked attached, BackSingle.backNamed,
    fun _ extended => log.extendLowerBound_linked_iff linked extended,
    fun _ extended => log.extendUpperBound_linked_iff linked extended, log.walkNamed⟩

/-! Node 2 advertises a hash, and the next tick references it as node 2's. -/

def rumorEnv : NodeEnv := NodeEnv.simulated id 1 {}

def rumorRun : List NodeAction :=
  [.addNeighbor (.ofUInt64 2), .onPacketReceived
    (Wire.encode ⟨.ofUInt64 2, .clockNotification ⟨0, [9], []⟩⟩), .createClockEvent 0]

def rumorStart : NodeState InMemoryStore := .bootAt rumorEnv {} 0

def rumorState : NodeState InMemoryStore := final (runActions rumorEnv rumorRun) rumorStart

def rumorChain (creator : NodeId) : EventChain :=
  ⟨{ (default : Event) with creator, hash := [9] }, [], []⟩

theorem rumorRun_reaches :
    Reaches rumorEnv (fun _ action => ∀ blob, action ≠ .restore blob) rumorStart
    (ledger rumorEnv rumorStart rumorRun) rumorState := by
  have ran : runActions rumorEnv rumorRun rumorStart = .ok () rumorState :=
    ok_of_not_raised (by decide +kernel)
  refine Reaches.start.run (eachStep_of_forall (fun s action member => ?_) _) ran
  have quiet : ∀ action ∈ rumorRun, ∀ blob, action ≠ .restore blob := by simp [rumorRun]
  exact quiet action member

def rumorOut (creator : NodeId) : EventChain :=
  { rumorChain creator with upperBound := (DagStore.dag rumorState.store).clocks.map fun entry =>
    entry.2.toClockEvent }

theorem primitives_linked_sample : addLocalUpperBound rumorState.store (rumorChain (.ofUInt64 2)) =
      .ok (some (rumorOut (.ofUInt64 2))) ∧ BackNamed (DagStore.dag rumorState.store)
      (rumorChain (.ofUInt64 2)) := by
  have attached : addLocalUpperBound rumorState.store (rumorChain (.ofUInt64 2)) =
    .ok (some (rumorOut (.ofUInt64 2))) := by
    decide +kernel
  obtain ⟨-, upper, -⟩ := primitives_linked_iff InMemoryStore.emptyStore rumorRun_reaches
    (by decide +kernel) (.ofUInt64 2) (rumorChain (.ofUInt64 2)) (by decide +kernel)
  exact ⟨attached, (upper _ attached).mp (by decide +kernel)⟩

/-- The event is node 3's: the clock event that is attached above it references it as node 2's. -/
theorem addLocalUpperBound_unlinked : (rumorChain (.ofUInt64 3)).Linked ∧
    addLocalUpperBound rumorState.store (rumorChain (.ofUInt64 3)) =
      .ok (some (rumorOut (.ofUInt64 3))) ∧ ¬(rumorOut (.ofUInt64 3)).Linked := by
  decide +kernel

end Loti
