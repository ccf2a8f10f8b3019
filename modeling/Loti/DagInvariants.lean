import Loti.LocalRuns

/-!
What holds of a node's own DAG in every run: the live clock events of a chain are linked
one to the next and do not go back in time, and every event stays pinned. An event that
references the tip of a chain waits for the chain's next tick; an event that references
an older live clock event is referenced by the one after it.
-/

namespace Loti

open RingLog

namespace Dag

variable {dag : Dag} {chain other : UInt32} {record : LocalClockEvent} {seq keep : Nat}
    {entry : Nat × LocalClockEvent}

theorem mem_onChain_iff : entry ∈ dag.onChain chain ↔ entry ∈ dag.clocks ∧
    entry.2.chain = chain := mem_onLane_iff

theorem tip_mem {tip : LocalClockEvent} (found : dag.tip chain = some tip) :
    ∃ seq, (dag.onChain chain).getLast? = some (seq, tip) ∧ (seq, tip) ∈ dag.clocks ∧
    tip.chain = chain := by
  obtain ⟨⟨seq, last⟩, ends, rfl⟩ := Option.map_eq_some_iff.mp found
  exact ⟨seq, ends, mem_onChain_iff.mp (List.mem_of_getLast? ends)⟩

theorem onChain_addClockEvent : (dag.addClockEvent seq record).onChain chain =
    dag.onChain chain ++ if record.chain = chain then [(seq, record)] else [] := by
  rw [onChain, onLane, addClockEvent, List.filter_append]
  by_cases here : record.chain = chain <;> simp [here, onChain, onLane]

theorem tip_addClockEvent : (dag.addClockEvent seq record).tip chain =
    if record.chain = chain then some record else dag.tip chain := by
  rw [tip, onChain_addClockEvent]
  by_cases here : record.chain = chain <;> simp [here, tip]

theorem prune_sublist : List.Sublist (dag.prune chain keep).clocks dag.clocks := by
  unfold prune
  split
  · exact List.Sublist.refl _
  · exact List.filter_sublist

theorem onChain_prune (sorted : Ascending dag.clocks) (positive : 0 < keep) :
    (dag.prune chain keep).onChain other = if other = chain then
      (dag.onChain chain).drop ((dag.onChain chain).length - keep) else dag.onChain other := by
  rw [prune, if_neg (by omega)]
  split
  · rename_i here
    rw [here]
    exact onLane_pruned_self sorted keep
  · rename_i there
    exact onLane_pruned_other sorted keep there

theorem onChain_prune_suffix (sorted : Ascending dag.clocks) (positive : 0 < keep) :
    (dag.prune chain keep).onChain other <:+ dag.onChain other := by
  rw [onChain_prune sorted positive]
  split
  · rename_i here
    rw [here]
    exact List.drop_suffix _ _
  · exact List.suffix_refl _

theorem tip_prune (sorted : Ascending dag.clocks) (positive : 0 < keep) :
    (dag.prune chain keep).tip other = dag.tip other := by
  rw [tip, onChain_prune sorted positive]
  split
  · rename_i here
    subst here
    rw [tip]
    cases listed : dag.onChain other with
    | nil => simp
    | cons first rest =>
        rw [List.getLast?_drop, if_neg]
        simp only [List.length_cons]
        omega
  · rfl

theorem pins_addClockEvent {hash : EventHash} : (dag.addClockEvent seq record).Pins chain hash ↔
    dag.Pins chain hash ∨ record.chain = chain ∧ hash ∈ mentions record := by
  simp only [Pins, addClockEvent, List.mem_append, List.mem_singleton]
  constructor
  · rintro ⟨entry, old | rfl, here, mentioned⟩
    · exact Or.inl ⟨entry, old, here, mentioned⟩
    · exact Or.inr ⟨here, mentioned⟩
  · rintro (⟨entry, old, here, mentioned⟩ | ⟨here, mentioned⟩)
    · exact ⟨entry, Or.inl old, here, mentioned⟩
    · exact ⟨_, Or.inr rfl, here, mentioned⟩

theorem mem_mentions {hash : EventHash} (mentioned : hash ∈ mentions record) :
    ∃ ref ∈ record.referencedEvents, ref.hash = hash := by
  simpa [mentions] using mentioned

end Dag

def Signed.reference : Signed → EventReference
  | .event published => published.reference
  | .clockEvent ticked => ticked.reference

theorem Signed.reference_hash (object : Signed) : object.reference.hash = object.hash := by
  cases object <;> rfl

def Signed.published? : Signed → Option Event
  | .event published => some published
  | .clockEvent _ => none

def Signed.Genuine (env : NodeEnv) : Signed → Prop
  | .event published => ∃ data salt refs, published = makeEvent env data salt refs
  | .clockEvent ticked => ∃ chain salt timestamp refs,
      ticked = makeClockEvent env chain salt timestamp refs

theorem Makes.genuine {σ : Type} [Store σ] {env : NodeEnv} {s : NodeState σ} {action : NodeAction}
    {object : Signed} (makes : Makes env s action object) : object.Genuine env := by
  rcases makes.cases with ⟨data, event, rfl, refs, -, built⟩ | ⟨chain, record, rfl, last,
    tail, -, -, built⟩
  · exact ⟨data, _, refs, built⟩
  · exact ⟨chain, _, _, _, built⟩

theorem clampedStamp_ge (now : Timestamp) (last : Option LocalClockEvent) :
    now ≤ clampedStamp now last := by
  cases last with
  | none => exact Int64.le_refl now
  | some tip =>
      rw [clampedStamp]
      split
      · rename_i behind
        exact Int64.le_of_lt behind
      · exact Int64.le_refl now

theorem clampedStamp_ge_tip (now : Timestamp) (tip : LocalClockEvent) :
    tip.timestamp ≤ clampedStamp now (some tip) := by
  rw [clampedStamp]
  split
  · exact Int64.le_refl _
  · rename_i ahead
    exact Int64.not_lt.mp ahead

namespace LocalDag

variable {env : NodeEnv} {policy : Policy} {dag : LocalDag} {change : Change}

/-- The objects made are distinct and the node's own, and the live clock events of each chain are
linked in order. -/
structure Chained (env : NodeEnv) (dag : LocalDag) : Prop where
  sorted : Ascending dag.clocks
  distinct : (dag.made.map Signed.hash).Nodup
  genuine : ∀ object ∈ dag.made, object.Genuine env
  clock_made : ∀ entry ∈ dag.clocks, .clockEvent entry.2 ∈ dag.made
  live : (dag.clocks.map fun entry => entry.2.hash).Nodup
  linked : ∀ chain first second, [first, second] <:+: dag.onChain chain →
    first.2.reference ∈ second.2.referencedEvents ∧ first.2.timestamp ≤ second.2.timestamp

theorem Chained.entry_eq (chained : Chained env dag) {first second : Nat × LocalClockEvent}
    (one : first ∈ dag.clocks) (other : second ∈ dag.clocks) (same : first.2.hash = second.2.hash) :
    first = second :=
  List.inj_on_of_nodup_map chained.live one other same

theorem Chained.onChain_nodup (chained : Chained env dag) (chain : UInt32) :
    (dag.onChain chain).Nodup := by
  refine (chained.sorted.sublist List.filter_sublist).imp ?_
  rintro first second below rfl
  exact Nat.lt_irrefl _ below

theorem Chained.same (chained : Chained env dag) {first second : Signed} (one : first ∈ dag.made)
    (other : second ∈ dag.made) (same : first.hash = second.hash) : first = second :=
  List.inj_on_of_nodup_map chained.distinct one other same

theorem nodup_concat (object : Signed) (distinct : (dag.made.map Signed.hash).Nodup)
    (fresh : Fresh policy dag object.hash) : ((dag.made ++ [object]).map Signed.hash).Nodup := by
  rw [List.map_append, List.map_singleton, List.nodup_append]
  refine ⟨distinct, List.nodup_singleton _, ?_⟩
  rintro hash member _ last rfl
  obtain ⟨old, listed, same⟩ := List.mem_map.mp member
  exact fresh.2 old listed (same.trans (List.mem_singleton.mp last))

theorem MakesTick.follows {record : LocalClockEvent} (makes : MakesTick env policy dag record)
    {tip : LocalClockEvent} (found : dag.tip record.chain = some tip) :
    tip.reference ∈ record.referencedEvents ∧ tip.timestamp ≤ record.timestamp := by
  obtain ⟨chain, salt, tail, heard, -, -, rfl⟩ := makes
  change dag.tip chain = some tip at found
  refine ⟨?_, ?_⟩
  · simp [makeClockEvent, found]
  · simp only [makeClockEvent, found]
    exact clampedStamp_ge_tip dag.now tip

theorem Chained.apply (chained : Chained env dag) (allowed : Allows env policy dag change) :
    Chained env (dag.apply env.numChains change) := by
  cases change with
  | read now => exact ⟨chained.sorted, chained.distinct, chained.genuine, chained.clock_made,
      chained.live, chained.linked⟩
  | hydrate => exact ⟨chained.sorted, chained.distinct, chained.genuine, chained.clock_made,
      chained.live, chained.linked⟩
  | publish event =>
      obtain ⟨⟨data, salt, same⟩, fresh⟩ := allowed
      refine ⟨chained.sorted, nodup_concat (.event event) chained.distinct fresh, ?_, ?_,
        chained.live, chained.linked⟩
      · intro object member
        rcases List.mem_append.mp member with old | new
        · exact chained.genuine object old
        · obtain rfl := List.mem_singleton.mp new
          exact ⟨data, salt, _, same⟩
      · exact fun entry member => List.mem_append_left _ (chained.clock_made entry member)
  | tick seq record =>
      obtain ⟨makes, fresh, above, -⟩ := allowed
      refine ⟨?_, nodup_concat (.clockEvent record) chained.distinct fresh, ?_, ?_, ?_, ?_⟩
      · refine List.pairwise_append.mpr ⟨chained.sorted, List.pairwise_singleton _ _, ?_⟩
        intro entry member _ last
        obtain rfl := List.mem_singleton.mp last
        exact above entry member
      · intro object member
        rcases List.mem_append.mp member with old | new
        · exact chained.genuine object old
        · obtain rfl := List.mem_singleton.mp new
          obtain ⟨chain, salt, tail, heard, -, -, same⟩ := makes
          exact ⟨chain, salt, _, _, same⟩
      · intro entry member
        rcases List.mem_append.mp member with old | new
        · exact List.mem_append_left _ (chained.clock_made entry old)
        · obtain rfl := List.mem_singleton.mp new
          exact List.mem_append_right _ (List.mem_singleton_self _)
      · simp only [apply, Dag.addClockEvent, List.map_append, List.nodup_append]
        refine ⟨chained.live, List.nodup_singleton _, ?_⟩
        rintro hash member _ last rfl
        obtain ⟨entry, listed, same⟩ := List.mem_map.mp member
        exact fresh.2 _ (chained.clock_made entry listed) (same.trans (List.mem_singleton.mp last))
      · intro chain first second pair
        change [first, second] <:+: (dag.toDag.addClockEvent seq record).onChain chain at pair
        rw [Dag.onChain_addClockEvent] at pair
        split at pair
        · rename_i here
          subst here
          rcases pair_concat pair with old | ⟨last, rfl⟩
          · exact chained.linked _ first second old
          · exact makes.follows (by simp [Dag.tip, last])
        · rw [List.append_nil] at pair
          exact chained.linked chain first second pair
  | prune chain keep =>
      refine ⟨chained.sorted.sublist Dag.prune_sublist, chained.distinct, chained.genuine, ?_,
        chained.live.sublist (Dag.prune_sublist.map _), ?_⟩
      · exact fun entry member => chained.clock_made entry (Dag.prune_sublist.subset member)
      · intro other first second pair
        exact chained.linked other first second
          (pair.trans (Dag.onChain_prune_suffix chained.sorted allowed.1).isInfix)

theorem chained_initial (numChains : Nat) (now : Timestamp) :
    Chained env (.initial numChains now) := by
  constructor <;> simp [initial, Dag.onChain, onLane]

/-- Every event is pinned: it waits where it references the tip of a chain, and it is referenced
by the clock event after the one it references. -/
structure Intact (env : NodeEnv) (policy : Policy) (dag : LocalDag) :
    Prop extends Chained env dag where
  covered : dag.tails.length = env.numChains
  published : dag.events = dag.made.filterMap Signed.published?
  own : ∀ object ∈ dag.made, policy.own object.hash
  event_refs : ∀ event ∈ dag.events, ∀ ref ∈ event.referencedEvents, ∃ ce,
  .clockEvent ce ∈ dag.made ∧ ref = ce.reference
  clock_refs : ∀ ce, .clockEvent ce ∈ dag.made → ∀ ref ∈ ce.referencedEvents,
    (∃ object ∈ dag.made, ref = object.reference) ∨ policy.foreign ref
  tail_suffix : ∀ (chain : Nat) tail, dag.tails[chain]? = some tail → tail <:+ dag.events
  tail_free : ∀ (chain : UInt32) tail, dag.tails[chain.toNat]? = some tail → ∀ event ∈ tail,
  ¬dag.Pins chain event.hash
  waiting : ∀ event ∈ dag.events, ∀ (chain : UInt32) tip, dag.tip chain = some tip →
    tip.reference ∈ event.referencedEvents → ∃ tail, dag.tails[chain.toNat]? = some tail ∧
    event ∈ tail
  pinned : ∀ event ∈ dag.events, ∀ chain first second, [first, second] <:+: dag.onChain chain →
    first.2.reference ∈ event.referencedEvents → event.reference ∈ second.2.referencedEvents
  ticked : ∀ event later tip, List.Sublist [.event event, .clockEvent later] dag.made →
    dag.tip later.chain = some tip → tip.reference ∉ event.referencedEvents

theorem intact_initial (now : Timestamp) : Intact env policy (.initial env.numChains now) where
  toChained := chained_initial _ now
  covered := List.length_replicate
  published := rfl
  own := by simp [initial]
  event_refs := by simp [initial]
  clock_refs := by simp [initial]
  tail_suffix chain tail found := by
    obtain ⟨-, rfl⟩ : chain < env.numChains ∧ [] = tail := by
      simpa [initial, List.getElem?_replicate] using found
    exact List.nil_suffix
  tail_free chain tail found := by
    obtain ⟨-, rfl⟩ : chain.toNat < env.numChains ∧ [] = tail := by
      simpa [initial, List.getElem?_replicate] using found
    simp
  waiting := by simp [initial]
  pinned := by simp [initial]
  ticked := by simp [initial]

section Facts

variable (intact : Intact env policy dag)

include intact

theorem Intact.mem_events_iff {event : Event} : event ∈ dag.events ↔ .event event ∈ dag.made := by
  rw [intact.published, List.mem_filterMap]
  constructor
  · rintro ⟨object, member, same⟩
    cases object with
    | event published => exact Option.some.inj same ▸ member
    | clockEvent ticked => cases same
  · exact fun member => ⟨.event event, member, rfl⟩

theorem Intact.event_eq {first second : Event} (one : first ∈ dag.events)
    (other : second ∈ dag.events) (same : first.hash = second.hash) : first = second :=
  Signed.event.inj
    (intact.same (intact.mem_events_iff.mp one) (intact.mem_events_iff.mp other) same)

theorem Intact.unreferenced_fresh {ce : LocalClockEvent} (fresh : Fresh policy dag ce.hash)
    {event : Event} (member : event ∈ dag.events) : ce.reference ∉ event.referencedEvents := by
  intro referenced
  obtain ⟨old, made, same⟩ := intact.event_refs event member _ referenced
  exact fresh.2 _ made (congrArg EventReference.hash same).symm

variable (apart : ∀ ref, policy.foreign ref → ¬policy.own ref.hash)

include apart

theorem Intact.reference_eq {ce : LocalClockEvent} (made : .clockEvent ce ∈ dag.made)
    {ref : EventReference} (referenced : ref ∈ ce.referencedEvents) {object : Signed}
    (member : object ∈ dag.made) (same : ref.hash = object.hash) : ref = object.reference := by
  rcases intact.clock_refs ce made ref referenced with ⟨other, listed, rfl⟩ | foreign
  · rw [intact.same listed member ((Signed.reference_hash other).symm.trans same)]
  · exact absurd (same ▸ intact.own object member) (apart ref foreign)

theorem Intact.unmentioned_fresh {hash : EventHash} (fresh : Fresh policy dag hash)
    {ce : LocalClockEvent} (made : .clockEvent ce ∈ dag.made) : hash ∉ Dag.mentions ce := by
  intro mentioned
  obtain ⟨ref, referenced, rfl⟩ := Dag.mem_mentions mentioned
  rcases intact.clock_refs ce made ref referenced with ⟨other, listed, same⟩ | foreign
  · exact fresh.2 other listed (by rw [same, Signed.reference_hash])
  · exact apart ref foreign fresh.1

theorem Intact.unpinned_fresh {hash : EventHash} (fresh : Fresh policy dag hash) (chain : UInt32) :
    ¬dag.Pins chain hash := by
  rintro ⟨entry, live, -, mentioned⟩
  exact intact.unmentioned_fresh apart fresh (intact.clock_made entry live) mentioned

end Facts

theorem mem_tipReferences {ref : EventReference} {numChains : Nat}
    (member : ref ∈ dag.tipReferences numChains) :
    ∃ k < numChains, ∃ tip, dag.tip (UInt32.ofNat k) = some tip ∧ ref = tip.reference := by
  obtain ⟨k, listed, found⟩ := List.mem_filterMap.mp member
  obtain ⟨tip, latest, rfl⟩ := Option.map_eq_some_iff.mp found
  exact ⟨k, List.mem_range.mp listed, tip, latest, rfl⟩

theorem Chained.referenced_tip (chained : Chained env dag) {numChains : Nat}
    {entry : Nat × LocalClockEvent} (live : entry ∈ dag.clocks)
    (referenced : entry.2.reference ∈ dag.tipReferences numChains) :
    entry.2.chain.toNat < numChains ∧ (dag.onChain entry.2.chain).getLast? = some entry := by
  obtain ⟨k, within, tip, latest, same⟩ := mem_tipReferences referenced
  obtain ⟨seq, last, member, placed⟩ := Dag.tip_mem latest
  obtain rfl := chained.entry_eq live member (congrArg EventReference.hash same)
  change tip.chain = UInt32.ofNat k at placed
  refine ⟨?_, ?_⟩
  · rw [placed, UInt32.toNat_ofNat']
    exact Nat.lt_of_le_of_lt (Nat.mod_le _ _) within
  · rw [placed]
    exact last

section Steps

variable (intact : Intact env policy dag)

include intact

theorem Intact.read {now : Timestamp} :
    Intact env policy (dag.apply env.numChains (.read now)) where
  toChained := ⟨intact.sorted, intact.distinct, intact.genuine, intact.clock_made,
    intact.live, intact.linked⟩
  covered := intact.covered
  published := intact.published
  own := intact.own
  event_refs := intact.event_refs
  clock_refs := intact.clock_refs
  tail_suffix := intact.tail_suffix
  tail_free := intact.tail_free
  waiting := intact.waiting
  pinned := intact.pinned
  ticked := intact.ticked

theorem Intact.hydrate : Intact env policy (dag.apply env.numChains .hydrate) := by
  -- the new tail of a chain is the scan, and it holds at least the old one
  have scanned : ∀ (chain : UInt32) tail, (dag.apply env.numChains .hydrate).tails[chain.toNat]? =
      some tail → tail = dag.toDag.scan chain := by
    intro chain tail found
    obtain ⟨k, listed, rfl⟩ : ∃ k, (List.range env.numChains)[chain.toNat]? = some k ∧
      _ = tail := by
      simpa [apply] using found
    obtain ⟨within, rfl⟩ := List.getElem?_eq_some_iff.mp listed
    simp
  refine { intact with
    toChained := ⟨intact.sorted, intact.distinct, intact.genuine, intact.clock_made,
      intact.live, intact.linked⟩
    covered := by simp [apply]
    tail_suffix := ?_
    tail_free := ?_
    waiting := ?_ }
  · intro chain tail found
    obtain ⟨k, -, rfl⟩ := Option.map_eq_some_iff.mp (List.getElem?_map .. ▸ found)
    exact List.rtakeWhile_suffix _ _
  · intro chain tail found event member
    rw [scanned chain tail found] at member
    have free : ¬dag.Pins chain event.hash := by simpa using List.mem_rtakeWhile_imp member
    exact free
  · intro event member chain tip latest referenced
    obtain ⟨tail, found, waits⟩ := intact.waiting event member chain tip latest referenced
    refine ⟨dag.toDag.scan chain, ?_, ?_⟩
    · have within : chain.toNat < env.numChains :=
        intact.covered ▸ (List.getElem?_eq_some_iff.mp found).1
      simp [apply, within]
    · obtain ⟨front, whole⟩ := intact.tail_suffix _ tail found
      rw [Dag.scan, ← whole, rtakeWhile_append front fun other listed => by
        simpa using intact.tail_free chain tail found other listed]
      exact List.mem_append_right _ waits

theorem Intact.prune {chain : UInt32} {keep : Nat}
    (allowed : Allows env policy dag (.prune chain keep)) :
    Intact env policy (dag.apply env.numChains (.prune chain keep)) := by
  have suffix : ∀ other, (dag.toDag.prune chain keep).onChain other <:+ dag.onChain other :=
    fun other => Dag.onChain_prune_suffix intact.sorted allowed.1
  have tips : ∀ other, (dag.toDag.prune chain keep).tip other = dag.tip other :=
    fun other => Dag.tip_prune intact.sorted allowed.1
  have same : (dag.toDag.prune chain keep).events = dag.events := by
    unfold Dag.prune
    split <;> rfl
  refine ⟨intact.toChained.apply allowed, intact.covered, same.trans intact.published, intact.own,
    ?_, intact.clock_refs, ?_, ?_, ?_, ?_, ?_⟩
  · exact fun event member => intact.event_refs event (same ▸ member)
  · exact fun other tail found => same.symm ▸ intact.tail_suffix other tail found
  · rintro other tail found event member ⟨entry, live, here, mentioned⟩
    exact intact.tail_free other tail found event member ⟨entry, Dag.prune_sublist.subset live,
      here, mentioned⟩
  · exact fun event member other tip latest => intact.waiting event (same ▸ member) other tip
      ((tips other).symm.trans latest)
  · exact fun event member other first second pair =>
      intact.pinned event (same ▸ member) other first second (pair.trans (suffix other).isInfix)
  · exact fun event later tip order latest => intact.ticked event later tip order
      ((tips later.chain).symm.trans latest)

theorem Intact.publish {event : Event} (apart : ∀ ref, policy.foreign ref → ¬policy.own ref.hash)
    (allowed : Allows env policy dag (.publish event)) :
    Intact env policy (dag.apply env.numChains (.publish event)) := by
  obtain ⟨⟨data, salt, made⟩, fresh⟩ := allowed
  have refs : event.referencedEvents = dag.tipReferences env.numChains := by rw [made]; rfl
  have tails : ∀ (chain : Nat) tail, (dag.apply env.numChains (.publish event)).tails[chain]? =
      some tail → ∃ old, dag.tails[chain]? = some old ∧ tail = old ++ [event] := by
    intro chain tail found
    obtain ⟨old, known, rfl⟩ := Option.map_eq_some_iff.mp (List.getElem?_map .. ▸ found)
    exact ⟨old, known, rfl⟩
  have members : ∀ other, other ∈ dag.events ++ [event] → other ∈ dag.events ∨ other = event :=
    fun other member => (List.mem_append.mp member).imp_right List.mem_singleton.mp
  refine ⟨intact.toChained.apply ⟨⟨data, salt, made⟩, fresh⟩, ?_, ?_, ?_, ?_, ?_,
    ?_, ?_, ?_, ?_, ?_⟩
  · simpa [apply] using intact.covered
  · show dag.events ++ [event] = (dag.made ++ [Signed.event event]).filterMap Signed.published?
    rw [List.filterMap_append, ← intact.published]
    rfl
  · intro object member
    rcases List.mem_append.mp member with old | new
    · exact intact.own object old
    · obtain rfl := List.mem_singleton.mp new
      exact fresh.1
  · intro other member ref referenced
    rcases members other member with old | rfl
    · obtain ⟨ce, listed, same⟩ := intact.event_refs other old ref referenced
      exact ⟨ce, List.mem_append_left _ listed, same⟩
    · obtain ⟨k, -, tip, latest, same⟩ := mem_tipReferences (refs ▸ referenced)
      obtain ⟨seq, -, live, -⟩ := Dag.tip_mem latest
      exact ⟨tip, List.mem_append_left _ (intact.clock_made _ live), same⟩
  · intro ce member ref referenced
    rcases List.mem_append.mp member with old | new
    · refine (intact.clock_refs ce old ref referenced).imp_left ?_
      rintro ⟨object, listed, same⟩
      exact ⟨object, List.mem_append_left _ listed, same⟩
    · cases List.mem_singleton.mp new
  · intro chain tail found
    obtain ⟨old, known, rfl⟩ := tails chain tail found
    obtain ⟨front, whole⟩ := intact.tail_suffix chain old known
    exact ⟨front, by rw [← List.append_assoc, whole]; rfl⟩
  · intro chain tail found other member
    obtain ⟨old, known, rfl⟩ := tails chain.toNat tail found
    rcases List.mem_append.mp member with waits | new
    · exact intact.tail_free chain old known other waits
    · obtain rfl := List.mem_singleton.mp new
      exact intact.unpinned_fresh apart fresh chain
  · intro other member chain tip latest referenced
    have grown : ∀ old, dag.tails[chain.toNat]? = some old →
        (dag.apply env.numChains (.publish event)).tails[chain.toNat]? = some (old ++ [event]) :=
      fun old known => by simp [apply, known]
    rcases members other member with old | rfl
    · obtain ⟨tail, known, waits⟩ := intact.waiting other old chain tip latest referenced
      exact ⟨tail ++ [event], grown tail known, List.mem_append_left _ waits⟩
    · obtain ⟨seq, -, live, placed⟩ := Dag.tip_mem latest
      obtain ⟨within, -⟩ := intact.referenced_tip live (refs ▸ referenced)
      rw [placed, ← intact.covered] at within
      exact ⟨_, grown _ (List.getElem?_eq_getElem within), List.mem_append_right _
        (List.mem_singleton_self _)⟩
  · intro other member chain first second pair referenced
    rcases members other member with old | rfl
    · exact intact.pinned other old chain first second pair referenced
    · -- the new event references tips only, and a tip has no successor
      obtain ⟨live, placed⟩ := Dag.mem_onChain_iff.mp (pair.subset (List.mem_cons_self))
      obtain ⟨-, last⟩ := intact.referenced_tip live (refs ▸ referenced)
      rw [placed] at last
      exact absurd pair (last_not_followed (intact.onChain_nodup chain) last)
  · intro other later tip order latest
    rcases pair_sublist_concat order with old | ⟨-, same⟩
    · exact intact.ticked other later tip old latest
    · cases same

theorem Intact.tick {seq : Nat} {record : LocalClockEvent}
    (allowed : Allows env policy dag (.tick seq record)) :
    Intact env policy (dag.apply env.numChains (.tick seq record)) := by
  obtain ⟨makes, fresh, above, ticking⟩ := allowed
  have tips : ∀ chain, (dag.apply env.numChains (.tick seq record)).tip chain =
      if record.chain = chain then some record
      else dag.tip chain := fun chain => Dag.tip_addClockEvent
  have tails : ∀ (chain : UInt32) tail, record.chain ≠ chain →
      ((dag.apply env.numChains (.tick seq record)).tails[chain.toNat]? = some tail ↔
        dag.tails[chain.toNat]? = some tail) := by
    intro chain tail other
    have apart : record.chain.toNat ≠ chain.toNat := fun same => other (UInt32.toNat_inj.mp same)
    simp [apply, apart]
  have emptied : ∀ tail, (dag.apply env.numChains (.tick seq record)).tails[record.chain.toNat]? =
    some tail → tail = [] := by
    intro tail found
    simp only [apply, List.getElem?_set, if_true] at found
    split at found
    · exact (Option.some.inj found).symm
    · cases found
  refine ⟨intact.toChained.apply ⟨makes, fresh, above, ticking⟩, ?_, ?_, ?_, ?_, ?_,
    ?_, ?_, ?_, ?_, ?_⟩
  · simpa [apply] using intact.covered
  · show dag.events = (dag.made ++ [Signed.clockEvent record]).filterMap Signed.published?
    rw [List.filterMap_append, ← intact.published]
    exact (List.append_nil _).symm
  · intro object member
    rcases List.mem_append.mp member with old | new
    · exact intact.own object old
    · obtain rfl := List.mem_singleton.mp new
      exact fresh.1
  · intro event member ref referenced
    obtain ⟨ce, listed, same⟩ := intact.event_refs event member ref referenced
    exact ⟨ce, List.mem_append_left _ listed, same⟩
  · intro ce member ref referenced
    rcases List.mem_append.mp member with old | new
    · refine (intact.clock_refs ce old ref referenced).imp_left ?_
      rintro ⟨object, listed, same⟩
      exact ⟨object, List.mem_append_left _ listed, same⟩
    · obtain rfl := Signed.clockEvent.inj (List.mem_singleton.mp new)
      obtain ⟨chain, salt, tail, heard, waits, foreign, rfl⟩ := makes
      simp only [makeClockEvent, List.mem_append, or_assoc] at referenced
      rcases referenced with own | told | waiting
      · obtain ⟨tip, latest, rfl⟩ := Option.map_eq_some_iff.mp (Option.mem_toList.mp own)
        obtain ⟨place, -, live, -⟩ := Dag.tip_mem latest
        exact Or.inl ⟨.clockEvent tip, List.mem_append_left _ (intact.clock_made _ live), rfl⟩
      · exact Or.inr (foreign ref told)
      · obtain ⟨event, listed, rfl⟩ := List.mem_map.mp waiting
        have stored := (intact.tail_suffix _ tail waits).subset listed
        exact Or.inl ⟨.event event, List.mem_append_left _ (intact.mem_events_iff.mp stored), rfl⟩
  · intro chain tail found
    simp only [apply, List.getElem?_set] at found
    split at found
    · split at found
      · cases found
        exact List.nil_suffix
      · cases found
    · exact intact.tail_suffix chain tail found
  · intro chain tail found event member
    by_cases here : record.chain = chain
    · subst here
      rw [emptied tail found] at member
      cases member
    · intro pins
      rcases Dag.pins_addClockEvent.mp pins with old | ⟨same, -⟩
      · exact intact.tail_free chain tail ((tails chain tail here).mp found) event member old
      · exact here same
  · intro event member chain tip latest referenced
    rw [tips] at latest
    split at latest
    · cases latest
      exact absurd referenced (intact.unreferenced_fresh fresh member)
    · rename_i other
      obtain ⟨tail, known, waits⟩ := intact.waiting event member chain tip latest referenced
      exact ⟨tail, (tails chain tail other).mpr known, waits⟩
  · intro event member chain first second pair referenced
    change [first, second] <:+: (dag.toDag.addClockEvent seq record).onChain chain at pair
    rw [Dag.onChain_addClockEvent] at pair
    split at pair
    · rename_i here
      rcases pair_concat pair with old | ⟨last, rfl⟩
      · exact intact.pinned event member chain first second old referenced
      · -- the event waited for this tick
        have latest : dag.tip chain = some first.2 := by simp [Dag.tip, last]
        obtain ⟨tail, known, waits⟩ := intact.waiting event member chain first.2 latest referenced
        obtain ⟨_, salt, listed, heard, found, -, rfl⟩ := makes
        obtain rfl := here
        obtain rfl := Option.mem_unique found known
        exact List.mem_append_right _ (List.mem_map_of_mem waits)
    · rw [List.append_nil] at pair
      exact intact.pinned event member chain first second pair referenced
  · intro event later tip order latest
    have before : .event event ∈ dag.made ∧
      (List.Sublist [.event event, .clockEvent later] dag.made ∨ later = record) := by
      rcases pair_sublist_concat order with old | ⟨first, same⟩
      · exact ⟨old.subset (by simp), Or.inl old⟩
      · exact ⟨first, Or.inr (Signed.clockEvent.inj same)⟩
    have member := intact.mem_events_iff.mpr before.1
    rw [tips] at latest
    split at latest
    · cases latest
      exact intact.unreferenced_fresh fresh member
    · rename_i other
      rcases before.2 with old | rfl
      · exact intact.ticked event later tip old latest
      · exact absurd rfl other

end Steps

theorem Intact.apply (intact : Intact env policy dag) (apart : ∀ ref, policy.foreign ref →
    ¬policy.own ref.hash) (allowed : Allows env policy dag change) : Intact env policy
    (dag.apply env.numChains change) := by
  cases change with
  | read now => exact intact.read
  | publish event => exact intact.publish apart allowed
  | tick seq record => exact intact.tick allowed
  | prune chain keep => exact intact.prune allowed
  | hydrate => exact intact.hydrate

def TimeOrdered (dag : LocalDag) : Prop :=
  ∀ event ∈ dag.events, ∀ before ∈ dag.clocks, ∀ after ∈ dag.clocks,
    before.2.reference ∈ event.referencedEvents → event.hash ∈ Dag.mentions after.2 →
    before.2.timestamp ≤ after.2.timestamp

def StampsAfter (dag : LocalDag) (record : LocalClockEvent) : Prop :=
  ∀ tail, dag.tails[record.chain.toNat]? = some tail → ∀ event ∈ tail, ∀ entry ∈ dag.clocks,
    entry.2.reference ∈ event.referencedEvents → entry.2.timestamp ≤ record.timestamp

theorem TimeOrdered.apply (ordered : TimeOrdered dag) (intact : Intact env policy dag)
    (apart : ∀ ref, policy.foreign ref → ¬policy.own ref.hash)
    (allowed : Allows env policy dag change)
    (stamps : ∀ seq record, change = .tick seq record → StampsAfter dag record) :
    TimeOrdered (dag.apply env.numChains change) := by
  cases change with
  | read now => exact ordered
  | hydrate => exact ordered
  | prune chain keep =>
      intro event member before live after alive
      have same : (dag.toDag.prune chain keep).events = dag.events := by
        unfold Dag.prune
        split <;> rfl
      exact ordered event (same ▸ member) before (Dag.prune_sublist.subset live) after
        (Dag.prune_sublist.subset alive)
  | publish event =>
      intro other member before live after alive referenced mentioned
      rcases List.mem_append.mp member with old | new
      · exact ordered other old before live after alive referenced mentioned
      · obtain rfl := List.mem_singleton.mp new
        exact absurd mentioned
          (intact.unmentioned_fresh apart allowed.2 (intact.clock_made after alive))
  | tick seq record =>
      obtain ⟨makes, fresh, -, -⟩ := allowed
      intro event member before live after alive referenced mentioned
      rcases List.mem_append.mp live with old | new
      · rcases List.mem_append.mp alive with known | added
        · exact ordered event member before old after known referenced mentioned
        · obtain rfl := List.mem_singleton.mp added
          -- what mentions the event now is the new clock event, so the event waited for it
          obtain ⟨ref, listed, same⟩ := Dag.mem_mentions mentioned
          have after := stamps seq record rfl
          obtain ⟨chain, salt, tail, heard, waits, foreign, rfl⟩ := makes
          refine after tail waits event ?_ before old referenced
          simp only [makeClockEvent, List.mem_append, or_assoc] at listed
          have made := intact.mem_events_iff.mp member
          rcases listed with own | told | waiting
          · obtain ⟨tip, latest, rfl⟩ := Option.map_eq_some_iff.mp (Option.mem_toList.mp own)
            obtain ⟨place, -, tipLive, -⟩ := Dag.tip_mem latest
            cases intact.same (intact.clock_made _ tipLive) made same
          · exact absurd (same ▸ intact.own _ made) (apart ref (foreign ref told))
          · obtain ⟨other, inTail, rfl⟩ := List.mem_map.mp waiting
            have stored := (intact.tail_suffix _ tail waits).subset inTail
            exact intact.event_eq stored member same ▸ inTail
      · obtain rfl := List.mem_singleton.mp new
        exact absurd referenced (intact.unreferenced_fresh fresh member)

end LocalDag

end Loti
