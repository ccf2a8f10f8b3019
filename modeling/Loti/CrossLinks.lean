import Loti.ChainLinks
import Loti.Library.Provenance
import Loti.Peers

/-!
What the log of an honest network is: every object references only objects that were there
before it, and the clock events of a node whose clock never steps back are stamped in
order. A chain that is woven through the log, from one clock event of a node to another
one of the same node, is accepted by that node. The primitives with which nodes build a
chain keep it woven.
-/

namespace Loti

open Std StateExcept

def Signed.referencedEvents : Signed → List EventReference
  | .event published => published.referencedEvents
  | .clockEvent ticked => ticked.referencedEvents

def Mentionable (log : List Signed) (creator : NodeId) (ref : EventReference) : Prop :=
  ∃ object ∈ log, object.reference = ref ∧ (ref.creator ≠ creator → ∃ ce, object = .clockEvent ce)

structure Distinct (log : List Signed) : Prop where
  nodup : (log.map Signed.hash).Nodup
  nonempty : ∀ object ∈ log, object.hash ≠ []

structure Peers.Consistent {σ : Type} [Store σ] [LawfulStore σ] [DagStore σ] (peers : Peers)
    (w : PeerWorld σ) : Prop extends Truthful w where
  sound : ∀ id, DagStore.Sound (w.nodes id).store
  readable : ∀ object ∈ w.log, DagStore.Readable (σ := σ) object.hash
  founded : ∀ k object, w.log[k]? = some object →
    ∀ ref ∈ object.referencedEvents, Mentionable (w.log.take k) object.creator ref
  elapsed : ∀ ce, .clockEvent ce ∈ w.log → peers.steady ce.creator →
    ce.timestamp ≤ (w.nodes ce.creator).now
  ordered : w.log.Pairwise fun earlier later => ∀ first second, earlier = .clockEvent first →
    later = .clockEvent second → first.creator = second.creator → peers.steady first.creator →
      first.timestamp ≤ second.timestamp
  discoveries : ∀ id, (w.nodes id).Justified (peers.env id)

variable {σ : Type} [Store σ] [LawfulStore σ] [DagStore σ] {peers : Peers}
    {w : PeerWorld σ} {id : NodeId}
  {action : NodeAction} {log more : List Signed} {sha256 : Bytes → EventHash} {neighbor : NodeId}
  {object : Signed}

theorem Distinct.append (distinct : Distinct (log ++ more)) : Distinct log where
  nodup := (List.nodup_append.mp (List.map_append ▸ distinct.nodup)).1
  nonempty object member := distinct.nonempty object (List.mem_append_left more member)

theorem Distinct.unambiguous (distinct : Distinct log) : Unambiguous log where
  nonempty := distinct.nonempty
  chains first second one other _ same := by
    rw [Signed.clockEvent.inj (same_of_hash distinct.nodup one other same)]

theorem Distinct.fresh (distinct : Distinct (log ++ more)) {old new : Signed} (one : old ∈ log)
    (other : new ∈ more) : old.hash ≠ new.hash := by
  have apart := (List.nodup_append.mp (List.map_append ▸ distinct.nodup)).2.2
  exact apart _ (List.mem_map_of_mem one) _ (List.mem_map_of_mem other)

theorem Mentionable.append {creator : NodeId} {ref : EventReference}
    (mentionable : Mentionable log creator ref) (more : List Signed) :
    Mentionable (log ++ more) creator ref := by
  obtain ⟨object, member, rest⟩ := mentionable
  exact ⟨object, List.mem_append_left more member, rest⟩

theorem Mentionable.own (object : Signed) {creator : NodeId} (member : object ∈ log)
    (own : object.creator = creator) : Mentionable log creator object.reference :=
  ⟨object, member, rfl, fun foreign => absurd own foreign⟩

section Step

omit [DagStore σ] in
theorem makes_mentionable (within : NodeWithin (honestContents w.log id) (w.nodes id))
    (makes : Makes (peers.env id) (w.nodes id) action object) :
    ∀ ref ∈ object.referencedEvents, Mentionable w.log object.creator ref := by
  have creator := (makes_creator makes).trans (peers.identified id)
  have stored : ∀ {tip : LocalClockEvent}, (honestContents w.log id).clockEvent tip →
      Mentionable w.log object.creator tip.reference :=
    fun {tip} held => .own (.clockEvent tip.bare) held.1 (held.2.1.trans creator.symm)
  rcases makes.cases with ⟨data, event, rfl, refs, read, rfl⟩ | ⟨chain, record, rfl, last, tail,
    read, found, rfl⟩
  · intro ref listed
    obtain ⟨chain, tip, latest, rfl⟩ := tipReferences_mem read listed
    exact stored (LawfulStore.latestClockEventOn_within within.store latest)
  · intro ref listed
    rcases clockReferences_mem listed with ⟨tip, rfl, rfl⟩ | ⟨key, neighbor, hash, known,
      advertised, nonempty, rfl⟩ | ⟨event, published, rfl⟩
    · exact stored (LawfulStore.latestClockEventOn_within within.store read)
    · obtain ⟨ce, made, named, -, sameHash⟩ :=
        (within.neighbors key neighbor known).2 _ hash advertised nonempty
      refine ⟨.clockEvent ce, made, ?_, fun _ => ⟨ce, rfl⟩⟩
      rw [← named, ← sameHash]
      rfl
    · have held := within.unreferenced tail (List.mem_of_getElem? found) event published
      exact .own (.event event) held.1 (held.2.trans creator.symm)

variable (consistent : peers.Consistent w)

include consistent

theorem Peers.Consistent.live {entry : Nat × LocalClockEvent}
    (live : entry ∈ (DagStore.dag (w.nodes id).store).clocks) :
    (honestContents w.log id).clockEvent entry.2 :=
  LawfulStore.clockEventBySeq_within (consistent.records id).store
    (DagStore.clockEventBySeq_eq (consistent.sound id) live)

theorem Peers.Consistent.stamp {ce : LocalClockEvent} (steady : peers.steady id)
    (makes : Makes (peers.env id) (w.nodes id) action (.clockEvent ce)) :
    ce.timestamp = (w.nodes id).now := by
  obtain ⟨-, last, tail, read, -, built⟩ := makes_ticks makes
  rw [built]
  show clampedStamp (w.nodes id).now last = (w.nodes id).now
  cases last with
  | none => rfl
  | some tip =>
      obtain ⟨recorded, mine, -⟩ := LawfulStore.latestClockEventOn_within
        (consistent.records id).store read
      have past := consistent.elapsed tip.bare recorded (mine ▸ steady)
      exact if_neg (Int64.not_lt.mpr (mine ▸ past))

theorem Peers.Consistent.act (allows : peers.Allows w id action)
    (distinct : Distinct (peers.act w id action).log) :
    peers.Consistent (peers.act w id action) := by
  have kind : ∀ blob, action ≠ .restore blob := by
    rintro blob rfl
    exact allows
  have grounded : ∀ entry ∈ (DagStore.dag (w.nodes id).store).clocks, ∃ object ∈ w.log,
    object.hash = entry.2.hash :=
    fun entry live => ⟨_, (consistent.live live).1, rfl⟩
  have evolves := perform_evolves_open kind (consistent.sound id) grounded distinct.nodup
  have clocks : ∀ other, peers.steady other →
    (w.nodes other).now ≤ ((peers.act w id action).nodes other).now := by
    intro other steady
    by_cases same : other = id
    · subst same
      have follows : Follows (peers.env other) (w.nodes other) action _ :=
        ends_final.mp (perform_follows action)
      rw [Peers.act_self, follows.now]
      cases action with
      | setClock now => exact allows steady
      | _ => exact Int64.le_refl _
    · rw [Peers.act_other same]
      exact Int64.le_refl _
  have stamps : ∀ ce, .clockEvent ce ∈ appendedBy (peers.env id) (w.nodes id) action →
      ce.creator = id ∧ (peers.steady id → ce.timestamp = (w.nodes id).now) := by
    intro ce added
    obtain ⟨makes, -⟩ := mem_appendedBy_iff.mp added
    exact ⟨(makes_creator makes).trans (peers.identified id), fun steady =>
      consistent.stamp steady makes⟩
  refine ⟨consistent.toTruthful.act allows distinct.unambiguous, fun other => ?_,
    fun object member => ?_, ?_, fun ce member steady => ?_, ?_, fun other => ?_⟩
  · by_cases same : other = id
    · subst same
      rw [Peers.act_self]
      exact evolves.sound
    · rw [Peers.act_other same]
      exact consistent.sound other
  · rcases List.mem_append.mp member with old | added
    · exact consistent.readable object old
    · refine stored_readable (consistent.sound id) (fun entry live => ?_)
        (mem_appendedBy_iff.mp added).2
      exact distinct.fresh (consistent.live live).1 added
  · refine Provenance.forall_take_append
      (fun before object => ∀ ref ∈ object.referencedEvents, Mentionable before object.creator ref)
      (fun before between object known ref listed => (known ref listed).append between)
      consistent.founded ?_
    exact fun object added => makes_mentionable (consistent.records id)
      (mem_appendedBy_iff.mp added).1
  · rcases List.mem_append.mp member with old | added
    · exact Int64.le_trans (consistent.elapsed ce old steady) (clocks _ steady)
    · obtain ⟨mine, stamp⟩ := stamps ce added
      rw [mine] at steady ⊢
      exact stamp steady ▸ clocks id steady
  · refine List.pairwise_append.mpr ⟨consistent.ordered, ?_, ?_⟩
    · refine List.pairwise_of_forall_mem_list fun earlier one later other first second isFirst
        isSecond _ steady => ?_
      subst isFirst isSecond
      rw [(stamps first one).1] at steady
      rw [(stamps first one).2 steady, (stamps second other).2 steady]
      exact Int64.le_refl _
    · intro earlier old later added first second isFirst isSecond same steady
      subst isFirst isSecond
      obtain ⟨mine, stamp⟩ := stamps second added
      have past := consistent.elapsed first old steady
      rw [same.trans mine] at steady past
      exact stamp steady ▸ past
  · by_cases same : other = id
    · subst same
      rw [Peers.act_self]
      exact ends_final.mp (perform_keeps_sound (consistent.discoveries other))
    · rw [Peers.act_other same]
      exact consistent.discoveries other

end Step

theorem Peers.Initial.consistent (initial : peers.Initial w) : peers.Consistent w := by
  have booted : ∀ id, DagStore.Sound (w.nodes id).store ∧
      (w.nodes id).Justified (peers.env id) := by
    intro id
    obtain ⟨store, now, empty, same⟩ := initial.nodes id
    rw [same]
    exact ⟨(bootAt_localDag empty).1, boot_sound (peers.env id) store⟩
  refine ⟨initial.truthful, fun id => (booted id).1, ?_, ?_, ?_, ?_, fun id => (booted id).2⟩
  · simp [initial.log]
  · simp [initial.log]
  · simp [initial.log]
  · simp [initial.log]

theorem Peers.Reachable.consistent (reached : peers.Reachable w) (distinct : Distinct w.log) :
    peers.Consistent w :=
  reached.invariant peers.Consistent Distinct distinct (fun _ _ => Distinct.append)
    (fun _ initial => initial.consistent) fun _ _ _ allows distinct consistent =>
    consistent.act allows distinct

/-! Chains through the log. -/

/-- The event and the clock events of the chain are in the log, and each one references the one
before it. -/
structure Woven (log : List Signed) (chain : EventChain) : Prop where
  event : .event chain.event ∈ log
  lower : ∀ ce ∈ chain.lowerBound, ∃ record, .clockEvent record ∈ log ∧ record.toClockEvent = ce
  upper : ∀ ce ∈ chain.upperBound, ∃ record, .clockEvent record ∈ log ∧ record.toClockEvent = ce
  linked : chain.links.IsChain fun earlier later => earlier.reference ∈ later.referencedEvents

section Weaving

variable {chain : EventChain} {record : LocalClockEvent}

theorem Woven.mono {later : List Signed} (woven : Woven log chain) (grows : log <+: later) :
    Woven later chain := by
  refine ⟨grows.subset woven.event, fun ce listed => ?_, fun ce listed => ?_, woven.linked⟩
  · obtain ⟨record, made, same⟩ := woven.lower ce listed
    exact ⟨record, grows.subset made, same⟩
  · obtain ⟨record, made, same⟩ := woven.upper ce listed
    exact ⟨record, grows.subset made, same⟩

theorem woven_event {event : Event} (published : .event event ∈ log) : Woven log ⟨event, [], []⟩ :=
  ⟨published, by simp, by simp, by simp [EventChain.links]⟩

theorem Woven.prepend (woven : Woven log chain) (made : .clockEvent record.bare ∈ log)
    (referenced : record.reference ∈ chain.frontReferences) :
    Woven log { chain with lowerBound := record.toClockEvent :: chain.lowerBound } := by
  refine ⟨woven.event, List.forall_mem_cons.mpr ⟨⟨record.bare, made, rfl⟩, woven.lower⟩,
    woven.upper, ?_⟩
  exact linked_prepend_iff.mpr ⟨woven.linked, referenced⟩

theorem Woven.concat (woven : Woven log chain) (made : .clockEvent record.bare ∈ log)
    (references : chain.backReference ∈ record.referencedEvents) :
    Woven log { chain with upperBound := chain.upperBound ++ [record.toClockEvent] } := by
  refine ⟨woven.event, woven.lower, ?_, ?_⟩
  · intro ce listed
    rcases List.mem_append.mp listed with old | new
    · exact woven.upper ce old
    · obtain rfl := List.mem_singleton.mp new
      exact ⟨record.bare, made, rfl⟩
  · exact linked_concat_iff.mpr ⟨woven.linked, references⟩

end Weaving

section Primitives

variable (consistent : peers.Consistent w) (distinct : Distinct w.log) {refs : List EventReference}
  {chain out : EventChain} {ce : LocalClockEvent}

include consistent

omit [DagStore σ] consistent in
theorem same_record {first second : LocalClockEvent} (distinct : Distinct log)
    (one : .clockEvent first ∈ log) (other : .clockEvent second ∈ log)
    (same : first.hash = second.hash) : first = second :=
  Signed.clockEvent.inj (same_of_hash distinct.nodup one other same)

theorem Peers.Consistent.ownClockEvent
    (found : ownClockEvent id (w.nodes id).store refs = .ok (some ce)) :
    (∃ seq, (seq, ce) ∈ (DagStore.dag (w.nodes id).store).clocks) ∧ ce.reference ∈ refs := by
  obtain ⟨ref, listed, mine, looked⟩ := ownClockEvent_mem found
  obtain ⟨named, seq, live⟩ := DagStore.clockEventByHash_mem (consistent.sound id) looked
  refine ⟨⟨seq, live⟩, ?_⟩
  have same : ce.reference = ref := by
    rw [← (consistent.live live).2.1] at mine
    exact congrArg₂ EventReference.mk mine.symm named
  exact same ▸ listed

theorem Peers.Consistent.mentioned (distinct : Distinct w.log) {target : Signed}
    {ref : EventReference} (member : object ∈ w.log) (listed : ref ∈ object.referencedEvents)
    (made : target ∈ w.log) (same : ref.hash = target.hash) : ref = target.reference := by
  obtain ⟨k, placed⟩ := List.mem_iff_getElem?.mp member
  obtain ⟨named, earlier, rfl, -⟩ := consistent.founded k object placed ref listed
  rw [same_of_hash distinct.nodup (List.mem_of_mem_take earlier) made
    ((Signed.reference_hash named).symm.trans same)]

theorem Peers.Consistent.referencing (distinct : Distinct w.log) {target : Signed}
    (made : target ∈ w.log) {seqs : List Nat}
    (read : Store.clockEventsReferencing (w.nodes id).store target.hash = .ok seqs) {seq : Nat}
    (listed : seq ∈ seqs) (found : Store.clockEventBySeq (w.nodes id).store seq = .ok ce) :
    (seq, ce) ∈ (DagStore.dag (w.nodes id).store).clocks ∧
    target.reference ∈ ce.referencedEvents := by
  obtain ⟨answer, answered, -, mentions⟩ :=
    DagStore.clockEventsReferencing_eq (consistent.sound id) (consistent.readable target made)
  obtain rfl := ok_unique answered read
  obtain ⟨stored, alive, mentioned⟩ := (mentions seq).mp listed
  obtain rfl := ok_unique (DagStore.clockEventBySeq_eq (consistent.sound id) alive) found
  obtain ⟨ref, referenced, sameHash⟩ := Dag.mem_mentions mentioned
  have same := consistent.mentioned distinct (consistent.live alive).1 referenced made sameHash
  exact ⟨alive, same ▸ referenced⟩

theorem Peers.Consistent.lookup {seq : Nat}
    (live : (seq, ce) ∈ (DagStore.dag (w.nodes id).store).clocks) :
    Store.clockEventByHash (w.nodes id).store ce.hash = .ok (some ce) := by
  obtain ⟨found, read, answers⟩ := DagStore.clockEventByHash_eq (consistent.sound id)
    (consistent.readable _ (consistent.live live).1)
  exact read.trans (congrArg Except.ok ((answers ce).mpr ⟨rfl, seq, live⟩))

omit [Store σ] [LawfulStore σ] [DagStore σ] consistent in
theorem Woven.back (woven : Woven log chain) :
    ∃ target ∈ log, target.reference = chain.backReference := by
  rw [EventChain.backReference]
  split
  · exact ⟨_, woven.event, rfl⟩
  · rename_i back last
    obtain ⟨record, made, rfl⟩ := woven.upper back (List.mem_of_getLast? last)
    exact ⟨_, made, rfl⟩

theorem Peers.Consistent.addLocalLowerBound (woven : Woven w.log chain)
    (attached : addLocalLowerBound id (w.nodes id).store chain = .ok (some out)) :
    Woven w.log out := by
  obtain ⟨ce, found, rfl⟩ := addLocalLowerBound_ok attached
  obtain ⟨⟨seq, live⟩, referenced⟩ := consistent.ownClockEvent found
  exact woven.prepend (consistent.live live).1 referenced

include distinct

theorem Peers.Consistent.addLocalUpperBound (woven : Woven w.log chain)
    (attached : addLocalUpperBound (w.nodes id).store chain = .ok (some out)) :
    Woven w.log out := by
  obtain ⟨seqs, read, seq, listed, ce, found, rfl⟩ := addLocalUpperBound_ok attached
  obtain ⟨target, made, named⟩ := woven.back
  rw [← named, Signed.reference_hash] at read
  obtain ⟨live, references⟩ := consistent.referencing distinct made read listed found
  exact woven.concat (consistent.live live).1 (named ▸ references)

theorem Peers.Consistent.splices (woven : Woven w.log chain)
    (spliced : Splices id (w.nodes id).store chain out) : Woven w.log out := by
  obtain ⟨lower, lowered, raised⟩ := spliced
  exact consistent.addLocalUpperBound distinct (consistent.addLocalLowerBound woven lowered) raised

theorem Peers.Consistent.extendLowerBound (woven : Woven w.log chain)
    (extended : extendLowerBoundForNeighbor id neighbor (w.nodes id).store chain = .ok (some out)) :
    Woven w.log out ∧ ∃ front seq, (seq, front) ∈ (DagStore.dag (w.nodes id).store).clocks ∧
      out.lowerBound.head? = some front.toClockEvent ∧ ∃ ref ∈ front.referencedEvents,
      ref.creator = neighbor := by
  have walk := extendLowerBoundForNeighbor_ok (fun current walked => Woven w.log walked ∧
    (∃ seq, (seq, current) ∈ (DagStore.dag (w.nodes id).store).clocks) ∧
      walked.lowerBound.head? = some current.toClockEvent) ?_ ?_ extended
  · obtain ⟨front, ⟨woven, ⟨seq, live⟩, begins⟩, references⟩ := walk
    exact ⟨woven, front, seq, live, begins, references⟩
  · rintro current prev walked ⟨woven, -, begins⟩ found
    obtain ⟨live, referenced⟩ := consistent.ownClockEvent found
    refine ⟨woven.prepend (consistent.live live.choose_spec).1 ?_, live, rfl⟩
    obtain ⟨rest, bound⟩ := List.head?_eq_some_iff.mp begins
    simpa [EventChain.frontReferences, bound] using referenced
  · intro front rest current bound own found
    obtain ⟨named, seq, live⟩ := DagStore.clockEventByHash_mem (consistent.sound id) found
    obtain ⟨record, made, rfl⟩ := woven.lower front (by simp [bound])
    obtain rfl := same_record distinct made (consistent.live live).1 named.symm
    exact ⟨woven, ⟨seq, live⟩, by simp [bound]⟩

theorem Peers.Consistent.extendUpperBound (woven : Woven w.log chain)
    (extended : extendUpperBoundForNeighbor id neighbor (w.nodes id).store chain = .ok (some out)) :
    Woven w.log out ∧ out.lowerBound = chain.lowerBound ∧ ∃ back seq,
      (seq, back) ∈ (DagStore.dag (w.nodes id).store).clocks ∧
        out.upperBound.getLast? = some back.toClockEvent ∧
        ∃ ref ∈ back.referencingEvents, ref.creator = neighbor := by
  have walk := extendUpperBoundForNeighbor_ok (fun current walked => Woven w.log walked ∧
    walked.lowerBound = chain.lowerBound ∧
      (∃ seq, (seq, current) ∈ (DagStore.dag (w.nodes id).store).clocks) ∧
      walked.upperBound.getLast? = some current.toClockEvent) ?_ ?_ extended
  · obtain ⟨back, ⟨woven, lower, ⟨seq, live⟩, ends⟩, edge⟩ := walk
    exact ⟨woven, lower, back, seq, live, ends, edge⟩
  · rintro current next walked seqs ⟨woven, lower, ⟨place, live⟩, ends⟩ read successor
    obtain ⟨seq, listed, found⟩ := successorOnChain_mem successor
    have named : walked.backReference = current.reference := by rw [EventChain.backReference, ends]
    obtain ⟨nextLive, references⟩ := consistent.referencing distinct
      (consistent.live live).1 read listed found
    refine ⟨woven.concat (consistent.live nextLive).1 ?_, lower, ⟨seq, nextLive⟩, by simp⟩
    rw [named]
    exact references
  · intro back current bound own found
    obtain ⟨named, seq, live⟩ := DagStore.clockEventByHash_mem (consistent.sound id) found
    obtain ⟨record, made, rfl⟩ := woven.upper back (List.mem_of_getLast? bound)
    obtain rfl := same_record distinct made (consistent.live live).1 named.symm
    exact ⟨woven, rfl, ⟨seq, live⟩, bound⟩

theorem Extended.woven (woven : Woven w.log chain)
    (extended : Extended (peers.env id) (w.nodes id).store neighbor chain out) :
    Woven w.log out ∧
      (∃ front seq, (seq, front) ∈ (DagStore.dag (w.nodes id).store).clocks ∧
        out.lowerBound.head? = some front.toClockEvent ∧ ∃ ref ∈ front.referencedEvents,
        ref.creator = neighbor) ∧
      ∃ back seq, (seq, back) ∈ (DagStore.dag (w.nodes id).store).clocks ∧
        out.upperBound.getLast? = some back.toClockEvent ∧ ∃ ref ∈ back.referencingEvents,
        ref.creator = neighbor := by
  obtain ⟨lower, upper, front, lowered, raised, below, above⟩ := extended
  rw [peers.identified id] at lowered below above
  have attached := consistent.splices distinct woven ⟨lower, lowered, raised⟩
  obtain ⟨fronted, begins⟩ := consistent.extendLowerBound distinct attached below
  obtain ⟨backed, same, ends⟩ := consistent.extendUpperBound distinct fronted above
  exact ⟨backed, same ▸ begins, ends⟩

end Primitives

/-! Chains in flight -/

def PeerWorld.Weaves (w : PeerWorld σ) : Prop :=
  ∀ id, ∀ sent ∈ (w.nodes id).sent, ∀ m, sent.datagram.payload = .chainResponse m →
    Woven w.log m.chain

section Flight

variable {sent : Sent} {m : Wire.ChainResponse}

theorem Sent.IsResponse.woven {base : EventChain} {originator : NodeId} {path : List NodeId}
    (consistent : peers.Consistent w) (distinct : Distinct w.log) (woven : Woven w.log base)
    (response : sent.IsResponse (peers.env id) (w.nodes id) neighbor base originator path)
    (carries : sent.datagram.payload = .chainResponse m) : Woven w.log m.chain := by
  obtain ⟨next, chain, -, extended, rfl⟩ := response.path (consistent.records id)
  obtain rfl := Wire.Payload.chainResponse.inj carries
  exact (extended.woven consistent distinct woven).1

theorem SentBy.woven (consistent : peers.Consistent w) (distinct : Distinct w.log)
    (weaves : w.Weaves) (allows : peers.Allows w id action)
    (sentBy : SentBy (peers.env id) (w.nodes id) action sent)
    (carries : sent.datagram.payload = .chainResponse m) : Woven w.log m.chain := by
  rcases sentBy.response carries with ⟨neighbor, request, own, -, found, response⟩ |
    ⟨neighbor, incoming, ⟨bytes, sender, rfl, decoded, -⟩, -, response⟩
  · have held := LawfulStore.eventByHash_within (consistent.records id).store found
    exact response.woven consistent distinct (woven_event held.1) carries
  · exact response.woven consistent distinct (weaves sender _ (allows _ _ decoded) _ rfl) carries

theorem Peers.Reachable.weaves (reached : peers.Reachable w) (distinct : Distinct w.log) :
    w.Weaves := by
  refine (reached.invariant (fun w => peers.Consistent w ∧ w.Weaves) Distinct distinct
    (fun _ _ => Distinct.append) (fun w initial => ⟨initial.consistent, ?_⟩) fun w id action allows
    distinct ⟨consistent, weaves⟩ =>
      ⟨consistent.act allows distinct, ?_⟩).2
  · intro id sent member
    rw [initial.sent id] at member
    cases member
  · intro other sent member m carries
    have grows : w.log <+: (peers.act w id action).log := List.prefix_append _ _
    rcases Peers.mem_sent_act member with earlier | ⟨rfl, reason⟩
    · exact (weaves other sent earlier m carries).mono grows
    · exact (reason.woven consistent distinct.append weaves allows carries).mono grows

end Flight

/-! Acceptance -/

def moment (log : List Signed) (ref : EventReference) : Nat := (log.map Signed.reference).idxOf ref

section Acceptance

variable {chain : EventChain} {front back : ClockEvent}

theorem Distinct.references (distinct : Distinct log) : (log.map Signed.reference).Nodup := by
  have hashes := distinct.nodup
  rw [show log.map Signed.hash = (log.map Signed.reference).map EventReference.hash by
    simp [Function.comp_def, Signed.reference_hash]] at hashes
  exact hashes.of_map

theorem moment_eq (distinct : Distinct log) {k : Nat} (placed : log[k]? = some object) :
    moment log object.reference = k := by
  obtain ⟨bound, rfl⟩ := List.getElem?_eq_some_iff.mp placed
  have found := distinct.references.idxOf_getElem k (by simpa using bound)
  rwa [List.getElem_map] at found

theorem Peers.Consistent.earlier (consistent : peers.Consistent w) (distinct : Distinct w.log)
    (member : object ∈ w.log) {ref : EventReference} (listed : ref ∈ object.referencedEvents) :
    moment w.log ref < moment w.log object.reference := by
  obtain ⟨k, placed⟩ := List.mem_iff_getElem?.mp member
  obtain ⟨named, earlier, rfl, -⟩ := consistent.founded k object placed ref listed
  obtain ⟨j, found⟩ := List.mem_iff_getElem?.mp earlier
  rw [List.getElem?_take] at found
  split at found
  · rename_i before
    rwa [moment_eq distinct found, moment_eq distinct placed]
  · cases found

theorem Woven.recorded (woven : Woven log chain) {link : Link} (listed : link ∈ chain.links) :
    ∃ object ∈ log, object.reference = link.reference ∧
    object.referencedEvents = link.referencedEvents := by
  rw [EventChain.links, List.mem_append, List.mem_cons, List.mem_map, List.mem_map] at listed
  rcases listed with ⟨ce, below, rfl⟩ | rfl | ⟨ce, above, rfl⟩
  · obtain ⟨record, made, rfl⟩ := woven.lower ce below
    exact ⟨_, made, rfl, rfl⟩
  · exact ⟨_, woven.event, rfl, rfl⟩
  · obtain ⟨record, made, rfl⟩ := woven.upper ce above
    exact ⟨_, made, rfl, rfl⟩

theorem Woven.moments (woven : Woven w.log chain) (consistent : peers.Consistent w)
    (distinct : Distinct w.log) : chain.links.Pairwise fun earlier later =>
    moment w.log earlier.reference < moment w.log later.reference := by
  have : IsTrans Link fun earlier later =>
    moment w.log earlier.reference < moment w.log later.reference :=
    ⟨fun _ _ _ => Nat.lt_trans⟩
  refine List.isChain_iff_pairwise.mp
    (woven.linked.imp_of_mem_imp fun earlier later _ listed referenced => ?_)
  obtain ⟨object, made, named, references⟩ := woven.recorded listed
  rw [← named]
  exact consistent.earlier distinct made (references ▸ referenced)

theorem Peers.Consistent.stamps_le (consistent : peers.Consistent w) (distinct : Distinct w.log)
    {first second : LocalClockEvent} (one : .clockEvent first ∈ w.log)
    (other : .clockEvent second ∈ w.log)
    (same : first.creator = second.creator) (steady : peers.steady first.creator)
    (before : moment w.log first.reference < moment w.log second.reference) :
    first.timestamp ≤ second.timestamp := by
  obtain ⟨i, firstPlaced⟩ := List.mem_iff_getElem?.mp one
  obtain ⟨j, secondPlaced⟩ := List.mem_iff_getElem?.mp other
  have order : i < j := by
    rw [← moment_eq distinct firstPlaced, ← moment_eq distinct secondPlaced]
    exact before
  obtain ⟨bound, isFirst⟩ := List.getElem?_eq_some_iff.mp firstPlaced
  obtain ⟨bound', isSecond⟩ := List.getElem?_eq_some_iff.mp secondPlaced
  exact List.pairwise_iff_getElem.mp consistent.ordered i j bound bound' order first second isFirst
    isSecond same steady

section Signatures

variable {maker checker : NodeEnv} (made : maker.hasher = Hasher.ofSha256 sha256)
  (checked : checker.hasher = Hasher.ofSha256 sha256)
  (signs : ∀ message, checker.signer.verify message (maker.signer.sign message) maker.id = true)

include made checked signs

theorem genuine_clockEvent {record : LocalClockEvent}
    (genuine : (Signed.clockEvent record).Genuine maker) :
    Genuine checker.hasher checker.signer record.toClockEvent := by
  obtain ⟨chain, salt, timestamp, refs, rfl⟩ := genuine
  refine ⟨?_, signs _⟩
  simp only [checked, makeClockEvent, made]
  rfl

theorem genuine_event {event : Event} (genuine : (Signed.event event).Genuine maker) :
    checker.hasher.calculateEventHash event = event.hash ∧
      checker.signer.verify event.hash event.signature event.creator = true := by
  obtain ⟨data, salt, refs, rfl⟩ := genuine
  refine ⟨?_, signs _⟩
  simp only [checked, makeEvent, made]
  rfl

end Signatures

theorem Woven.accepted (woven : Woven w.log chain) (reached : peers.Reachable w)
    (distinct : Distinct w.log) (hashed : ∀ node, (peers.env node).hasher = Hasher.ofSha256 sha256)
    (signs : ∀ creator message,
      (peers.env id).signer.verify message ((peers.env creator).signer.sign message) creator = true)
    (steady : peers.steady id) (begins : chain.lowerBound.head? = some front)
    (ends : chain.upperBound.getLast? = some back) (mine : front.creator = id)
    (alsoMine : back.creator = id) :
    validateChainDiscoveryResult (peers.env id) chain = true := by
  have consistent := reached.consistent distinct
  have accepts : ∀ creator message, (peers.env id).signer.verify message
      ((peers.env creator).signer.sign message) (peers.env creator).id = true :=
      fun creator message => (peers.identified creator).symm ▸ signs creator message
  have recorded : ∀ {bound : List ClockEvent},
      (∀ ce ∈ bound, ∃ record, .clockEvent record ∈ w.log ∧ record.toClockEvent = ce) →
      ∀ ce ∈ bound, Genuine (peers.env id).hasher (peers.env id).signer ce := by
    intro bound each ce listed
    obtain ⟨record, made, rfl⟩ := each ce listed
    exact genuine_clockEvent (hashed _) (hashed id) (accepts _) (reached.genuine _ made)
  obtain ⟨eventHash, eventSignature⟩ :=
    genuine_event (hashed _) (hashed id) (accepts _) (reached.genuine _ woven.event)
  obtain ⟨first, firstMade, rfl⟩ := woven.lower front (List.mem_of_head? begins)
  obtain ⟨last, lastMade, rfl⟩ := woven.upper back (List.mem_of_getLast? ends)
  have before : moment w.log first.reference < moment w.log last.reference := by
    refine (List.pairwise_append.mp (woven.moments consistent distinct)).2.2
      first.link ?_ last.link ?_
    · exact List.mem_map_of_mem (List.mem_of_head? begins)
    · exact List.mem_cons_of_mem _ (List.mem_map_of_mem (List.mem_of_getLast? ends))
  have interval := consistent.stamps_le distinct firstMade lastMade (mine.trans alsoMine.symm)
    (mine ▸ steady) before
  have sound : SoundChain (peers.env id).hasher (peers.env id).signer
      (peers.env id).id chain first.toClockEvent last.toClockEvent :=
    ⟨begins, ends, mine.trans (peers.identified id).symm, alsoMine.trans (peers.identified id).symm,
      recorded woven.lower, recorded woven.upper, eventHash, eventSignature,
      linked_none_iff.mpr woven.linked, Int64.not_lt.mpr interval⟩
  rw [validateChainDiscoveryResult, sound.accepted]

end Acceptance

end Loti
