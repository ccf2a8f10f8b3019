import Loti.ChainLinks
import Loti.Faults

/-!
The walks of chain building end, and every record they look up is there. What a clock event
references as this node's is its predecessor on the chain or an event, and nothing it mentions
was made after it: the walk back goes down the chain, the walk forward goes up.
-/

namespace Loti

open Std StateExcept LocalDag Wire

def Along (id : NodeId) (dag : Dag) : Prop :=
  ∀ entry ∈ dag.clocks, ∀ ref ∈ entry.2.referencedEvents, ref.creator = id →
    ∀ other ∈ dag.clocks, other.2.hash = ref.hash → other.2.chain = entry.2.chain

theorem unforeseen_bare_iff {dag : Dag} : Unforeseen dag.bare ↔ Unforeseen dag := by
  simp only [Unforeseen, Dag.bare, List.forall_mem_map]
  exact Iff.rfl

theorem Unforeseen.prune {dag : Dag} {chain : UInt32} {keep : Nat} (unforeseen : Unforeseen dag) :
    Unforeseen (dag.prune chain keep) :=
  fun entry live other also => unforeseen entry (Dag.prune_sublist.subset live) other
    (Dag.prune_sublist.subset also)

theorem Unforeseen.addClockEvent {dag : Dag} {seq : Nat} {record : LocalClockEvent}
    (unforeseen : Unforeseen dag) (above : ∀ entry ∈ dag.clocks, entry.1 < seq)
    (unmentioned : ∀ entry ∈ dag.clocks, record.hash ∉ Dag.mentions entry.2)
    (selfless : record.hash ∉ Dag.mentions record) : Unforeseen (dag.addClockEvent seq record) := by
  intro entry live other also mentioned
  rcases List.mem_append.mp live with old | new <;> rcases List.mem_append.mp also with
    before | last
  · exact unforeseen entry old other before mentioned
  · obtain rfl := List.mem_singleton.mp last
    exact absurd mentioned (unmentioned entry old)
  · obtain rfl := List.mem_singleton.mp new
    exact above other before
  · obtain rfl := List.mem_singleton.mp new
    obtain rfl := List.mem_singleton.mp last
    exact absurd mentioned selfless

theorem along_of_bare {id : NodeId} {dag : Dag} (along : Along id dag.bare) : Along id dag := by
  intro entry live ref listed mine other also named
  exact along (entry.1, entry.2.bare) (Dag.mem_bare_clocks.mpr ⟨entry.2, live, rfl⟩) ref listed mine
    (other.1, other.2.bare) (Dag.mem_bare_clocks.mpr ⟨other.2, also, rfl⟩) named

namespace LocalDag

variable {env : NodeEnv} {own : List EventHash} {dag : LocalDag} {change : Change}

def causalPolicy (env : NodeEnv) (own : List EventHash) : Policy where
  own hash := hash ∈ own
  foreign ref := ref.creator ≠ env.id
  reading _ _ := True
  ticking dag record := ∀ ref ∈ record.referencedEvents, ref.creator ≠ env.id → ref.hash ∈ own →
    ∃ old ∈ dag.made, old.hash = ref.hash
  hydrating _ := True

/-- What the live clock events mention was made before them. -/
structure Causal (env : NodeEnv) (own : List EventHash) (dag : LocalDag) :
    Prop extends Chained env dag where
  published : ∀ event ∈ dag.events, .event event ∈ dag.made
  waiting : ∀ tail ∈ dag.tails, ∀ event ∈ tail, event ∈ dag.events
  known : ∀ entry ∈ dag.clocks, ∀ ref ∈ entry.2.referencedEvents, ref.hash ∈ own → ∃ old ∈ dag.made,
  old.hash = ref.hash
  unforeseen : Unforeseen dag.toDag
  along : Along env.id dag.toDag

theorem causal_initial (now : Timestamp) : Causal env own (.initial env.numChains now) where
  toChained := chained_initial _ now
  published := by simp [initial]
  waiting := by simp [initial]
  known := by simp [initial]
  unforeseen := by simp [initial, Unforeseen]
  along := by simp [initial, Along]

theorem Causal.references (causal : Causal env own dag) {record : LocalClockEvent}
    (makes : MakesTick env (causalPolicy env own) dag record) {ref : EventReference}
    (listed : ref ∈ record.referencedEvents) (mine : ref.creator = env.id) :
    (∃ entry ∈ dag.clocks, entry.2.chain = record.chain ∧ ref = entry.2.reference) ∨
      ∃ event, .event event ∈ dag.made ∧ ref = event.reference := by
  obtain ⟨chain, salt, tail, heard, waits, foreign, rfl⟩ := makes
  change ref ∈ _ ++ heard ++ _ at listed
  simp only [List.mem_append, Option.mem_toList, Option.map_eq_some_iff, List.mem_map] at listed
  rcases listed with (⟨tip, found, rfl⟩ | told) | ⟨event, waiting, rfl⟩
  · obtain ⟨seq, -, live, placed⟩ := Dag.tip_mem found
    exact Or.inl ⟨(seq, tip), live, placed, rfl⟩
  · exact absurd mine (foreign ref told)
  · have listed := causal.waiting tail (List.mem_of_getElem? waits) event waiting
    exact Or.inr ⟨event, causal.published event listed, rfl⟩

theorem Causal.unmentioned (causal : Causal env own dag) {hash : EventHash}
    (fresh : Fresh (causalPolicy env own) dag hash) {entry : Nat × LocalClockEvent}
    (live : entry ∈ dag.clocks) {ref : EventReference}
    (listed : ref ∈ entry.2.referencedEvents) : ref.hash ≠ hash := by
  rintro rfl
  obtain ⟨old, made, same⟩ := causal.known entry live ref listed fresh.1
  exact fresh.2 old made same

theorem Causal.tick (causal : Causal env own dag) {seq : Nat} {record : LocalClockEvent}
    (allowed : Allows env (causalPolicy env own) dag (.tick seq record)) :
    Causal env own (dag.apply env.numChains (.tick seq record)) := by
  have chained : Chained env (dag.apply env.numChains (.tick seq record)) :=
    causal.toChained.apply allowed
  obtain ⟨makes, fresh, above, ticking⟩ := allowed
  -- whatever the new clock event mentions was made before
  have mentions : ∀ ref ∈ record.referencedEvents, ref.hash ∈ own → ∃ old ∈ dag.made,
    old.hash = ref.hash := by
    intro ref listed owned
    by_cases mine : ref.creator = env.id
    · rcases causal.references makes listed mine with ⟨entry, live, -, rfl⟩ | ⟨event, made, rfl⟩
      · exact ⟨_, causal.clock_made entry live, rfl⟩
      · exact ⟨_, made, rfl⟩
    · exact ticking ref listed mine owned
  have selfless : ∀ ref ∈ record.referencedEvents, ref.hash ≠ record.hash := by
    intro ref listed same
    obtain ⟨old, made, named⟩ := mentions ref listed (same ▸ fresh.1)
    exact fresh.2 old made (named.trans same)
  refine ⟨chained, ?_, ?_, ?_, ?_, ?_⟩
  · exact fun event listed => List.mem_append_left _ (causal.published event listed)
  · intro tail listed event waiting
    rcases List.mem_or_eq_of_mem_set listed with old | rfl
    · exact causal.waiting tail old event waiting
    · cases waiting
  · intro entry live ref listed owned
    have known : ∃ old ∈ dag.made, old.hash = ref.hash := by
      rcases List.mem_append.mp live with old | new
      · exact causal.known entry old ref listed owned
      · obtain rfl := List.mem_singleton.mp new
        exact mentions ref listed owned
    exact known.imp fun old found => ⟨List.mem_append_left _ found.1, found.2⟩
  · refine causal.unforeseen.addClockEvent above (fun entry live mentioned => ?_) fun mentioned =>
      ?_
    · obtain ⟨ref, listed, named⟩ := Dag.mem_mentions mentioned
      exact causal.unmentioned fresh live listed named
    · obtain ⟨ref, listed, named⟩ := Dag.mem_mentions mentioned
      exact selfless ref listed named
  · intro entry live ref listed mine other also named
    rcases List.mem_append.mp live with old | new <;> rcases List.mem_append.mp also with
      before | last
    · exact causal.along entry old ref listed mine other before named
    · obtain rfl := List.mem_singleton.mp last
      exact absurd named.symm (causal.unmentioned fresh old listed)
    · obtain rfl := List.mem_singleton.mp new
      rcases causal.references makes listed mine with
        ⟨tip, stored, placed, rfl⟩ | ⟨event, made, rfl⟩
      · rw [causal.entry_eq before stored named]
        exact placed
      · cases causal.same (causal.clock_made other before) made named
    · obtain rfl := List.mem_singleton.mp new
      obtain rfl := List.mem_singleton.mp last
      rfl

theorem Causal.apply (causal : Causal env own dag)
    (allowed : Allows env (causalPolicy env own) dag change) :
    Causal env own (dag.apply env.numChains change) := by
  have chained : Chained env (dag.apply env.numChains change) := causal.toChained.apply allowed
  cases change with
  | read now => exact ⟨chained, causal.published, causal.waiting, causal.known,
      causal.unforeseen, causal.along⟩
  | publish event =>
      refine ⟨chained, ?_, ?_, ?_, causal.unforeseen, causal.along⟩
      · intro published listed
        rcases List.mem_append.mp listed with old | new
        · exact List.mem_append_left _ (causal.published published old)
        · obtain rfl := List.mem_singleton.mp new
          exact List.mem_append_right _ (List.mem_singleton_self _)
      · intro tail listed waits waiting
        obtain ⟨before, old, rfl⟩ := List.mem_map.mp listed
        rcases List.mem_append.mp waiting with already | new
        · exact List.mem_append_left _ (causal.waiting before old waits already)
        · exact List.mem_append_right _ new
      · intro entry live ref listed owned
        exact (causal.known entry live ref listed owned).imp fun old found =>
          ⟨List.mem_append_left _ found.1, found.2⟩
  | tick seq record => exact causal.tick allowed
  | prune chain keep =>
      have kept : ∀ entry ∈ (dag.toDag.prune chain keep).clocks, entry ∈ dag.clocks :=
        fun entry live => Dag.prune_sublist.subset live
      refine ⟨chained, ?_, ?_, fun entry live => causal.known entry (kept entry live), ?_, ?_⟩
      · intro event listed
        refine causal.published event ?_
        simp only [apply, Dag.prune] at listed
        split at listed <;> exact listed
      · intro tail listed event waiting
        simp only [apply, Dag.prune]
        split <;> exact causal.waiting tail listed event waiting
      · exact causal.unforeseen.prune
      · exact fun entry live ref listed mine other also =>
          causal.along entry (kept entry live) ref listed mine other (kept other also)
  | hydrate =>
      refine ⟨chained, causal.published, ?_, causal.known, causal.unforeseen, causal.along⟩
      intro tail listed event waiting
      obtain ⟨chain, -, rfl⟩ := List.mem_map.mp listed
      exact (List.rtakeWhile_suffix _ dag.events).subset waiting

end LocalDag

section Walks

variable {σ : Type} [Store σ] [DagStore σ] {id neighbor : NodeId} {store : σ} {chain : EventChain}
  {seq fuel : Nat} {current : LocalClockEvent}

def Readable (σ : Type) [Store σ] [DagStore σ] : Prop := ∀ hash, DagStore.Readable (σ := σ) hash

theorem ownClockEvent_reads (sound : DagStore.Sound store) (readable : Readable σ)
    (refs : List EventReference) : ∃ found, ownClockEvent id store refs = .ok found := by
  induction refs with
  | nil => exact ⟨none, rfl⟩
  | cons ref rest ih =>
      unfold ownClockEvent
      split
      · obtain ⟨found, looked, -⟩ := DagStore.clockEventByHash_eq sound (readable ref.hash)
        rw [looked]
        cases found with
        | none => exact ih
        | some ce => exact ⟨some ce, rfl⟩
      · exact ih

omit [DagStore σ] in
theorem successorOnChain_reads {onChain : UInt32} {seqs : List Nat}
    (live : ∀ seq ∈ seqs, ∃ ce, Store.clockEventBySeq store seq = .ok ce) :
    ∃ found, successorOnChain id store onChain seqs = .ok found := by
  induction seqs with
  | nil => exact ⟨none, rfl⟩
  | cons seq rest ih =>
      obtain ⟨ce, read⟩ := live seq List.mem_cons_self
      obtain ⟨found, later⟩ := ih fun other listed => live other (List.mem_cons_of_mem _ listed)
      rw [successorOnChain, read]
      by_cases here : ce.creator = id ∧ ce.chain = onChain
      · exact ⟨some ce, by simp [here, bind, Except.bind, pure, Except.pure]⟩
      · exact ⟨found, by simpa [here, bind, Except.bind, pure, Except.pure] using later⟩

/-- The store's clock events are the node's own, and no one mentions a later one. -/
structure OwnDag (id : NodeId) (store : σ) : Prop extends OwnClocks id store where
  unforeseen : Unforeseen (DagStore.dag store)

structure Walkable (id : NodeId) (store : σ) : Prop extends OwnLog id store, OwnDag id store where
  along : Along id (DagStore.dag store)

section Rounds

variable {entries : List (Nat × LocalClockEvent)}

def roundsDown (entries : List (Nat × LocalClockEvent)) (seq : Nat) : Nat :=
  entries.countP fun entry => entry.1 ≤ seq

def roundsUp (entries : List (Nat × LocalClockEvent)) (seq : Nat) : Nat :=
  entries.countP fun entry => seq ≤ entry.1

theorem roundsDown_lt {place : Nat} (here : (seq, current) ∈ entries) (below : place < seq) :
    roundsDown entries place < roundsDown entries seq := by
  refine RingLog.countP_lt_of_mem (fun entry _ low => ?_) here (by simp) (by simpa using below)
  exact decide_eq_true (Nat.le_trans (of_decide_eq_true low) (Nat.le_of_lt below))

theorem roundsUp_lt {place : Nat} (here : (seq, current) ∈ entries) (above : seq < place) :
    roundsUp entries place < roundsUp entries seq := by
  refine RingLog.countP_lt_of_mem (fun entry _ high => ?_) here (by simp) (by simpa using above)
  exact decide_eq_true (Nat.le_trans (Nat.le_of_lt above) (of_decide_eq_true high))

omit [DagStore σ] in
theorem extendLowerFrom_stops (down : ∀ seq current prev, (seq, current) ∈ entries →
      ownClockEvent id store current.referencedEvents = .ok (some prev) → ∃ place < seq,
      (place, prev) ∈ entries)
    (here : (seq, current) ∈ entries) (enough : roundsDown entries seq ≤ fuel) :
    (∃ out, extendLowerFrom id neighbor store fuel current chain = .ok out) ∨
      ∃ entry ∈ entries, ∃ what, ownClockEvent id store entry.2.referencedEvents = .error what ∧
        extendLowerFrom id neighbor store fuel current chain = .error (.exception what) := by
  induction fuel generalizing seq current chain with
  | zero =>
      have some : 0 < roundsDown entries seq := List.countP_pos_iff.mpr
        ⟨(seq, current), here, by simp⟩
      omega
  | succ fuel ih =>
      unfold extendLowerFrom
      split
      · exact Or.inl ⟨_, rfl⟩
      cases read : ownClockEvent id store current.referencedEvents with
      | error what => exact Or.inr ⟨(seq, current), here, what, read, rfl⟩
      | ok found =>
          cases found with
          | none => exact Or.inl ⟨none, rfl⟩
          | some prev =>
              obtain ⟨place, below, listed⟩ := down seq current prev here read
              have fewer := roundsDown_lt here below
              exact ih listed (by omega)

omit [DagStore σ] in
theorem extendUpperFrom_stops (up : ∀ seq current next seqs, (seq, current) ∈ entries →
      Store.clockEventsReferencing store current.hash = .ok seqs →
      successorOnChain id store current.chain seqs = .ok (some next) → ∃ place > seq,
      (place, next) ∈ entries)
    (here : (seq, current) ∈ entries) (enough : roundsUp entries seq ≤ fuel) :
    (∃ out, extendUpperFrom id neighbor store fuel current chain = .ok out) ∨
      ∃ entry ∈ entries, ∃ what, (Store.clockEventsReferencing store entry.2.hash >>=
          successorOnChain id store entry.2.chain) = .error what ∧
        extendUpperFrom id neighbor store fuel current chain = .error (.exception what) := by
  induction fuel generalizing seq current chain with
  | zero =>
      have some : 0 < roundsUp entries seq := List.countP_pos_iff.mpr
        ⟨(seq, current), here, by simp⟩
      omega
  | succ fuel ih =>
      unfold extendUpperFrom
      split
      · exact Or.inl ⟨_, rfl⟩
      cases read : Store.clockEventsReferencing store current.hash >>= successorOnChain id store
        current.chain with
      | error what => exact Or.inr ⟨(seq, current), here, what, read, rfl⟩
      | ok found =>
          cases found with
          | none => exact Or.inl ⟨none, rfl⟩
          | some next =>
              obtain ⟨seqs, listed, succeeds⟩ := except_bind_ok_iff.mp read
              obtain ⟨place, above, member⟩ := up seq current next seqs here listed succeeds
              have fewer := roundsUp_lt here above
              exact ih member (by omega)

end Rounds

theorem OwnClocks.stored (log : OwnClocks id store)
    (live : (seq, current) ∈ (DagStore.dag store).clocks) :
    Store.clockEventByHash store current.hash = .ok (some current) := by
  obtain ⟨found, looked, exactly⟩ := DagStore.clockEventByHash_eq log.sound
    (DagStore.readable_clockEvent log.sound live)
  rw [looked, (exactly current).mpr ⟨rfl, seq, live⟩]

theorem OwnClocks.referencing {entry : Nat × LocalClockEvent} (log : OwnClocks id store)
    (live : entry ∈ (DagStore.dag store).clocks) :
    ∃ found, (Store.clockEventsReferencing store entry.2.hash >>=
      successorOnChain id store entry.2.chain) = .ok found := by
  obtain ⟨seqs, read, -, mentions⟩ := DagStore.clockEventsReferencing_eq log.sound
    (DagStore.readable_clockEvent log.sound live)
  obtain ⟨found, succeeds⟩ : ∃ found, successorOnChain id store entry.2.chain seqs = .ok found := by
    refine successorOnChain_reads fun other listed => ?_
    obtain ⟨record, stored, -⟩ := (mentions other).mp listed
    exact ⟨record, DagStore.clockEventBySeq_eq log.sound stored⟩
  exact ⟨found, except_bind_ok_iff.mpr ⟨seqs, read, succeeds⟩⟩

theorem Walkable.extendLowerFrom_stops (walkable : Walkable id store) (readable : Readable σ)
    (live : (seq, current) ∈ (DagStore.dag store).clocks)
    (enough : roundsDown ((DagStore.dag store).onChain current.chain) seq ≤ fuel) :
    ∃ out, extendLowerFrom id neighbor store fuel current chain = .ok out := by
  refine (Loti.extendLowerFrom_stops (fun place earlier prev here read => ?_)
    (Dag.mem_onChain_iff.mpr ⟨live, rfl⟩) enough).resolve_right ?_
  · obtain ⟨member, lane⟩ := Dag.mem_onChain_iff.mp here
    obtain ⟨⟨before, prevLive⟩, referenced⟩ := walkable.toOwnClocks.found read
    have placed := walkable.along (place, earlier) member prev.reference referenced
      (walkable.mine _ prevLive) (before, prev) prevLive rfl
    refine ⟨before, ?_, Dag.mem_onChain_iff.mpr ⟨prevLive, placed.trans lane⟩⟩
    exact walkable.unforeseen (place, earlier) member (before, prev) prevLive
      (List.mem_map_of_mem referenced)
  · rintro ⟨entry, -, what, refused, -⟩
    obtain ⟨found, read⟩ : ∃ found, ownClockEvent id store entry.2.referencedEvents = .ok found :=
      ownClockEvent_reads walkable.sound readable _
    cases refused.symm.trans read

theorem Walkable.extendUpperFrom_stops (walkable : Walkable id store)
    (live : (seq, current) ∈ (DagStore.dag store).clocks)
    (enough : roundsUp ((DagStore.dag store).onChain current.chain) seq ≤ fuel) :
    ∃ out, extendUpperFrom id neighbor store fuel current chain = .ok out := by
  refine (Loti.extendUpperFrom_stops (fun place earlier next seqs here read succeeds => ?_)
    (Dag.mem_onChain_iff.mpr ⟨live, rfl⟩) enough).resolve_right ?_
  · obtain ⟨member, lane⟩ := Dag.mem_onChain_iff.mp here
    obtain ⟨later, oldest⟩ := successorOnChain_oldest walkable.sound read succeeds
    have pair := walkable.toOwnLog.successor walkable.unforeseen member oldest
    obtain ⟨-, placed⟩ := Dag.mem_onChain_iff.mp
      (pair.subset (List.mem_cons_of_mem _ List.mem_cons_self))
    refine ⟨later, ?_, Dag.mem_onChain_iff.mpr ⟨oldest.1, placed.trans lane⟩⟩
    have sorted := ((DagStore.sorted walkable.sound).sublist
      (List.filter_sublist (p := fun entry => entry.2.chain = earlier.chain))).sublist pair.sublist
    exact (List.pairwise_cons.mp sorted).1 _ (List.mem_singleton_self _)
  · rintro ⟨entry, here, what, refused, -⟩
    obtain ⟨found, read⟩ := walkable.toOwnClocks.referencing (Dag.mem_onChain_iff.mp here).1
    cases refused.symm.trans read

theorem addLocalLowerBound_reads (sound : DagStore.Sound store) (readable : Readable σ)
    (chain : EventChain) : ∃ found, addLocalLowerBound id store chain = .ok found := by
  obtain ⟨found, read⟩ : ∃ found, ownClockEvent id store chain.frontReferences = .ok found :=
    ownClockEvent_reads sound readable _
  change ∃ found, (ownClockEvent id store chain.frontReferences >>= _) = .ok found
  rw [read]
  cases found with
  | none => exact ⟨none, rfl⟩
  | some ce => exact ⟨some _, rfl⟩

theorem addLocalUpperBound_reads (sound : DagStore.Sound store) (readable : Readable σ)
    (chain : EventChain) : ∃ found, addLocalUpperBound store chain = .ok found := by
  obtain ⟨seqs, read, -, mentions⟩ := DagStore.clockEventsReferencing_eq sound
    (readable chain.backReference.hash)
  simp only [addLocalUpperBound, ← backReference_hash, read]
  cases seqs with
  | nil => exact ⟨none, rfl⟩
  | cons seq rest =>
      obtain ⟨record, live, -⟩ := (mentions seq).mp List.mem_cons_self
      have stored := DagStore.clockEventBySeq_eq sound live
      simp only [stored, bind, Except.bind]
      exact ⟨some _, rfl⟩

theorem OwnDag.rounds (own : OwnDag id store) {count : Nat}
    (bound : count ≤ (DagStore.dag store).clocks.length) :
    count ≤ Store.clockEventCount store + 1 := by
  rw [DagStore.clockEventCount_eq own.sound]
  omega

theorem OwnDag.extendLowerBound_fault (own : OwnDag id store) {rest : List ClockEvent}
    {fault : Fault} (live : (seq, current) ∈ (DagStore.dag store).clocks)
    (bound : chain.lowerBound = current.toClockEvent :: rest)
    (failed : extendLowerBoundForNeighbor id neighbor store chain = .error fault) :
    fault.Contained ∧ ¬Readable σ := by
  have mine : current.toClockEvent.creator = id := own.mine _ live
  have stored : Store.clockEventByHash store current.toClockEvent.hash = .ok (some current) :=
    own.toOwnClocks.stored live
  rw [extendLowerBoundForNeighbor, bound] at failed
  simp only [mine, stored, ne_eq, not_true_eq_false, if_false] at failed
  have down : ∀ place earlier prev, (place, earlier) ∈ (DagStore.dag store).clocks →
      ownClockEvent id store earlier.referencedEvents = .ok (some prev) →
      ∃ before < place, (before, prev) ∈ (DagStore.dag store).clocks := by
    intro place earlier prev here read
    obtain ⟨⟨before, prevLive⟩, referenced⟩ := own.toOwnClocks.found read
    exact ⟨before, own.unforeseen (place, earlier) here (before, prev) prevLive
      (List.mem_map_of_mem referenced), prevLive⟩
  rcases extendLowerFrom_stops down live (own.rounds List.countP_le_length) with
    ⟨out, stopped⟩ | ⟨entry, -, what, refused, stopped⟩
  · cases stopped.symm.trans failed
  · refine ⟨⟨what, Except.error.inj (failed.symm.trans stopped)⟩, fun readable => ?_⟩
    obtain ⟨found, read⟩ : ∃ found, ownClockEvent id store entry.2.referencedEvents = .ok found :=
      ownClockEvent_reads own.sound readable _
    cases refused.symm.trans read

theorem OwnDag.extendUpperBound_reads (own : OwnDag id store)
    (live : (seq, current) ∈ (DagStore.dag store).clocks)
    (bound : chain.upperBound.getLast? = some current.toClockEvent) :
    ∃ out, extendUpperBoundForNeighbor id neighbor store chain = .ok out := by
  have mine : current.toClockEvent.creator = id := own.mine _ live
  have stored : Store.clockEventByHash store current.toClockEvent.hash = .ok (some current) :=
    own.toOwnClocks.stored live
  rw [extendUpperBoundForNeighbor, bound]
  simp only [mine, stored, ne_eq, not_true_eq_false, if_false]
  refine (extendUpperFrom_stops (fun place earlier next seqs here read succeeds => ?_) live
    (own.rounds List.countP_le_length)).resolve_right ?_
  · obtain ⟨later, listed, found⟩ := successorOnChain_mem succeeds
    obtain ⟨record, nextLive, mentioned⟩ :=
      DagStore.clockEventsReferencing_mem own.sound read listed
    obtain rfl := ok_unique (DagStore.clockEventBySeq_eq own.sound nextLive) found
    exact ⟨later, own.unforeseen (later, record) nextLive (place, earlier) here mentioned, nextLive⟩
  · rintro ⟨entry, here, what, refused, -⟩
    obtain ⟨found, read⟩ := own.toOwnClocks.referencing here
    cases refused.symm.trans read

omit [DagStore σ] in
theorem extendLowerBoundForNeighbor_upperBound {out : EventChain}
    (extended : extendLowerBoundForNeighbor id neighbor store chain = .ok (some out)) :
    out.upperBound = chain.upperBound := by
  have walk := extendLowerBoundForNeighbor_ok (fun _ walked => walked.upperBound = chain.upperBound)
    (fun _ _ _ same _ => same) (fun _ _ _ _ _ _ => rfl) extended
  obtain ⟨-, same, -⟩ := walk
  exact same

theorem OwnClocks.splices (own : OwnClocks id store) {base upper : EventChain}
    (spliced : Splices id store base upper) :
      ∃ lo up rest, (∃ seq, (seq, lo) ∈ (DagStore.dag store).clocks) ∧
      (∃ seq, (seq, up) ∈ (DagStore.dag store).clocks) ∧
      upper.lowerBound = lo.toClockEvent :: rest ∧
      upper.upperBound.getLast? = some up.toClockEvent := by
  obtain ⟨lower, lowered, raised⟩ := spliced
  obtain ⟨lo, below, rfl⟩ := addLocalLowerBound_ok lowered
  obtain ⟨seqs, read, seq, listed, up, stored, rfl⟩ := addLocalUpperBound_ok raised
  obtain ⟨record, live, -⟩ := DagStore.clockEventsReferencing_mem own.sound read listed
  obtain rfl := ok_unique (DagStore.clockEventBySeq_eq own.sound live) stored
  exact ⟨lo, record, base.lowerBound, (own.found below).1, ⟨seq, live⟩, rfl, by simp⟩

theorem OwnDag.extendAndRetrace_ends {env : NodeEnv} {s : NodeState σ} (own : OwnDag env.id s.store)
    (neighbor : Neighbor) (originator : NodeId) (base : EventChain) (path : List NodeId) :
    Ends (extendAndRetrace env neighbor originator base path) s (fun _ _ => True)
      (fun fault _ => fault.Contained ∧ ¬Readable σ) := by
  refine extendAndRetrace_raises (fun what refused => ⟨⟨what, rfl⟩, fun readable => ?_⟩)
    (fun lower what refused => ⟨⟨what, rfl⟩, fun readable => ?_⟩)
    (fun upper fault spliced failed => ?_)
    fun upper out fault spliced fronted failed => ?_
  · obtain ⟨found, read⟩ : ∃ found, addLocalLowerBound env.id s.store base = .ok found :=
      addLocalLowerBound_reads own.sound readable base
    cases refused.symm.trans read
  · obtain ⟨found, read⟩ := addLocalUpperBound_reads own.sound readable lower
    cases refused.symm.trans read
  · obtain ⟨lo, -, rest, ⟨low, live⟩, -, begins, -⟩ := own.toOwnClocks.splices spliced
    exact own.extendLowerBound_fault live begins failed
  · obtain ⟨-, up, -, -, ⟨high, live⟩, -, finishes⟩ := own.toOwnClocks.splices spliced
    have same := extendLowerBoundForNeighbor_upperBound fronted
    obtain ⟨whole, extended⟩ :
      ∃ whole, extendUpperBoundForNeighbor env.id neighbor.nodeId s.store out = .ok whole :=
      own.extendUpperBound_reads live (same ▸ finishes)
    cases failed.symm.trans extended

end Walks

section Handlers

variable {env : NodeEnv} {s : NodeState InMemoryStore}

theorem InMemoryStore.readable : Readable InMemoryStore := fun _ => trivial

theorem Walkable.extendAndRetrace_returns (walkable : Walkable env.id s.store) (neighbor : Neighbor)
    (originator : NodeId) (base : EventChain) (path : List NodeId) :
    Returns (extendAndRetrace env neighbor originator base path) s fun _ _ => True :=
  (walkable.toOwnDag.extendAndRetrace_ends neighbor originator base path).mono
    (fun _ _ _ => trivial) fun _ _ refused => refused.2 InMemoryStore.readable

theorem Walkable.processChainRequest_ends (walkable : Walkable env.id s.store) (sender : Neighbor)
    (m : ChainRequest) : Returns (processChainRequest env sender m) s fun _ _ => True :=
  processChainRequest_raises (fun _ failed => by cases failed)
    fun _ => walkable.extendAndRetrace_returns _ _ _ _

theorem Walkable.processChainResponse_ends (walkable : Walkable env.id s.store) (sender : Neighbor)
    (m : ChainResponse) : Ends (processChainResponse env sender m) s (fun _ _ => True)
    (fun _ _ => m.originator = env.id) := by
  unfold processChainResponse
  split
  · rename_i home
    exact ends_thrown_iff.mpr fun _ _ _ => home
  · split
    · trivial
    · exact (walkable.extendAndRetrace_returns sender m.originator m.chain m.path).always
        fun _ _ _ => trivial

end Handlers

section Runs

variable {env : NodeEnv} {now : Timestamp} {total made : List Signed} {s : NodeState InMemoryStore}

/-- No snapshot is restored, the node is not its own neighbor, and no notification advertises the
hash of one of these objects before the node has made it. -/
structure Unforetold (env : NodeEnv) (total : List Signed) (s : NodeState InMemoryStore)
    (action : NodeAction) : Prop where
  kind : ∀ blob, action ≠ .restore blob
  foreign : action ≠ .addNeighbor env.id
  heard : ∀ datagram sender m, action = .onPacketReceived datagram →
    decode ⟨datagram, env.wordBits⟩ = .ok ⟨sender, .clockNotification m⟩ →
      ∀ object ∈ total, object.hash = m.lastClockEventHash → object ∈ s.signed

def foreignTips (env : NodeEnv) (total made : List Signed) : Contents where
  event e := e.creator = env.id
  clockEvent c := c.creator = env.id
  neighbor n := n.nodeId ≠ env.id ∧ ∀ hash ∈ n.lastClockEventHashes, hash ≠ [] → ∀ object ∈ total,
    object.hash = hash → object ∈ made

theorem foreignTips_mono {more : List Signed} (grows : made ⊆ more) :
    (foreignTips env total made).Implies (foreignTips env total more) where
  event _ own := own
  clockEvent _ own := own
  neighbor _ known :=
    ⟨known.1, fun hash listed nonempty object member same =>
      grows (known.2 hash listed nonempty object member same)⟩

theorem Unforetold.takes {action : NodeAction} (unforetold : Unforetold env total s action) :
    Takes (foreignTips env total s.signed) env s action := by
  cases action with
  | addNeighbor neighbor =>
      exact ⟨fun (same : neighbor = env.id) => unforetold.foreign (congrArg _ same),
        fun hash listed => nomatch listed⟩
  | onPacketReceived datagram =>
      intro sender m read _
      refine ⟨fun tips known => ⟨known.1, fun hash member nonempty object listed same => ?_⟩,
        fun _ own _ _ => own⟩
      rcases mem_coveringTips_set member with old | rfl | rfl
      · exact known.2 hash old nonempty object listed same
      · exact absurd rfl nonempty
      · exact unforetold.heard datagram sender m rfl read object listed same
  | restore blob => exact absurd rfl (unforetold.kind blob)
  | _ => trivial

theorem Makes.own {action : NodeAction} {object : Signed} (makes : Makes env s action object) :
    (foreignTips env total made).signed object := by
  rcases makes.cases with ⟨data, event, rfl, refs, -, rfl⟩ | ⟨chain, clockEvent, rfl, last,
    tail, -, -, rfl⟩
  · rfl
  · rfl

theorem bootAt_signed (env : NodeEnv) (store : InMemoryStore) (sound : DagStore.Sound store)
    (now : Timestamp) : (NodeState.bootAt env store now).signed = [] := by
  have read := hydrateWorkingState_reads env (s := NodeState.fresh store) sound
  obtain ⟨-, -, signed, -⟩ := read.final_of_returns
  exact signed

theorem Reaches.signed {condition : NodeState InMemoryStore → NodeAction → Prop}
    {start : NodeState InMemoryStore} (run : Reaches env condition start made s) :
    s.signed = start.signed ++ made := by
  induction run with
  | start => simp
  | step action reached meets ran ih =>
      rename_i made s after
      obtain rfl := final_of_contain ran
      have follows : Follows env s action (final (perform env action) s) :=
        ends_final.mp (perform_follows action)
      obtain ⟨new, signed, -⟩ := follows.signed
      have all : new.filter (Signed.stored s.store) = new :=
        List.filter_eq_self.mpr fun object _ => by cases object <;> rfl
      rw [appendedBy, signed, List.drop_left, all, ih, List.append_assoc]

theorem Reaches.foreignTips (run : Reaches env (Unforetold env total) (.bootAt env {} now) made s) :
    NodeWithin (foreignTips env total s.signed) s := by
  induction run with
  | start => exact (boot_within (InMemoryStore.emptyStore.within _)).of_same rfl rfl rfl
  | step action reached unforetold ran ih =>
      rename_i made s after
      obtain rfl := final_of_contain ran
      have within :=
        ends_final.mp (perform_within action ih (fun object makes _ => makes.own) unforetold.takes)
      have follows : Follows env s action (final (perform env action) s) :=
        ends_final.mp (perform_follows action)
      obtain ⟨new, signed, -⟩ := follows.signed
      exact within.mono (foreignTips_mono (signed ▸ List.subset_append_left _ _))

theorem Reaches.walkable (run : Reaches env (Unforetold env made) (.bootAt env {} now) made s)
    (distinct : (made.map Signed.hash).Nodup) : Walkable env.id s.store := by
  have tracked : Tracked env (causalPolicy env (made.map Signed.hash)) .any now made s := by
    refine run.tracked InMemoryStore.emptyStore distinct
      (fun object member => List.mem_map_of_mem member) (fun object => by cases object <;> trivial)
      (fun _ _ _ => takes_any) fun done before action past _ _ unforetold fresh => ?_
    have within := past.foreignTips
    have whole : before.signed = done :=
      past.signed.trans (by rw [bootAt_signed env _ InMemoryStore.emptyStore.sound]; rfl)
    refine ⟨unforetold.kind, fun _ _ => trivial, fun _ => trivial, fun record makes _ => ?_, fresh,
      fun chain => ?_⟩
    · intro ref listed foreign owned
      obtain ⟨-, last, tail, latest, waits, built⟩ := makes_ticks makes
      rw [built] at listed
      change ref ∈ _ ++ _ ++ _ at listed
      simp only [List.mem_append, Option.mem_toList, Option.map_eq_some_iff, List.mem_map] at listed
      rcases listed with (⟨tip, found, rfl⟩ | told) | ⟨event, waiting, rfl⟩
      · exact absurd (LawfulStore.latestClockEventOn_within within.store (found ▸ latest)) foreign
      · obtain ⟨object, member, same⟩ := List.mem_map.mp owned
        have known : ∀ ref ∈ (valuesOf before.neighbors).filterMap (tipReference record.chain),
            ∀ object ∈ made, object.hash = ref.hash → object ∈ before.signed :=
          within.told (fun neighbor known hash listed nonempty =>
            known.2 hash listed nonempty) record.chain
        exact ⟨object, whole ▸ known ref told object member same, same⟩
      · exact absurd (within.unreferenced tail (List.mem_of_getElem? waits) event waiting) foreign
    · exact within.told (fun neighbor known hash listed nonempty => known.1) chain
  have causal : Causal env (made.map Signed.hash) (s.localDag made) :=
    tracked.steps.keeps _ (fun _ _ causal allowed => causal.apply allowed) (causal_initial now)
  exact ⟨tracked.ownLog, unforeseen_bare_iff.mp causal.unforeseen, along_of_bare causal.along⟩

/-- However a run brought the node here, its walks stop within as many rounds as their chain has
live clock events, and the handlers that walk fail no assertion and find every record they look
up. -/
theorem chainBuilding_terminates
    (run : Reaches env (Unforetold env made) (.bootAt env {} now) made s)
    (distinct : (made.map Signed.hash).Nodup) :
    (∀ neighbor chain, ∀ entry ∈ (DagStore.dag s.store).clocks,
      let rounds := ((DagStore.dag s.store).onChain entry.2.chain).length
      (∃ out, extendLowerFrom env.id neighbor s.store rounds entry.2 chain = .ok out) ∧
        ∃ out, extendUpperFrom env.id neighbor s.store rounds entry.2 chain = .ok out) ∧
      (∀ chain, (∃ out, addLocalLowerBound env.id s.store chain = .ok out) ∧
        ∃ out, addLocalUpperBound s.store chain = .ok out) ∧
      (∀ sender m, Ends (processChainRequest env sender m) s (fun _ _ => True) (fun _ _ => False)) ∧
      ∀ sender m, Ends (processChainResponse env sender m) s (fun _ _ => True)
      (fun _ _ => m.originator = env.id) := by
  have walkable := run.walkable distinct
  refine ⟨fun neighbor chain entry live => ⟨?_, ?_⟩, fun chain => ?_, ?_, ?_⟩
  · exact walkable.extendLowerFrom_stops InMemoryStore.readable live List.countP_le_length
  · exact walkable.extendUpperFrom_stops live List.countP_le_length
  · exact ⟨addLocalLowerBound_reads walkable.sound InMemoryStore.readable chain,
      addLocalUpperBound_reads walkable.sound InMemoryStore.readable chain⟩
  · exact walkable.processChainRequest_ends
  · exact walkable.processChainResponse_ends

end Runs

/-! Node 2 has advertised a clock event of its own; the node ticks twice and publishes between the
ticks. -/

def climbRun : List NodeAction := rumorRun ++ [.publishEvent [7], .createClockEvent 0]

def climbState : NodeState InMemoryStore := final (runActions rumorEnv climbRun) rumorStart

theorem climbRun_unforetold :
    Reaches rumorEnv (Unforetold rumorEnv (ledger rumorEnv rumorStart climbRun)) rumorStart
    (ledger rumorEnv rumorStart climbRun) climbState := by
  have ran : runActions rumorEnv climbRun rumorStart = .ok () climbState :=
    ok_of_not_raised (by decide +kernel)
  refine Reaches.start.run (eachStep_of_forall (fun s action member => ?_) _) ran
  have quiet : ∀ action ∈ climbRun, (∀ blob, action ≠ .restore blob) ∧
    action ≠ .addNeighbor rumorEnv.id := by
    simp only [climbRun, rumorRun, List.cons_append, List.nil_append, List.forall_mem_cons]
    simp
    decide
  obtain ⟨kind, foreign⟩ := quiet action member
  refine ⟨kind, foreign, ?_⟩
  rintro datagram sender m rfl read object listed same
  -- the only hash advertised is no object's of this node
  have advertised : ∀ action ∈ climbRun, ∀ bytes, action = .onPacketReceived bytes →
      bytes = encode ⟨.ofUInt64 2, .clockNotification ⟨0, [9], []⟩⟩ := by
    simp [climbRun, rumorRun]
  obtain rfl := advertised _ member datagram rfl
  have decoded : decode ⟨encode ⟨.ofUInt64 2, .clockNotification ⟨0, [9], []⟩⟩, rumorEnv.wordBits⟩ =
      .ok ⟨.ofUInt64 2, .clockNotification ⟨0, [9], []⟩⟩ := by decide +kernel
  have others : ∀ object ∈ ledger rumorEnv rumorStart climbRun, object.hash ≠ [9] := by
    decide +kernel
  cases decoded.symm.trans read
  exact absurd same (others object listed)

theorem chainBuilding_sample : ((DagStore.dag climbState.store).onChain 0).length = 2 ∧
    ∀ entry ∈ (DagStore.dag climbState.store).clocks, ∃ out, extendLowerFrom rumorEnv.id
      (.ofUInt64 3) climbState.store ((DagStore.dag climbState.store).onChain entry.2.chain).length
      entry.2 (rumorChain (.ofUInt64 3)) = .ok out := by
  have distinct : ((ledger rumorEnv rumorStart climbRun).map Signed.hash).Nodup := by decide +kernel
  obtain ⟨walks, -⟩ := chainBuilding_terminates climbRun_unforetold distinct
  exact ⟨by decide +kernel, fun entry live =>
    (walks (.ofUInt64 3) (rumorChain (.ofUInt64 3)) entry live).1⟩

end Loti
