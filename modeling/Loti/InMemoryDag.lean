import Loti.DagStore
import Loti.InMemoryStore

/-!
`InMemoryStore` keeps the abstract DAG: its tables agree with one another, and every
operation changes them together.
-/

namespace Loti.InMemoryStore

open Std RingLog StateExcept

section References

variable {seq : Nat} {refs : List EventReference} {hash : EventHash}

theorem emplaceReferencing_getD (referencing : ReverseIndex) :
    (refs.foldl (emplaceReferencing seq) referencing).getD hash [] =
      referencing.getD hash [] ++ refs.filterMap fun ref =>
      if ref.hash = hash then some seq else none := by
  induction refs generalizing referencing with
  | nil => simp
  | cons ref rest ih =>
      rw [List.foldl_cons, ih, emplaceReferencing, ExtTreeMap.getD_insert]
      by_cases here : ref.hash = hash
      · subst here
        simp
      · simp [here]

theorem eraseReferencing_getD (referencing : ReverseIndex) :
    (refs.foldl (eraseReferencing seq) referencing).getD hash [] =
      if hash ∈ refs.map EventReference.hash then (referencing.getD hash []).filter (· ≠ seq)
      else referencing.getD hash [] := by
  induction refs generalizing referencing with
  | nil => simp
  | cons ref rest ih =>
      rw [List.foldl_cons, ih, eraseReferencing, ExtTreeMap.getD_insert]
      by_cases here : ref.hash = hash
      · subst here
        simp
      · have apart : ¬hash = ref.hash := fun equal => here equal.symm
        simp [here, apart]

end References

theorem mem_emplaceReferencing_iff (seq other : Nat) (refs : List EventReference)
    (referencing : ReverseIndex) (hash : EventHash) :
    other ∈ (refs.foldl (emplaceReferencing seq) referencing).getD hash [] ↔
      other ∈ referencing.getD hash [] ∨ other = seq ∧ hash ∈ refs.map fun ref => ref.hash := by
  simp only [emplaceReferencing_getD, List.mem_append, List.mem_filterMap,
    Option.ite_none_right_eq_some, Option.some.injEq, List.mem_map]
  exact or_congr_right ⟨fun ⟨ref, listed, here, same⟩ => ⟨same.symm, ref, listed, here⟩,
    fun ⟨same, ref, listed, here⟩ => ⟨ref, listed, here, same.symm⟩⟩

theorem mem_eraseReferencing_iff (seq other : Nat) (refs : List EventReference)
    (referencing : ReverseIndex) (hash : EventHash) :
    other ∈ (refs.foldl (eraseReferencing seq) referencing).getD hash [] ↔
      other ∈ referencing.getD hash [] ∧ ¬(other = seq ∧ hash ∈ refs.map fun ref => ref.hash) := by
  rw [eraseReferencing_getD]
  split_ifs with listed
  · simp [listed]
  · exact (and_iff_left fun both => listed both.2).symm

structure Sound (s : InMemoryStore) : Prop where
  logs : Logs (fun c : LocalClockEvent => c.hash) Dag.mentions s.clockEvents s.clockSeq
    s.referencing s.nextClockSeq
  laned : Laned (fun c : LocalClockEvent => c.chain) s.clockEvents s.chainTipSeq s.chainSeqs

def dag (s : InMemoryStore) : Dag := ⟨s.events, s.clockEvents.toList⟩

theorem sound_empty : Sound {} := ⟨logs_empty, laned_empty⟩

variable {s : InMemoryStore}

theorem mem_clocks_iff {seq : Nat} {c : LocalClockEvent} : (seq, c) ∈ s.dag.clocks ↔
    s.clockEvents[seq]? = some c :=
  ExtTreeMap.mem_toList_iff_getElem?_eq_some

theorem Sound.appendClockEvent {c : LocalClockEvent} (sound : s.Sound)
    (fresh : ∀ entry ∈ s.dag.clocks, entry.2.hash ≠ c.hash) :
    (s.appendClockEvent c).2.Sound ∧
    (s.appendClockEvent c).2.dag = s.dag.addClockEvent s.nextClockSeq c := by
  have unused : s.nextClockSeq ∉ s.clockEvents := by
    intro member
    obtain ⟨old, found⟩ := Option.isSome_iff_exists.mp
      (ExtTreeMap.isSome_getElem?_iff_mem.mpr member)
    exact Nat.lt_irrefl _ (sound.logs.below _ _ found)
  have placed :
    s.clockEvents.insertIfNew s.nextClockSeq c = s.clockEvents.insert s.nextClockSeq c := by
    apply ExtTreeMap.ext_getElem?
    intro seq
    simp [ExtTreeMap.getElem?_insertIfNew, ExtTreeMap.getElem?_insert, unused]
  have unindexed : c.hash ∉ s.clockSeq := by
    intro member
    obtain ⟨seq, entry⟩ := Option.isSome_iff_exists.mp
      (ExtTreeMap.isSome_getElem?_iff_mem.mpr member)
    obtain ⟨old, found, same⟩ := (sound.logs.indexed _ _).mp entry
    exact fresh (seq, old) (mem_clocks_iff.mpr found) same
  refine ⟨⟨?_, ?_⟩, ?_⟩
  · simp only [InMemoryStore.appendClockEvent, placed]
    refine sound.logs.append
      (fun seq old found => fresh (seq, old) (mem_clocks_iff.mpr found)) ?_ ?_
    · intro hash seq
      rw [ExtTreeMap.getElem?_insertIfNew]
      by_cases here : c.hash = hash
      · subst here
        simp [unindexed, eq_comm]
      · have apart : ¬hash = c.hash := fun equal => here equal.symm
        simp [here, apart]
    · exact fun hash seq => mem_emplaceReferencing_iff _ _ _ _ _
  · simp only [InMemoryStore.appendClockEvent, placed]
    exact sound.laned.append sound.logs.below
  · simp only [InMemoryStore.appendClockEvent, placed, dag, Dag.addClockEvent,
      Dag.mk.injEq, true_and]
    exact toList_insert_last c sound.logs.below

theorem Sound.updateClockEvent {seq : Nat} {old c : LocalClockEvent} (sound : s.Sound)
    (found : (seq, old) ∈ s.dag.clocks) (sameHash : c.hash = old.hash)
    (sameChain : c.chain = old.chain) (sameRefs : c.referencedEvents = old.referencedEvents) :
    (s.updateClockEvent c).Sound ∧ (s.updateClockEvent c).dag = s.dag.update c := by
  rw [mem_clocks_iff] at found
  have entry : s.clockSeq[c.hash]? = some seq := (sound.logs.indexed _ _).mpr
    ⟨old, found, sameHash.symm⟩
  unfold InMemoryStore.updateClockEvent
  rw [entry]
  refine ⟨⟨?_, sound.laned.replace found sameChain⟩, ?_⟩
  · exact sound.logs.replace found sameHash (by simp only [Dag.mentions, sameRefs])
  · exact congrArg (Dag.mk s.events) (sound.logs.toList_replace found sameHash)

structure Drops (s : InMemoryStore) (seqs : List Nat) (after : InMemoryStore) : Prop where
  events : after.events = s.events
  chainTipSeq : after.chainTipSeq = s.chainTipSeq
  chainSeqs : after.chainSeqs = s.chainSeqs
  clockEvents : ∀ seq : Nat,
    after.clockEvents[seq]? = if seq ∈ seqs then none else s.clockEvents[seq]?
  logs : Logs (fun c : LocalClockEvent => c.hash) Dag.mentions after.clockEvents after.clockSeq
    after.referencing after.nextClockSeq

theorem dropClockEvent_drops (seq : Nat)
    (logs : Logs (fun c : LocalClockEvent => c.hash) Dag.mentions s.clockEvents s.clockSeq
      s.referencing s.nextClockSeq) : Drops s [seq] (s.dropClockEvent seq) := by
  unfold dropClockEvent
  cases found : s.clockEvents[seq]? with
  | some ce =>
      refine ⟨rfl, rfl, rfl, fun other => ?_, logs.drop found fun hash other =>
        mem_eraseReferencing_iff _ _ _ _ _⟩
      by_cases here : seq = other
      · simp [here]
      · have apart : ¬other = seq := fun equal => here equal.symm
        simp [ExtTreeMap.getElem?_erase, here, apart]
  | none =>
      refine ⟨rfl, rfl, rfl, fun other => ?_, logs⟩
      by_cases here : other = seq
      · subst here
        simp [found]
      · simp [here]

theorem pruneSeqs_drops (keep : Nat) (seqs : List Nat)
    (logs : Logs (fun c : LocalClockEvent => c.hash) Dag.mentions s.clockEvents s.clockSeq
      s.referencing s.nextClockSeq) :
    Drops s (seqs.take (seqs.length - keep)) (pruneSeqs keep s seqs).1 ∧
      (pruneSeqs keep s seqs).2 = seqs.drop (seqs.length - keep) := by
  induction seqs generalizing s with
  | nil => exact ⟨⟨rfl, rfl, rfl, by simp [pruneSeqs], logs⟩, by simp [pruneSeqs]⟩
  | cons seq rest ih =>
      rw [pruneSeqs]
      split
      · rename_i long
        have one := dropClockEvent_drops seq logs
        obtain ⟨more, left⟩ := ih one.logs
        have size : (seq :: rest).length - keep = (rest.length - keep) + 1 := by
          simp only [List.length_cons] at long ⊢
          omega
        rw [size, List.take_succ_cons, List.drop_succ_cons]
        refine ⟨⟨more.events.trans one.events, more.chainTipSeq.trans one.chainTipSeq,
          more.chainSeqs.trans one.chainSeqs, fun other => ?_, more.logs⟩, left⟩
        rw [more.clockEvents, one.clockEvents]
        by_cases later : other ∈ rest.take (rest.length - keep) <;> simp [later]
      · rename_i short
        rw [Nat.sub_eq_zero_of_le (by omega)]
        exact ⟨⟨rfl, rfl, rfl, by simp, logs⟩, rfl⟩

theorem Sound.pruneChain (sound : s.Sound) (chain : UInt32) (keep : Nat) :
    (s.pruneChain chain keep).Sound ∧ (s.pruneChain chain keep).dag = s.dag.prune chain keep := by
  have members := sound.laned.members chain
  rw [ExtTreeMap.getD_eq_getD_getElem?] at members
  unfold InMemoryStore.pruneChain Dag.prune
  cases place : s.chainSeqs[chain]? with
  | none =>
      rw [place, Option.getD_none] at members
      have empty : onLane (fun c : LocalClockEvent => c.chain) s.clockEvents.toList chain = [] :=
        List.map_eq_nil_iff.mp members.symm
      refine ⟨sound, ?_⟩
      simp only [dag, pruned, empty, List.take_nil, List.map_nil, List.not_mem_nil,
        not_false_eq_true, decide_true, List.filter_true, ite_self]
  | some seqs =>
      rw [place, Option.getD_some] at members
      by_cases zero : keep = 0
      · simp only [zero, if_true]
        exact ⟨sound, trivial⟩
      · simp only [zero, if_false]
        obtain ⟨drops, left⟩ := pruneSeqs_drops keep seqs sound.logs
        have kept : (pruneSeqs keep s seqs).1.clockEvents.toList =
            pruned (fun c : LocalClockEvent => c.chain) chain keep s.clockEvents.toList := by
          rw [toList_without drops.clockEvents, pruned, members]
          simp only [List.map_take, List.length_map]
        have listed : s.chainSeqs.getD chain [] = seqs := by
          rw [ExtTreeMap.getD_eq_getD_getElem?, place, Option.getD_some]
        have laned := sound.laned.prune chain (Nat.pos_of_ne_zero zero) kept
        rw [listed] at laned
        refine ⟨⟨drops.logs, ?_⟩, ?_⟩
        · simp only [drops.chainTipSeq, drops.chainSeqs, left]
          exact laned
        · simp only [dag, drops.events, kept]

instance : DagStore InMemoryStore where
  dag := dag
  Sound := Sound
  Readable _ := True
  sorted _ := toList_sorted _
  distinct := by
    intro s sound
    refine List.pairwise_map.mpr
      ((toList_sorted _).imp_of_mem fun {first second} one other below same => ?_)
    have := sound.logs.unique (mem_clocks_iff.mp one) (mem_clocks_iff.mp other) same
    omega
  readable_event _ _ := trivial
  readable_clockEvent _ _ := trivial
  eventCount_eq _ := rfl
  eventBySeq_eq := by
    intro s k event _ found
    simp only [Store.eventBySeq, eventBySeq]
    rw [show s.events[k]? = some event from found]
  clockEventByHash_eq := by
    intro s hash sound _
    simp only [Store.clockEventByHash, clockEventByHash]
    cases entry : s.clockSeq[hash]? with
    | none =>
        refine ⟨none, rfl, fun record => ⟨(nomatch ·), ?_⟩⟩
        rintro ⟨rfl, seq, member⟩
        have indexed := (sound.logs.indexed record.hash seq).mpr
          ⟨record, mem_clocks_iff.mp member, rfl⟩
        cases entry.symm.trans indexed
    | some seq =>
        obtain ⟨live, found, named⟩ := (sound.logs.indexed _ _).mp entry
        refine ⟨some live, by simp only [clockEventBySeq, found]; rfl, fun record =>
          ⟨fun same => ?_, ?_⟩⟩
        · cases same
          exact ⟨named, seq, mem_clocks_iff.mpr found⟩
        · rintro ⟨rfl, other, member⟩
          obtain rfl := sound.logs.unique found (mem_clocks_iff.mp member) named
          exact found.symm.trans (mem_clocks_iff.mp member)
  clockEventByHash_mem := by
    intro s hash record sound read
    simp only [Store.clockEventByHash, clockEventByHash] at read
    split at read
    · rename_i seq entry
      obtain ⟨live, found, named⟩ := (sound.logs.indexed _ _).mp entry
      simp only [clockEventBySeq, found] at read
      obtain rfl := Option.some.inj (Except.ok.inj read)
      exact ⟨named, seq, mem_clocks_iff.mpr found⟩
    · cases read
  clockEventBySeq_eq := by
    intro s seq record _ member
    simp only [Store.clockEventBySeq, clockEventBySeq, mem_clocks_iff.mp member]
  clockEventsReferencing_eq := by
    intro s hash sound _
    refine ⟨_, rfl, List.pairwise_insertionSort _ _, fun seq => ?_⟩
    rw [List.mem_insertionSort, sound.logs.listed]
    simp only [mem_clocks_iff]
  readable_referencing _ := trivial
  clockEventCount_eq _ := ExtTreeMap.length_toList.symm
  latestClockEventOn_eq := by
    intro s chain sound
    simp only [Store.latestClockEventOn, latestClockEventOn, sound.laned.tip, Dag.tip, Dag.onChain]
    cases last :
      (onLane (fun c : LocalClockEvent => c.chain) s.clockEvents.toList chain).getLast? with
    | none => simp [dag, last]
    | some entry =>
        have member := (mem_onLane_iff.mp (List.mem_of_getLast? last)).1
        simp only [Option.map_some, clockEventBySeq,
          ExtTreeMap.mem_toList_iff_getElem?_eq_some.mp member, dag, last]
        rfl
  loadClockEvents_eq _ := rfl
  appendEvent_dag := by
    intro s after event k sound written
    cases written
    exact ⟨⟨sound.logs, sound.laned⟩, rfl⟩
  appendClockEvent_dag := by
    intro s after record k sound fresh written
    cases written
    exact sound.appendClockEvent fresh
  updateClockEvent_dag := by
    intro s after old record seq sound found sameHash sameChain sameRefs written
    cases written
    exact sound.updateClockEvent found sameHash sameChain sameRefs
  pruneChain_dag := by
    intro s after chain keep sound written
    cases written
    exact sound.pruneChain chain keep
  putNeighbor_dag := by
    intro s after neighbor sound written
    cases written
    exact ⟨⟨sound.logs, sound.laned⟩, rfl⟩
  putRoute_dag := by
    intro s after destination nextHop sound written
    cases written
    exact ⟨⟨sound.logs, sound.laned⟩, rfl⟩
  putTimedRoutes_dag := by
    intro s after table sound written
    cases written
    exact ⟨⟨sound.logs, sound.laned⟩, rfl⟩
  clear_dag := by
    intro s after written
    cases written
    exact ⟨sound_empty, by simp [dag]⟩

theorem emptyStore : EmptyStore ({} : InMemoryStore) :=
  ⟨sound_empty, by simp [DagStore.dag, dag], within_fresh⟩

end Loti.InMemoryStore
