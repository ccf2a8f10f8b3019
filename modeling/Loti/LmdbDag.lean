import Loti.DagStore
import Loti.LmdbStore

/-!
`LmdbStore` keeps the abstract DAG. It refuses records with keys that LMDB does not take,
and looks up every hash but the empty one.
-/

namespace Loti.LmdbStore

open Std RingLog StateExcept IndexedLog

theorem mem_insertDup_iff (seq other : Nat) (dups : List Nat) :
    other ∈ insertDup seq dups ↔ other ∈ dups ∨ other = seq := by
  unfold insertDup
  split
  · rename_i present
    exact ⟨Or.inl, fun either => either.elim id fun same => same ▸ present⟩
  · rw [List.mem_orderedInsert, or_comm]

theorem insertDup_ordered (seq : Nat) {dups : List Nat} (ordered : dups.Pairwise (· ≤ ·)) :
    (insertDup seq dups).Pairwise (· ≤ ·) := by
  unfold insertDup
  split
  · exact ordered
  · exact List.Pairwise.orderedInsert seq dups ordered

theorem insertDup_nodup (seq : Nat) {dups : List Nat} (distinct : dups.Nodup) :
    (insertDup seq dups).Nodup := by
  unfold insertDup
  split
  · exact distinct
  · rename_i absent
    exact (List.perm_orderedInsert _ seq dups).nodup_iff.mpr
      (List.nodup_cons.mpr ⟨absent, distinct⟩)

theorem checkGet_ok_iff {what : String} {key : Bytes} : checkGet what key = .ok () ↔ key ≠ [] := by
  unfold checkGet
  cases key <;> simp

section Referencing

variable {seq : Nat} {refs : List EventReference} {referencing after : ReverseIndex}

theorem foldlM_getD {change : ReverseIndex → EventReference → Except String ReverseIndex}
    {next : List Nat → List Nat} (step : ∀ {before after : ReverseIndex} {ref : EventReference},
      change before ref = .ok after →
        after = before.insert ref.hash (next (before.getD ref.hash [])))
    (once : ∀ dups, next (next dups) = next dups)
      (written : refs.foldlM change referencing = Except.ok after) (hash : EventHash) :
    after.getD hash [] =
      if hash ∈ refs.map fun ref => ref.hash then next (referencing.getD hash [])
      else referencing.getD hash [] := by
  induction refs generalizing referencing with
  | nil =>
      cases written
      simp
  | cons ref rest ih =>
      rw [List.foldlM_cons] at written
      obtain ⟨middle, first, written⟩ := except_bind_ok_iff.mp written
      rw [ih written, step first, ExtTreeMap.getD_insert]
      by_cases here : ref.hash = hash
      · subst here
        simp [once]
      · have apart : ¬hash = ref.hash := fun equal => here equal.symm
        simp [here, apart]

theorem putReferencing_getD (written : refs.foldlM (putReferencing seq) referencing = .ok after)
    (hash : EventHash) : after.getD hash [] =
      if hash ∈ refs.map fun ref => ref.hash then insertDup seq (referencing.getD hash [])
      else referencing.getD hash [] := by
  refine foldlM_getD (fun changed => ?_) (fun dups => ?_) written hash
  · obtain ⟨_, -, same⟩ := except_bind_ok_iff.mp changed
    exact (Except.ok.inj same).symm
  · exact if_pos ((mem_insertDup_iff seq seq dups).mpr (Or.inr rfl))

theorem deleteReferencing_getD
    (written : refs.foldlM (deleteReferencing seq) referencing = .ok after) (hash : EventHash) :
    after.getD hash [] =
      if hash ∈ refs.map fun ref => ref.hash then (referencing.getD hash []).filter (· ≠ seq)
      else referencing.getD hash [] := by
  refine foldlM_getD (fun changed => ?_) (fun dups => ?_) written hash
  · obtain ⟨_, -, same⟩ := except_bind_ok_iff.mp changed
    exact (Except.ok.inj same).symm
  · simp

theorem putReferencing_mem (written : refs.foldlM (putReferencing seq) referencing = .ok after)
    (hash : EventHash) (other : Nat) : other ∈ after.getD hash [] ↔
      other ∈ referencing.getD hash [] ∨ other = seq ∧ hash ∈ refs.map fun ref => ref.hash := by
  rw [putReferencing_getD written]
  split_ifs with listed
  · rw [mem_insertDup_iff, and_iff_left listed]
  · exact (or_iff_left fun both => listed both.2).symm

theorem deleteReferencing_mem
    (written : refs.foldlM (deleteReferencing seq) referencing = .ok after)
    (hash : EventHash) (other : Nat) : other ∈ after.getD hash [] ↔
      other ∈ referencing.getD hash [] ∧ ¬(other = seq ∧ hash ∈ refs.map fun ref => ref.hash) := by
  rw [deleteReferencing_getD written]
  split_ifs with listed
  · simp [listed]
  · exact (and_iff_left fun both => listed both.2).symm

variable {good : List Nat → Prop}

theorem putReferencing_good (inserted : ∀ dups, good dups → good (insertDup seq dups))
    (written : refs.foldlM (putReferencing seq) referencing = .ok after)
    (start : ∀ hash : EventHash, good (referencing.getD hash [])) (hash : EventHash) :
    good (after.getD hash []) := by
  rw [putReferencing_getD written]
  split_ifs
  · exact inserted _ (start hash)
  · exact start hash

theorem deleteReferencing_good (part : ∀ dups, good dups → good (dups.filter (· ≠ seq)))
    (written : refs.foldlM (deleteReferencing seq) referencing = .ok after)
    (start : ∀ hash : EventHash, good (referencing.getD hash [])) (hash : EventHash) :
    good (after.getD hash []) := by
  rw [deleteReferencing_getD written]
  split_ifs
  · exact part _ (start hash)
  · exact start hash

end Referencing

structure LogSound (s : LmdbStore) : Prop where
  logs : Logs (fun c : LocalClockEvent => c.hash) Dag.mentions s.clockEvents s.clockIndex
    s.referencing s.nextClockSeq
  ordered : ∀ hash : EventHash, (s.referencing.getD hash []).Pairwise (· ≤ ·)
  keys : ∀ (seq : Nat) (c : LocalClockEvent), s.clockEvents[seq]? = some c → c.hash ≠ []

structure Sound (s : LmdbStore) : Prop extends LogSound s where
  laned : Laned (fun c : LocalClockEvent => c.chain) s.clockEvents s.chainTipSeq s.chainSeqs
  dense : ∀ seq : Nat, seq ∈ s.events ↔ seq < s.nextEventSeq
  eventKeys : ∀ (seq : Nat) (e : Event), s.events[seq]? = some e → e.hash ≠ []

def dag (s : LmdbStore) : Dag := ⟨s.events.toList.map Prod.snd, s.clockEvents.toList⟩

theorem sound_empty : Sound {} where
  logs := logs_empty
  ordered := by simp
  keys := by simp
  laned := laned_empty
  dense := by simp
  eventKeys := by simp

variable {s after : LmdbStore}

theorem mem_clocks_iff {seq : Nat} {c : LocalClockEvent} : (seq, c) ∈ s.dag.clocks ↔
    s.clockEvents[seq]? = some c :=
  ExtTreeMap.mem_toList_iff_getElem?_eq_some

theorem Sound.appendEvent {e : Event} {k : Nat} (sound : s.Sound)
    (written : s.appendEvent e = .ok (k, after)) : after.Sound ∧ after.dag = s.dag.addEvent e := by
  obtain ⟨_, checked, same⟩ := except_bind_ok_iff.mp written
  cases same
  have below : ∀ seq old, s.events[seq]? = some old → seq < s.nextEventSeq := fun seq old found =>
    (sound.dense seq).mp (ExtTreeMap.isSome_getElem?_iff_mem.mp (by simp [found]))
  refine ⟨⟨⟨sound.logs, sound.ordered, sound.keys⟩, sound.laned, fun seq => ?_,
    fun seq old found => ?_⟩, ?_⟩
  · rw [ExtTreeMap.mem_insert, sound.dense, LawfulEqCmp.compare_eq_iff_eq]
    dsimp only
    omega
  · rcases getElem?_insert_cases found with ⟨-, rfl⟩ | ⟨-, before⟩
    · exact (checkPut_ok_iff.mp checked).ne_nil
    · exact sound.eventKeys seq old before
  · simp only [dag, Dag.addEvent, toList_insert_last e below, List.map_append,
      List.map_cons, List.map_nil]

theorem Sound.appendClockEvent {c : LocalClockEvent} {k : Nat} (sound : s.Sound)
    (fresh : ∀ entry ∈ s.dag.clocks, entry.2.hash ≠ c.hash)
    (written : s.appendClockEvent c = .ok (k, after)) :
    after.Sound ∧ after.dag = s.dag.addClockEvent k c := by
  obtain ⟨_, checked, rest⟩ := except_bind_ok_iff.mp written
  obtain ⟨referencing, put, same⟩ := except_bind_ok_iff.mp rest
  cases same
  refine ⟨⟨⟨?_, putReferencing_good (fun _ => insertDup_ordered _) put sound.ordered,
    fun seq old found => ?_⟩, sound.laned.append sound.logs.below,
    sound.dense, sound.eventKeys⟩, ?_⟩
  · refine sound.logs.append (fun seq old found => fresh (seq, old) (mem_clocks_iff.mpr found)) ?_
      (putReferencing_mem put)
    intro hash seq
    rw [ExtTreeMap.getElem?_insert]
    by_cases here : c.hash = hash
    · subst here
      have unindexed : s.clockIndex[c.hash]? ≠ some seq := by
        intro entry
        obtain ⟨old, found, named⟩ := (sound.logs.indexed _ _).mp entry
        exact fresh (seq, old) (mem_clocks_iff.mpr found) named
      simp [unindexed, eq_comm]
    · have apart : ¬hash = c.hash := fun equal => here equal.symm
      simp [here, apart]
  · rcases getElem?_insert_cases found with ⟨-, rfl⟩ | ⟨-, before⟩
    · exact (checkPut_ok_iff.mp checked).ne_nil
    · exact sound.keys seq old before
  · simp only [dag, Dag.addClockEvent, toList_insert_last c sound.logs.below]

theorem Sound.updateClockEvent {seq : Nat} {old c : LocalClockEvent} (sound : s.Sound)
    (found : (seq, old) ∈ s.dag.clocks) (sameHash : c.hash = old.hash)
    (sameChain : c.chain = old.chain) (sameRefs : c.referencedEvents = old.referencedEvents)
    (written : s.updateClockEvent c = .ok after) :
    after.Sound ∧ after.dag = s.dag.update c := by
  rw [mem_clocks_iff] at found
  have entry : s.clockIndex[c.hash]? = some seq := (sound.logs.indexed _ _).mpr
    ⟨old, found, sameHash.symm⟩
  obtain ⟨_, -, rest⟩ := except_bind_ok_iff.mp written
  rw [entry] at rest
  cases rest
  refine ⟨⟨⟨?_, sound.ordered, fun other live present => ?_⟩, sound.laned.replace found sameChain,
    sound.dense, sound.eventKeys⟩, ?_⟩
  · exact sound.logs.replace found sameHash (by simp only [Dag.mentions, sameRefs])
  · rcases getElem?_insert_cases present with ⟨-, rfl⟩ | ⟨-, before⟩
    · rw [sameHash]
      exact sound.keys seq old found
    · exact sound.keys other live before
  · exact congrArg (Dag.mk _) (sound.logs.toList_replace found sameHash)

structure Drops (s : LmdbStore) (seqs : List Nat) (after : LmdbStore) : Prop where
  events : after.events = s.events
  nextEventSeq : after.nextEventSeq = s.nextEventSeq
  chainTipSeq : after.chainTipSeq = s.chainTipSeq
  chainSeqs : after.chainSeqs = s.chainSeqs
  clockEvents : ∀ seq : Nat,
    after.clockEvents[seq]? = if seq ∈ seqs then none else s.clockEvents[seq]?
  log : after.LogSound

theorem dropClockEvent_drops {seq : Nat} (log : s.LogSound)
    (ran : s.dropClockEvent seq = .ok after) : Drops s [seq] after := by
  unfold dropClockEvent at ran
  cases found : s.clockEvents[seq]? with
  | some ce =>
      rw [found] at ran
      obtain ⟨referencing, deleted, rest⟩ := except_bind_ok_iff.mp ran
      obtain ⟨_, -, same⟩ := except_bind_ok_iff.mp rest
      cases same
      have erased : ∀ other : Nat, (s.clockEvents.erase seq)[other]? =
          if other ∈ [seq] then none else s.clockEvents[other]? := by
        intro other
        by_cases here : seq = other
        · simp [here]
        · have apart : ¬other = seq := fun equal => here equal.symm
          simp [ExtTreeMap.getElem?_erase, here, apart]
      refine ⟨rfl, rfl, rfl, rfl, erased, ⟨log.logs.drop found (deleteReferencing_mem deleted),
        deleteReferencing_good (fun _ sorted => sorted.sublist List.filter_sublist)
        deleted log.ordered, fun other live present => ?_⟩⟩
      rw [erased] at present
      split at present
      · cases present
      · exact log.keys other live present
  | none =>
      rw [found] at ran
      cases ran
      refine ⟨rfl, rfl, rfl, rfl, fun other => ?_, log⟩
      by_cases here : other = seq
      · subst here
        simp [found]
      · simp [here]

theorem dropClockEvents_drops (seqs : List Nat) (log : s.LogSound)
    (ran : seqs.foldlM dropClockEvent s = .ok after) : Drops s seqs after := by
  induction seqs generalizing s with
  | nil =>
      cases ran
      exact ⟨rfl, rfl, rfl, rfl, by simp, log⟩
  | cons seq rest ih =>
      rw [List.foldlM_cons] at ran
      obtain ⟨middle, first, others⟩ := except_bind_ok_iff.mp ran
      have one := dropClockEvent_drops log first
      have more := ih one.log others
      refine ⟨more.events.trans one.events, more.nextEventSeq.trans one.nextEventSeq,
        more.chainTipSeq.trans one.chainTipSeq, more.chainSeqs.trans one.chainSeqs,
        fun other => ?_, more.log⟩
      rw [more.clockEvents, one.clockEvents]
      by_cases later : other ∈ rest <;> simp [later]

theorem Sound.pruneChain {chain : UInt32} {keep : Nat} (sound : s.Sound)
    (ran : s.pruneChain chain keep = .ok after) :
    after.Sound ∧ after.dag = s.dag.prune chain keep := by
  have members := sound.laned.members chain
  -- fewer clock events than `keep`: pruning leaves them all
  have short : (s.chainSeqs.getD chain []).length ≤ keep →
      pruned (fun c : LocalClockEvent => c.chain) chain keep s.clockEvents.toList =
      s.clockEvents.toList := by
    intro few
    rw [members, List.length_map] at few
    rw [pruned, Nat.sub_eq_zero_of_le few]
    simp
  unfold LmdbStore.pruneChain at ran
  unfold Dag.prune
  rw [ExtTreeMap.getD_eq_getD_getElem?] at short members
  cases place : s.chainSeqs[chain]? with
  | none =>
      rw [place] at ran short
      cases ran
      refine ⟨sound, ?_⟩
      split
      · rfl
      · simp only [dag, short (Nat.zero_le _)]
  | some seqs =>
      rw [place] at ran
      rw [place, Option.getD_some] at short members
      by_cases few : keep = 0 ∨ seqs.length ≤ keep
      · simp only [few, if_true] at ran
        cases ran
        refine ⟨sound, ?_⟩
        split
        · rfl
        · rename_i positive
          simp only [dag, short (few.resolve_left positive)]
      · simp only [few, if_false] at ran
        obtain ⟨pruned', dropped, same⟩ := except_bind_ok_iff.mp ran
        cases same
        have drops := dropClockEvents_drops _ sound.toLogSound dropped
        have kept : pruned'.clockEvents.toList =
            pruned (fun c : LocalClockEvent => c.chain) chain keep s.clockEvents.toList := by
          rw [toList_without drops.clockEvents, pruned, members]
          simp only [List.map_take, List.length_map]
        have listed : s.chainSeqs.getD chain [] = seqs := by
          rw [ExtTreeMap.getD_eq_getD_getElem?, place, Option.getD_some]
        have laned := sound.laned.prune chain
          (Nat.pos_of_ne_zero fun zero => few (Or.inl zero)) kept
        rw [listed] at laned
        refine ⟨⟨⟨drops.log.logs, drops.log.ordered, drops.log.keys⟩, ?_, ?_, ?_⟩, ?_⟩
        · simp only [drops.chainTipSeq, drops.chainSeqs]
          exact laned
        · simp only [drops.events, drops.nextEventSeq]
          exact sound.dense
        · simp only [drops.events]
          exact sound.eventKeys
        · rw [if_neg fun zero => few (Or.inl zero)]
          simp only [dag, drops.events, kept]

instance : DagStore LmdbStore where
  dag := dag
  Sound := Sound
  Readable hash := hash ≠ []
  sorted _ := toList_sorted _
  distinct := by
    intro s sound
    refine List.pairwise_map.mpr
      ((toList_sorted _).imp_of_mem fun {first second} one other below same => ?_)
    exact absurd (sound.logs.unique (mem_clocks_iff.mp one) (mem_clocks_iff.mp other) same)
      (Nat.ne_of_lt below)
  readable_event := by
    intro s event sound member
    obtain ⟨⟨seq, stored⟩, entry, rfl⟩ := List.mem_map.mp member
    exact sound.eventKeys seq stored (ExtTreeMap.mem_toList_iff_getElem?_eq_some.mp entry)
  readable_clockEvent sound member := sound.keys _ _ (mem_clocks_iff.mp member)
  eventCount_eq := by
    intro s sound
    simp [Store.eventCount, dag, ExtTreeMap.length_toList]
  eventBySeq_eq := by
    intro s k event sound found
    rw [show (dag s).events[k]? = s.events[k]? from (dense_getElem? sound.dense).2 k] at found
    simp only [Store.eventBySeq, eventBySeq, found]
  clockEventByHash_eq := by
    intro s hash sound nonempty
    simp only [Store.clockEventByHash, clockEventByHash, seqOf, checkGet_ok_iff.mpr nonempty]
    cases entry : s.clockIndex[hash]? with
    | none =>
        refine ⟨none, rfl, fun record => ⟨(nomatch ·), ?_⟩⟩
        rintro ⟨rfl, seq, member⟩
        have indexed := (sound.logs.indexed record.hash seq).mpr
          ⟨record, mem_clocks_iff.mp member, rfl⟩
        cases entry.symm.trans indexed
    | some seq =>
        obtain ⟨live, found, named⟩ := (sound.logs.indexed _ _).mp entry
        refine ⟨some live, ?_, fun record => ⟨fun same => ?_, ?_⟩⟩
        · simp only [bind, Except.bind, pure, Except.pure, clockEventBySeq, found]
        · cases same
          exact ⟨named, seq, mem_clocks_iff.mpr found⟩
        · rintro ⟨rfl, other, member⟩
          obtain rfl := sound.logs.unique found (mem_clocks_iff.mp member) named
          exact found.symm.trans (mem_clocks_iff.mp member)
  clockEventByHash_mem := by
    intro s hash record sound read
    obtain ⟨indexed, looked, read⟩ := except_bind_ok_iff.mp read
    obtain ⟨_, -, same⟩ := except_bind_ok_iff.mp looked
    cases same
    split at read
    · rename_i seq entry
      obtain ⟨live, found, named⟩ := (sound.logs.indexed _ _).mp entry
      simp only [clockEventBySeq, found] at read
      obtain rfl := Option.some.inj (Except.ok.inj read)
      exact ⟨named, seq, mem_clocks_iff.mpr found⟩
    · cases Except.ok.inj read
  clockEventBySeq_eq := by
    intro s seq record _ member
    simp only [Store.clockEventBySeq, clockEventBySeq, mem_clocks_iff.mp member]
  clockEventsReferencing_eq := by
    intro s hash sound nonempty
    refine ⟨s.referencing.getD hash [], ?_, sound.ordered hash, fun seq => ?_⟩
    · simp only [Store.clockEventsReferencing, clockEventsReferencing, checkGet_ok_iff.mpr nonempty]
      rfl
    · rw [sound.logs.listed]
      simp only [mem_clocks_iff]
  readable_referencing := by
    intro s hash seqs read
    obtain ⟨_, checked, -⟩ := except_bind_ok_iff.mp read
    exact checkGet_ok_iff.mp checked
  clockEventCount_eq _ := ExtTreeMap.length_toList.symm
  latestClockEventOn_eq := by
    intro s chain sound
    simp only [Store.latestClockEventOn, latestClockEventOn, sound.laned.tip, Dag.tip, Dag.onChain]
    cases last :
      (onLane (fun c : LocalClockEvent => c.chain) s.clockEvents.toList chain).getLast? with
    | none => simp [dag, last]
    | some entry =>
        have member := (mem_onLane_iff.mp (List.mem_of_getLast? last)).1
        simp only [Option.map_some, clockEventBySeq,
          ExtTreeMap.mem_toList_iff_getElem?_eq_some.mp member, dag, last]
        rfl
  loadClockEvents_eq _ := rfl
  appendEvent_dag sound written := sound.appendEvent written
  appendClockEvent_dag sound fresh written := sound.appendClockEvent fresh written
  updateClockEvent_dag sound found sameHash sameChain sameRefs written :=
    sound.updateClockEvent found sameHash sameChain sameRefs written
  pruneChain_dag sound written := sound.pruneChain written
  putNeighbor_dag := by
    intro s after neighbor sound written
    cases written
    exact ⟨⟨⟨sound.logs, sound.ordered, sound.keys⟩, sound.laned, sound.dense, sound.eventKeys⟩,
      rfl⟩
  putRoute_dag := by
    intro s after destination nextHop sound written
    cases written
    exact ⟨⟨⟨sound.logs, sound.ordered, sound.keys⟩, sound.laned, sound.dense, sound.eventKeys⟩,
      rfl⟩
  putTimedRoutes_dag := by
    intro s after table sound written
    cases written
    exact ⟨⟨⟨sound.logs, sound.ordered, sound.keys⟩, sound.laned, sound.dense, sound.eventKeys⟩,
      rfl⟩
  clear_dag := by
    intro s after written
    cases written
    exact ⟨sound_empty, by simp [dag]⟩

end Loti.LmdbStore
