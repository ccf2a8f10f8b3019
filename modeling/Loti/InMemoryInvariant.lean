import Loti.InMemoryDag
import Loti.StoreWrites

/-!
The representation of `InMemoryStore`: five tables that say the same of the live clock events,
after every sequence of writes. Numbers are given out once until the store is cleared, and pruning
a chain drops its oldest clock events and nothing else.
-/

namespace Loti.InMemoryStore

open Std RingLog StateExcept StoreWrite

def liveReferences (s : InMemoryStore) (hash : EventHash) : List Nat :=
  s.clockEvents.toList.flatMap fun entry =>
    entry.2.referencedEvents.filterMap fun ref => if ref.hash = hash then some entry.1 else none

structure Represents (s : InMemoryStore) : Prop where
  /-- `clock_seq_` maps the hashes of the live clock events to their numbers. -/
  clockSeq : ∀ (hash : EventHash) (seq : Nat), s.clockSeq[hash]? = some seq ↔
    ∃ record, s.clockEvents[seq]? = some record ∧ record.hash = hash
  /-- `referencing_` holds every reference of a live clock event, as often as it is made. -/
  referencing : ∀ hash : EventHash, s.referencing.getD hash [] = s.liveReferences hash
  /-- `chain_seqs_` lists the live clock events of a chain in order. -/
  chainSeqs : ∀ chain : UInt32, s.chainSeqs.getD chain [] = (s.dag.onChain chain).map Prod.fst
  ascending : ∀ chain : UInt32, (s.chainSeqs.getD chain []).Pairwise (· < ·)
  /-- `chain_tip_seq_` is the last of them, and live. -/
  chainTipSeq : ∀ chain : UInt32, s.chainTipSeq[chain]? = (s.chainSeqs.getD chain []).getLast?
  tipLive : ∀ (chain : UInt32) (seq : Nat), s.chainTipSeq[chain]? = some seq → seq ∈ s.clockEvents
  below : ∀ seq : Nat, seq ∈ s.clockEvents → seq < s.nextClockSeq

/-- What pruning a chain does: of its clock events the newest `keep` stay, and nothing else
changes. -/
structure PrunedTo (s : InMemoryStore) (chain : UInt32) (keep : Nat) (after : InMemoryStore) :
    Prop where
  newest : after.dag.onChain chain = (s.dag.onChain chain).drop
    ((s.dag.onChain chain).length - keep)
  others : ∀ other, other ≠ chain → after.dag.onChain other = s.dag.onChain other
  events : after.events = s.events ∧ after.eventSeq = s.eventSeq
  overlay : after.neighbors = s.neighbors ∧ after.routes = s.routes ∧
  after.timedRoutes = s.timedRoutes
  numbers : after.nextClockSeq = s.nextClockSeq

structure Counted (s : InMemoryStore) : Prop where
  logs : Logs (fun c : LocalClockEvent => c.hash) Dag.mentions s.clockEvents s.clockSeq
    s.referencing s.nextClockSeq
  referencing : ∀ hash : EventHash, s.referencing.getD hash [] = s.liveReferences hash

variable {s after : InMemoryStore} {c : LocalClockEvent} {seq : Nat} {chain : UInt32} {keep : Nat}
  {writes : List StoreWrite}

theorem liveReferences_append (sound : s.Sound)
    (fresh : ∀ entry ∈ s.dag.clocks, entry.2.hash ≠ c.hash)
    (counted : s.Counted) : (s.appendClockEvent c).2.Counted := by
  obtain ⟨grown, same⟩ := sound.appendClockEvent fresh
  refine ⟨grown.logs, fun hash => ?_⟩
  have clocks :
    (s.appendClockEvent c).2.clockEvents.toList = s.clockEvents.toList ++ [(s.nextClockSeq, c)] :=
    congrArg Dag.clocks same
  rw [liveReferences, clocks, List.flatMap_append, List.flatMap_singleton]
  exact (emplaceReferencing_getD s.referencing).trans (by rw [counted.referencing]; rfl)

theorem liveReferences_update {old : LocalClockEvent} (sound : s.Sound)
    (found : (seq, old) ∈ s.dag.clocks)
    (same : c = { old with referencingEvents := c.referencingEvents }) (counted : s.Counted) :
    (s.updateClockEvent c).Counted := by
  have hash : c.hash = old.hash := by rw [same]
  have refs : c.referencedEvents = old.referencedEvents := by rw [same]
  obtain ⟨updated, -⟩ := sound.updateClockEvent found hash (by rw [same]) refs
  have live := mem_clocks_iff.mp found
  have entry : s.clockSeq[c.hash]? = some seq := (sound.logs.indexed _ _).mpr ⟨old, live, hash.symm⟩
  refine ⟨updated.logs, fun other => ?_⟩
  have unchanged : (s.updateClockEvent c).referencing = s.referencing := by
    rw [InMemoryStore.updateClockEvent, entry]
  have records : (s.updateClockEvent c).clockEvents = s.clockEvents.insert seq c := by
    rw [InMemoryStore.updateClockEvent, entry]
  rw [unchanged, counted.referencing, liveReferences, liveReferences, records,
    toList_insert_existing c live, List.flatMap_map]
  refine List.flatMap_congr fun place member => ?_
  split
  · rename_i here
    have stored := ExtTreeMap.mem_toList_iff_getElem?_eq_some.mp member
    rw [here] at stored
    obtain rfl := Option.mem_unique stored live
    rw [refs, here]
  · rfl

theorem Counted.dropClockEvent (counted : s.Counted) (seq : Nat) :
    (s.dropClockEvent seq).Counted := by
  have drops := dropClockEvent_drops seq counted.logs
  refine ⟨drops.logs, fun hash => ?_⟩
  have clocks := toList_without drops.clockEvents
  rw [liveReferences, clocks]
  have left : (s.clockEvents.toList.filter fun entry => entry.1 ∉ [seq]).flatMap (fun entry =>
      entry.2.referencedEvents.filterMap fun ref =>
        if ref.hash = hash then some entry.1 else none) =
      (s.liveReferences hash).filter (· ≠ seq) := by
    -- every number that an entry contributes is its own
    rw [liveReferences, List.filter_flatMap]
    induction s.clockEvents.toList with
    | nil => rfl
    | cons entry rest ih =>
        rw [List.filter_cons, List.flatMap_cons, ← ih]
        by_cases here : entry.1 = seq
        · have none :
              (entry.2.referencedEvents.filterMap fun ref =>
                if ref.hash = hash then some entry.1 else none).filter
              (· ≠ seq) = [] := by
            rw [List.filter_eq_nil_iff]
            intro number member
            obtain ⟨ref, -, given⟩ := List.mem_filterMap.mp member
            split at given
            · simp [← Option.some.inj given, here]
            · cases given
          rw [none]
          simp [here]
        · have all :
              (entry.2.referencedEvents.filterMap fun ref =>
                if ref.hash = hash then some entry.1 else none).filter
              (· ≠ seq) = entry.2.referencedEvents.filterMap fun ref =>
                if ref.hash = hash then some entry.1 else none := by
            rw [List.filter_eq_self]
            intro number member
            obtain ⟨ref, -, given⟩ := List.mem_filterMap.mp member
            split at given
            · simpa [← Option.some.inj given] using here
            · cases given
          rw [all]
          simp [here]
  rw [left, ← counted.referencing]
  -- where the record does not refer to the hash, its number is not listed
  have unlisted (absent : ∀ record, s.clockEvents[seq]? = some record →
      hash ∉ Dag.mentions record) : s.referencing.getD hash [] = (s.referencing.getD hash []).filter
      (· ≠ seq) := by
    symm
    rw [List.filter_eq_self]
    intro number listed
    obtain ⟨record, found, mentioned⟩ := (counted.logs.listed hash number).mp listed
    rw [decide_eq_true_eq]
    rintro rfl
    exact absent record found mentioned
  unfold InMemoryStore.dropClockEvent
  cases found : s.clockEvents[seq]? with
  | none => exact unlisted fun record here => by cases found.symm.trans here
  | some record =>
      refine (eraseReferencing_getD s.referencing).trans ?_
      split
      · rfl
      · rename_i absent
        refine unlisted fun other here => ?_
        obtain rfl := Option.mem_unique found here
        exact absent

theorem Counted.pruneSeqs (counted : s.Counted) (keep : Nat) (seqs : List Nat) :
    (InMemoryStore.pruneSeqs keep s seqs).1.Counted := by
  induction seqs generalizing s with
  | nil => exact counted
  | cons seq rest ih =>
      rw [InMemoryStore.pruneSeqs]
      split
      · exact ih (counted.dropClockEvent seq)
      · exact counted

theorem Counted.pruneChain (counted : s.Counted) (chain : UInt32) (keep : Nat) :
    (s.pruneChain chain keep).Counted := by
  unfold InMemoryStore.pruneChain
  split
  · split
    · exact counted
    · rename_i seqs _ _
      have pruned := counted.pruneSeqs keep seqs
      exact ⟨pruned.logs, pruned.referencing⟩
  · exact counted

def aside (s : InMemoryStore) :=
  (s.events, s.eventSeq, s.nextClockSeq, s.neighbors, s.routes, s.timedRoutes)

theorem pruneSeqs_aside (keep : Nat) (seqs : List Nat) (s : InMemoryStore) :
    (pruneSeqs keep s seqs).1.aside = s.aside := by
  induction seqs generalizing s with
  | nil => rfl
  | cons seq rest ih =>
      rw [pruneSeqs]
      split
      · rw [ih]
        unfold InMemoryStore.dropClockEvent
        split <;> rfl
      · rfl

theorem pruneChain_aside (s : InMemoryStore) (chain : UInt32) (keep : Nat) :
    (s.pruneChain chain keep).aside = s.aside := by
  unfold InMemoryStore.pruneChain
  split
  · split
    · rfl
    · rename_i seqs _ _
      exact pruneSeqs_aside keep seqs s
  · rfl

theorem Sound.prunedTo (sound : s.Sound) (chain : UInt32) (positive : 0 < keep) :
    s.PrunedTo chain keep (s.pruneChain chain keep) := by
  have same := (sound.pruneChain chain keep).2
  have untouched := pruneChain_aside s chain keep
  simp only [aside, Prod.mk.injEq] at untouched
  obtain ⟨events, eventSeq, numbers, neighbors, routes, timedRoutes⟩ := untouched
  have clocks : (s.pruneChain chain keep).dag.clocks = pruned
    (fun c : LocalClockEvent => c.chain) chain keep s.dag.clocks := by
    rw [same, Dag.prune, if_neg (by omega)]
  refine ⟨?_, fun other different => ?_, ⟨events, eventSeq⟩,
    ⟨neighbors, routes, timedRoutes⟩, numbers⟩
  · rw [Dag.onChain, clocks]
    exact onLane_pruned_self (toList_sorted _) keep
  · rw [Dag.onChain, clocks]
    exact onLane_pruned_other (toList_sorted _) keep different

theorem Sound.represents (sound : s.Sound) (counted : s.Counted) : s.Represents := by
  have members := sound.laned.members
  have tips := sound.laned.tip
  refine ⟨sound.logs.indexed, counted.referencing, members, fun chain => ?_, fun chain => ?_,
    fun chain seq tip => ?_, ?_⟩
  · rw [members]
    exact List.pairwise_map.mpr ((toList_sorted _).sublist List.filter_sublist)
  · rw [members, tips, List.getLast?_map]
  · rw [tips] at tip
    obtain ⟨entry, last, rfl⟩ := Option.map_eq_some_iff.mp tip
    have live := (mem_onLane_iff.mp (List.mem_of_getLast? last)).1
    rw [← ExtTreeMap.isSome_getElem?_iff_mem, ExtTreeMap.mem_toList_iff_getElem?_eq_some.mp live]
    rfl
  · intro seq live
    obtain ⟨record, found⟩ := Option.isSome_iff_exists.mp
      (ExtTreeMap.isSome_getElem?_iff_mem.mpr live)
    exact sound.logs.below seq record found

structure Kept (writes : List StoreWrite) (issued : Issued) (s : InMemoryStore) : Prop where
  sound : s.Sound
  counted : s.Counted
  appended : ∀ entry ∈ s.dag.clocks, entry.2.hash ∈ writes.filterMap clockEvent?
  events : issued.events.Pairwise (· < ·) ∧ ∀ number ∈ issued.events, number < s.events.length
  clockEvents : issued.clockEvents.Pairwise (· < ·) ∧ ∀ number ∈ issued.clockEvents,
  number < s.nextClockSeq

theorem pairwise_concat {numbers : List Nat} {next : Nat}
    (increasing : numbers.Pairwise (· < ·) ∧ ∀ number ∈ numbers, number < next) :
    (numbers ++ [next]).Pairwise (· < ·) ∧ ∀ number ∈ numbers ++ [next], number < next + 1 := by
  refine ⟨List.pairwise_append.mpr ⟨increasing.1, List.pairwise_singleton _ _, ?_⟩, ?_⟩
  · intro number earlier last same
    rw [List.mem_singleton.mp same]
    exact increasing.2 number earlier
  · intro number member
    rcases List.mem_append.mp member with earlier | last
    · have := increasing.2 number earlier
      omega
    · rw [List.mem_singleton.mp last]
      omega

theorem Kept.start : Kept [] {} {} := by
  refine ⟨sound_empty, ⟨logs_empty, fun hash => ?_⟩, ?_, ?_, ?_⟩ <;> simp [liveReferences, dag]

theorem Kept.aside {issued : Issued} (kept : Kept writes issued s) (write : StoreWrite)
    (log : after.clockEvents = s.clockEvents ∧ after.clockSeq = s.clockSeq ∧
      after.referencing = s.referencing ∧ after.nextClockSeq = s.nextClockSeq ∧
      after.chainTipSeq = s.chainTipSeq ∧ after.chainSeqs = s.chainSeqs)
    {grown : Issued} (clockEvents : grown.clockEvents = issued.clockEvents)
    (events : grown.events.Pairwise (· < ·) ∧ ∀ number ∈ grown.events,
      number < after.events.length) :
    Kept (writes ++ [write]) grown after := by
  obtain ⟨records, index, references, next, tips, seqs⟩ := log
  refine ⟨⟨?_, ?_⟩, ⟨?_, fun hash => ?_⟩, fun entry live => ?_, events, ?_⟩
  · rw [records, index, references, next]
    exact kept.sound.logs
  · rw [records, tips, seqs]
    exact kept.sound.laned
  · rw [records, index, references, next]
    exact kept.counted.logs
  · rw [references, kept.counted.referencing, liveReferences, liveReferences, records]
  · rw [dag, records] at live
    rw [List.filterMap_append]
    exact List.mem_append_left _ (kept.appended entry live)
  · rw [clockEvents, next]
    exact kept.clockEvents

theorem Kept.write {issued : Issued} {write : StoreWrite} {number : Option Nat}
    (kept : Kept writes issued s) (distinct : StoreWrite.Distinct (writes ++ [write]))
    (keeps : write.KeepsContent s) (performed : write.perform s = .ok (number, after)) :
    Kept (writes ++ [write]) (issued.by number write) after := by
  have earlier {entry : Nat × LocalClockEvent} (live : entry ∈ s.dag.clocks) :
      entry.2.hash ∈ (writes ++ [write]).filterMap clockEvent? := by
    rw [List.filterMap_append]
    exact List.mem_append_left _ (kept.appended entry live)
  cases write with
  | appendEvent event =>
      cases performed
      refine kept.aside _ ?_ ?_ ?_
      · exact ⟨rfl, rfl, rfl, rfl, rfl, rfl⟩
      · rfl
      · simpa [Issued.by] using pairwise_concat kept.events
  | appendClockEvent record =>
      cases performed
      have fresh : ∀ entry ∈ s.dag.clocks, entry.2.hash ≠ record.hash := by
        intro entry live same
        exact distinct.fresh (same ▸ kept.appended entry live)
      obtain ⟨sound, same⟩ := kept.sound.appendClockEvent fresh
      refine ⟨sound, liveReferences_append kept.sound fresh kept.counted, ?_, kept.events,
        pairwise_concat kept.clockEvents⟩
      intro entry live
      have grown : entry ∈ (s.dag.addClockEvent s.nextClockSeq record).clocks := same ▸ live
      rcases List.mem_append.mp grown with old | new
      · exact earlier old
      · rw [List.mem_singleton.mp new, List.filterMap_append]
        exact List.mem_append_right _ (by simp [clockEvent?])
  | updateClockEvent record =>
      cases performed
      cases entry : s.clockSeq[record.hash]? with
      | none =>
          have same : s.updateClockEvent record = s := by rw [InMemoryStore.updateClockEvent, entry]
          rw [same]
          refine kept.aside _ ?_ ?_ ?_
          exacts [⟨rfl, rfl, rfl, rfl, rfl, rfl⟩, rfl, kept.events]
      | some seq =>
          obtain ⟨old, found, named⟩ := (kept.sound.logs.indexed _ _).mp entry
          have read : Store.clockEventByHash s record.hash = .ok (some old) := by
            simp only [Store.clockEventByHash, clockEventByHash, entry, clockEventBySeq, found]
            rfl
          have same := keeps old read
          have live := mem_clocks_iff.mpr found
          obtain ⟨sound, dag⟩ := kept.sound.updateClockEvent live named.symm
            (by rw [same]) (by rw [same])
          refine ⟨sound, liveReferences_update kept.sound live same kept.counted, ?_, ?_, ?_⟩
          · intro place member
            rw [dag, Dag.update] at member
            obtain ⟨before, there, rfl⟩ := List.mem_map.mp member
            split
            · rename_i here
              exact here ▸ earlier there
            · exact earlier there
          · simpa only [InMemoryStore.updateClockEvent, entry, Issued.by] using kept.events
          · simpa only [InMemoryStore.updateClockEvent, entry, Issued.by] using kept.clockEvents
  | putNeighbor neighbor =>
      cases performed
      refine kept.aside _ ?_ ?_ ?_
      exacts [⟨rfl, rfl, rfl, rfl, rfl, rfl⟩, rfl, kept.events]
  | putRoute destination nextHop =>
      cases performed
      refine kept.aside _ ?_ ?_ ?_
      exacts [⟨rfl, rfl, rfl, rfl, rfl, rfl⟩, rfl, kept.events]
  | putTimedRoutes table =>
      cases performed
      refine kept.aside _ ?_ ?_ ?_
      exacts [⟨rfl, rfl, rfl, rfl, rfl, rfl⟩, rfl, kept.events]
  | pruneChain chain keep =>
      cases performed
      obtain ⟨sound, dag⟩ := kept.sound.pruneChain chain keep
      have untouched := pruneChain_aside s chain keep
      simp only [InMemoryStore.aside, Prod.mk.injEq] at untouched
      refine ⟨sound, kept.counted.pruneChain chain keep, fun entry live => ?_, ?_, ?_⟩
      · rw [dag, Dag.prune] at live
        split at live
        · exact earlier live
        · exact earlier (List.mem_of_mem_filter live)
      · rw [untouched.1]
        exact kept.events
      · rw [untouched.2.2.1]
        exact kept.clockEvents
  | clear =>
      cases performed
      refine ⟨Kept.start.sound, Kept.start.counted, ?_, Kept.start.events, Kept.start.clockEvents⟩
      simp [dag]

theorem Kept.of_written {issued : Issued} (written : Written ({} : InMemoryStore) writes issued s)
    (distinct : StoreWrite.Distinct writes) : Kept writes issued s := by
  induction written with
  | start => exact .start
  | write _ keeps performed ih => exact (ih distinct.front).write distinct keeps performed

/-- After every sequence of writes the tables represent the live clock events, no number was given
out twice since the store was cleared, pruning is exact, and no number read from the store is
stale. -/
theorem tables_represent {writes : List StoreWrite} {issued : Issued} {s : InMemoryStore}
    (written : Written ({} : InMemoryStore) writes issued s)
    (distinct : StoreWrite.Distinct writes) :
    s.Represents ∧ issued.events.Pairwise (· < ·) ∧ issued.clockEvents.Pairwise (· < ·) ∧
      (∀ chain keep, 0 < keep → ∃ after, Store.pruneChain s chain keep = .ok after ∧
        s.PrunedTo chain keep after) ∧
      (∀ hash seqs seq, Store.clockEventsReferencing s hash = .ok seqs → seq ∈ seqs →
        ∃ record, Store.clockEventBySeq s seq = .ok record) ∧
      ∀ chain, ∃ tip, Store.latestClockEventOn s chain = .ok tip := by
  have kept := Kept.of_written written distinct
  refine ⟨kept.sound.represents kept.counted, kept.events.1, kept.clockEvents.1,
    fun chain keep positive => ?_, ?_, ?_⟩
  · exact ⟨_, rfl, kept.sound.prunedTo chain positive⟩
  · intro hash seqs seq read listed
    have readable : DagStore.Readable (σ := InMemoryStore) hash := trivial
    obtain ⟨found, same, -, live⟩ := DagStore.clockEventsReferencing_eq (s := s) kept.sound readable
    obtain rfl := Except.ok.inj (read.symm.trans same)
    obtain ⟨record, member, -⟩ := (live seq).mp listed
    exact ⟨record, DagStore.clockEventBySeq_eq (s := s) kept.sound member⟩
  · intro chain
    exact ⟨_, DagStore.latestClockEventOn_eq (s := s) kept.sound⟩

def doublyLinked (hash : EventHash) : LocalClockEvent :=
  { creator := .ofUInt64 1, hash, chain := 0, timestamp := 0, salt := 0
    referencedEvents := [⟨.ofUInt64 2, [7]⟩, ⟨.ofUInt64 3, [7]⟩], signature := [],
    referencingEvents := [] }

def doublyLinkedWrites : List StoreWrite :=
  [.appendClockEvent (doublyLinked [1]), .appendClockEvent (doublyLinked [2]), .pruneChain 0 1]

theorem tables_represent_sample :
    ∃ issued s, Written ({} : InMemoryStore) doublyLinkedWrites issued s ∧
    s.Represents ∧ issued.clockEvents.Pairwise (· < ·) := by
  have distinct : StoreWrite.Distinct doublyLinkedWrites := ⟨by decide, by decide⟩
  have first : Written ({} : InMemoryStore) [.appendClockEvent (doublyLinked [1])] _ _ :=
    .write .start trivial rfl
  have second : Written ({} : InMemoryStore) [.appendClockEvent (doublyLinked [1]),
    .appendClockEvent (doublyLinked [2])] _ _ :=
    first.write trivial rfl
  have written : Written ({} : InMemoryStore) doublyLinkedWrites _ _ := second.write trivial rfl
  obtain ⟨represents, -, increasing, -⟩ := tables_represent written distinct
  exact ⟨_, _, written, represents, increasing⟩

end Loti.InMemoryStore
