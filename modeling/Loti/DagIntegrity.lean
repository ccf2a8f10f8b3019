import Loti.Loading

/-!
The node's own chains over the in-memory store, in runs that restore earlier snapshots of
the node: in sequence order, each live clock event references the one before it.
-/

namespace Loti

open Std StateExcept LocalDag SnapshotRecords RingLog Wire

def LocalClockEvent.Follows (second first : LocalClockEvent) : Prop :=
  first.reference ∈ second.referencedEvents ∧ first.timestamp ≤ second.timestamp

section Chains

variable {σ : Type} [Store σ] {env : NodeEnv} {made : List Signed} {s : NodeState σ}
    {chain : UInt32}

def liveOn (store : σ) (chain : UInt32) : List LocalClockEvent :=
  (Store.loadClockEvents store).filter fun c => c.chain = chain

structure OwnChain (env : NodeEnv) (store : σ) (chain : UInt32) : Prop where
  tip : Store.latestClockEventOn store chain = .ok (liveOn store chain).getLast?
  hashed : ∀ c ∈ liveOn store chain, c.hash = env.hasher.calculateClockEventHash c.toClockEvent
  linked : (liveOn store chain).IsChain fun before c => ⟨env.id, before.hash⟩ ∈ c.referencedEvents
  ordered : (liveOn store chain).Pairwise fun earlier later => earlier.timestamp ≤ later.timestamp

structure Recorded (made : List Signed) (records : List LocalClockEvent) : Prop where
  made : ∀ c ∈ records, .clockEvent c.bare ∈ made
  distinct : (records.map fun c => c.hash).Nodup
  linked : ∀ chain, (records.filter fun c => c.chain = chain).IsChain fun before c =>
  c.Follows before

theorem Recorded.mono {records : List LocalClockEvent} {more : List Signed}
    (recorded : Recorded made records) (grown : ∀ object ∈ made, object ∈ more) :
    Recorded more records :=
  ⟨fun c member => grown _ (recorded.made c member), recorded.distinct, recorded.linked⟩

variable [DagStore σ]

theorem liveOn_eq {store : σ} (sound : DagStore.Sound store) :
    liveOn store chain = ((DagStore.dag store).onChain chain).map Prod.snd := by
  rw [liveOn, DagStore.loadClockEvents_eq sound, List.filter_map]
  rfl

theorem localDag_linked_iff (sound : DagStore.Sound s.store) :
    (∀ first second, [first, second] <:+: (s.localDag made).onChain chain →
      second.2.Follows first.2) ↔ (liveOn s.store chain).IsChain fun before c =>
      c.Follows before := by
  have bare : (s.localDag made).onChain chain =
      ((DagStore.dag s.store).onChain chain).map fun entry => (entry.1, entry.2.bare) :=
      Dag.bare_onChain
  rw [forall_pair_iff, liveOn_eq sound, bare, List.isChain_map, List.isChain_map]
  rfl

theorem chained_iff (sound : DagStore.Sound s.store) :
    Chained env (s.localDag made) ↔
      ((made.map Signed.hash).Nodup ∧ ∀ object ∈ made, object.Genuine env) ∧
      Recorded made (Store.loadClockEvents s.store) := by
  have listed : ∀ c, c ∈ Store.loadClockEvents s.store ↔
    ∃ seq, (seq, c) ∈ (DagStore.dag s.store).clocks := by
    simp [DagStore.loadClockEvents_eq sound]
  constructor
  · intro chained
    refine ⟨⟨chained.distinct, chained.genuine⟩, fun c member => ?_, ?_, fun chain => ?_⟩
    · obtain ⟨seq, live⟩ := (listed c).mp member
      exact chained.clock_made (seq, c.bare) (Dag.mem_bare_clocks.mpr ⟨c, live, rfl⟩)
    · rw [DagStore.loadClockEvents_eq sound, List.map_map]
      exact DagStore.distinct sound
    · exact (localDag_linked_iff sound).mp (chained.linked chain)
  · rintro ⟨⟨distinct, genuine⟩, recorded⟩
    have sorted : Ascending (s.localDag made).clocks :=
      List.pairwise_map.mpr (DagStore.sorted sound)
    have live : ((s.localDag made).clocks.map fun entry => entry.2.hash).Nodup := by
      rw [NodeState.localDag, Dag.bare, List.map_map]
      exact DagStore.distinct sound
    refine ⟨sorted, distinct, genuine, fun entry member => ?_, live, fun chain => ?_⟩
    · obtain ⟨c, stored, same⟩ := Dag.mem_bare_clocks.mp member
      exact same ▸ recorded.made c ((listed c).mpr ⟨entry.1, stored⟩)
    · exact (localDag_linked_iff sound).mpr (recorded.linked chain)

theorem LocalDag.Chained.ownChain (chained : Chained env (s.localDag made))
    (sound : DagStore.Sound s.store) (canonical : env.hasher.Canonical) (chain : UInt32) :
    OwnChain env s.store chain := by
  obtain ⟨⟨-, genuine⟩, recorded⟩ := (chained_iff sound).mp chained
  have own : ∀ c ∈ Store.loadClockEvents s.store, c.creator = env.id ∧
      c.hash = env.hasher.calculateClockEventHash c.toClockEvent := by
    intro c member
    obtain ⟨chain, salt, timestamp, refs, same⟩ := genuine _ (recorded.made c member)
    have fields : c.toClockEvent = (makeClockEvent env chain salt timestamp refs).toClockEvent := by
      rw [← same, LocalClockEvent.bare_toClockEvent]
    rw [fields]
    exact ⟨rfl, (canonical.clockEvent _ _ _).symm⟩
  have follows := recorded.linked chain
  refine ⟨?_, fun c member => (own c (List.mem_filter.mp member).1).2, ?_, ?_⟩
  · rw [DagStore.latestClockEventOn_eq sound, liveOn_eq sound, Dag.tip, List.getLast?_map]
  · refine follows.imp_of_mem_imp fun before c listed _ linked => ?_
    have named : before.reference = ⟨env.id, before.hash⟩ := by
      rw [← (own before (List.mem_filter.mp listed).1).1]
      rfl
    exact named ▸ linked.1
  · have stamps : IsTrans LocalClockEvent fun earlier later =>
      earlier.timestamp ≤ later.timestamp :=
      ⟨fun _ _ _ => Int64.le_trans⟩
    exact List.isChain_iff_pairwise.mp (follows.imp fun _ _ linked => linked.2)

end Chains

/-- Runs in which the node may restore a snapshot of any state it has been in, if that state is
`restorable`. The first list are the states visited, the second one is everything stored. -/
inductive Visits {σ : Type} [Store σ] (env : NodeEnv) (restorable : NodeState σ → Prop)
    (start : NodeState σ) : List (NodeState σ) → List Signed → NodeState σ → Prop
  | start : Visits env restorable start [start] [] start
  | step {visited : List (NodeState σ)} {made : List Signed} {s after : NodeState σ}
      (action : NodeAction) : Visits env restorable start visited made s →
      (∀ blob, action = .restore blob → (⟨blob, env.wordBits⟩ : Buffer).Addressable ∧
        ∃ earlier ∈ visited, snapshot earlier = .ok blob earlier ∧ restorable earlier) →
      contain (perform env action) s = .ok () after →
      Visits env restorable start (after :: visited) (made ++ appendedBy env s action) after

section Runs

variable {env : NodeEnv} {now : Timestamp} {visited : List (NodeState InMemoryStore)}
    {made : List Signed}
  {s : NodeState InMemoryStore}

theorem perform_chained {action : NodeAction} (kind : ∀ blob, action ≠ .restore blob)
    (sound : DagStore.Sound s.store) (chained : Chained env (s.localDag made))
    (distinct : ((made ++ appendedBy env s action).map Signed.hash).Nodup) :
    DagStore.Sound (final (perform env action) s).store ∧
      Chained env ((final (perform env action) s).localDag (made ++ appendedBy env s action)) := by
  have grounded : ∀ entry ∈ (DagStore.dag s.store).clocks, ∃ object ∈ made,
    object.hash = entry.2.hash :=
    fun entry member => ⟨_, chained.clock_made (entry.1, entry.2.bare)
      (Dag.mem_bare_clocks.mpr ⟨entry.2, member, rfl⟩), rfl⟩
  have evolves := perform_evolves_open kind sound grounded distinct
  exact ⟨evolves.sound, evolves.run.keeps (Chained env)
    (fun _ _ kept allowed => kept.apply allowed) chained⟩

theorem restore_recorded {blob : Bytes} {earlier : NodeState InMemoryStore}
    (sound : DagStore.Sound earlier.store)
    (recorded : Recorded made (Store.loadClockEvents earlier.store))
    (taken : snapshot earlier = .ok blob earlier)
    (addressable : (⟨blob, env.wordBits⟩ : Buffer).Addressable) (fits : earlier.records.Fits) :
    (final (restore env blob) s).signed = s.signed ∧
      DagStore.Sound (final (restore env blob) s).store ∧
      Recorded made (Store.loadClockEvents (final (restore env blob) s).store) := by
  obtain rfl := snapshot_writes sound taken
  have loads := restore_loads (s := s) fits addressable List.prefix_rfl recorded.distinct
  obtain ⟨signed, -, soundAfter, -, clocks⟩ := loads.final_of_returns
  refine ⟨signed, soundAfter, ?_⟩
  rw [DagStore.loadClockEvents_eq soundAfter, clocks]
  exact recorded

theorem Visits.recorded
    (run : Visits env (fun earlier => earlier.records.Fits) (.bootAt env {} now) visited made s)
    (distinct : (made.map Signed.hash).Nodup) :
    s ∈ visited ∧ (∀ object ∈ made, object.Genuine env) ∧
      ∀ earlier ∈ visited, DagStore.Sound earlier.store ∧
      Recorded made (Store.loadClockEvents earlier.store) := by
  induction run with
  | start =>
      have chained : Chained env ((NodeState.bootAt env ({} : InMemoryStore) now).localDag []) :=
        (bootAt_localDag InMemoryStore.emptyStore).2 ▸ chained_initial _ now
      have sound : DagStore.Sound (NodeState.bootAt env ({} : InMemoryStore) now).store :=
        (bootAt_localDag InMemoryStore.emptyStore).1
      obtain ⟨⟨-, genuine⟩, recorded⟩ := (chained_iff sound).mp chained
      exact ⟨List.mem_singleton_self _, genuine, by simpa using ⟨sound, recorded⟩⟩
  | step action run own ran ih =>
      rename_i visited made s after
      have before := distinct
      rw [List.map_append, List.nodup_append] at before
      obtain ⟨here, genuine, all⟩ := ih before.1
      obtain rfl := final_of_contain ran
      have stepped : DagStore.Sound (final (perform env action) s).store ∧
          (∀ object ∈ made ++ appendedBy env s action, object.Genuine env) ∧
          Recorded (made ++ appendedBy env s action)
          (Store.loadClockEvents (final (perform env action) s).store) := by
        by_cases restores : ∃ blob, action = .restore blob
        · obtain ⟨blob, rfl⟩ := restores
          obtain ⟨addressable, earlier, listed, taken, fits⟩ := own blob rfl
          obtain ⟨signed, sound, recorded⟩ := restore_recorded (s := s) (all earlier listed).1
            (all earlier listed).2 taken addressable fits
          have nothing : appendedBy env s (.restore blob) = [] := by
            rw [appendedBy, perform, signed, List.drop_length, List.filter_nil]
          rw [nothing, List.append_nil]
          exact ⟨sound, genuine, recorded⟩
        · obtain ⟨sound, recorded⟩ := all s here
          have chained := (chained_iff sound).mpr ⟨⟨before.1, genuine⟩, recorded⟩
          obtain ⟨soundAfter, chainedAfter⟩ :=
            perform_chained (fun blob same => restores ⟨blob, same⟩) sound chained distinct
          obtain ⟨⟨-, genuineAfter⟩, recordedAfter⟩ := (chained_iff soundAfter).mp chainedAfter
          exact ⟨soundAfter, genuineAfter, recordedAfter⟩
      refine ⟨List.mem_cons_self, stepped.2.1, fun earlier member => ?_⟩
      rcases List.mem_cons.mp member with rfl | old
      · exact ⟨stepped.1, stepped.2.2⟩
      · exact ⟨(all earlier old).1, (all earlier old).2.mono fun object member =>
          List.mem_append_left _ member⟩

theorem own_chains_hold {sha256 : Bytes → EventHash} (hashed : env.hasher = Hasher.ofSha256 sha256)
    (run : Visits env (fun earlier => earlier.records.Fits) (.bootAt env {} now) visited made s)
    (distinct : (made.map Signed.hash).Nodup) : ∀ chain, OwnChain env s.store chain := by
  obtain ⟨here, genuine, all⟩ := run.recorded distinct
  obtain ⟨sound, recorded⟩ := all s here
  have chained := (chained_iff sound).mpr ⟨⟨distinct, genuine⟩, recorded⟩
  exact chained.ownChain sound (hashed ▸ Hasher.ofSha256_canonical sha256)

theorem Visits.next {restorable : NodeState InMemoryStore → Prop} {start : NodeState InMemoryStore}
    (run : Visits env restorable start visited made s) (action : NodeAction)
    (own : ∀ blob, action = .restore blob → (⟨blob, env.wordBits⟩ : Buffer).Addressable ∧
      ∃ earlier ∈ visited, snapshot earlier = .ok blob earlier ∧ restorable earlier)
    (fine : raised (contain (perform env action)) s = none) :
    Visits env restorable start (final (perform env action) s :: visited)
      (made ++ appendedBy env s action) (final (perform env action) s) :=
  .step action run own (final_contain _ s ▸ ok_of_not_raised fine)

end Runs

/-! A node ticks twice, restores what it was after the first tick, and ticks again. -/

def plainEnv (sha256 : Bytes → EventHash) : NodeEnv := .simulated sha256 1 {}

def tickedOnce : NodeState InMemoryStore :=
  final (perform (plainEnv id) (.createClockEvent 0)) (.bootAt (plainEnv id) {} 5)

def tickedTwice : NodeState InMemoryStore :=
  final (perform (plainEnv id) (.createClockEvent 0)) tickedOnce

def rolledBack : NodeState InMemoryStore :=
  final (perform (plainEnv id) (.restore tickedOnce.records.write)) tickedTwice

def tickedAgain : NodeState InMemoryStore :=
  final (perform (plainEnv id) (.createClockEvent 0)) rolledBack

theorem own_chains_hold_sample : OwnChain (plainEnv id) tickedAgain.store 0 ∧
    (liveOn tickedAgain.store 0).length = 2 := by
  have first : Visits (plainEnv id) (fun earlier => earlier.records.Fits)
      (.bootAt (plainEnv id) {} 5) [tickedOnce, .bootAt (plainEnv id) {} 5] _ tickedOnce :=
    Visits.start.next (.createClockEvent 0) (by rintro _ ⟨⟩) (by decide +kernel)
  have second := first.next (.createClockEvent 0) (by rintro _ ⟨⟩) (by decide +kernel)
  have third := second.next (.restore tickedOnce.records.write) (by
    rintro _ ⟨⟩
    exact ⟨by decide +kernel, tickedOnce, by simp, rfl, by decide +kernel⟩) (by decide +kernel)
  have fourth := third.next (.createClockEvent 0) (by rintro _ ⟨⟩) (by decide +kernel)
  refine ⟨own_chains_hold rfl fourth (by decide +kernel) 0, by decide +kernel⟩

/-! Publishing `2 ^ 32` bytes: the snapshot writes the length as zero, so restoring it reads the
bytes
themselves as the rest of the snapshot. -/

def forgedClockEvent : LocalClockEvent :=
  { makeClockEvent (plainEnv fun _ => []) 0 0 0 [] with hash := [1] }

def forgedRecords : SnapshotRecords where
  events := [makeEvent (plainEnv fun _ => []) [] 0 []]
  clockEvents := [forgedClockEvent]
  unreferenced := []
  neighbors := []
  routes := []

def forgedText : Bytes :=
  Writer.u64 0 ++ Writer.refs [] ++ Writer.blob [] ++
    writeCounted writeLocalClockEvent [forgedClockEvent] ++ writeCount 0 ++
    writeCount 0 ++ writeCount 0

def oversizedData : Bytes := forgedText ++ List.replicate (2 ^ 32 - forgedText.length) 0

theorem oversizedData_length : oversizedData.length = 2 ^ 32 := by
  have short : forgedText.length ≤ 2 ^ 32 := by decide +kernel
  rw [oversizedData, List.length_append, List.length_replicate]
  omega

def oversizedEvent : Event := makeEvent (plainEnv fun _ => []) oversizedData 0 []

def overfull : NodeState InMemoryStore :=
  final (perform (plainEnv fun _ => []) (.publishEvent oversizedData))
    (.bootAt (plainEnv fun _ => []) {} 0)

theorem overfull_records :
    overfull.records = ⟨[oversizedEvent], [], [oversizedEvent], [], []⟩ := rfl

theorem forged_begins : forgedRecords.write <+: overfull.records.write := by
  -- both texts share what stands up to the length of the data, which is zero in both
  let front : Bytes := Writer.u64 kSnapshotVersion ++ (writeCount 1 ++
    (Writer.nodeId (NodeId.ofUInt64 1) ++ (Writer.blob [] ++ Writer.blob [])))
  have cut : Writer.blob oversizedData = Writer.blob [] ++ oversizedData := by
    rw [Writer.blob, oversizedData_length]
    rfl
  have forged : forgedRecords.write = front ++ forgedText := by decide +kernel
  have written : ∃ rest, overfull.records.write = front ++ (oversizedData ++ rest) := by
    refine ⟨Writer.u64 0 ++ (Writer.refs [] ++ (Writer.blob [] ++ (writeCount 0 ++
      (writeCounted Writer.event [oversizedEvent] ++ (writeCount 0 ++ writeCount 0))))), ?_⟩
    rw [overfull_records]
    simp only [SnapshotRecords.write, writeCounted, List.length_singleton, List.length_nil,
      List.flatMap_singleton, List.flatMap_nil, List.append_nil, Writer.event, oversizedEvent,
      makeEvent, cut, List.append_assoc, front]
    rfl
  obtain ⟨rest, real⟩ := written
  rw [forged, real]
  refine (List.prefix_append_right_inj _).mpr ?_
  rw [oversizedData, List.append_assoc]
  exact List.prefix_append _ _

theorem overfull_addressable : (⟨overfull.records.write, 64⟩ : Buffer).Addressable := by
  refine ⟨Or.inr rfl, ?_⟩
  have size : (Writer.event oversizedEvent).length = 2 ^ 32 + 40 := by
    simp only [Writer.event, oversizedEvent, makeEvent, Writer.blob, Writer.u32, Writer.u64,
      Writer.nodeId, List.length_append, BigEndian.digits_length, oversizedData_length, NodeId.size]
    rfl
  rw [overfull_records]
  simp only [SnapshotRecords.write, writeCounted, writeCount, Writer.u64, List.flatMap_singleton,
    List.flatMap_nil, List.length_append, BigEndian.digits_length, List.length_nil, size]
  decide

/-- The forged clock event is loaded, although it is neither hashed nor made by the node. -/
theorem oversized_snapshot_misread : ∃ visited made, ∃ s : NodeState InMemoryStore,
    Visits (plainEnv fun _ => []) (fun _ => True) (.bootAt (plainEnv fun _ => []) {} 0) visited made
      s ∧ (made.map Signed.hash).Nodup ∧ ¬OwnChain (plainEnv fun _ => []) s.store 0 := by
  have published :
      Visits (plainEnv fun _ => []) (fun _ => True) (.bootAt (plainEnv fun _ => []) {} 0)
      [overfull, .bootAt (plainEnv fun _ => []) {} 0] [.event oversizedEvent] overfull :=
    Visits.start.step (.publishEvent oversizedData) (by rintro _ ⟨⟩) rfl
  have sound : DagStore.Sound overfull.store :=
    show InMemoryStore.Sound _ from ⟨InMemoryStore.sound_empty.logs,
      InMemoryStore.sound_empty.laned⟩
  obtain ⟨blob, taken, addressable, begins⟩ : ∃ blob, snapshot overfull = .ok blob overfull ∧
      (⟨blob, 64⟩ : Buffer).Addressable ∧ forgedRecords.write <+: blob :=
    ⟨_, snapshot_eq sound rfl, overfull_addressable, forged_begins⟩
  have fits : forgedRecords.Fits := by decide +kernel
  have loads : Ends (restore (plainEnv fun _ => []) blob) overfull _ _ :=
    restore_loads fits addressable begins (by decide +kernel)
  obtain ⟨_, after, ran, signed, -, sound, -, clocks⟩ := loads.returns fun _ _ no => no
  have restored := published.step (.restore blob) (by
    rintro _ ⟨⟩
    exact ⟨addressable, overfull, by simp, taken, trivial⟩) (show contain _ _ = .ok () after by
    rw [contain, perform, ran])
  have nothing : appendedBy (plainEnv fun _ => []) overfull (.restore blob) = [] := by
    rw [appendedBy, perform, final, ran]
    simp only [signed, List.drop_length, List.filter_nil]
  refine ⟨_, _, after, restored, by simp [nothing], fun own => ?_⟩
  · have live : liveOn after.store 0 = [forgedClockEvent] := by
      rw [liveOn, DagStore.loadClockEvents_eq sound, clocks]
      decide +kernel
    have hashed := own.hashed forgedClockEvent (by simp [live])
    revert hashed
    decide +kernel

end Loti
