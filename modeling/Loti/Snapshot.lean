import Loti.DagInvariants
import Loti.InMemoryDag
import Loti.WireFormat

/-!
Snapshots: what `snapshot` writes, `restore` reads back, as long as every blob and every
list has fewer than `2 ^ 32` elements; and what `load` makes of it on the in-memory store.
-/

namespace Loti

open Std StateExcept Parsing Wire

structure SnapshotRecords where
  events : List Event
  clockEvents : List LocalClockEvent
  unreferenced : List Event
  neighbors : List Neighbor
  routes : List (NodeId × NodeId)

namespace SnapshotRecords

def writeRoute (route : NodeId × NodeId) : Bytes := Writer.nodeId route.1 ++ Writer.nodeId route.2

def writeCounted {α : Type} (write : α → Bytes) (items : List α) : Bytes :=
  writeCount items.length ++ items.flatMap write

def write (records : SnapshotRecords) : Bytes :=
  Writer.u64 kSnapshotVersion ++ (writeCounted Writer.event records.events ++
    (writeCounted writeLocalClockEvent records.clockEvents ++
      (writeCounted Writer.event records.unreferenced ++
        (writeCounted writeNeighbor records.neighbors ++ writeCounted writeRoute records.routes))))

def contents (records : SnapshotRecords) : SnapshotContents where
  events := records.events
  clockEvents := records.clockEvents
  neighbors := records.neighbors.foldl (fun table n => table.insert n.nodeId n) ∅
  routes := records.routes.foldl (fun table route => table.insert route.1 route.2) ∅

structure Fits (records : SnapshotRecords) : Prop where
  events : ∀ e ∈ records.events, EventFits e
  clockEvents : ∀ c ∈ records.clockEvents, ClockEventFits c.toClockEvent ∧
  RefsFit c.referencingEvents
  unreferenced : ∀ e ∈ records.unreferenced, EventFits e
  neighbors : ∀ n ∈ records.neighbors, ∀ hash ∈ n.lastClockEventHashes, hash.length < 2 ^ 32

theorem fits_iff {records : SnapshotRecords} :
    ((∀ e ∈ records.events, EventFits e) ∧
      (∀ c ∈ records.clockEvents, ClockEventFits c.toClockEvent ∧ RefsFit c.referencingEvents) ∧
      (∀ e ∈ records.unreferenced, EventFits e) ∧
      ∀ n ∈ records.neighbors, ∀ hash ∈ n.lastClockEventHashes, hash.length < 2 ^ 32) ↔
      records.Fits :=
  ⟨fun all => ⟨all.1, all.2.1, all.2.2.1, all.2.2.2⟩,
    fun fits => ⟨fits.events, fits.clockEvents, fits.unreferenced, fits.neighbors⟩⟩

instance (records : SnapshotRecords) : Decidable records.Fits := decidable_of_iff _ fits_iff

end SnapshotRecords

open SnapshotRecords

section Reading

variable {buffer : Buffer}

def SpellsCounted {α : Type} (spells : α → Bytes → Prop) (values : List α) (text : Bytes) : Prop :=
  values.length < 2 ^ 64 ∧ ∃ items, SpellsAll spells values items ∧
    text = writeCount values.length ++ items

theorem readCounted_parses {α : Type} {read : ReadM α} {spells : α → Bytes → Prop}
    (fits : buffer.Addressable) (parses : Parses buffer.bytes read spells) :
    Parses buffer.bytes (readCounted buffer read) (SpellsCounted spells) := by
  refine ((Reader.u64_parses fits).bind fun count =>
    Reader.times_parses parses count.toNat).congr fun values text => ?_
  constructor
  · rintro ⟨count, _, items, rfl, ⟨size, all⟩, rfl⟩
    exact ⟨size ▸ count.toNat_lt, items, all, by rw [writeCount, size, UInt64.ofNat_toNat]⟩
  · rintro ⟨short, items, all, rfl⟩
    exact ⟨UInt64.ofNat values.length, _, _, rfl,
      ⟨(UInt64.toNat_ofNat_of_lt' short).symm, all⟩, rfl⟩

def SpellsLocalClockEvent (c : LocalClockEvent) (text : Bytes) : Prop :=
  ∃ word : UInt64, word.toUInt32 = c.chain ∧ ClockEventFits c.toClockEvent ∧
    RefsFit c.referencingEvents ∧
      text = Writer.wideClockEvent word c.toClockEvent ++ Writer.refs c.referencingEvents

theorem readLocalClockEvent_parses (fits : buffer.Addressable) :
    Parses buffer.bytes (readLocalClockEvent buffer) SpellsLocalClockEvent := by
  refine ((Reader.clockEvent_parses fits).bind fun c => (Reader.refs_parses fits).map).congr
    fun c text => ?_
  constructor
  · rintro ⟨_, _, _, ⟨word, narrowed, eventFits, rfl⟩, ⟨references, ⟨refsFit, rfl⟩, rfl⟩, rfl⟩
    exact ⟨word, narrowed, eventFits, refsFit, rfl⟩
  · rintro ⟨word, narrowed, eventFits, refsFit, rfl⟩
    exact ⟨c.toClockEvent, _, _, ⟨word, narrowed, eventFits, rfl⟩,
      ⟨c.referencingEvents, ⟨refsFit, rfl⟩, rfl⟩, rfl⟩

def SpellsNeighbor (n : Neighbor) (text : Bytes) : Prop :=
  ∃ hashes, SpellsCounted (fun hash spelling => hash.length < 2 ^ 32 ∧ spelling = Writer.blob hash)
    n.lastClockEventHashes hashes ∧ text = Writer.nodeId n.nodeId ++ hashes

theorem readNeighbor_parses (fits : buffer.Addressable) :
    Parses buffer.bytes (readNeighbor buffer) SpellsNeighbor := by
  refine ((Reader.nodeId_parses fits).bind fun id =>
    (readCounted_parses fits (Reader.blob_parses fits)).map).congr fun n text => ?_
  constructor
  · rintro ⟨id, _, _, rfl, ⟨hashes, spelled, rfl⟩, rfl⟩
    exact ⟨_, spelled, rfl⟩
  · rintro ⟨hashes, spelled, rfl⟩
    exact ⟨n.nodeId, _, _, rfl, ⟨n.lastClockEventHashes, spelled, rfl⟩, rfl⟩

theorem readRoute_parses (fits : buffer.Addressable) :
    Parses buffer.bytes (readRoute buffer) fun route text => text = writeRoute route := by
  refine ((Reader.nodeId_parses fits).bind fun destination => (Reader.nodeId_parses fits).map).congr
    fun route text => ?_
  constructor
  · rintro ⟨destination, _, _, rfl, ⟨nextHop, rfl, rfl⟩, rfl⟩
    rfl
  · rintro rfl
    exact ⟨route.1, _, _, rfl, ⟨route.2, rfl, rfl⟩, rfl⟩

theorem versioned_parses {α : Type} {read : ReadM α} {spells : α → Bytes → Prop} (version : UInt64)
    (parses : Parses buffer.bytes read spells) :
    Parses buffer.bytes
      (when (version ≠ kSnapshotVersion) (throw (.exception "snapshot: unsupported version")) >>=
      fun _ => read) fun value text => version = kSnapshotVersion ∧ spells value text := by
  unfold when
  by_cases current : version = kSnapshotVersion
  · rw [if_neg (by simpa using current)]
    exact parses.congr fun value text => (and_iff_right current).symm
  · rw [if_pos current]
    exact parses_throw.congr fun value text => ⟨False.elim, fun spelled => absurd spelled.1 current⟩

theorem readSnapshot_parses (fits : buffer.Addressable) :
    Parses buffer.bytes (readSnapshot buffer) fun contents text => ∃ records : SnapshotRecords,
      contents = records.contents ∧ ∃ events clockEvents unreferenced neighbors routes,
        SpellsCounted (fun e spelling => EventFits e ∧ spelling = Writer.event e)
        records.events events ∧
        SpellsCounted SpellsLocalClockEvent records.clockEvents clockEvents ∧
        SpellsCounted (fun e spelling => EventFits e ∧ spelling = Writer.event e)
          records.unreferenced unreferenced ∧
        SpellsCounted SpellsNeighbor records.neighbors neighbors ∧
        SpellsCounted (fun route spelling => spelling = writeRoute route) records.routes routes ∧
        text = Writer.u64 kSnapshotVersion ++
          (events ++ (clockEvents ++ (unreferenced ++ (neighbors ++ routes)))) := by
  have events := readCounted_parses fits (Reader.event_parses fits)
  refine ((Reader.u64_parses fits).bind fun version => versioned_parses version
    (events.bind fun events' =>
    (readCounted_parses fits (readLocalClockEvent_parses fits)).bind fun clockEvents =>
      events.bind fun _ =>
      (readCounted_parses fits (readNeighbor_parses fits)).bind fun neighbors =>
        (readCounted_parses fits (readRoute_parses fits)).map)).congr fun contents text => ?_
  constructor
  · rintro ⟨_, _, _, rfl, ⟨rfl, events, _, _, eventsSpelled, ⟨clockEvents, _, _, clocksSpelled,
      ⟨unreferenced, _, _, tailSpelled,
        ⟨neighbors, _, _, neighborsSpelled, ⟨routes, routesSpelled, rfl⟩, rfl⟩, rfl⟩,
      rfl⟩, rfl⟩, rfl⟩
    exact ⟨⟨events, clockEvents, unreferenced, neighbors, routes⟩, rfl, _, _, _, _, _,
      eventsSpelled, clocksSpelled, tailSpelled, neighborsSpelled, routesSpelled, rfl⟩
  · rintro ⟨records, rfl, _, _, _, _, _, eventsSpelled, clocksSpelled, tailSpelled,
      neighborsSpelled, routesSpelled, rfl⟩
    exact ⟨_, _, _, rfl,
      ⟨rfl, _, _, _, eventsSpelled, ⟨_, _, _, clocksSpelled, ⟨_, _, _, tailSpelled,
      ⟨_, _, _, neighborsSpelled, ⟨_, routesSpelled, rfl⟩, rfl⟩, rfl⟩, rfl⟩, rfl⟩, rfl⟩

theorem length_le_flatMap {α : Type} {write : α → Bytes} (nonempty : ∀ item, write item ≠ [])
    (items : List α) : items.length ≤ (items.flatMap write).length := by
  induction items with
  | nil => exact Nat.le_refl _
  | cons item rest ih =>
      have head := List.length_pos_iff.mpr (nonempty item)
      rw [List.flatMap_cons, List.length_append, List.length_cons]
      omega

theorem writeNodeId_ne_nil (id : NodeId) (rest : Bytes) : Writer.nodeId id ++ rest ≠ [] := by
  refine List.ne_nil_of_length_pos ?_
  rw [List.length_append, Writer.nodeId, id.size]
  omega

theorem writeEvent_ne_nil (e : Event) : Writer.event e ≠ [] := by
  simp only [Writer.event, List.append_assoc]
  exact writeNodeId_ne_nil _ _

theorem writeLocalClockEvent_ne_nil (c : LocalClockEvent) : writeLocalClockEvent c ≠ [] := by
  simp only [writeLocalClockEvent, Writer.clockEvent, List.append_assoc]
  exact writeNodeId_ne_nil _ _

theorem writeNeighbor_ne_nil (n : Neighbor) : writeNeighbor n ≠ [] := by
  simp only [writeNeighbor, List.append_assoc]
  exact writeNodeId_ne_nil _ _

theorem writeBlob_ne_nil (bytes : Bytes) : Writer.blob bytes ≠ [] := by
  refine List.ne_nil_of_length_pos ?_
  rw [Writer.blob, List.length_append, Writer.u32, BigEndian.digits_length]
  omega

theorem spellsCounted_of_room {α : Type} {spells : α → Bytes → Prop} {write : α → Bytes}
    {values : List α} (nonempty : ∀ value, write value ≠ [])
    (room : (writeCounted write values).length < 2 ^ 64)
    (each : ∀ value ∈ values, spells value (write value)) :
    SpellsCounted spells values (writeCounted write values) := by
  refine ⟨?_, _, spellsAll_flatMap each, rfl⟩
  have size := length_le_flatMap nonempty values
  rw [writeCounted, List.length_append] at room
  omega

theorem spellsLocalClockEvent_write {c : LocalClockEvent}
    (eventFits : ClockEventFits c.toClockEvent) (refsFit : RefsFit c.referencingEvents) :
    SpellsLocalClockEvent c (writeLocalClockEvent c) :=
  ⟨c.chain.toUInt64, UInt32.toUInt32_toUInt64 _, eventFits, refsFit, rfl⟩

theorem spellsNeighbor_write {n : Neighbor} (room : (writeNeighbor n).length < 2 ^ 64)
    (tipsFit : ∀ hash ∈ n.lastClockEventHashes, hash.length < 2 ^ 32) :
    SpellsNeighbor n (writeNeighbor n) := by
  refine ⟨_, spellsCounted_of_room writeBlob_ne_nil ?_ fun hash member =>
    ⟨tipsFit hash member, rfl⟩, ?_⟩
  · rw [writeNeighbor, List.append_assoc, List.length_append] at room
    exact Nat.lt_of_le_of_lt (Nat.le_add_left _ _) room
  · rw [writeNeighbor, writeCounted, List.append_assoc]

theorem readSnapshot_write {records : SnapshotRecords} (fits : records.Fits)
    (addressable : buffer.Addressable) (begins : records.write <+: buffer.bytes) :
    readSnapshot buffer 0 = .ok records.contents records.write.length := by
  have room : records.write.length < 2 ^ 64 := by
    have below := begins.length_le
    have word := addressable.half
    rcases addressable.1 with bits | bits <;> rw [bits] at word <;> omega
  refine (readSnapshot_parses addressable 0 (Nat.zero_le _) records.contents _).mpr
    ⟨records.write,
      ⟨records, rfl, _, _, _, _, _, ?_, ?_, ?_, ?_, ?_, rfl⟩, by simpa using begins, by simp⟩
  all_goals simp only [SnapshotRecords.write, List.length_append] at room
  · exact spellsCounted_of_room writeEvent_ne_nil (by omega) fun e member =>
      ⟨fits.events e member, rfl⟩
  · refine spellsCounted_of_room writeLocalClockEvent_ne_nil (by omega) fun c member => ?_
    exact spellsLocalClockEvent_write (fits.clockEvents c member).1 (fits.clockEvents c member).2
  · exact spellsCounted_of_room writeEvent_ne_nil (by omega) fun e member =>
      ⟨fits.unreferenced e member, rfl⟩
  · refine spellsCounted_of_room writeNeighbor_ne_nil (by omega) fun n member => ?_
    refine spellsNeighbor_write ?_ (fits.neighbors n member)
    have inside :=
      (List.sublist_flatten_of_mem (List.mem_map_of_mem (f := writeNeighbor) member)).length_le
    have within : (records.neighbors.flatMap writeNeighbor).length ≤
        (writeCounted writeNeighbor records.neighbors).length := by
      rw [writeCounted, List.length_append]
      omega
    rw [← List.flatMap_def] at inside
    omega
  · refine spellsCounted_of_room (fun route => ?_) (by omega) fun route _ => rfl
    exact writeNodeId_ne_nil _ _

end Reading

section Writing

variable {σ : Type} [Store σ] [DagStore σ] {s after : NodeState σ} {blob : Bytes}

def NodeState.records (s : NodeState σ) : SnapshotRecords where
  events := (DagStore.dag s.store).events
  clockEvents := Store.loadClockEvents s.store
  unreferenced := s.unreferencedPerChain[0]?.getD []
  neighbors := valuesOf s.neighbors
  routes := s.destinationToNextHop.toList

theorem mapM_range_eq {α : Type} {read : Nat → Except String α} {items : List α}
    (reads : ∀ k item, items[k]? = some item → read k = .ok item) :
    (List.range items.length).mapM read = .ok items := by
  induction items using List.reverseRecOn with
  | nil => rfl
  | append_singleton items last ih =>
      have front := ih fun k item found => reads k item (by
        rw [List.getElem?_append_left (List.getElem?_eq_some_iff.mp found).1]
        exact found)
      have final := reads items.length last (by simp)
      rw [List.length_append, List.length_singleton, List.range_succ, List.mapM_append, front]
      simp [final, bind, Except.bind, pure, Except.pure]

theorem snapshot_eq {tail : List Event} (sound : DagStore.Sound s.store)
    (first : s.unreferencedPerChain[0]? = some tail) : snapshot s = .ok s.records.write s := by
  have listed : (List.range (Store.eventCount s.store)).mapM (Store.eventBySeq s.store) =
      .ok (DagStore.dag s.store).events := by
    rw [DagStore.eventCount_eq sound]
    exact mapM_range_eq fun k event found => DagStore.eventBySeq_eq sound found
  have size : s.neighbors.size = (valuesOf s.neighbors).length := by simp [valuesOf]
  have ends : Returns snapshot s fun written after => written = s.records.write ∧ after = s := by
    simp only [snapshot, ends_bind, ends_get, ends_readStore, listed]
    refine ⟨?_, by simp⟩
    rintro _ ⟨⟩
    simp only [first, ends_pure, and_true]
    simp only [SnapshotRecords.write, writeCounted, NodeState.records, first, Option.getD_some,
      size, List.append_assoc, ExtTreeMap.length_toList]
    rfl
  obtain ⟨_, _, ran, rfl, rfl⟩ := ends.returns fun _ _ no => no
  exact ran

theorem snapshot_writes (sound : DagStore.Sound s.store) (taken : snapshot s = .ok blob after) :
    blob = s.records.write := by
  cases first : s.unreferencedPerChain[0]? with
  | some tail =>
      rw [snapshot_eq sound first] at taken
      exact (EStateM.Result.ok.inj taken).1.symm
  | none =>
      have never : Ends snapshot s (fun _ _ => False) (fun _ _ => True) := by
        simp [snapshot, first]
      exact (never.of_ok taken).elim

end Writing

end Loti
