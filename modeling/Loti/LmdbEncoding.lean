import Loti.Library.TableEncoding
import Loti.LmdbDag
import Loti.LmdbFailures
import Loti.Snapshot

/-!
What the sub-databases of an LMDB file say: a record under each sequence number, a number under
each hash, and the overlay under the nodes' ids. As long as every blob and every list has fewer
than `2 ^ 32` elements, a record reads back as it was written, and so does the file when it is
opened again.
-/

namespace Loti.LmdbFile

open Std StateExcept Transactions TableEncoding Parsing BigEndian

def Numbered (seq : Nat) : Prop := seq < 2 ^ 64

theorem Numbered.bytes {seq : Nat} (numbered : Numbered seq) : seq < 256 ^ 8 := by
  have power : 2 ^ 64 = 256 ^ 8 := by norm_num
  exact power ▸ numbered

theorem be64_ordered : TableEncoding.Ordered be64 Numbered := fun _ _ one two =>
    compare_digits one.bytes two.bytes

theorem hash_ordered : TableEncoding.Ordered (id : EventHash → Bytes) fun _ => True :=
  fun _ _ _ _ => rfl

theorem nodeId_ordered : TableEncoding.Ordered NodeId.bytes fun _ => True := fun _ _ _ _ => rfl

theorem be64_length (seq : Nat) : (be64 seq).length = 8 := digits_length 8 seq

theorem be64_inj {first second : Nat} (one : Numbered first) (two : Numbered second)
    (same : be64 first = be64 second) : first = second := be64_ordered.inj one two same

theorem getU64Be_be64 {seq : Nat} (numbered : Numbered seq) : getU64Be (be64 seq) = seq := by
  rw [getU64Be, List.take_of_length_le (Nat.le_of_eq (be64_length seq)), be64, value_digits,
    Nat.mod_eq_of_lt numbered.bytes]

structure Lists (table : ExtTreeMap Bytes (List Bytes)) (referencing : ReverseIndex) : Prop where
  listed : ∀ hash : EventHash, table.getD hash [] = (referencing.getD hash []).map be64
  numbered : ∀ hash : EventHash, ∀ seq ∈ referencing.getD hash [], Numbered seq

structure Encodes (t : Tables) (l : LmdbStore) : Prop where
  events : Denotes be64 Wire.Writer.event Numbered (t.plain .events) l.events
  eventIndex : Denotes id be64 (fun _ => True) (t.plain .eventIndex) l.eventIndex
  clockEvents : Denotes be64 writeLocalClockEvent Numbered (t.plain .clockEvents) l.clockEvents
  clockIndex : Denotes id be64 (fun _ => True) (t.plain .clockIndex) l.clockIndex
  referencing : Lists t.referencing l.referencing
  neighbors : Denotes NodeId.bytes tipsValue (fun _ => True) (t.plain .neighbors) l.neighbors
  routes : Denotes NodeId.bytes NodeId.bytes (fun _ => True) (t.plain .routes) l.routes
  timedRoutes : Denotes NodeId.bytes timedRoutesValue (fun _ => True) (t.plain .timedRoutes) l.timedRoutes

theorem encodes_empty : Encodes {} {} := by
  constructor <;> first | exact denotes_empty | exact ⟨by simp, by simp⟩

section Records

variable (build : Build)

abbrev Room (bytes : Bytes) : Prop := Wire.Buffer.Addressable ⟨bytes, build.wordBits⟩

def EventFits (e : Event) : Prop := Wire.EventFits e ∧ Room build (Wire.Writer.event e)

def RecordFits (c : LocalClockEvent) : Prop :=
  Wire.ClockEventFits c.toClockEvent ∧ Wire.RefsFit c.referencingEvents ∧
    Room build (writeLocalClockEvent c)

def TipsFit (tips : List EventHash) : Prop :=
  (∀ hash ∈ tips, hash.length < 2 ^ 32) ∧ Room build (tipsValue tips)

def RoutesFit (routes : List TimedRoute) : Prop :=
  (∀ route ∈ routes, route.nextHops.length < 2 ^ 32) ∧ Room build (timedRoutesValue routes)

def fitting : Contents where
  event e := EventFits build e
  clockEvent c := RecordFits build c ∧ c.hash ≠ [] ∧ ∀ ref ∈ c.referencedEvents, ref.hash ≠ []
  neighbor n := TipsFit build n.lastClockEventHashes

variable {build}

theorem readRecord_ok {α : Type} {read : Wire.Buffer → Wire.ReadM α} {bytes text : Bytes}
    {spells : α → Bytes → Prop} {value : α}
    (parses : Parses bytes (read ⟨bytes, build.wordBits⟩) spells) (spelled : spells value text)
    (begins : text <+: bytes) : readRecord build read bytes = .ok value := by
  have returned := (parses 0 (Nat.zero_le _) value (0 + text.length)).mpr
    ⟨text, spelled, begins, rfl⟩
  rw [readRecord, returned]

theorem EventFits.reads {e : Event} (fits : EventFits build e) :
    readRecord build Wire.Reader.event (Wire.Writer.event e) = .ok e :=
  readRecord_ok (Wire.Reader.event_parses fits.2) ⟨fits.1, rfl⟩ List.prefix_rfl

theorem RecordFits.reads {c : LocalClockEvent} (fits : RecordFits build c) :
    readRecord build readLocalClockEvent (writeLocalClockEvent c) = .ok c :=
  readRecord_ok (readLocalClockEvent_parses fits.2.2)
    (spellsLocalClockEvent_write fits.1 fits.2.1) List.prefix_rfl

theorem RecordFits.readsFront {c : LocalClockEvent} (fits : RecordFits build c) :
    readClockEvent build (writeLocalClockEvent c) = .ok c.toClockEvent := by
  have returned := (Wire.Reader.clockEvent_parses fits.2.2 0 (Nat.zero_le _) c.toClockEvent _).mpr
    ⟨_, ⟨c.chain.toUInt64, UInt32.toUInt32_toUInt64 _, fits.1, rfl⟩, List.prefix_append _ _, rfl⟩
  rw [readClockEvent, returned]

theorem Room.short {bytes : Bytes} (room : Room build bytes) : bytes.length < 2 ^ 64 := by
  have below := room.2
  dsimp only at below
  rcases room.1 with bits | bits <;> dsimp only at bits <;> rw [bits] at below <;> omega

theorem TipsFit.reads {tips : List EventHash} (fits : TipsFit build tips) :
    readRecord build readTips (tipsValue tips) = .ok tips := by
  refine readRecord_ok (readCounted_parses fits.2 (Wire.Reader.blob_parses fits.2)) ?_
    (@List.prefix_rfl _ (tipsValue tips))
  exact spellsCounted_of_room writeBlob_ne_nil (Room.short fits.2) fun hash listed =>
    ⟨fits.1 hash listed, rfl⟩

theorem readTimedRoute_parses {buffer : Wire.Buffer} (addressable : buffer.Addressable) :
    Parses buffer.bytes (readTimedRoute buffer) fun route text => route.nextHops.length < 2 ^ 32 ∧
      text = Wire.Writer.timeRange route.validity ++ Wire.Writer.nodeIds route.nextHops := by
  refine ((Wire.Reader.timeRange_parses addressable).bind fun validity =>
    (Wire.Reader.nodeIds_parses addressable).map).congr fun route text => ?_
  constructor
  · rintro ⟨validity, _, _, rfl, ⟨nextHops, ⟨short, rfl⟩, rfl⟩, rfl⟩
    exact ⟨short, rfl⟩
  · rintro ⟨short, rfl⟩
    exact ⟨route.validity, _, _, rfl, ⟨route.nextHops, ⟨short, rfl⟩, rfl⟩, rfl⟩

theorem RoutesFit.reads {routes : List TimedRoute} (fits : RoutesFit build routes) :
    readRecord build (fun buffer => readCounted buffer (readTimedRoute buffer))
    (timedRoutesValue routes) = .ok routes := by
  refine readRecord_ok (readCounted_parses fits.2 (readTimedRoute_parses fits.2)) ?_
    (@List.prefix_rfl _ (timedRoutesValue routes))
  refine spellsCounted_of_room (fun route => ?_) (Room.short fits.2) fun route listed =>
    ⟨fits.1 route listed, rfl⟩
  refine List.ne_nil_of_length_pos ?_
  simp only [Wire.Writer.timeRange, Wire.Writer.u64, List.length_append, digits_length]
  omega

theorem droppable_fitting : LmdbStore.Droppable (fitting build) := fun _ fits => fits.2

end Records

structure Orderly (build : Build) (l : LmdbStore) : Prop where
  sound : l.Sound
  within : l.Within (fitting build)
  timedRoutes : ∀ (id : NodeId) (routes : List TimedRoute), l.timedRoutes[id]? = some routes →
  RoutesFit build routes
  indexed : ∀ (hash : EventHash) (seq : Nat), l.eventIndex[hash]? = some seq → seq < l.nextEventSeq
  newest : l.nextClockSeq = 0 ∨ l.nextClockSeq - 1 ∈ l.clockEvents
  inhabited : ∀ (chain : UInt32) (members : List Nat), l.chainSeqs[chain]? = some members →
  members ≠ []
  single : ∀ hash : EventHash, (l.referencing.getD hash []).Nodup

structure Refines (s : LmdbFile) (l : LmdbStore) : Prop where
  idle : s.env.writer = none
  encodes : Encodes s.env.committed l
  counters : s.counters = (l.nextEventSeq, l.nextClockSeq, l.chainTipSeq, l.chainSeqs)

variable {build : Build} {s : LmdbFile} {l : LmdbStore} {t : Tables}

/-! Opening -/

theorem nextSeq_eq {Value : Type} {value : Value → Bytes} {table : ExtTreeMap Bytes Bytes}
    {map : ExtTreeMap Nat Value} {next : Nat} (denotes : Denotes be64 value Numbered table map)
    (below : ∀ seq ∈ map, seq < next)
    (newest : next = 0 ∨ next - 1 ∈ map) : nextSeq table = next := by
  unfold nextSeq
  rw [denotes.maxKey?_eq be64_ordered]
  cases last : map.maxKey? with
  | none =>
      rw [ExtTreeMap.maxKey?_eq_none_iff] at last
      subst last
      rcases newest with zero | listed
      · exact zero.symm
      · simp at listed
  | some seq =>
      obtain ⟨listed, highest⟩ := ExtTreeMap.maxKey?_eq_some_iff_mem_and_forall.mp last
      have bound := below seq listed
      dsimp only [Option.map_some]
      rw [getU64Be_be64 (denotes.fitting seq listed)]
      rcases newest with zero | newest
      · omega
      · have high := Nat.isLE_compare.mp (highest _ newest)
        omega

def Trackers.of (pair : ExtTreeMap UInt32 Nat × ExtTreeMap UInt32 (List Nat)) : Trackers :=
  ⟨pair.1, pair.2⟩

def Trackers.note (trackers : Trackers) (entry : Nat × LocalClockEvent) : Trackers where
  chainTipSeq := trackers.chainTipSeq.insert entry.2.chain entry.1
  chainSeqs := trackers.chainSeqs.insert entry.2.chain
    (trackers.chainSeqs.getD entry.2.chain [] ++ [entry.1])

theorem seedChainTips_eq (encodes : Encodes t l) (orderly : Orderly build l) :
    seedChainTips build t = .ok ⟨l.chainTipSeq, l.chainSeqs⟩ := by
  have each : ∀ trackers, ∀ entry ∈ l.clockEvents.toList,
      seedRecord build trackers (be64 entry.1, writeLocalClockEvent entry.2) =
      .ok (trackers.note entry) := by
    intro trackers entry listed
    have found := ExtTreeMap.mem_toList_iff_getElem?_eq_some.mp listed
    rw [seedRecord, (orderly.within.log.live _ _ found).1.1.readsFront]
    simp only [getU64Be_be64 (encodes.clockEvents.fitting _ (mem_of_getElem? found))]
    rfl
  have noted : l.clockEvents.toList.foldl Trackers.note {} = ⟨l.chainTipSeq, l.chainSeqs⟩ := by
    have tracked := orderly.sound.laned.eq_track orderly.inhabited
    have step : ∀ pair entry, (Trackers.of pair).note entry = .of
      (RingLog.track (fun c => c.chain) pair entry) := fun _ _ => rfl
    rw [show ({} : Trackers) = .of (∅, ∅) from rfl, List.foldl_hom Trackers.of step, tracked]
    rfl
  rw [seedChainTips, encodes.clockEvents.toList_eq be64_ordered, List.foldlM_map,
    except_foldlM_eq_ok each, noted]

theorem openFile_eq (encodes : Encodes t l) (orderly : Orderly build l)
    (script : List (Option ErrorCode)) (mapSize : Nat) :
    ∃ file, openFile build t script mapSize = .ok file ∧ Refines file l := by
  have events : nextSeq (t.plain .events) = l.nextEventSeq := by
    refine nextSeq_eq encodes.events (fun seq => (orderly.sound.dense seq).mp) ?_
    rw [orderly.sound.dense]
    omega
  have clockEvents : nextSeq (t.plain .clockEvents) = l.nextClockSeq := by
    refine nextSeq_eq encodes.clockEvents (fun seq listed => ?_) orderly.newest
    obtain ⟨c, found⟩ := Option.isSome_iff_exists.mp (ExtTreeMap.isSome_getElem?_iff_mem.mpr listed)
    exact orderly.sound.logs.below seq c found
  simp only [openFile, seedChainTips_eq encodes orderly, events, clockEvents]
  exact ⟨_, rfl, rfl, encodes, rfl⟩

/-! Reads -/

section Reads

theorem getBytes_of_ne_nil {db : Db} {key : Bytes} (nonempty : key ≠ []) :
    s.getBytes db key = .ok (s.env.committed.plain db)[key]? := if_neg nonempty

theorem seqOf_eq {db : Db} {index : ExtTreeMap EventHash Nat} {hash : EventHash}
    (denotes : Denotes id be64 (fun _ => True) (s.env.committed.plain db) index)
    (numbered : ∀ seq, index[hash]? = some seq → Numbered seq) (nonempty : hash ≠ []) :
    s.seqOf db hash = .ok index[hash]? := by
  have stored : (s.env.committed.plain db)[hash]? = index[hash]?.map be64 :=
    denotes.lookup hash trivial
  rw [seqOf, getBytes_of_ne_nil nonempty, stored]
  cases entry : index[hash]? with
  | none => rfl
  | some seq =>
      have size : ¬(be64 seq).length ≠ 8 := not_not_intro (be64_length seq)
      simp only [Option.map_some, bind, Except.bind, if_neg size,
        getU64Be_be64 (numbered seq entry)]
      rfl

theorem getNodeId_bytes (id : NodeId) : getNodeId id.bytes = .ok id := by
  have whole : id.bytes.take 16 = id.bytes := List.take_of_length_le (Nat.le_of_eq id.size)
  simp only [getNodeId, whole, id.size, dif_pos]

theorem loadMap_eq {Value Out : Type} {value : Value → Bytes}
    {readValue : NodeId → Bytes → Except Fault Out} {out : NodeId → Value → Out}
    {table : ExtTreeMap Bytes Bytes} {map : ExtTreeMap NodeId Value}
    (denotes : Denotes NodeId.bytes value (fun _ => True) table map)
    (reads : ∀ id held, map[id]? = some held → readValue id (value held) = .ok (out id held)) :
    loadMap readValue table = .ok (map.map out) := by
  have each : ∀ (built : ExtTreeMap NodeId Out), ∀ entry ∈ map.toList,
      (do let nodeId ← getNodeId entry.1.bytes
          return built.insert nodeId (← readValue nodeId (value entry.2))) =
        Except.ok (built.insert entry.1 (out entry.1 entry.2)) := by
    intro built entry listed
    have found := ExtTreeMap.mem_toList_iff_getElem?_eq_some.mp listed
    simp only [getNodeId_bytes, bind, Except.bind, reads _ _ found]
    rfl
  rw [loadMap, denotes.toList_eq nodeId_ordered, List.foldlM_map, except_foldlM_eq_ok each]
  have whole := foldl_insert_toList (map.map out)
  rw [ExtTreeMap.toList_map, List.foldl_map] at whole
  rw [whole]

variable (refines : Refines s l) (orderly : Orderly build l) {hash : EventHash} {seq : Nat}

include refines orderly

omit orderly in
theorem eventBySeq_reads {e : Event} (found : l.events[seq]? = some e) :
    s.eventBySeq build seq = readRecord build Wire.Reader.event (Wire.Writer.event e) := by
  have fits := refines.encodes.events.fitting _ (mem_of_getElem? found)
  rw [eventBySeq, getBytes_of_ne_nil (be64_ne_nil seq),
    refines.encodes.events.lookup seq fits, found]
  rfl

theorem eventBySeq_ok {e : Event} (found : l.events[seq]? = some e) :
    s.eventBySeq build seq = .ok e := by
  rw [eventBySeq_reads refines found]
  exact (orderly.within.events seq e found).reads

theorem eventBySeq_eq (numbered : Numbered seq) :
    (s.eventBySeq build seq).toOption = l.events[seq]? := by
  cases found : l.events[seq]? with
  | none =>
      rw [eventBySeq, getBytes_of_ne_nil (be64_ne_nil seq),
        refines.encodes.events.lookup seq numbered, found]
      rfl
  | some e => rw [eventBySeq_ok refines orderly found, Except.toOption]

theorem clockEventBySeq_ok {c : LocalClockEvent} (found : l.clockEvents[seq]? = some c) :
    s.clockEventBySeq build seq = .ok c := by
  have fits := refines.encodes.clockEvents.fitting _ (mem_of_getElem? found)
  rw [clockEventBySeq, getBytes_of_ne_nil (be64_ne_nil seq),
    refines.encodes.clockEvents.lookup seq fits, found]
  exact (orderly.within.log.live seq c found).1.1.reads

theorem clockEventBySeq_eq (numbered : Numbered seq) :
    (s.clockEventBySeq build seq).toOption = l.clockEvents[seq]? := by
  cases found : l.clockEvents[seq]? with
  | none =>
      rw [clockEventBySeq, getBytes_of_ne_nil (be64_ne_nil seq),
        refines.encodes.clockEvents.lookup seq numbered, found]
      rfl
  | some c => rw [clockEventBySeq_ok refines orderly found, Except.toOption]

theorem eventByHash_eq (nonempty : hash ≠ []) :
    s.eventByHash build hash = .ok (l.eventIndex[hash]?.bind fun seq => l.events[seq]?) := by
  have live : ∀ seq, l.eventIndex[hash]? = some seq → seq ∈ l.events := fun seq entry =>
    (orderly.sound.dense seq).mpr (orderly.indexed hash seq entry)
  rw [eventByHash, seqOf_eq refines.encodes.eventIndex
    (fun seq entry => refines.encodes.events.fitting seq (live seq entry)) nonempty]
  cases entry : l.eventIndex[hash]? with
  | none => rfl
  | some seq =>
      obtain ⟨e, found⟩ := Option.isSome_iff_exists.mp
        (ExtTreeMap.isSome_getElem?_iff_mem.mpr (live seq entry))
      simp only [bind, Except.bind, eventBySeq_ok refines orderly found, Option.bind_some, found]
      rfl

theorem clockEventSeq_eq (nonempty : hash ≠ []) :
    s.clockEventSeq hash = .ok l.clockIndex[hash]? := by
  refine seqOf_eq refines.encodes.clockIndex (fun seq entry => ?_) nonempty
  obtain ⟨c, found, -⟩ := (orderly.sound.logs.indexed hash seq).mp entry
  exact refines.encodes.clockEvents.fitting seq (mem_of_getElem? found)

theorem clockEventByHash_eq (nonempty : hash ≠ []) :
    s.clockEventByHash build hash = .ok (l.clockIndex[hash]?.bind fun seq =>
      l.clockEvents[seq]?) := by
  have seqs : s.seqOf .clockIndex hash = .ok l.clockIndex[hash]? :=
    clockEventSeq_eq refines orderly nonempty
  rw [clockEventByHash, seqs]
  cases entry : l.clockIndex[hash]? with
  | none => rfl
  | some seq =>
      obtain ⟨c, found, -⟩ := (orderly.sound.logs.indexed hash seq).mp entry
      simp only [bind, Except.bind, clockEventBySeq_ok refines orderly found,
        Option.bind_some, found]
      rfl

omit orderly in
theorem clockEventsReferencing_eq (nonempty : hash ≠ []) :
    s.clockEventsReferencing hash = .ok (l.referencing.getD hash []) := by
  have back : ∀ seq ∈ l.referencing.getD hash [], (getU64Be ∘ be64) seq = id seq := by
    intro seq listed
    rw [Function.comp_apply, getU64Be_be64 (refines.encodes.referencing.numbered hash seq listed),
      id]
  rw [clockEventsReferencing, if_neg nonempty, refines.encodes.referencing.listed hash,
    List.map_map, List.map_congr_left back, List.map_id]

theorem latestClockEvent_eq :
    s.latestClockEvent build = .ok (l.clockEvents.toList.getLast?.map Prod.snd) := by
  rw [latestClockEvent, refines.encodes.clockEvents.toList_eq be64_ordered, List.getLast?_map]
  cases last : l.clockEvents.toList.getLast? with
  | none => rfl
  | some entry =>
      have found := ExtTreeMap.mem_toList_iff_getElem?_eq_some.mp (List.mem_of_getLast? last)
      simp only [Option.map_some, (orderly.within.log.live _ _ found).1.1.reads]
      rfl

theorem latestClockEventOn_eq (chain : UInt32) :
    s.latestClockEventOn build chain = .ok (l.chainTipSeq[chain]?.bind fun seq =>
      l.clockEvents[seq]?) := by
  have tips : s.chainTipSeq = l.chainTipSeq :=
    congrArg (fun members => members.2.2.1) refines.counters
  rw [latestClockEventOn, tips]
  cases tip : l.chainTipSeq[chain]? with
  | none => rfl
  | some seq =>
      have live := orderly.within.lanes.tip_live tip
      obtain ⟨c, found⟩ := Option.isSome_iff_exists.mp (ExtTreeMap.isSome_getElem?_iff_mem.mpr live)
      simp only [clockEventBySeq_ok refines orderly found, Option.bind_some, found]
      rfl

theorem loadClockEvents_eq : s.loadClockEvents build = .ok (valuesOf l.clockEvents) := by
  have each : ∀ entry ∈ l.clockEvents.toList,
      readRecord build readLocalClockEvent (writeLocalClockEvent entry.2) = .ok entry.2 :=
      fun entry listed =>
    (orderly.within.log.live _ _ (ExtTreeMap.mem_toList_iff_getElem?_eq_some.mp listed)).1.1.reads
  rw [loadClockEvents, refines.encodes.clockEvents.toList_eq be64_ordered, List.mapM_map, valuesOf]
  exact except_mapM_eq_ok each

theorem loadNeighbors_eq :
    s.loadNeighbors build = .ok (l.neighbors.map fun id tips => ⟨id, tips⟩) := by
  refine loadMap_eq refines.encodes.neighbors fun id tips found => ?_
  have fits : TipsFit build tips := orderly.within.neighbors id tips found
  rw [fits.reads]
  rfl

omit orderly in
theorem loadRoutes_eq : s.loadRoutes = .ok l.routes := by
  have read := loadMap_eq refines.encodes.routes fun _ nextHop _ => getNodeId_bytes nextHop
  rw [loadRoutes, read]
  exact congrArg Except.ok (ExtTreeMap.ext_getElem? fun id => by simp)

theorem loadTimedRoutes_eq : s.loadTimedRoutes build = .ok l.timedRoutes := by
  have read := loadMap_eq refines.encodes.timedRoutes fun id routes found =>
    (orderly.timedRoutes id routes found).reads
  rw [loadTimedRoutes, read]
  exact congrArg Except.ok (ExtTreeMap.ext_getElem? fun id => by simp)

end Reads

end Loti.LmdbFile
