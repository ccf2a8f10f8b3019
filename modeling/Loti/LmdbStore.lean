import Mathlib.Data.List.Sort
import Loti.Library.IndexedLog
import Loti.Library.StateExcept
import Loti.StorePort

/-!
`src/adapters/os/lmdb_store.cpp`, one level above the bytes of a record: each named
sub-database is an ordered map from keys to decoded records, and `referencing` (DUPSORT)
a sorted set of values per key. A write is one transaction that either commits or leaves
everything as it was; a transaction that fills the map is retried until it fits, so only
the last attempt shows. LMDB refuses to put a key that is empty or longer than 511 bytes
and to look up or delete an empty key. Its limit on the size of a value (`0xffffffff`
bytes) is left out.
-/

namespace Loti

open Std StateExcept IndexedLog

structure LmdbStore where
  events : ExtTreeMap Nat Event := ∅
  eventIndex : ExtTreeMap EventHash Nat := ∅
  clockEvents : ExtTreeMap Nat LocalClockEvent := ∅
  clockIndex : ExtTreeMap EventHash Nat := ∅
  referencing : ReverseIndex := ∅
  neighbors : ExtTreeMap NodeId (List EventHash) := ∅
  routes : ExtTreeMap NodeId NodeId := ∅
  timedRoutes : TimedRouteTable := ∅
  nextEventSeq : Nat := 0
  nextClockSeq : Nat := 0
  chainTipSeq : ExtTreeMap UInt32 Nat := ∅
  chainSeqs : ExtTreeMap UInt32 (List Nat) := ∅

namespace LmdbStore

def maxKeySize : Nat := 511

def badValsize (what : String) : String :=
  "lmdb: " ++ what ++
    ": MDB_BAD_VALSIZE: Unsupported size of key/DB name/data, or wrong DUPFIXED size"

def checkPut (what : String) (key : Bytes) : Except String Unit :=
  if 0 < key.length ∧ key.length ≤ maxKeySize then .ok () else .error (badValsize what)

def checkGet (what : String) (key : Bytes) : Except String Unit :=
  if 0 < key.length then .ok () else .error (badValsize what)

def appendEvent (s : LmdbStore) (e : Event) : Except String (Nat × LmdbStore) := do
  let seq := s.nextEventSeq
  checkPut "put event_index" e.hash
  return (seq, { s with
    events := s.events.insert seq e
    eventIndex := s.eventIndex.insert e.hash seq
    nextEventSeq := seq + 1 })

def insertDup (seq : Nat) (dups : List Nat) : List Nat :=
  if seq ∈ dups then dups else dups.orderedInsert (· ≤ ·) seq

def putReferencing (seq : Nat) (referencing : ReverseIndex) (ref : EventReference) :
    Except String ReverseIndex := do
  checkPut "put referencing" ref.hash
  return referencing.insert ref.hash (insertDup seq (referencing.getD ref.hash []))

def appendClockEvent (s : LmdbStore) (c : LocalClockEvent) : Except String (Nat × LmdbStore) := do
  let seq := s.nextClockSeq
  checkPut "put clock_index" c.hash
  let referencing ← c.referencedEvents.foldlM (putReferencing seq) s.referencing
  return (seq, { s with
    clockEvents := s.clockEvents.insert seq c
    clockIndex := s.clockIndex.insert c.hash seq
    referencing
    nextClockSeq := seq + 1
    chainTipSeq := s.chainTipSeq.insert c.chain seq
    chainSeqs := s.chainSeqs.insert c.chain (s.chainSeqs.getD c.chain [] ++ [seq]) })

def updateClockEvent (s : LmdbStore) (c : LocalClockEvent) : Except String LmdbStore := do
  checkGet "get clock_index" c.hash
  match s.clockIndex[c.hash]? with
  | some seq => return { s with clockEvents := s.clockEvents.insert seq c }
  | none => throw "lmdb: update_clock_event for an unknown clock event"

def deleteReferencing (seq : Nat) (referencing : ReverseIndex) (ref : EventReference) :
    Except String ReverseIndex := do
  checkGet "del referencing(prune)" ref.hash
  return referencing.insert ref.hash ((referencing.getD ref.hash []).filter (· ≠ seq))

def dropClockEvent (s : LmdbStore) (seq : Nat) : Except String LmdbStore :=
  match s.clockEvents[seq]? with
  | some ce => do
      let referencing ← ce.referencedEvents.foldlM (deleteReferencing seq) s.referencing
      checkGet "del clock_index(prune)" ce.hash
      return { s with
        referencing
        clockIndex := s.clockIndex.erase ce.hash
        clockEvents := s.clockEvents.erase seq }
  | none => return s

def pruneChain (s : LmdbStore) (chain : UInt32) (keep : Nat) : Except String LmdbStore :=
  match s.chainSeqs[chain]? with
  | some seqs =>
      if keep = 0 ∨ seqs.length ≤ keep then return s
      else do
        let toPrune := seqs.length - keep
        let pruned ← (seqs.take toPrune).foldlM dropClockEvent s
        return { pruned with chainSeqs := pruned.chainSeqs.insert chain (seqs.drop toPrune) }
  | none => return s

def seqOf (index : ExtTreeMap EventHash Nat) (hash : EventHash) : Except String (Option Nat) := do
  checkGet "get" hash
  return index[hash]?

def eventBySeq (s : LmdbStore) (seq : Nat) : Except String Event :=
  match s.events[seq]? with
  | some e => .ok e
  | none => .error "lmdb: event seq out of range"

def eventByHash (s : LmdbStore) (hash : EventHash) : Except String (Option Event) := do
  match ← seqOf s.eventIndex hash with
  | some seq => return some (← s.eventBySeq seq)
  | none => return none

def clockEventBySeq (s : LmdbStore) (seq : Nat) : Except String LocalClockEvent :=
  match s.clockEvents[seq]? with
  | some c => .ok c
  | none => .error "lmdb: clock event seq out of range"

def clockEventByHash (s : LmdbStore) (hash : EventHash) :
    Except String (Option LocalClockEvent) := do
  match ← seqOf s.clockIndex hash with
  | some seq => return some (← s.clockEventBySeq seq)
  | none => return none

def clockEventsReferencing (s : LmdbStore) (hash : EventHash) : Except String (List Nat) := do
  checkGet "cursor_next_dup" hash
  return s.referencing.getD hash []

def latestClockEventOn (s : LmdbStore) (chain : UInt32) : Except String (Option LocalClockEvent) :=
  match s.chainTipSeq[chain]? with
  | some seq => some <$> s.clockEventBySeq seq
  | none => .ok none

instance : Store LmdbStore where
  appendEvent := appendEvent
  appendClockEvent := appendClockEvent
  updateClockEvent := updateClockEvent
  putNeighbor s n := .ok { s with neighbors := s.neighbors.insert n.nodeId n.lastClockEventHashes }
  putRoute s destination nextHop := .ok { s with routes := s.routes.insert destination nextHop }
  putTimedRoutes s table := .ok { s with timedRoutes := table }
  pruneChain := pruneChain
  eventByHash := eventByHash
  eventBySeq := eventBySeq
  clockEventByHash := clockEventByHash
  clockEventBySeq := clockEventBySeq
  clockEventSeq s hash := seqOf s.clockIndex hash
  clockEventsReferencing := clockEventsReferencing
  latestClockEvent s := .ok (s.clockEvents.toList.getLast?.map Prod.snd)
  latestClockEventOn := latestClockEventOn
  eventCount s := s.events.size
  clockEventCount s := s.clockEvents.size
  loadClockEvents s := valuesOf s.clockEvents
  loadNeighbors s := s.neighbors.map fun id tips => ⟨id, tips⟩
  loadRoutes s := s.routes
  loadTimedRoutes s := s.timedRoutes
  clear _ := .ok {}

def ValidKey (key : Bytes) : Prop := 0 < key.length ∧ key.length ≤ maxKeySize

instance (key : Bytes) : Decidable (ValidKey key) := inferInstanceAs (Decidable (_ ∧ _))

theorem ValidKey.ne_nil {key : Bytes} (valid : ValidKey key) :
    key ≠ [] := List.ne_nil_of_length_pos valid.1

theorem checkPut_ok_iff {what : String} {key : Bytes} : checkPut what key = .ok () ↔
    ValidKey key := by
  unfold checkPut ValidKey
  split <;> simp_all

theorem putReferencing_ok_iff (seq : Nat) (refs : List EventReference)
    (referencing : ReverseIndex) :
    (∃ after, refs.foldlM (putReferencing seq) referencing = .ok after) ↔ ∀ ref ∈ refs,
    ValidKey ref.hash := by
  induction refs generalizing referencing with
  | nil => simp [pure, Except.pure]
  | cons ref rest ih =>
      simp only [List.foldlM_cons, except_bind_ok_iff, putReferencing, List.forall_mem_cons]
      constructor
      · rintro ⟨after, middle, ⟨_, checked, same⟩, written⟩
        exact ⟨checkPut_ok_iff.mp checked, (ih middle).mp ⟨after, written⟩⟩
      · rintro ⟨valid, others⟩
        obtain ⟨after, written⟩ := (ih _).mpr others
        exact ⟨after, _, ⟨(), checkPut_ok_iff.mpr valid, rfl⟩, written⟩

def withClockEvent (s : LmdbStore) (c : LocalClockEvent) (referencing : ReverseIndex) : LmdbStore :=
  { s with
    clockEvents := s.clockEvents.insert s.nextClockSeq c
    clockIndex := s.clockIndex.insert c.hash s.nextClockSeq
    referencing
    nextClockSeq := s.nextClockSeq + 1
    chainTipSeq := s.chainTipSeq.insert c.chain s.nextClockSeq
    chainSeqs := s.chainSeqs.insert c.chain (s.chainSeqs.getD c.chain [] ++ [s.nextClockSeq]) }

theorem latestClockEventOn_withClockEvent (s : LmdbStore) (c : LocalClockEvent)
    (referencing : ReverseIndex) :
    (s.withClockEvent c referencing).latestClockEventOn c.chain = .ok (some c) := by
  simp [latestClockEventOn, withClockEvent, clockEventBySeq, Functor.map, Except.map]

theorem appendClockEvent_inv {s after : LmdbStore} {c : LocalClockEvent} {seq : Nat}
    (appended : s.appendClockEvent c = .ok (seq, after)) :
    seq = s.nextClockSeq ∧ ∃ referencing, after = s.withClockEvent c referencing := by
  obtain ⟨_, -, written⟩ := except_bind_ok_iff.mp appended
  obtain ⟨referencing, -, same⟩ := except_bind_ok_iff.mp written
  cases same
  exact ⟨rfl, referencing, rfl⟩

theorem appendClockEvent_ok_iff (s : LmdbStore) (c : LocalClockEvent) :
    (∃ result, s.appendClockEvent c = .ok result) ↔
      ValidKey c.hash ∧ ∀ ref ∈ c.referencedEvents, ValidKey ref.hash := by
  simp only [appendClockEvent, except_bind_ok_iff]
  constructor
  · rintro ⟨result, _, checked, referencing, written, -⟩
    exact ⟨checkPut_ok_iff.mp checked, (putReferencing_ok_iff _ _ _).mp ⟨referencing, written⟩⟩
  · rintro ⟨valid, others⟩
    obtain ⟨referencing, written⟩ :=
      (putReferencing_ok_iff s.nextClockSeq _ s.referencing).mpr others
    exact ⟨_, (), checkPut_ok_iff.mpr valid, referencing, written, rfl⟩

structure Within (contents : Contents) (s : LmdbStore) : Prop where
  events : ∀ (seq : Nat) (e : Event), s.events[seq]? = some e → contents.event e
  log : Coherent (fun c : LocalClockEvent => c.hash) contents.clockEvent s.clockEvents s.clockIndex
    s.nextClockSeq
  lanes : Lanes (· ∈ s.clockEvents) s.chainTipSeq s.chainSeqs s.nextClockSeq
  neighbors : ∀ (id : NodeId) (tips : List EventHash), s.neighbors[id]? = some tips →
  contents.neighbor ⟨id, tips⟩

variable {contents : Contents} {s : LmdbStore} {after : LmdbStore}

theorem within_fresh (contents : Contents) : Within contents {} :=
  ⟨by simp, coherent_empty, lanes_empty, by simp⟩

theorem Within.withClockEvent {c : LocalClockEvent} (within : s.Within contents)
    (new : contents.clockEvent c) (referencing : ReverseIndex) :
    (s.withClockEvent c referencing).Within contents := by
  refine ⟨within.events, within.log.append new ?_, (within.lanes.append c.chain).mono ?_,
    within.neighbors⟩
  · intro hash seq entry
    rcases getElem?_insert_cases entry with ⟨rfl, rfl⟩ | ⟨-, old⟩
    · exact Or.inr ⟨rfl, rfl⟩
    · exact Or.inl old
  · rintro seq (old | rfl)
    · exact ExtTreeMap.mem_insert.mpr (Or.inr old)
    · exact ExtTreeMap.mem_insert_self

theorem Within.updateClockEvent {c : LocalClockEvent} (within : s.Within contents)
    (new : contents.clockEvent c) (updated : s.updateClockEvent c = .ok after) :
    after.Within contents := by
  obtain ⟨_, -, written⟩ := except_bind_ok_iff.mp updated
  split at written
  · rename_i seq entry
    cases written
    refine ⟨within.events, within.log.replace new entry, within.lanes.mono ?_, within.neighbors⟩
    exact fun other live => ExtTreeMap.mem_insert.mpr (Or.inr live)
  · cases written

abbrev LogWithin (contents : Contents) (s : LmdbStore) : Prop :=
  Coherent (fun c : LocalClockEvent => c.hash) contents.clockEvent s.clockEvents
    s.clockIndex s.nextClockSeq

structure Dropped (s : LmdbStore) (seqs : List Nat) (after : LmdbStore) : Prop where
  events : after.events = s.events
  neighbors : after.neighbors = s.neighbors
  nextClockSeq : after.nextClockSeq = s.nextClockSeq
  chainTipSeq : after.chainTipSeq = s.chainTipSeq
  chainSeqs : after.chainSeqs = s.chainSeqs
  others : ∀ seq ∉ seqs, after.clockEvents[seq]? = s.clockEvents[seq]?

theorem dropClockEvent_dropped {seq : Nat} (log : s.LogWithin contents)
    (ran : s.dropClockEvent seq = .ok after) : Dropped s [seq] after ∧
    after.LogWithin contents := by
  unfold dropClockEvent at ran
  split at ran
  · rename_i ce found
    obtain ⟨referencing, -, rest⟩ := except_bind_ok_iff.mp ran
    obtain ⟨_, -, same⟩ := except_bind_ok_iff.mp rest
    cases same
    refine ⟨⟨rfl, rfl, rfl, rfl, rfl, fun other different => ?_⟩, log.erase found⟩
    have apart : ¬seq = other := fun same => different (by simp [same])
    simp [ExtTreeMap.getElem?_erase, apart]
  · cases ran
    exact ⟨⟨rfl, rfl, rfl, rfl, rfl, fun _ _ => rfl⟩, log⟩

theorem dropClockEvents_dropped (seqs : List Nat) (log : s.LogWithin contents)
    (ran : seqs.foldlM dropClockEvent s = .ok after) : Dropped s seqs after ∧
    after.LogWithin contents := by
  induction seqs generalizing s with
  | nil =>
      cases ran
      exact ⟨⟨rfl, rfl, rfl, rfl, rfl, fun _ _ => rfl⟩, log⟩
  | cons seq rest ih =>
      rw [List.foldlM_cons] at ran
      obtain ⟨middle, first, others⟩ := except_bind_ok_iff.mp ran
      obtain ⟨one, middleLog⟩ := dropClockEvent_dropped log first
      obtain ⟨more, afterLog⟩ := ih middleLog others
      refine ⟨⟨more.events.trans one.events, more.neighbors.trans one.neighbors,
        more.nextClockSeq.trans one.nextClockSeq, more.chainTipSeq.trans one.chainTipSeq,
        more.chainSeqs.trans one.chainSeqs, fun other different => ?_⟩, afterLog⟩
      rw [List.mem_cons, not_or] at different
      rw [more.others other different.2, one.others other (by simpa using different.1)]

theorem pruneChain_inv {chain : UInt32} {keep : Nat} (ran : s.pruneChain chain keep = .ok after) :
    after = s ∨ ∃ members pruned, s.chainSeqs[chain]? = some members ∧
      members.length - keep < members.length ∧
      (members.take (members.length - keep)).foldlM dropClockEvent s = .ok pruned ∧
      after = { pruned with
        chainSeqs := pruned.chainSeqs.insert chain (members.drop (members.length - keep)) } := by
  unfold pruneChain at ran
  split at ran
  · rename_i members place
    split at ran
    · exact Or.inl (Except.ok.inj ran).symm
    · rename_i long
      obtain ⟨pruned, dropped, same⟩ := except_bind_ok_iff.mp ran
      exact Or.inr ⟨members, pruned, place, by omega, dropped, (Except.ok.inj same).symm⟩
  · exact Or.inl (Except.ok.inj ran).symm

theorem Within.pruneChain {chain : UInt32} {keep : Nat} (within : s.Within contents)
    (ran : s.pruneChain chain keep = .ok after) : after.Within contents := by
  rcases pruneChain_inv ran with rfl | ⟨members, pruned, place, short, dropped, rfl⟩
  · exact within
  · obtain ⟨kept, log⟩ := dropClockEvents_dropped _ within.log dropped
    refine ⟨?_, log, ?_, ?_⟩
    · rw [kept.events]
      exact within.events
    · rw [kept.chainTipSeq, kept.chainSeqs, kept.nextClockSeq]
      refine (within.lanes.prune place short).mono fun seq live => ?_
      rw [← ExtTreeMap.isSome_getElem?_iff_mem, kept.others seq live.2,
        ExtTreeMap.isSome_getElem?_iff_mem]
      exact live.1
    · rw [kept.neighbors]
      exact within.neighbors

def Droppable (contents : Contents) : Prop :=
  ∀ c, contents.clockEvent c → c.hash ≠ [] ∧ ∀ ref ∈ c.referencedEvents, ref.hash ≠ []

theorem checkGet_ok {what : String} {key : Bytes} (nonempty : key ≠ []) :
    checkGet what key = .ok () :=
  if_pos (List.length_pos_of_ne_nil nonempty)

theorem deleteReferencing_ok (seq : Nat) (refs : List EventReference) (referencing : ReverseIndex)
    (nonempty : ∀ ref ∈ refs, ref.hash ≠ []) :
    ∃ after, refs.foldlM (deleteReferencing seq) referencing = .ok after := by
  induction refs generalizing referencing with
  | nil => exact ⟨referencing, rfl⟩
  | cons ref rest ih =>
      obtain ⟨after, written⟩ := ih _ fun other member =>
        nonempty other (List.mem_cons_of_mem _ member)
      refine ⟨after, ?_⟩
      rw [List.foldlM_cons, deleteReferencing, checkGet_ok (nonempty ref (by simp))]
      exact written

theorem dropClockEvents_ok (droppable : Droppable contents) (seqs : List Nat)
    (log : s.LogWithin contents) : ∃ after, seqs.foldlM dropClockEvent s = .ok after := by
  induction seqs generalizing s with
  | nil => exact ⟨s, rfl⟩
  | cons seq rest ih =>
      obtain ⟨middle, first⟩ : ∃ middle, s.dropClockEvent seq = .ok middle := by
        unfold dropClockEvent
        split
        · rename_i ce found
          obtain ⟨hashed, referenced⟩ := droppable ce (log.live seq ce found).1
          obtain ⟨referencing, written⟩ :=
            deleteReferencing_ok seq ce.referencedEvents s.referencing referenced
          rw [written, checkGet_ok hashed]
          exact ⟨_, rfl⟩
        · exact ⟨s, rfl⟩
      obtain ⟨after, others⟩ := ih (dropClockEvent_dropped log first).2
      exact ⟨after, by rw [List.foldlM_cons, first]; exact others⟩

theorem latestClockEventOn_congr {chain : UInt32} (tips : after.chainTipSeq = s.chainTipSeq)
    (live : ∀ seq, s.chainTipSeq[chain]? = some seq →
      after.clockEvents[seq]? = s.clockEvents[seq]?) :
    after.latestClockEventOn chain = s.latestClockEventOn chain := by
  unfold LmdbStore.latestClockEventOn LmdbStore.clockEventBySeq
  rw [tips]
  cases tip : s.chainTipSeq[chain]? with
  | none => rfl
  | some seq => simp only [live seq tip]

theorem Within.pruneChain_ok (droppable : Droppable contents) (within : s.Within contents)
    (chain : UInt32) (keep : Nat) : ∃ after, s.pruneChain chain keep = .ok after ∧
      after.nextClockSeq = s.nextClockSeq ∧ ∀ other,
      after.latestClockEventOn other = s.latestClockEventOn other := by
  obtain ⟨after, ran⟩ : ∃ after, s.pruneChain chain keep = .ok after := by
    unfold LmdbStore.pruneChain
    split
    · split
      · exact ⟨s, rfl⟩
      · rename_i members place long
        obtain ⟨pruned, dropped⟩ := dropClockEvents_ok droppable
          (members.take (members.length - keep)) within.log
        exact ⟨_, by simp only [dropped]; rfl⟩
    · exact ⟨s, rfl⟩
  refine ⟨after, ran, ?_⟩
  rcases pruneChain_inv ran with rfl | ⟨members, pruned, place, short, dropped, rfl⟩
  · exact ⟨rfl, fun _ => rfl⟩
  · obtain ⟨kept, -⟩ := dropClockEvents_dropped _ within.log dropped
    refine ⟨kept.nextClockSeq, fun other =>
      latestClockEventOn_congr kept.chainTipSeq fun seq tip => ?_⟩
    refine kept.others seq fun gone => ?_
    -- a tip among the dropped numbers would be on this chain, whose tip is kept
    obtain ⟨others, otherPlace, last⟩ := within.lanes.tip other seq tip
    obtain rfl := within.lanes.disjoint chain other members others place otherPlace seq
      (List.mem_of_mem_take gone) (List.mem_of_getLast? last)
    exact within.lanes.tip_kept tip place short gone

theorem Within.clockEventBySeq {seq : Nat} {record : LocalClockEvent} (within : s.Within contents)
    (read : s.clockEventBySeq seq = .ok record) : contents.clockEvent record := by
  unfold LmdbStore.clockEventBySeq at read
  split at read
  · rename_i found
    cases read
    exact (within.log.live seq _ found).1
  · cases read

theorem Within.eventBySeq {seq : Nat} {event : Event} (within : s.Within contents)
    (read : s.eventBySeq seq = .ok event) : contents.event event := by
  unfold LmdbStore.eventBySeq at read
  split at read
  · rename_i found
    cases read
    exact within.events seq _ found
  · cases read

instance : LawfulStore LmdbStore where
  Within := Within
  within_mono implies within :=
    ⟨fun seq e found => implies.event e (within.events seq e found),
      within.log.mono implies.clockEvent, within.lanes, fun id tips found =>
      implies.neighbor _ (within.neighbors id tips found)⟩
  eventByHash_within := by
    intro contents s hash event within read
    obtain ⟨indexed, -, read⟩ := except_bind_ok_iff.mp read
    split at read
    · obtain ⟨found, stored, same⟩ := except_bind_ok_iff.mp read
      obtain rfl := Option.some.inj (Except.ok.inj same)
      exact within.eventBySeq stored
    · cases Except.ok.inj read
  eventBySeq_within within read := within.eventBySeq read
  clockEventByHash_within := by
    intro contents s hash record within read
    obtain ⟨indexed, looked, read⟩ := except_bind_ok_iff.mp read
    obtain ⟨_, -, entry⟩ := except_bind_ok_iff.mp looked
    split at read
    · obtain ⟨found, stored, same⟩ := except_bind_ok_iff.mp read
      obtain rfl := Option.some.inj (Except.ok.inj same)
      unfold LmdbStore.clockEventBySeq at stored
      split at stored
      · rename_i live
        cases stored
        exact within.log.lookup (Except.ok.inj entry) live
      · cases stored
    · cases Except.ok.inj read
  clockEventBySeq_within within read := within.clockEventBySeq read
  latestClockEventOn_within := by
    intro contents s chain record within read
    simp only [Store.latestClockEventOn, latestClockEventOn] at read
    split at read
    · obtain ⟨live, found, same⟩ := except_map_ok_iff.mp read
      cases same
      exact within.clockEventBySeq found
    · cases read
  loadNeighbors_within := by
    intro contents s id neighbor within found
    simp only [Store.loadNeighbors, ExtTreeMap.getElem?_map] at found
    obtain ⟨tips, entry, rfl⟩ := Option.map_eq_some_iff.mp found
    exact ⟨rfl, within.neighbors id tips entry⟩
  within_appendEvent := by
    intro contents s after event seq within new written
    obtain ⟨_, -, same⟩ := except_bind_ok_iff.mp written
    cases same
    refine ⟨fun seq e found => ?_, within.log, within.lanes, within.neighbors⟩
    rcases getElem?_insert_cases found with ⟨-, rfl⟩ | ⟨-, old⟩
    · exact new
    · exact within.events seq e old
  within_appendClockEvent := by
    intro contents s after record seq within new written
    obtain ⟨-, referencing, rfl⟩ := appendClockEvent_inv written
    exact within.withClockEvent new referencing
  within_updateClockEvent within new written := within.updateClockEvent new written
  within_putNeighbor := by
    intro contents s after neighbor within new written
    cases written
    refine ⟨within.events, within.log, within.lanes, fun id tips found => ?_⟩
    rcases getElem?_insert_cases found with ⟨rfl, rfl⟩ | ⟨-, old⟩
    · exact new
    · exact within.neighbors id tips old
  within_putRoute := by
    intro contents s after destination nextHop within written
    cases written
    exact ⟨within.events, within.log, within.lanes, within.neighbors⟩
  within_putTimedRoutes := by
    intro contents s after table within written
    cases written
    exact ⟨within.events, within.log, within.lanes, within.neighbors⟩
  within_pruneChain within written := within.pruneChain written
  within_clear cleared := Except.ok.inj cleared ▸ within_fresh _

end LmdbStore

end Loti
