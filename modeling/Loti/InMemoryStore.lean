import Mathlib.Data.List.Sort
import Loti.Library.IndexedLog
import Loti.Library.StateExcept
import Loti.StorePort

/-!
`src/adapters/sim/in_memory_store.hpp`: the simulation's store. `std::multimap` keeps,
for each key, its values in insertion order.
-/

namespace Loti

open Std StateExcept IndexedLog

structure InMemoryStore where
  events : List Event := []
  clockEvents : ExtTreeMap Nat LocalClockEvent := ∅
  nextClockSeq : Nat := 0
  eventSeq : ExtTreeMap EventHash Nat := ∅
  clockSeq : ExtTreeMap EventHash Nat := ∅
  referencing : ReverseIndex := ∅
  chainTipSeq : ExtTreeMap UInt32 Nat := ∅
  chainSeqs : ExtTreeMap UInt32 (List Nat) := ∅
  neighbors : Neighbors := ∅
  routes : ExtTreeMap NodeId NodeId := ∅
  timedRoutes : TimedRouteTable := ∅

namespace InMemoryStore

def appendEvent (s : InMemoryStore) (e : Event) : Nat × InMemoryStore :=
  let seq := s.events.length
  (seq, { s with eventSeq := s.eventSeq.insertIfNew e.hash seq, events := s.events ++ [e] })

def emplaceReferencing (seq : Nat) (referencing : ReverseIndex)
    (ref : EventReference) : ReverseIndex :=
  referencing.insert ref.hash (referencing.getD ref.hash [] ++ [seq])

def eraseReferencing (seq : Nat) (referencing : ReverseIndex)
    (ref : EventReference) : ReverseIndex :=
  referencing.insert ref.hash ((referencing.getD ref.hash []).filter (· ≠ seq))

def appendClockEvent (s : InMemoryStore) (c : LocalClockEvent) : Nat × InMemoryStore :=
  let seq := s.nextClockSeq
  (seq, { s with
    nextClockSeq := seq + 1
    clockSeq := s.clockSeq.insertIfNew c.hash seq
    referencing := c.referencedEvents.foldl (emplaceReferencing seq) s.referencing
    chainTipSeq := s.chainTipSeq.insert c.chain seq
    chainSeqs := s.chainSeqs.insert c.chain (s.chainSeqs.getD c.chain [] ++ [seq])
    clockEvents := s.clockEvents.insertIfNew seq c })

def updateClockEvent (s : InMemoryStore) (c : LocalClockEvent) : InMemoryStore :=
  match s.clockSeq[c.hash]? with
  | some seq => { s with clockEvents := s.clockEvents.insert seq c }
  | none => s

def dropClockEvent (s : InMemoryStore) (seq : Nat) : InMemoryStore :=
  match s.clockEvents[seq]? with
  | some ce => { s with
      clockSeq := s.clockSeq.erase ce.hash
      referencing := ce.referencedEvents.foldl (eraseReferencing seq) s.referencing
      clockEvents := s.clockEvents.erase seq }
  | none => s

def pruneSeqs (keep : Nat) : InMemoryStore → List Nat → InMemoryStore × List Nat
  | s, [] => (s, [])
  | s, seq :: rest =>
      if keep < (seq :: rest).length then pruneSeqs keep (s.dropClockEvent seq) rest
      else (s, seq :: rest)

def pruneChain (s : InMemoryStore) (chain : UInt32) (keep : Nat) : InMemoryStore :=
  match s.chainSeqs[chain]? with
  | some seqs =>
      if keep = 0 then s
      else
        let pruned := pruneSeqs keep s seqs
        { pruned.1 with chainSeqs := pruned.1.chainSeqs.insert chain pruned.2 }
  | none => s

def clockEventBySeq (s : InMemoryStore) (seq : Nat) : Except String LocalClockEvent :=
  match s.clockEvents[seq]? with
  | some c => .ok c
  | none => .error "map::at"

def eventBySeq (s : InMemoryStore) (seq : Nat) : Except String Event :=
  match s.events[seq]? with
  | some e => .ok e
  | none => .error "vector::_M_range_check"

def clockEventByHash (s : InMemoryStore) (hash : EventHash) :
    Except String (Option LocalClockEvent) :=
  match s.clockSeq[hash]? with
  | some seq => some <$> s.clockEventBySeq seq
  | none => .ok none

def latestClockEventOn (s : InMemoryStore) (chain : UInt32) :
    Except String (Option LocalClockEvent) :=
  match s.chainTipSeq[chain]? with
  | some seq => some <$> s.clockEventBySeq seq
  | none => .ok none

instance : Store InMemoryStore where
  appendEvent s e := .ok (s.appendEvent e)
  appendClockEvent s c := .ok (s.appendClockEvent c)
  updateClockEvent s c := .ok (s.updateClockEvent c)
  putNeighbor s n := .ok { s with neighbors := s.neighbors.insert n.nodeId n }
  putRoute s destination nextHop := .ok { s with routes := s.routes.insert destination nextHop }
  putTimedRoutes s table := .ok { s with timedRoutes := table }
  pruneChain s chain keep := .ok (s.pruneChain chain keep)
  eventByHash s hash := .ok (s.eventSeq[hash]?.bind fun seq => s.events[seq]?)
  eventBySeq := eventBySeq
  clockEventByHash := clockEventByHash
  clockEventBySeq := clockEventBySeq
  clockEventSeq s hash := .ok s.clockSeq[hash]?
  clockEventsReferencing s hash := .ok ((s.referencing.getD hash []).insertionSort (· ≤ ·))
  latestClockEvent s := .ok (s.clockEvents.toList.getLast?.map Prod.snd)
  latestClockEventOn := latestClockEventOn
  eventCount s := s.events.length
  clockEventCount s := s.clockEvents.size
  loadClockEvents s := valuesOf s.clockEvents
  loadNeighbors s := s.neighbors
  loadRoutes s := s.routes
  loadTimedRoutes s := s.timedRoutes
  clear _ := .ok {}

structure Within (contents : Contents) (s : InMemoryStore) : Prop where
  events : ∀ e ∈ s.events, contents.event e
  log : Coherent (fun c : LocalClockEvent => c.hash) contents.clockEvent s.clockEvents s.clockSeq
    s.nextClockSeq
  neighbors : ∀ (id : NodeId) (n : Neighbor), s.neighbors[id]? = some n →
    n.nodeId = id ∧ contents.neighbor n

theorem Within.appendClockEvent {contents : Contents} {s : InMemoryStore} {c : LocalClockEvent}
    (within : s.Within contents) (new : contents.clockEvent c) :
    (s.appendClockEvent c).2.Within contents := by
  have placed :
    s.clockEvents.insertIfNew s.nextClockSeq c = s.clockEvents.insert s.nextClockSeq c :=
    insertIfNew_of_absent within.log.unused
  refine ⟨within.events, ?_, within.neighbors⟩
  simp only [InMemoryStore.appendClockEvent, placed]
  apply within.log.append new
  intro hash seq entry
  simp only [ExtTreeMap.getElem?_insertIfNew, LawfulEqCmp.compare_eq_iff_eq] at entry
  split at entry
  · rename_i fresh
    exact Or.inr ⟨fresh.1.symm, (Option.some.inj entry).symm⟩
  · exact Or.inl entry

theorem Within.updateClockEvent {contents : Contents} {s : InMemoryStore} {c : LocalClockEvent}
    (within : s.Within contents) (new : contents.clockEvent c) :
    (s.updateClockEvent c).Within contents := by
  unfold InMemoryStore.updateClockEvent
  split
  · rename_i seq entry
    exact ⟨within.events, within.log.replace new entry, within.neighbors⟩
  · exact within

theorem Within.dropClockEvent {contents : Contents} {s : InMemoryStore} (seq : Nat)
    (within : s.Within contents) : (s.dropClockEvent seq).Within contents := by
  unfold InMemoryStore.dropClockEvent
  split
  · rename_i dropped found
    exact ⟨within.events, within.log.erase found, within.neighbors⟩
  · exact within

theorem Within.pruneSeqs {contents : Contents} (keep : Nat) (seqs : List Nat) {s : InMemoryStore}
    (within : s.Within contents) : (InMemoryStore.pruneSeqs keep s seqs).1.Within contents := by
  induction seqs generalizing s with
  | nil => exact within
  | cons seq rest ih =>
      simp only [InMemoryStore.pruneSeqs]
      split
      · exact ih (within.dropClockEvent seq)
      · exact within

theorem Within.pruneChain {contents : Contents} {s : InMemoryStore} (chain : UInt32) (keep : Nat)
    (within : s.Within contents) : (s.pruneChain chain keep).Within contents := by
  unfold InMemoryStore.pruneChain
  split
  · split
    · exact within
    · have pruned := within.pruneSeqs keep (s := s)
      exact ⟨(pruned _).events, (pruned _).log, (pruned _).neighbors⟩
  · exact within

theorem Within.clockEventBySeq {contents : Contents} {s : InMemoryStore} {seq : Nat}
    {record : LocalClockEvent} (within : s.Within contents)
    (read : s.clockEventBySeq seq = .ok record) :
    contents.clockEvent record := by
  unfold InMemoryStore.clockEventBySeq at read
  split at read
  · rename_i live
    cases read
    exact (within.log.live seq _ live).1
  · cases read

theorem within_fresh (contents : Contents) : Within contents {} :=
  ⟨by simp, coherent_empty, by simp⟩

instance : LawfulStore InMemoryStore where
  Within := Within
  within_mono implies within :=
    ⟨fun e member => implies.event e (within.events e member),
      within.log.mono implies.clockEvent, fun id n found =>
      ⟨(within.neighbors id n found).1, implies.neighbor n (within.neighbors id n found).2⟩⟩
  eventByHash_within := by
    intro contents s hash event within read
    obtain ⟨seq, -, found⟩ := Option.bind_eq_some_iff.mp (Except.ok.inj read)
    exact within.events event (List.mem_of_getElem? found)
  eventBySeq_within := by
    intro contents s seq event within read
    simp only [Store.eventBySeq, eventBySeq] at read
    split at read
    · rename_i found
      cases read
      exact within.events _ (List.mem_of_getElem? found)
    · cases read
  clockEventByHash_within := by
    intro contents s hash record within read
    simp only [Store.clockEventByHash, clockEventByHash] at read
    split at read
    · rename_i seq indexed
      obtain ⟨live, found, same⟩ := except_map_ok_iff.mp read
      cases same
      unfold clockEventBySeq at found
      split at found
      · rename_i recorded
        cases found
        exact within.log.lookup indexed recorded
      · cases found
    · cases read
  clockEventBySeq_within within read := within.clockEventBySeq read
  latestClockEventOn_within := by
    intro contents s chain record within read
    simp only [Store.latestClockEventOn, latestClockEventOn] at read
    split at read
    · obtain ⟨live, found, same⟩ := except_map_ok_iff.mp read
      cases same
      exact within.clockEventBySeq found
    · cases read
  loadNeighbors_within within found := within.neighbors _ _ found
  within_appendEvent := by
    intro contents s after event seq within new written
    cases written
    refine ⟨?_, within.log, within.neighbors⟩
    intro e member
    rcases List.mem_append.mp member with old | added
    · exact within.events e old
    · obtain rfl : e = event := by simpa using added
      exact new
  within_appendClockEvent := by
    intro contents s after record seq within new written
    have stored := within.appendClockEvent new
    rwa [Except.ok.inj written] at stored
  within_updateClockEvent := by
    intro contents s after record within new written
    exact Except.ok.inj written ▸ within.updateClockEvent new
  within_putNeighbor := by
    intro contents s after neighbor within new written
    cases written
    refine ⟨within.events, within.log, ?_⟩
    intro id n found
    simp only [ExtTreeMap.getElem?_insert, LawfulEqCmp.compare_eq_iff_eq] at found
    split at found
    · rename_i same
      obtain rfl : neighbor = n := by simpa using found
      exact ⟨same, new⟩
    · exact within.neighbors id n found
  within_putRoute := by
    intro contents s after destination nextHop within written
    cases written
    exact ⟨within.events, within.log, within.neighbors⟩
  within_putTimedRoutes := by
    intro contents s after table within written
    cases written
    exact ⟨within.events, within.log, within.neighbors⟩
  within_pruneChain := by
    intro contents s after chain keep within written
    exact Except.ok.inj written ▸ within.pruneChain chain keep
  within_clear cleared := Except.ok.inj cleared ▸ within_fresh _

theorem within_empty (contents : Contents) : LawfulStore.Within contents ({} : InMemoryStore) :=
  within_fresh contents

end InMemoryStore

end Loti
