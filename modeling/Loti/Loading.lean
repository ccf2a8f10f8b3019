import Loti.LmdbDag
import Loti.Snapshot

/-!
Loading a snapshot into a store of either kind: `load` empties the store and writes the
records one by one, so what it leaves depends on the records and not on what was there; the
timed routes, which no snapshot carries, are gone.
-/

namespace Loti

open Std StateExcept RingLog

structure Holdings where
  events : List Event := []
  clockEvents : List LocalClockEvent := []
  neighbors : Neighbors := ∅
  routes : ExtTreeMap NodeId NodeId := ∅
  timedRoutes : TimedRouteTable := ∅

def holdings {σ : Type} [Store σ] [DagStore σ] (store : σ) : Holdings where
  events := (DagStore.dag store).events
  clockEvents := Store.loadClockEvents store
  neighbors := Store.loadNeighbors store
  routes := Store.loadRoutes store
  timedRoutes := Store.loadTimedRoutes store

class LoadStore (σ : Type) [Store σ] [DagStore σ] where
  /-- No sequence number is skipped, and the index lists none that is not in use. -/
  Filling : σ → Prop
  TakesEvent : Event → Prop
  TakesClockEvent : LocalClockEvent → Prop
  clear_ok : ∀ s : σ, ∃ after, Store.clear s = .ok after
  clear_holds : ∀ {s after : σ}, Store.clear s = .ok after → Filling after ∧ holdings after = {}
  appendEvent_ok_iff :
  ∀ {s : σ} {event : Event}, (∃ result, Store.appendEvent s event = .ok result) ↔ TakesEvent event
  appendEvent_holds : ∀ {s after : σ} {event : Event} {k : Nat}, Filling s →
    Store.appendEvent s event = .ok (k, after) → Filling after ∧
    holdings after = { holdings s with events := (holdings s).events ++ [event] }
  appendClockEvent_ok_iff : ∀ {s : σ} {record : LocalClockEvent},
    (∃ result, Store.appendClockEvent s record = .ok result) ↔ TakesClockEvent record
  appendClockEvent_holds : ∀ {s after : σ} {record : LocalClockEvent} {k : Nat}, Filling s →
    Store.appendClockEvent s record = .ok (k, after) →
      Filling after ∧
      holdings after = { holdings s with clockEvents := (holdings s).clockEvents ++ [record] }
  takesClockEvent_edges : ∀ {record : LocalClockEvent} (edges : List EventReference),
    TakesClockEvent record → TakesClockEvent { record with referencingEvents := edges }
  putNeighbor_ok : ∀ (s : σ) (neighbor : Neighbor), ∃ after,
    Store.putNeighbor s neighbor = .ok after
  putNeighbor_holds : ∀ {s after : σ} {neighbor : Neighbor}, Filling s →
    Store.putNeighbor s neighbor = .ok after → Filling after ∧ holdings after =
      { holdings s with neighbors := (holdings s).neighbors.insert neighbor.nodeId neighbor }
  putRoute_ok : ∀ (s : σ) (destination nextHop : NodeId), ∃ after,
    Store.putRoute s destination nextHop = .ok after
  putRoute_holds : ∀ {s after : σ} {destination nextHop : NodeId}, Filling s →
    Store.putRoute s destination nextHop = .ok after →
      Filling after ∧
      holdings after = { holdings s with routes := (holdings s).routes.insert destination nextHop }
  eventCount_filled : ∀ {s : σ}, Filling s → Store.eventCount s = (holdings s).events.length
  event_read : ∀ {s : σ} {k : Nat}, Filling s → k < (holdings s).events.length →
    ∃ event seqs, Store.eventBySeq s k = .ok event ∧
      Store.clockEventsReferencing s event.hash = .ok seqs ∧
      ∀ seq ∈ seqs, ∃ record, Store.clockEventBySeq s seq = .ok record

theorem exists_snd_ok_iff {ε α β : Type} {result : Except ε (α × β)} :
    (∃ value, Prod.snd <$> result = .ok value) ↔ ∃ pair, result = .ok pair := by
  simp only [except_map_ok_iff]
  exact ⟨fun ⟨_, pair, ok, _⟩ => ⟨pair, ok⟩, fun ⟨pair, ok⟩ => ⟨pair.2, pair, ok, rfl⟩⟩

section Load

variable {σ : Type} [Store σ] {env : NodeEnv} {s : NodeState σ}

def NodeState.hydrated (s : NodeState σ) (tails : List (List Event)) : NodeState σ :=
  { s with
    neighbors := Store.loadNeighbors s.store
    destinationToNextHop := Store.loadRoutes s.store
    timedRoutes := Store.loadTimedRoutes s.store
    unreferencedPerChain := tails }

@[simp] theorem NodeState.hydrated_store (s : NodeState σ) (tails : List (List Event)) :
    (s.hydrated tails).store = s.store := rfl

@[simp] theorem NodeState.hydrated_timedRoutes (s : NodeState σ) (tails : List (List Event)) :
    (s.hydrated tails).timedRoutes = Store.loadTimedRoutes s.store := rfl

theorem hydrateWorkingState_hydrated : EndsIn (hydrateWorkingState env) s
    (fun after => ∃ tails, after = s.hydrated tails) := by
  simp only [hydrateWorkingState, ends_bind, ends_modify]
  refine keeps_forM (fun chain _ before kept => ?_) _ ⟨_, rfl⟩
  obtain ⟨tails, rfl⟩ := kept
  simp only [ends_bind, ends_readStore, ends_modify]
  exact ⟨fun tail _ => ⟨_, rfl⟩, fun _ _ => ⟨tails, rfl⟩⟩

theorem referencedByChain_ok {store : σ} {chain : UInt32} {seqs : List Nat}
    (live : ∀ seq ∈ seqs, ∃ record, Store.clockEventBySeq store seq = .ok record) :
    ∃ referenced, referencedByChain store chain seqs = .ok referenced := by
  induction seqs with
  | nil => exact ⟨false, rfl⟩
  | cons seq rest ih =>
      obtain ⟨record, read⟩ := live seq (by simp)
      obtain ⟨later, walked⟩ := ih fun other listed => live other (by simp [listed])
      simp only [referencedByChain, read, bind, Except.bind]
      split
      · exact ⟨true, rfl⟩
      · exact ⟨later, walked⟩

variable [DagStore σ] [LoadStore σ]

theorem unreferencedTail_ok {store : σ} {chain : UInt32} (filling : LoadStore.Filling store)
    (k : Nat) (tail : List Event) (within : k ≤ (holdings store).events.length) :
    ∃ found, unreferencedTail store chain k tail = .ok found := by
  induction k generalizing tail with
  | zero => exact ⟨tail, rfl⟩
  | succ k ih =>
      obtain ⟨event, seqs, read, referencing, live⟩ := LoadStore.event_read filling within
      obtain ⟨referenced, walked⟩ :
        ∃ referenced, referencedByChain store chain seqs = .ok referenced :=
        referencedByChain_ok live
      simp only [unreferencedTail, read, referencing, walked, bind, Except.bind]
      split
      · exact ⟨tail, rfl⟩
      · exact ih _ (by omega)

theorem hydrateWorkingState_returns (filling : LoadStore.Filling s.store) :
    Returns (hydrateWorkingState env) s fun _ after => ∃ tails, after = s.hydrated tails := by
  have walk : Returns (hydrateWorkingState env) s fun _ after => after.store = s.store := by
    simp only [hydrateWorkingState, ends_bind, ends_modify]
    refine ends_forM rfl fun chain _ before same => ?_
    obtain ⟨tail, read⟩ : ∃ tail, unreferencedTail s.store (UInt32.ofNat chain)
      (Store.eventCount s.store) [] = .ok tail :=
      unreferencedTail_ok filling _ _ (Nat.le_of_eq (LoadStore.eventCount_filled filling))
    simp only [ends_bind, ends_readStore, ends_modify, same, read]
    exact ⟨fun _ _ => trivial, by simp⟩
  exact (walk.and hydrateWorkingState_hydrated).mono (fun _ _ both => both.2) fun _ _ both => both.1

theorem forM_holds {α : Type} {write : α → σ → Except String σ} (takes : α → Prop)
    (change : Holdings → α → Holdings)
    (ok_iff : ∀ item store, (∃ next, write item store = .ok next) ↔ takes item)
    (law : ∀ item (store after : σ), LoadStore.Filling store → write item store = .ok after →
      LoadStore.Filling after ∧ holdings after = change (holdings store) item) (items : List α)
    (filling : LoadStore.Filling s.store) :
    Ends (items.forM fun item => writeStore (write item)) s
      (fun _ after => ∃ store, after = { s with store } ∧ LoadStore.Filling store ∧
        holdings store = items.foldl change (holdings s.store) ∧ ∀ item ∈ items, takes item)
      fun _ after => (∃ store n, after = { s with store } ∧
        holdings store = (items.take n).foldl change (holdings s.store)) ∧
        ∃ item ∈ items, ¬takes item := by
  induction items generalizing s with
  | nil => exact ⟨s.store, rfl, filling, rfl, by simp⟩
  | cons item rest ih =>
      simp only [List.forM_eq_forM, List.forM_cons, ends_bind, ends_writeStore] at ih ⊢
      refine ⟨fun next written => ?_, fun what refused =>
        ⟨⟨s.store, 0, rfl, rfl⟩, item, by simp, fun taken => ?_⟩⟩
      · obtain ⟨filled, held⟩ := law item s.store next filling written
        refine (ih (s := { s with store := next }) filled).mono ?_ ?_
        · rintro _ _ ⟨store, rfl, fills, holds, taken⟩
          refine ⟨store, rfl, fills, ?_, ?_⟩
          · rw [holds, List.foldl_cons, ← held]
          · rw [List.forall_mem_cons]
            exact ⟨(ok_iff item s.store).mp ⟨next, written⟩, taken⟩
        · rintro _ _ ⟨⟨store, n, rfl, holds⟩, other, member, refused⟩
          refine ⟨⟨store, n + 1, rfl, ?_⟩, other, by simp [member], refused⟩
          rw [holds, List.take_succ_cons, List.foldl_cons, ← held]
      · obtain ⟨next, written⟩ := (ok_iff item s.store).mpr taken
        cases refused.symm.trans written

def loadedHoldings (events : List Event) (clockEvents : List LocalClockEvent)
    (neighbors : Neighbors) (routes : ExtTreeMap NodeId NodeId) : Holdings where
  events := events
  clockEvents := clockEvents
  neighbors := (valuesOf neighbors).foldl (fun table n => table.insert n.nodeId n) ∅
  routes := routes.toList.foldl (fun table route => table.insert route.1 route.2) ∅
  timedRoutes := ∅

theorem foldl_events (events : List Event) (held : Holdings) :
    events.foldl (fun held e => { held with events := held.events ++ [e] }) held =
      { held with events := held.events ++ events } := by
  induction events generalizing held with
  | nil => simp
  | cons e rest ih => simp [ih]

theorem foldl_clockEvents (clockEvents : List LocalClockEvent) (held : Holdings) :
    clockEvents.foldl (fun held c => { held with clockEvents := held.clockEvents ++ [c] }) held =
      { held with clockEvents := held.clockEvents ++ clockEvents } := by
  induction clockEvents generalizing held with
  | nil => simp
  | cons c rest ih => simp [ih]

theorem foldl_neighbors (neighbors : List Neighbor) (held : Holdings) :
    neighbors.foldl (fun held n => { held with neighbors := held.neighbors.insert n.nodeId n })
      held = { held with
        neighbors := neighbors.foldl (fun table n => table.insert n.nodeId n) held.neighbors } := by
  induction neighbors generalizing held with
  | nil => rfl
  | cons n rest ih => rw [List.foldl_cons, List.foldl_cons, ih]

theorem foldl_routes (routes : List (NodeId × NodeId)) (held : Holdings) :
    routes.foldl (fun held route => { held with routes := held.routes.insert route.1 route.2 })
      held = { held with
        routes := routes.foldl (fun table route => table.insert route.1 route.2) held.routes } := by
  induction routes generalizing held with
  | nil => rfl
  | cons route rest ih => rw [List.foldl_cons, List.foldl_cons, ih]

section

variable (filling : LoadStore.Filling s.store)

include filling

theorem loadEvents_ends (events : List Event) :
    Ends (events.forM fun e => writeStore fun store => Prod.snd <$> Store.appendEvent store e) s
      (fun _ after => ∃ store, after = { s with store } ∧ LoadStore.Filling store ∧
        holdings store = { holdings s.store with events := (holdings s.store).events ++ events } ∧
        ∀ e ∈ events, LoadStore.TakesEvent σ e)
      fun _ after => (∃ store n, after = { s with store } ∧
          holdings store = { holdings s.store with events :=
            (holdings s.store).events ++ events.take n }) ∧
        ∃ e ∈ events, ¬LoadStore.TakesEvent σ e := by
  refine (forM_holds (LoadStore.TakesEvent σ)
    (fun held e => { held with events := held.events ++ [e] }) (fun e store => ?_)
    (fun e store after filling written => ?_) events filling).mono ?_ ?_
  · rw [exists_snd_ok_iff]
    exact LoadStore.appendEvent_ok_iff
  · obtain ⟨⟨k, _⟩, appended, rfl⟩ := except_map_ok_iff.mp written
    exact LoadStore.appendEvent_holds filling appended
  · rintro _ _ ⟨store, same, filled, held, taken⟩
    exact ⟨store, same, filled, held.trans (foldl_events _ _), taken⟩
  · rintro _ _ ⟨⟨store, n, same, held⟩, refused⟩
    exact ⟨⟨store, n, same, held.trans (foldl_events _ _)⟩, refused⟩

theorem loadClockEvents_ends (clockEvents : List LocalClockEvent) :
    Ends (clockEvents.forM fun c => writeStore fun store =>
      Prod.snd <$> Store.appendClockEvent store c) s
        (fun _ after => ∃ store, after = { s with store } ∧ LoadStore.Filling store ∧
        holdings store = { holdings s.store with clockEvents :=
          (holdings s.store).clockEvents ++ clockEvents } ∧
        ∀ c ∈ clockEvents, LoadStore.TakesClockEvent σ c)
      fun _ after => (∃ store n, after = { s with store } ∧
          holdings store = { holdings s.store with clockEvents :=
            (holdings s.store).clockEvents ++ clockEvents.take n }) ∧
        ∃ c ∈ clockEvents, ¬LoadStore.TakesClockEvent σ c := by
  refine (forM_holds (LoadStore.TakesClockEvent σ)
    (fun held c => { held with clockEvents := held.clockEvents ++ [c] }) (fun c store => ?_)
    (fun c store after filling written => ?_) clockEvents filling).mono ?_ ?_
  · rw [exists_snd_ok_iff]
    exact LoadStore.appendClockEvent_ok_iff
  · obtain ⟨⟨k, _⟩, appended, rfl⟩ := except_map_ok_iff.mp written
    exact LoadStore.appendClockEvent_holds filling appended
  · rintro _ _ ⟨store, same, filled, held, taken⟩
    exact ⟨store, same, filled, held.trans (foldl_clockEvents _ _), taken⟩
  · rintro _ _ ⟨⟨store, n, same, held⟩, refused⟩
    exact ⟨⟨store, n, same, held.trans (foldl_clockEvents _ _)⟩, refused⟩

theorem loadNeighbors_ends (neighbors : List Neighbor) :
    Returns (neighbors.forM fun n => writeStore fun store => Store.putNeighbor store n) s
      (fun _ after => ∃ store, after = { s with store } ∧ LoadStore.Filling store ∧ holdings store =
        { holdings s.store with
          neighbors := neighbors.foldl (fun table n => table.insert n.nodeId n)
            (holdings s.store).neighbors }) := by
  rw [← foldl_neighbors]
  refine (forM_holds (fun _ => True)
    (fun held n => { held with neighbors := held.neighbors.insert n.nodeId n })
    (fun n store => iff_true_intro (LoadStore.putNeighbor_ok store n))
    (fun n store after filling put => LoadStore.putNeighbor_holds filling put) neighbors
    filling).mono ?_ ?_
  · rintro _ _ ⟨store, same, filled, held, -⟩
    exact ⟨store, same, filled, held⟩
  · rintro _ _ ⟨-, _, -, refused⟩
    exact refused trivial

theorem loadRoutes_ends (routes : List (NodeId × NodeId)) :
    Returns (routes.forM fun route => writeStore fun store => Store.putRoute store route.1 route.2)
      s (fun _ after => ∃ store, after = { s with store } ∧ LoadStore.Filling store ∧
        holdings store = { holdings s.store with
          routes := routes.foldl (fun table route => table.insert route.1 route.2)
            (holdings s.store).routes }) := by
  rw [← foldl_routes]
  refine (forM_holds (fun _ => True)
    (fun held r => { held with routes := held.routes.insert r.1 r.2 })
    (fun r store => iff_true_intro (LoadStore.putRoute_ok store r.1 r.2))
    (fun r store after filling put => LoadStore.putRoute_holds filling put) routes filling).mono ?_
    ?_
  · rintro _ _ ⟨store, same, filled, held, -⟩
    exact ⟨store, same, filled, held⟩
  · rintro _ _ ⟨-, _, -, refused⟩
    exact refused trivial

end

theorem load_ends {events : List Event} {clockEvents : List LocalClockEvent} {neighbors : Neighbors}
    {routes : ExtTreeMap NodeId NodeId} : Ends (load env events clockEvents neighbors routes) s
      (fun _ after => ∃ store tails, after = NodeState.hydrated { s with store } tails ∧
        LoadStore.Filling store ∧
        holdings store = loadedHoldings events clockEvents neighbors routes ∧
        (∀ e ∈ events, LoadStore.TakesEvent σ e) ∧ ∀ c ∈ clockEvents, LoadStore.TakesClockEvent σ c)
      fun _ after => (∃ store, after = { s with store } ∧ Store.loadTimedRoutes store = ∅) ∧
        ((∃ e ∈ events, ¬LoadStore.TakesEvent σ e) ∨ ∃ c ∈ clockEvents,
          ¬LoadStore.TakesClockEvent σ c) := by
  simp only [load, ends_bind, ends_writeStore]
  refine ⟨fun emptied cleared => ?_, fun what refused => ?_⟩
  swap
  · obtain ⟨after, cleared⟩ := LoadStore.clear_ok s.store
    cases refused.symm.trans cleared
  obtain ⟨filling, held⟩ := LoadStore.clear_holds cleared
  refine (loadEvents_ends (s := { s with store := emptied }) filling events).mono ?_ ?_
  swap
  · rintro _ _ ⟨⟨store, n, rfl, begun⟩, refused⟩
    have erased : (holdings store).timedRoutes = ∅ := by rw [begun, held]
    exact ⟨⟨store, rfl, erased⟩, .inl refused⟩
  rintro _ _ ⟨store, rfl, filling, events_held, events_taken⟩
  refine (loadClockEvents_ends (s := { s with store }) filling clockEvents).mono ?_ ?_
  swap
  · rintro _ _ ⟨⟨store, n, rfl, begun⟩, refused⟩
    have erased : (holdings store).timedRoutes = ∅ := by rw [begun, events_held, held]
    exact ⟨⟨store, rfl, erased⟩, .inr refused⟩
  rintro _ _ ⟨store, rfl, filling, clocks_held, clocks_taken⟩
  refine (loadNeighbors_ends (s := { s with store }) filling (valuesOf neighbors)).always ?_
  rintro _ _ ⟨store, rfl, filling, neighbors_held⟩
  refine (loadRoutes_ends (s := { s with store }) filling routes.toList).always ?_
  rintro _ _ ⟨store, rfl, filling, routes_held⟩
  refine (hydrateWorkingState_returns (s := { s with store }) filling).always ?_
  rintro _ _ ⟨tails, rfl⟩
  refine ⟨store, tails, rfl, filling, ?_, events_taken, clocks_taken⟩
  simp only [routes_held, neighbors_held, clocks_held, events_held, held, loadedHoldings,
    List.nil_append]

def SnapshotContents.Taken (σ : Type) [Store σ] [DagStore σ] [LoadStore σ]
    (contents : SnapshotContents) : Prop :=
  (∀ e ∈ contents.events, LoadStore.TakesEvent σ e) ∧ ∀ c ∈ contents.clockEvents,
    LoadStore.TakesClockEvent σ c

theorem restore_ends {blob : Bytes} : Ends (restore env blob) s
    (fun _ after => ∃ contents position store tails,
      readSnapshot ⟨blob, env.wordBits⟩ 0 = .ok contents position ∧
      after = NodeState.hydrated { s with store } tails ∧ LoadStore.Filling store ∧
      holdings store = loadedHoldings contents.events contents.clockEvents contents.neighbors
      contents.routes ∧
      contents.Taken σ)
    fun fault after => (∃ position, readSnapshot ⟨blob, env.wordBits⟩ 0 = .error fault position ∧
      after = s) ∨ ∃ contents position store,
        readSnapshot ⟨blob, env.wordBits⟩ 0 = .ok contents position ∧ after = { s with store } ∧
        Store.loadTimedRoutes store = ∅ ∧ ¬contents.Taken σ := by
  unfold restore
  cases parsed : readSnapshot ⟨blob, env.wordBits⟩ 0 with
  | error fault position => exact .inl ⟨position, rfl, rfl⟩
  | ok contents position =>
      refine load_ends.mono ?_ ?_
      · rintro _ _ ⟨store, tails, same, filling, held, taken⟩
        exact ⟨contents, position, store, tails, rfl, same, filling, held, taken⟩
      · rintro _ _ ⟨⟨store, same, erased⟩, refused⟩
        refine .inr ⟨contents, position, store, rfl, same, erased, fun taken => ?_⟩
        rcases refused with ⟨e, member, refuses⟩ | ⟨c, member, refuses⟩
        · exact refuses (taken.1 e member)
        · exact refuses (taken.2 c member)

end Load

/-! The same writes, seen through the DAG. -/

section Rebuilt

variable {σ : Type} [Store σ] [DagStore σ] {env : NodeEnv} {s : NodeState σ}

theorem loadEvents_dag (sound : DagStore.Sound s.store) (events : List Event) :
    Ends (events.forM fun e => writeStore fun store => Prod.snd <$> Store.appendEvent store e) s
      (fun _ after => DagStore.Sound after.store ∧ DagStore.dag after.store =
        { DagStore.dag s.store with events := (DagStore.dag s.store).events ++ events })
      fun _ _ => True := by
  induction events generalizing s with
  | nil => exact ⟨sound, by simp⟩
  | cons e rest ih =>
      simp only [List.forM_eq_forM, List.forM_cons, ends_bind, ends_writeStore] at ih ⊢
      refine ⟨fun next written => ?_, fun _ _ => trivial⟩
      obtain ⟨⟨k, _⟩, appended, rfl⟩ := except_map_ok_iff.mp written
      obtain ⟨soundNext, added⟩ := DagStore.appendEvent_dag sound appended
      refine (ih soundNext).mono ?_ fun _ _ _ => trivial
      rintro _ after ⟨soundAfter, same⟩
      exact ⟨soundAfter, by simp [same, added, Dag.addEvent]⟩

theorem loadClockEvents_dag (sound : DagStore.Sound s.store) (clockEvents : List LocalClockEvent)
    (distinct : (((DagStore.dag s.store).clocks.map fun entry => entry.2.hash) ++
      clockEvents.map fun c => c.hash).Nodup) :
    Ends (clockEvents.forM fun c => writeStore fun store =>
      Prod.snd <$> Store.appendClockEvent store c) s (fun _ after => DagStore.Sound after.store ∧
        (DagStore.dag after.store).events = (DagStore.dag s.store).events ∧
        (DagStore.dag after.store).clocks.map Prod.snd = (DagStore.dag s.store).clocks.map
        Prod.snd ++ clockEvents)
      fun _ _ => True := by
  induction clockEvents generalizing s with
  | nil => exact ⟨sound, rfl, by simp⟩
  | cons c rest ih =>
      simp only [List.forM_eq_forM, List.forM_cons, ends_bind, ends_writeStore] at ih ⊢
      refine ⟨fun next written => ?_, fun _ _ => trivial⟩
      obtain ⟨⟨k, _⟩, appended, rfl⟩ := except_map_ok_iff.mp written
      have unused : ∀ entry ∈ (DagStore.dag s.store).clocks, entry.2.hash ≠ c.hash :=
        fun entry live =>
        (List.nodup_append.mp distinct).2.2 _ (List.mem_map_of_mem live) _ (by simp)
      obtain ⟨soundNext, added⟩ := DagStore.appendClockEvent_dag sound unused appended
      refine (ih soundNext ?_).mono ?_ fun _ _ _ => trivial
      · simpa [added, Dag.addClockEvent] using distinct
      · rintro _ after ⟨soundAfter, events, clocks⟩
        exact ⟨soundAfter, by simp [events, added, Dag.addClockEvent], by simp [clocks, added,
          Dag.addClockEvent]⟩

theorem writeStore_dag {write : σ → Except String σ} {dag : Dag}
    (kept : ∀ store after, DagStore.Sound store → write store = .ok after →
      DagStore.Sound after ∧ DagStore.dag after = DagStore.dag store) :
    Keeps (fun s : NodeState σ => DagStore.Sound s.store ∧ DagStore.dag s.store = dag)
      (writeStore write) := by
  rintro s ⟨sound, same⟩
  rw [ends_writeStore]
  exact ⟨fun after written => (kept s.store after sound written).imp_right fun next =>
    next.trans same, fun _ _ => ⟨sound, same⟩⟩

theorem load_dag {events : List Event} {clockEvents : List LocalClockEvent} {neighbors : Neighbors}
    {routes : ExtTreeMap NodeId NodeId} (distinct : (clockEvents.map fun c => c.hash).Nodup) :
    Ends (load env events clockEvents neighbors routes) s
      (fun _ after => DagStore.Sound after.store ∧ (DagStore.dag after.store).events = events ∧
        (DagStore.dag after.store).clocks.map Prod.snd = clockEvents ∧ after.unreferencedPerChain =
          (List.range env.numChains).map fun chain => (DagStore.dag after.store).scan
          (UInt32.ofNat chain))
      fun _ _ => True := by
  simp only [load, ends_bind, ends_writeStore]
  refine ⟨fun emptied cleared => ?_, fun _ _ => trivial⟩
  obtain ⟨sound, empty⟩ := DagStore.clear_dag cleared
  refine (loadEvents_dag (s := { s with store := emptied }) sound events).mono ?_ fun _ _ _ =>
    trivial
  rintro _ published ⟨sound, holds⟩
  simp only [empty, List.nil_append] at holds
  refine (loadClockEvents_dag sound clockEvents (by simpa [holds] using distinct)).mono ?_
    fun _ _ _ => trivial
  rintro _ ticked ⟨sound, events_held, clocks_held⟩
  simp only [holds, List.map_nil, List.nil_append] at events_held clocks_held
  have neighborsKept :
      Keeps (fun s : NodeState σ => DagStore.Sound s.store ∧
        DagStore.dag s.store = DagStore.dag ticked.store)
      ((valuesOf neighbors).forM fun n => writeStore fun store => Store.putNeighbor store n) :=
    keeps_forM fun n _ => writeStore_dag fun _ _ => DagStore.putNeighbor_dag
  have routesKept :
      Keeps (fun s : NodeState σ => DagStore.Sound s.store ∧
        DagStore.dag s.store = DagStore.dag ticked.store)
      (routes.toList.forM fun route => writeStore fun store =>
        Store.putRoute store route.1 route.2) :=
    keeps_forM fun route _ => writeStore_dag fun _ _ => DagStore.putRoute_dag
  refine (neighborsKept ticked ⟨sound, rfl⟩).mono (fun _ linked kept => ?_) fun _ _ _ => trivial
  refine (routesKept linked kept).mono ?_ fun _ _ _ => trivial
  rintro _ routed ⟨sound, same⟩
  refine (hydrateWorkingState_reads env sound).always ?_
  rintro _ after ⟨store, -, -, tails⟩
  rw [store, same]
  exact ⟨sound, events_held, clocks_held, same ▸ tails⟩

end Rebuilt

structure Filled {α : Type} (table : ExtTreeMap Nat α) (referencing : ReverseIndex) (next : Nat) :
    Prop where
  dense : ∀ seq : Nat, seq ∈ table ↔ seq < next
  listed : ∀ (hash : EventHash), ∀ seq ∈ referencing.getD hash [], seq < next

section Filled

variable {α : Type} {table : ExtTreeMap Nat α} {referencing after : ReverseIndex} {next : Nat}

theorem filled_empty : Filled (∅ : ExtTreeMap Nat α) ∅ 0 := ⟨by simp, by simp⟩

theorem dense_insert (dense : ∀ seq : Nat, seq ∈ table ↔ seq < next) (value : α) (seq : Nat) :
    seq ∈ table.insert next value ↔ seq < next + 1 := by
  rw [ExtTreeMap.mem_insert, dense, LawfulEqCmp.compare_eq_iff_eq]
  omega

theorem Filled.append (filled : Filled table referencing next) (value : α)
    (listed : ∀ (hash : EventHash), ∀ seq ∈ after.getD hash [], seq ∈ referencing.getD hash [] ∨
      seq = next) :
    Filled (table.insert next value) after (next + 1) := by
  refine ⟨dense_insert filled.dense value, fun hash seq member => ?_⟩
  rcases listed hash seq member with before | rfl
  · exact Nat.lt_succ_of_lt (filled.listed hash seq before)
  · exact Nat.lt_succ_self _

theorem dense_below (dense : ∀ seq : Nat, seq ∈ table ↔ seq < next) (seq : Nat) (value : α)
    (found : table[seq]? = some value) : seq < next :=
  (dense seq).mp (ExtTreeMap.isSome_getElem?_iff_mem.mp (by simp [found]))

theorem values_insert_next (dense : ∀ seq : Nat, seq ∈ table ↔ seq < next) (value : α) :
    valuesOf (table.insert next value) = valuesOf table ++ [value] := by
  rw [valuesOf, valuesOf, toList_insert_last value (dense_below dense), List.map_append]
  rfl

theorem Filled.found (filled : Filled table referencing next) {hash : EventHash} {seq : Nat}
    (member : seq ∈ referencing.getD hash []) : ∃ value, table[seq]? = some value :=
  Option.isSome_iff_exists.mp (ExtTreeMap.isSome_getElem?_iff_mem.mpr
    ((filled.dense seq).mpr (filled.listed hash seq member)))

end Filled

namespace InMemoryStore

theorem holdings_empty : holdings ({} : InMemoryStore) = {} := by
  simp [holdings, DagStore.dag, dag, Store.loadClockEvents, Store.loadNeighbors, Store.loadRoutes,
    Store.loadTimedRoutes, valuesOf]

instance : LoadStore InMemoryStore where
  Filling s := Filled s.clockEvents s.referencing s.nextClockSeq
  TakesEvent _ := True
  TakesClockEvent _ := True
  clear_ok _ := ⟨{}, rfl⟩
  clear_holds := by
    intro s after cleared
    cases cleared
    exact ⟨filled_empty, holdings_empty⟩
  appendEvent_ok_iff := ⟨fun _ => trivial, fun _ => ⟨_, rfl⟩⟩
  appendEvent_holds := by
    intro s after event k filling appended
    cases appended
    exact ⟨filling, rfl⟩
  appendClockEvent_ok_iff := ⟨fun _ => trivial, fun _ => ⟨_, rfl⟩⟩
  appendClockEvent_holds := by
    intro s after record k filling appended
    cases appended
    have unused : s.nextClockSeq ∉ s.clockEvents := by
      rw [filling.dense]
      omega
    have placed :
      s.clockEvents.insertIfNew s.nextClockSeq record = s.clockEvents.insert
      s.nextClockSeq record := by
      refine ExtTreeMap.ext_getElem? fun seq => ?_
      simp [ExtTreeMap.getElem?_insertIfNew, ExtTreeMap.getElem?_insert, unused]
    refine ⟨?_, ?_⟩
    · show Filled (s.clockEvents.insertIfNew s.nextClockSeq record) _ _
      rw [placed]
      refine filling.append record fun hash seq member => ?_
      exact ((mem_emplaceReferencing_iff _ _ _ _ _).mp member).imp_right And.left
    · simp only [holdings, DagStore.dag, dag, Store.loadClockEvents, Store.loadNeighbors,
        Store.loadRoutes, Store.loadTimedRoutes, placed, values_insert_next filling.dense]
  takesClockEvent_edges _ taken := taken
  putNeighbor_ok _ _ := ⟨_, rfl⟩
  putNeighbor_holds := by
    intro s after neighbor filling put
    cases put
    exact ⟨filling, rfl⟩
  putRoute_ok _ _ _ := ⟨_, rfl⟩
  putRoute_holds := by
    intro s after destination nextHop filling put
    cases put
    exact ⟨filling, rfl⟩
  eventCount_filled _ := rfl
  event_read := by
    intro s k filling within
    refine ⟨s.events[k], _, ?_, rfl, fun seq member => ?_⟩
    · have found : s.events[k]? = some s.events[k] := List.getElem?_eq_getElem within
      simp only [Store.eventBySeq, eventBySeq, found]
    · obtain ⟨record, found⟩ := filling.found ((List.mem_insertionSort (· ≤ ·)).mp member)
      exact ⟨record, by simp only [Store.clockEventBySeq, clockEventBySeq, found]⟩

end InMemoryStore

namespace LmdbStore

def Storable (record : LocalClockEvent) : Prop :=
  ValidKey record.hash ∧ ∀ ref ∈ record.referencedEvents, ValidKey ref.hash

instance (key : Bytes) : Decidable (ValidKey key) := inferInstanceAs (Decidable (_ ∧ _))

instance (record : LocalClockEvent) : Decidable (Storable record) :=
  inferInstanceAs (Decidable (_ ∧ ∀ ref ∈ _, _))

structure Filling (s : LmdbStore) :
    Prop extends Filled s.clockEvents s.referencing s.nextClockSeq where
  events : ∀ seq : Nat, seq ∈ s.events ↔ seq < s.nextEventSeq
  eventKeys : ∀ (seq : Nat) (e : Event), s.events[seq]? = some e → e.hash ≠ []

theorem appendEvent_ok_iff {s : LmdbStore} {event : Event} :
    (∃ result, s.appendEvent event = .ok result) ↔ ValidKey event.hash := by
  constructor
  · rintro ⟨result, written⟩
    obtain ⟨_, checked, -⟩ := except_bind_ok_iff.mp written
    exact checkPut_ok_iff.mp checked
  · intro valid
    exact ⟨_, except_bind_ok_iff.mpr ⟨(), checkPut_ok_iff.mpr valid, rfl⟩⟩

theorem loadNeighbors_insert (neighbors : ExtTreeMap NodeId (List EventHash))
    (neighbor : Neighbor) : (neighbors.insert neighbor.nodeId neighbor.lastClockEventHashes).map
    (fun id tips => (⟨id, tips⟩ : Neighbor)) = (neighbors.map fun id tips =>
      (⟨id, tips⟩ : Neighbor)).insert neighbor.nodeId neighbor := by
  refine ExtTreeMap.ext_getElem? fun id => ?_
  simp only [ExtTreeMap.getElem?_map, ExtTreeMap.getElem?_insert, LawfulEqCmp.compare_eq_iff_eq]
  split
  · rename_i same
    subst same
    rfl
  · rfl

instance : LoadStore LmdbStore where
  Filling := Filling
  TakesEvent event := ValidKey event.hash
  TakesClockEvent := Storable
  clear_ok _ := ⟨{}, rfl⟩
  clear_holds := by
    intro s after cleared
    cases cleared
    refine ⟨⟨filled_empty, by simp, by simp⟩, ?_⟩
    simp [holdings, DagStore.dag, dag, Store.loadClockEvents, Store.loadNeighbors, Store.loadRoutes,
      Store.loadTimedRoutes, valuesOf]
  appendEvent_ok_iff := appendEvent_ok_iff
  appendEvent_holds := by
    intro s after event k filling appended
    obtain ⟨_, checked, same⟩ := except_bind_ok_iff.mp appended
    cases same
    refine ⟨⟨filling.toFilled, dense_insert filling.events event, fun seq old found => ?_⟩, ?_⟩
    · rcases IndexedLog.getElem?_insert_cases found with ⟨-, rfl⟩ | ⟨-, before⟩
      · exact (checkPut_ok_iff.mp checked).ne_nil
      · exact filling.eventKeys seq old before
    · simp only [holdings, DagStore.dag, dag, Store.loadClockEvents, Store.loadNeighbors,
        Store.loadRoutes, Store.loadTimedRoutes, toList_insert_last event
        (dense_below filling.events), List.map_append, List.map_cons,
        List.map_nil]
  appendClockEvent_ok_iff := appendClockEvent_ok_iff _ _
  appendClockEvent_holds := by
    intro s after record k filling appended
    obtain ⟨_, -, rest⟩ := except_bind_ok_iff.mp appended
    obtain ⟨referencing, put, same⟩ := except_bind_ok_iff.mp rest
    cases same
    refine ⟨⟨filling.toFilled.append record fun hash seq member => ?_, filling.events,
      filling.eventKeys⟩, ?_⟩
    · exact ((putReferencing_mem put hash seq).mp member).imp_right And.left
    · simp only [holdings, DagStore.dag, dag, Store.loadClockEvents, Store.loadNeighbors,
        Store.loadRoutes, Store.loadTimedRoutes, values_insert_next filling.dense]
  takesClockEvent_edges _ taken := taken
  putNeighbor_ok _ _ := ⟨_, rfl⟩
  putNeighbor_holds := by
    intro s after neighbor filling put
    cases put
    refine ⟨⟨filling.toFilled, filling.events, filling.eventKeys⟩, ?_⟩
    simp only [holdings, DagStore.dag, dag, Store.loadClockEvents, Store.loadNeighbors,
      Store.loadRoutes, Store.loadTimedRoutes, loadNeighbors_insert]
  putRoute_ok _ _ _ := ⟨_, rfl⟩
  putRoute_holds := by
    intro s after destination nextHop filling put
    cases put
    exact ⟨⟨filling.toFilled, filling.events, filling.eventKeys⟩, rfl⟩
  eventCount_filled := by
    intro s filling
    simp [Store.eventCount, holdings, DagStore.dag, dag]
  event_read := by
    intro s k filling within
    obtain ⟨event, found⟩ : ∃ event, s.events[k]? = some event := by
      rw [← (dense_getElem? filling.events).2 k]
      exact ⟨_, List.getElem?_eq_getElem within⟩
    refine ⟨event, s.referencing.getD event.hash [], by simp only [Store.eventBySeq, eventBySeq,
      found], ?_, fun seq member => ?_⟩
    · simp only [Store.clockEventsReferencing, clockEventsReferencing,
        checkGet_ok_iff.mpr (filling.eventKeys k _ found)]
      rfl
    · obtain ⟨record, live⟩ := filling.found member
      exact ⟨record, by simp only [Store.clockEventBySeq, clockEventBySeq, live]⟩

end LmdbStore

theorem restore_loads {env : NodeEnv} {records : SnapshotRecords} {blob : Bytes}
    {s : NodeState InMemoryStore} (fits : records.Fits)
    (addressable : (⟨blob, env.wordBits⟩ : Wire.Buffer).Addressable)
    (begins : records.write <+: blob) (distinct : (records.clockEvents.map fun c => c.hash).Nodup) :
    Returns (restore env blob) s
      (fun _ after => after.signed = s.signed ∧ after.now = s.now ∧
        DagStore.Sound after.store ∧ (DagStore.dag after.store).events = records.events ∧
        (DagStore.dag after.store).clocks.map Prod.snd = records.clockEvents) := by
  have ran :
      restore env blob s = load env records.events records.clockEvents records.contents.neighbors
      records.contents.routes s := by
    rw [restore, readSnapshot_write fits addressable begins]
    rfl
  refine Ends.of_eq ((load_ends.and (load_dag distinct)).mono ?_ ?_) ran
  · rintro _ _ ⟨⟨store, tails, rfl, -⟩, sound, events, clocks, -⟩
    exact ⟨rfl, rfl, sound, events, clocks⟩
  · rintro _ _ ⟨⟨-, refused⟩, -⟩
    rcases refused with ⟨_, -, refuses⟩ | ⟨_, -, refuses⟩ <;> exact refuses trivial

end Loti
