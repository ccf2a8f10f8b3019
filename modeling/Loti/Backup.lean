import Loti.Library.TableEncoding
import Loti.Loading
import Loti.Records

/-!
What `restore` may lose. The snapshot carries the events, the clock events, the neighbors and
the static routes; `load` clears the timed routes with the rest, and nothing brings them back.
It clears the store before it knows that the store takes the new records: LMDB may refuse one.
-/

namespace Loti

open Std StateExcept Wire Routing

theorem foldl_insert_neighbors {neighbors : Neighbors}
    (named : ∀ (id : NodeId) (n : Neighbor), neighbors[id]? = some n → n.nodeId = id) :
    (valuesOf neighbors).foldl (fun table n => table.insert n.nodeId n) ∅ = neighbors := by
  have keyed : ∀ entry ∈ neighbors.toList, entry.2.nodeId = entry.1 := fun entry member =>
    named entry.1 entry.2 (ExtTreeMap.mem_toList_iff_getElem?_eq_some.mp member)
  rw [valuesOf, List.foldl_map]
  refine Eq.trans (List.foldl_ext _ _ _ fun table entry member => ?_)
    (TableEncoding.foldl_insert_toList neighbors)
  rw [keyed entry member]

section Own

variable {σ : Type} [Store σ] {env : NodeEnv} {s : NodeState σ} {blob : Bytes} {after : NodeState σ}

/-- Every blob and every list that the node stores has fewer than `2 ^ 32` elements. -/
structure NodeState.Fits (s : NodeState σ) : Prop where
  events : ∀ (seq : Nat) (e : Event), Store.eventBySeq s.store seq = .ok e → EventFits e
  clockEvents : ∀ c ∈ Store.loadClockEvents s.store, ClockEventFits c.toClockEvent ∧
  RefsFit c.referencingEvents
  unreferenced : ∀ tail ∈ s.unreferencedPerChain, ∀ e ∈ tail, EventFits e
  neighbors : ∀ n ∈ valuesOf s.neighbors, ∀ hash ∈ n.lastClockEventHashes, hash.length < 2 ^ 32

theorem snapshot_state (taken : snapshot s = .ok blob after) : after = s := by
  have ends : Ends snapshot s (fun _ after => after = s) fun _ _ => True := by
    simp only [snapshot, ends_bind, ends_get, ends_readStore]
    refine ⟨fun events _ => ?_, fun _ _ => trivial⟩
    split
    · trivial
    · rfl
  exact ends.of_ok taken

theorem snapshot_ok (taken : snapshot s = .ok blob after) :
    ∃ events tail, (∀ e ∈ events, ∃ seq, Store.eventBySeq s.store seq = .ok e) ∧
      s.unreferencedPerChain[0]? = some tail ∧ blob = SnapshotRecords.write
        ⟨events, Store.loadClockEvents s.store, tail, valuesOf s.neighbors,
        s.destinationToNextHop.toList⟩ := by
  have size : s.neighbors.size = (valuesOf s.neighbors).length := by simp [valuesOf]
  have ends :
      Ends snapshot s (fun written _ => ∃ events tail,
        (∀ e ∈ events, ∃ seq, Store.eventBySeq s.store seq = .ok e) ∧
      s.unreferencedPerChain[0]? = some tail ∧ written = SnapshotRecords.write
        ⟨events, Store.loadClockEvents s.store, tail, valuesOf s.neighbors,
          s.destinationToNextHop.toList⟩) fun _ _ => True := by
    simp only [snapshot, ends_bind, ends_get, ends_readStore]
    refine ⟨fun events listed => ?_, fun _ _ => trivial⟩
    cases first : s.unreferencedPerChain[0]? with
    | none => trivial
    | some tail =>
        refine ⟨events, tail, fun e member => ?_, rfl, ?_⟩
        · obtain ⟨seq, -, read⟩ := except_mapM_mem listed member
          exact ⟨seq, read⟩
        · simp only [SnapshotRecords.write, SnapshotRecords.writeCounted, size, List.append_assoc,
            ExtTreeMap.length_toList]
          rfl
  exact ends.of_ok taken

theorem readSnapshot_own (taken : snapshot s = .ok blob after) (fits : s.Fits)
    (addressable : (⟨blob, env.wordBits⟩ : Buffer).Addressable) {contents : SnapshotContents}
    {position : Nat} (parsed : readSnapshot ⟨blob, env.wordBits⟩ 0 = .ok contents position) :
    contents.clockEvents = Store.loadClockEvents s.store ∧
      contents.neighbors = (valuesOf s.neighbors).foldl (fun table n => table.insert n.nodeId n) ∅ ∧
      contents.routes = s.destinationToNextHop := by
  obtain ⟨events, tail, stored, first, rfl⟩ := snapshot_ok taken
  have sized :
      SnapshotRecords.Fits ⟨events, Store.loadClockEvents s.store, tail, valuesOf s.neighbors,
      s.destinationToNextHop.toList⟩ := by
    refine ⟨fun e member => ?_, fits.clockEvents, fits.unreferenced tail
      (List.mem_of_getElem? first), fits.neighbors⟩
    obtain ⟨seq, read⟩ := stored e member
    exact fits.events seq e read
  have same := readSnapshot_write sized addressable (List.prefix_refl _)
  obtain ⟨rfl, -⟩ := EStateM.Result.ok.inj (parsed.symm.trans same)
  exact ⟨rfl, rfl, TableEncoding.foldl_insert_toList _⟩

def NodeState.tableHops (env : NodeEnv) (s : NodeState σ) (destination : NodeId)
    (ctx : RouteContext) : List NodeId :=
  tableNextHops s.timedRoutes (historyNextHops env.id s.store s.neighbors ctx) destination ctx

theorem tableHops_congr {s : NodeState σ} (before_empty : s.timedRoutes = ∅)
    (after_empty : after.timedRoutes = ∅)
    (clockEvents : Store.loadClockEvents after.store = Store.loadClockEvents s.store)
    (neighbors : after.neighbors = s.neighbors) (destination : NodeId) (ctx : RouteContext) :
    after.tableHops env destination ctx = s.tableHops env destination ctx := by
  simp only [NodeState.tableHops, historyNextHops, before_empty, after_empty,
    clockEvents, neighbors]

variable [LawfulStore σ]

theorem neighbors_named {disk store : σ} {actions : List NodeAction}
    (cleared : Store.clear disk = .ok store)
    (reached : runActions env actions (NodeState.boot env store) = .ok () s)
    (id : NodeId) (n : Neighbor) (known : s.neighbors[id]? = some n) : n.nodeId = id := by
  have kept : Keeps (NodeWithin (σ := σ) .any) (runActions env actions) :=
    keeps_runActions fun action _ => perform_any action
  have within := (kept _ (boot_within (LawfulStore.within_clear cleared))).of_ok reached
  exact (within.neighbors id n known).1

variable [DagStore σ] [LoadStore σ]

/-- A node that restores its own backup keeps its timed routes exactly when it has none (or when
the blob does not parse, and nothing is restored). -/
theorem restore_own_snapshot_iff {disk store : σ} {actions : List NodeAction} {s' : NodeState σ}
    (cleared : Store.clear disk = .ok store)
    (reached : runActions env actions (NodeState.boot env store) = .ok () s)
    (taken : snapshot s = .ok blob s') :
    ((final (restore env blob) s).timedRoutes = s.timedRoutes ∧
        Store.loadTimedRoutes (final (restore env blob) s).store = Store.loadTimedRoutes s.store ∧
        (s.Fits → (⟨blob, env.wordBits⟩ : Buffer).Addressable →
          ∀ after, restore env blob s = .ok () after → ∀ destination ctx,
          after.tableHops env destination ctx = s.tableHops env destination ctx)) ↔
      ∀ contents position, readSnapshot ⟨blob, env.wordBits⟩ 0 = .ok contents position →
        Store.loadTimedRoutes s.store = ∅ ∧ (contents.Taken σ → s.timedRoutes = ∅) := by
  have outcome : Ends (restore env blob) s _ _ := restore_ends
  cases restored : restore env blob s with
  | ok _ after =>
      obtain ⟨contents, position, store, tails, parsed, rfl, -, held, fits⟩ :=
        outcome.of_ok restored
      have erased : Store.loadTimedRoutes store = ∅ := congrArg Holdings.timedRoutes held
      simp only [final, restored, NodeState.hydrated_timedRoutes, NodeState.hydrated_store, erased]
      constructor
      · rintro ⟨inMemory, stored, -⟩ _ _ _
        exact ⟨stored.symm, fun _ => inMemory.symm⟩
      · intro empty
        obtain ⟨stored, inMemory⟩ := empty contents position parsed
        refine ⟨(inMemory fits).symm, stored.symm,
          fun sized addressable after same destination ctx => ?_⟩
        obtain ⟨-, rfl⟩ := EStateM.Result.ok.inj same
        obtain ⟨clockEvents, neighbors, -⟩ := readSnapshot_own taken sized addressable parsed
        refine tableHops_congr (inMemory fits) erased ?_ ?_ destination ctx
        · exact (congrArg Holdings.clockEvents held).trans clockEvents
        · refine (congrArg Holdings.neighbors held).trans ?_
          rw [neighbors, foldl_insert_neighbors (neighbors_named cleared reached)]
          exact foldl_insert_neighbors (neighbors_named cleared reached)
  | error fault after =>
      rcases outcome.of_error restored with ⟨position, parsed, rfl⟩ | ⟨contents, position, store,
        parsed, rfl, erased, refused⟩
      · simp [final, restored, parsed]
      · simp only [final, restored, erased]
        constructor
        · rintro ⟨-, stored, -⟩ others _ again
          obtain ⟨rfl, -⟩ := EStateM.Result.ok.inj (parsed.symm.trans again)
          exact ⟨stored.symm, fun fits => absurd fits refused⟩
        · intro empty
          exact ⟨trivial, (empty contents position parsed).1.symm, by simp⟩

end Own

def floodEnv : NodeEnv := .simulated (fun bytes => bytes.take 32) 1 { discoveryRouting := .flood }

def crosslinkedRun : List NodeAction :=
  [.addNeighbor (.ofUInt64 2), .addNeighbor (.ofUInt64 3),
    .onPacketReceived (encode ⟨.ofUInt64 2, .clockNotification ⟨0, [2], []⟩⟩),
    .onPacketReceived (encode ⟨.ofUInt64 3, .clockNotification ⟨0, [3], []⟩⟩), .createClockEvent 0]

def crosslinkedNode (routes : List NodeAction) : NodeState InMemoryStore :=
  final (runActions floodEnv (crosslinkedRun ++ routes)) (.boot floodEnv {})

theorem crosslinkedNode_reached {routes : List NodeAction}
    (returned : raised (runActions floodEnv (crosslinkedRun ++ routes))
      (.boot floodEnv ({} : InMemoryStore)) = none) :
    runActions floodEnv (crosslinkedRun ++ routes) (.boot floodEnv {}) = .ok ()
      (crosslinkedNode routes) :=
  ok_of_not_raised returned

def backup {σ : Type} [Store σ] (s : NodeState σ) : Bytes :=
  match snapshot s with
  | .ok blob _ => blob
  | .error _ _ => []

theorem snapshot_backup {σ : Type} [Store σ] {s : NodeState σ}
    (returned : raised snapshot s = none) : snapshot s = .ok (backup s) s := by
  unfold raised at returned
  unfold backup
  cases taken : snapshot s with
  | ok blob after => rw [snapshot_state taken]
  | error fault after => simp [taken] at returned

theorem InMemoryStore.fits_of_records {s : NodeState InMemoryStore} (fits : s.records.Fits)
    (tails : ∀ tail ∈ s.unreferencedPerChain, ∀ e ∈ tail, EventFits e) : s.Fits := by
  refine ⟨fun seq e read => fits.events e ?_, fits.clockEvents, tails, fits.neighbors⟩
  simp only [Store.eventBySeq, InMemoryStore.eventBySeq] at read
  split at read
  · rename_i found
    exact Except.ok.inj read ▸ List.mem_of_getElem? found
  · cases read

theorem restore_own_snapshot_sample :
    (final (restore floodEnv (backup (crosslinkedNode []))) (crosslinkedNode [])).timedRoutes =
        (crosslinkedNode []).timedRoutes ∧
      ∀ destination ctx,
        (final (restore floodEnv (backup (crosslinkedNode [])))
          (crosslinkedNode [])).tableHops floodEnv
        destination ctx = (crosslinkedNode []).tableHops floodEnv destination ctx := by
  have facts : raised (runActions floodEnv (crosslinkedRun ++ []))
      (.boot floodEnv ({} : InMemoryStore)) = none ∧ raised snapshot (crosslinkedNode []) = none ∧
      raised (restore floodEnv (backup (crosslinkedNode []))) (crosslinkedNode []) = none ∧
      (crosslinkedNode []).timedRoutes.isEmpty = true ∧
      (Store.loadTimedRoutes (crosslinkedNode []).store).isEmpty = true ∧
      (⟨backup (crosslinkedNode []), floodEnv.wordBits⟩ : Buffer).Addressable ∧
      (crosslinkedNode []).records.Fits ∧
      ∀ tail ∈ (crosslinkedNode []).unreferencedPerChain, ∀ e ∈ tail, EventFits e := by
    decide +kernel
  obtain ⟨reached, taken, restored, inMemory, stored, addressable, fits, tails⟩ := facts
  have cleared : Store.clear ({} : InMemoryStore) = .ok {} := rfl
  have kept :=
    (restore_own_snapshot_iff cleared (crosslinkedNode_reached reached) (snapshot_backup taken)).mpr
    fun _ _ _ => ⟨ExtTreeMap.isEmpty_iff.mp stored, fun _ => ExtTreeMap.isEmpty_iff.mp inMemory⟩
  exact ⟨kept.1, kept.2.2 (InMemoryStore.fits_of_records fits tails) addressable _
    (ok_of_not_raised restored)⟩

def learnedRoute : List NodeAction := [.learnRouteAt (.ofUInt64 9) (.ofUInt64 3) ⟨0, 100⟩]

theorem own_snapshot_forgets_timedRoutes :
    raised (runActions floodEnv (crosslinkedRun ++ learnedRoute))
      (.boot floodEnv ({} : InMemoryStore)) = none ∧
      raised snapshot (crosslinkedNode learnedRoute) = none ∧
      raised (restore floodEnv (backup (crosslinkedNode learnedRoute)))
      (crosslinkedNode learnedRoute) = none ∧
      (crosslinkedNode learnedRoute).tableHops floodEnv (.ofUInt64 9) ⟨0, 10⟩ = [.ofUInt64 3] ∧
      (final (restore floodEnv (backup (crosslinkedNode learnedRoute)))
        (crosslinkedNode learnedRoute)).tableHops floodEnv (.ofUInt64 9)
        ⟨0, 10⟩ = [.ofUInt64 2, .ofUInt64 3] := by
  decide +kernel

section Refused

variable {σ : Type} [Store σ] [DagStore σ] [LoadStore σ] {env : NodeEnv} {blob : Bytes}

theorem restore_error_of_taken {s after : NodeState σ} {fault : Fault}
    (taken : ∀ contents position, readSnapshot ⟨blob, env.wordBits⟩ 0 = .ok contents position →
      contents.Taken σ)
    (failed : restore env blob s = .error fault after) : after = s := by
  have outcome : Ends (restore env blob) s _ _ := restore_ends
  rcases outcome.of_error failed with ⟨_, -, same⟩ | ⟨contents, position, _, parsed, -, -, refused⟩
  · exact same
  · exact absurd (taken contents position parsed) refused

theorem restore_error_of_refused {contents : SnapshotContents} {position : Nat}
    (parsed : readSnapshot ⟨blob, env.wordBits⟩ 0 = .ok contents position)
    (refused : ¬contents.Taken σ) (s : NodeState σ) :
    ∃ fault after, restore env blob s = .error fault after ∧
    Store.loadTimedRoutes after.store = ∅ := by
  have outcome : Ends (restore env blob) s _ _ := restore_ends
  cases restored : restore env blob s with
  | ok _ after =>
      obtain ⟨_, _, _, _, again, -, -, -, taken⟩ := outcome.of_ok restored
      obtain ⟨rfl, -⟩ := EStateM.Result.ok.inj (parsed.symm.trans again)
      exact absurd taken refused
  | error fault after =>
      rcases outcome.of_error restored with ⟨_, unread, -⟩ | ⟨_, _, store, -, rfl, erased, -⟩
      · exact nomatch parsed.symm.trans unread
      · exact ⟨fault, _, rfl, erased⟩

end Refused

/-- A blob whose restore never changes a node that it throws at: every blob, on the in-memory
store; on LMDB, one that does not parse or whose hashes are all keys that LMDB takes. -/
theorem failed_restore_unchanged_iff (env : NodeEnv) (blob : Bytes) :
    (∀ (s : NodeState InMemoryStore) fault after, restore env blob s = .error fault after →
      after = s) ∧
        ((∀ (s : NodeState LmdbStore) fault after, restore env blob s = .error fault after →
          after = s) ↔
        ∀ contents position, readSnapshot ⟨blob, env.wordBits⟩ 0 = .ok contents position →
          (∀ e ∈ contents.events, LmdbStore.ValidKey e.hash) ∧ ∀ c ∈ contents.clockEvents,
          LmdbStore.Storable c) := by
  refine ⟨fun s fault after failed => ?_, fun unchanged contents position parsed => ?_,
    fun keys s fault after failed => ?_⟩
  · exact restore_error_of_taken (fun _ _ _ => ⟨fun _ _ => trivial, fun _ _ => trivial⟩) failed
  · by_contra refused
    let routed : NodeState LmdbStore :=
      .fresh { timedRoutes := (∅ : TimedRouteTable).insert env.id [] }
    have refuses : ¬contents.Taken LmdbStore := refused
    obtain ⟨fault, after, failed, erased⟩ := restore_error_of_refused parsed refuses routed
    rw [unchanged routed fault after failed] at erased
    exact ExtTreeMap.insert_ne_empty erased
  · exact restore_error_of_taken keys failed

def unstorableBlob : Bytes :=
  SnapshotRecords.write ⟨[⟨.ofUInt64 1, [], [], 0, [], []⟩], [], [], [], []⟩

/-- The node has published an event and learned a route; the blob parses, and the restore throws. -/
theorem unstorable_restore_erases :
    let s : NodeState LmdbStore :=
      final (runActions floodEnv [.publishEvent [7], .learnRoute (.ofUInt64 9) (.ofUInt64 3)])
      (.boot floodEnv {})
    raised (restore floodEnv unstorableBlob) s =
        some (.exception
          "lmdb: put event_index: MDB_BAD_VALSIZE: Unsupported size of key/DB name/data, or wrong DUPFIXED size") ∧
      (s.store.events.size, s.store.routes.size) = (1, 1) ∧
      ((final (restore floodEnv unstorableBlob) s).store.events.size,
        (final (restore floodEnv unstorableBlob) s).store.routes.size) = (0, 0) ∧
      (final (restore floodEnv unstorableBlob) s).destinationToNextHop.size = 1 := by
  decide +kernel

end Loti
