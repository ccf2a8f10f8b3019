import Loti.Commands
import Loti.Effects
import Loti.InMemoryStore

/-!
What a failed command leaves behind. `dispatch_guarded` turns an exception into an error reply and
undoes nothing, so a command that throws after its first write is half done. Two verbs can:
`peer-add`, which parses the address last, and `db-gc`, which prunes chain by chain.
-/

namespace Loti.Lotid

open Std StateExcept IndexedLog

variable {σ : Type} {p : Process σ}

def nodeRecords (s : NodeState σ) :=
  (s.neighbors, s.destinationToNextHop, s.timedRoutes, s.unreferencedPerChain, s.store)

def processRecords (p : Process σ) := (nodeRecords p.node, p.transport.peers)

def Members.records (d : Members σ) := (processRecords d.toProcess, d.peers)

/-! Verbs that change nothing, or nothing before they fail -/

section Parts

variable {τ : Type} {part : Members σ → τ}

theorem onNode_reads {α : Type} {m : NodeM σ α} (reads : Preserves (fun s => s) m) :
    Preserves part (onNode m) := by
  intro d
  have lifted : ∀ s, s = d.node → part { d with node := s } = part d := by
    rintro _ rfl
    rfl
  simp only [onNode, ends_zoom]
  exact (reads d.node).imp fun s => lifted s

theorem readStore_reads {α : Type} (read : σ → Except String α) :
    Preserves part (onNode (readStore read)) :=
  onNode_reads (readStore_preserves read)

theorem save_preserves (setup : Setup) (args : List Text) : Preserves part (save setup args) := by
  unfold save
  split
  · exact fun _ => rfl
  · exact preserves_pure _

theorem quit_preserves (blind : ∀ d running, part { d with running } = part d) (args : List Text) :
    Preserves part (quit args) :=
  fun d => blind d false

theorem saveFile_preserves (blind : ∀ d files, part { d with files } = part d) (setup : Setup)
    (path : Text) (blob : Bytes) : Preserves part (saveFile setup path blob) := by
  unfold saveFile
  split
  · exact fun _ => rfl
  · exact fun _ => rfl
  · exact fun _ => rfl
  · exact fun d => blind d _

variable [Store σ]

theorem snapshot_reads : Preserves (fun s => s) (snapshot (σ := σ)) := by
  refine Preserves.bind preserves_get fun s => (readStore_preserves _).bind fun events => ?_
  split
  · exact fun _ => rfl
  · exact preserves_pure _

theorem event_preserves (args : List Text) : Preserves part (event args) := by
  unfold event
  split
  · refine Preserves.bind preserves_get fun d => (preserves_ofExcept _).bind fun found => ?_
    cases found <;> exact preserves_pure _
  · exact preserves_pure _

theorem eventFind_preserves (args : List Text) : Preserves part (eventFind args) := by
  unfold eventFind
  split
  · exact (readStore_reads _).bind fun _ => preserves_pure _
  · exact preserves_pure _

theorem dbBackup_preserves (blind : ∀ d files, part { d with files } = part d) (setup : Setup)
    (args : List Text) : Preserves part (dbBackup setup args) := by
  unfold dbBackup
  split
  · refine (onNode_reads snapshot_reads).bind fun blob =>
      (saveFile_preserves blind setup _ blob).bind fun _ => ?_
    exact preserves_get.bind fun _ => preserves_pure _
  · exact preserves_pure _

theorem dbStat_preserves (setup : Setup) (args : List Text) : Preserves part (dbStat setup args) :=
  (onNode_reads snapshot_reads).bind fun _ => preserves_get.bind fun _ => preserves_pure _

end Parts

/-- The faults that `dispatch_guarded` catches. -/
def Caught (fault : Fault) : Prop := ∃ reason, fault = .exception reason

@[simp] theorem caught_exception (reason : String) : Caught (.exception reason) := ⟨reason, rfl⟩

def Harmless (m : CommandM σ Reply) (d : Members σ) : Prop :=
  Ends m d (fun reply after => reply.error ≠ [] → after.records = d.records)
    (fun fault after => Caught fault → after.records = d.records)

theorem harmless_of_preserves {m : CommandM σ Reply} (preserves : Preserves Members.records m)
    (d : Members σ) : Harmless m d :=
  (preserves d).mono (fun _ _ same _ => same) fun _ _ same _ => same

variable (setup : Setup) [Store σ] {args : List Text}

theorem publish_harmless (args : List Text) (d : Members σ) : Harmless (publish setup args) d := by
  unfold publish
  split
  · simp only [Harmless, onNode, publishEvent, insertEvent, nextSalt, sign, ends_bind, ends_zoom,
      ends_get, ends_modify, ends_pure, ends_readStore, ends_writeStore]
    exact ⟨fun _ _ => ⟨fun _ _ failed => absurd rfl failed, fun _ _ _ => rfl⟩, fun _ _ _ => rfl⟩
  · exact harmless_of_preserves (preserves_pure _) d

/-! `peer-add` -/

/-- `peer-add` does not fail once it has changed anything. The neighbor, the direct route and the
record of the route may stand already; otherwise the writes succeed and the address can be read. -/
def PeerAddSafe (s : NodeState σ) (id : NodeId) (ip : Text) : Prop :=
  (id ∈ s.neighbors ∧ s.destinationToNextHop[id]? = some id ∧
    ∀ store, Store.putRoute s.store id id = .ok store → store = s.store ∨
    (setup.system.inet.read (what ip)).isSome) ∨
  ((setup.system.inet.read (what ip)).isSome ∧ ∃ noted routed,
    (if id ∈ s.neighbors then .ok s.store else Store.putNeighbor s.store ⟨id, []⟩) = .ok noted ∧
      Store.putRoute noted id id = .ok routed)

def routePeer (id : NodeId) (ip : Text) (port : UInt16) : ProcessM σ Unit := do
  Loti.onNode (learnRoute id id)
  let transport ← ofExcept (fun fault => fault)
    ((← get).transport.setPeer setup.system.inet id (what ip) port)
  modify fun p => { p with transport }

theorem routePeer_ends (p : Process σ) (id : NodeId) (ip : Text) (port : UInt16)
    (fine : Process σ → Prop) :
    Ends (routePeer setup id ip port) p (fun _ _ => True)
        (fun fault after => Caught fault → fine after) ↔
      (∀ store, Store.putRoute p.node.store id id = .ok store →
        setup.system.inet.read (what ip) = none → fine { p with
          node := { p.node with
            destinationToNextHop := p.node.destinationToNextHop.insert id id, store } }) ∧
      (∀ reason, Store.putRoute p.node.store id id = .error reason → fine { p with
        node := { p.node with
          destinationToNextHop := p.node.destinationToNextHop.insert id id } }) := by
  simp only [routePeer, Loti.onNode, learnRoute, UdpTransport.setPeer, ends_bind, ends_get,
    ends_zoom, ends_modify, ends_writeStore, ends_ofExcept]
  cases setup.system.inet.read (what ip) <;> simp

theorem addNeighbor_known {id : NodeId} (known : id ∈ p.node.neighbors)
    {post : Unit → Process σ → Prop} {thrown : Fault → Process σ → Prop} :
    Ends (Loti.onNode (addNeighbor id)) p post thrown ↔ post () p := by
  simp [Loti.onNode, addNeighbor, known]

theorem addNeighbor_new {id : NodeId} (new : id ∉ p.node.neighbors)
    {post : Unit → Process σ → Prop} {thrown : Fault → Process σ → Prop} :
    Ends (Loti.onNode (addNeighbor id)) p post thrown ↔
      (∀ store, Store.putNeighbor p.node.store ⟨id, []⟩ = .ok store → post () { p with
        node := { p.node with neighbors := p.node.neighbors.insert id ⟨id, []⟩, store } }) ∧
      (∀ reason, Store.putNeighbor p.node.store ⟨id, []⟩ = .error reason →
        thrown (.exception reason) { p with
        node := { p.node with neighbors := p.node.neighbors.insert id ⟨id, []⟩ } }) := by
  simp [Loti.onNode, addNeighbor, new]

omit [Store σ] in
theorem records_new_neighbor {after : Process σ} {id : NodeId} (new : id ∉ p.node.neighbors)
    (noted : id ∈ after.node.neighbors) : processRecords after ≠ processRecords p := by
  intro same
  have neighbors : after.node.neighbors = p.node.neighbors :=
    congrArg (fun records => records.1.1) same
  exact new (neighbors ▸ noted)

omit [Store σ] in
theorem records_routed {id : NodeId} {store : σ} :
    processRecords { p with
      node := { p.node with destinationToNextHop := p.node.destinationToNextHop.insert id id, store } } =
        processRecords p ↔
    p.node.destinationToNextHop[id]? = some id ∧ store = p.node.store := by
  simp [processRecords, nodeRecords, insert_eq_self_iff]

section PeerAdd

variable {p : Process σ} {id : NodeId} {ip : Text} (port : UInt16)

theorem routePeer_known (known : id ∈ p.node.neighbors) :
    Ends (routePeer setup id ip port) p (fun _ _ => True)
        (fun fault after => Caught fault → processRecords after = processRecords p) ↔
      PeerAddSafe setup p.node id ip := by
  rw [routePeer_ends]
  constructor
  · rintro ⟨unread, unwritten⟩
    cases written : Store.putRoute p.node.store id id with
    | error reason =>
        have route := (records_routed.mp (unwritten reason written)).1
        exact Or.inl ⟨known, route, fun _ impossible => by simp [written] at impossible⟩
    | ok store =>
        cases read : setup.system.inet.read (what ip) with
        | some address => exact Or.inr ⟨by simp [read], p.node.store, store, if_pos known, written⟩
        | none =>
            obtain ⟨route, same⟩ := records_routed.mp (unread store written read)
            exact Or.inl ⟨known, route, fun other again => Or.inl (ok_unique again written ▸ same)⟩
  · rintro (⟨-, route, same⟩ | ⟨read, noted, routed, first, second⟩)
    · refine ⟨fun store written unread => records_routed.mpr ⟨route, ?_⟩, fun _ _ =>
        records_routed.mpr ⟨route, rfl⟩⟩
      exact (same store written).resolve_right (by simp [unread])
    · rw [if_pos known] at first
      rw [← Except.ok.inj first] at second
      refine ⟨fun _ _ unread => ?_, fun _ unwritten => ?_⟩
      · simp [unread] at read
      · simp [second] at unwritten

theorem addPeer_new (new : id ∉ p.node.neighbors) :
    Ends (Loti.addPeer setup.system.inet id (what ip) port) p (fun _ _ => True)
        (fun fault after => Caught fault → processRecords after = processRecords p) ↔
      PeerAddSafe setup p.node id ip := by
  have started : Ends (Loti.addPeer setup.system.inet id (what ip) port) p (fun _ _ => True)
        (fun fault after => Caught fault → processRecords after = processRecords p) ↔
      Ends (Loti.onNode (addNeighbor id)) p
        (fun _ middle => Ends (routePeer setup id ip port) middle (fun _ _ => True)
          (fun fault after => Caught fault → processRecords after = processRecords p))
        (fun fault after => Caught fault → processRecords after = processRecords p) := by
    simp only [Loti.addPeer, routePeer, ends_bind]
  rw [started, addNeighbor_new new]
  simp only [routePeer_ends, caught_exception, true_implies]
  constructor
  · rintro ⟨noted, unnoted⟩
    cases first : Store.putNeighbor p.node.store ⟨id, []⟩ with
    | error reason => exact absurd (unnoted reason first) (records_new_neighbor new (by simp))
    | ok store =>
        obtain ⟨unread, unwritten⟩ := noted store first
        cases second : Store.putRoute store id id with
        | error reason => exact absurd (unwritten reason second) (records_new_neighbor new (by simp))
        | ok routed =>
            cases read : setup.system.inet.read (what ip) with
            | none => exact absurd (unread routed second read) (records_new_neighbor new (by simp))
            | some address => exact Or.inr ⟨by simp [read], store, routed, by rw [if_neg new, first], second⟩
  · rintro (⟨known, -⟩ | ⟨read, noted, routed, first, second⟩)
    · exact absurd known new
    · rw [if_neg new] at first
      refine ⟨fun store again => ⟨fun _ _ unread => ?_, fun _ unwritten => ?_⟩, fun _ unnoted => ?_⟩
      · simp [unread] at read
      · rw [ok_unique again first, second] at unwritten
        cases unwritten
      · simp [first] at unnoted

end PeerAdd

theorem addPeer_iff (d : Members σ) (id : NodeId) (ip : Text) (port : UInt16) :
    Ends (addPeer setup id ip port) d (fun _ _ => True) (fun fault after => Caught fault →
      after.records = d.records) ↔ PeerAddSafe setup d.node id ip := by
  have lifted : Ends (addPeer setup id ip port) d (fun _ _ => True)
        (fun fault after => Caught fault → after.records = d.records) ↔
      Ends (Loti.addPeer setup.system.inet id (what ip) port) d.toProcess (fun _ _ => True)
        (fun fault after => Caught fault → processRecords after = processRecords d.toProcess) := by
    simp [addPeer, Members.records]
  rw [lifted]
  by_cases known : id ∈ d.node.neighbors
  · rw [← routePeer_known setup port known, Loti.addPeer, routePeer, ends_bind,
      addNeighbor_known known]
  · exact addPeer_new setup port known

/-! `db-gc` -/

def prunedStore (env : NodeEnv) (store : σ) (chain : UInt32) : Except String σ :=
  match env.config.chains[chain.toNat]? with
  | some config => if 0 < config.keep then Store.pruneChain store chain config.keep else .ok store
  | none => .ok store

def gcChains (env : NodeEnv) : List UInt32 := (List.range env.config.chains.length).map UInt32.ofNat

/-- When pruning a chain fails, the chains before it had nothing to prune. -/
def GcSafe (env : NodeEnv) (store : σ) : Prop :=
  ∀ earlier chain later middle reason, gcChains env = earlier ++ chain :: later →
    earlier.foldlM (prunedStore env) store = .ok middle →
    prunedStore env middle chain = .error reason → middle = store

theorem pruneToKeep_eq (env : NodeEnv) (chain : UInt32) :
    pruneToKeep (σ := σ) env chain = writeStore fun store => prunedStore env store chain := by
  cases configured : env.config.chains[chain.toNat]? with
  | none =>
      simp only [pruneToKeep, prunedStore, configured]
      rfl
  | some config =>
      simp only [pruneToKeep, prunedStore, configured]
      split <;> rfl

omit [Store σ] in
theorem forM_writeStore_ends {α : Type} {write : σ → α → Except String σ} {items : List α}
    {s : NodeState σ} {fine : NodeState σ → Prop} :
    Ends (items.forM fun item => writeStore fun store => write store item) s (fun _ _ => True)
      (fun fault after => Caught fault → fine after) ↔ ∀ earlier item later middle reason,
        items = earlier ++ item :: later → earlier.foldlM write s.store = .ok middle →
        write middle item = .error reason → fine { s with store := middle } := by
  induction items generalizing s with
  | nil => simp [List.forM_eq_forM]
  | cons item rest ih =>
      rw [List.forM_eq_forM, List.forM_cons, ends_bind, ends_writeStore]
      rw [List.forM_eq_forM] at ih
      simp only [ih, caught_exception, true_implies]
      constructor
      · rintro ⟨written, unwritten⟩ earlier other later middle reason parted folded failed
        cases earlier with
        | nil =>
            obtain ⟨rfl, rfl⟩ := List.cons.inj parted
            cases folded
            exact unwritten reason failed
        | cons first earlier =>
            obtain ⟨rfl, remains⟩ := List.cons.inj parted
            rw [List.foldlM_cons] at folded
            obtain ⟨after, wrote, folded⟩ := except_bind_ok_iff.mp folded
            exact written after wrote earlier other later middle reason remains folded failed
      · intro stops
        refine ⟨fun after wrote earlier other later middle reason parted folded failed => ?_,
          fun reason failed => ?_⟩
        · refine stops (item :: earlier) other later middle reason (by rw [parted]; rfl) ?_ failed
          rw [List.foldlM_cons]
          exact except_bind_ok_iff.mpr ⟨after, wrote, folded⟩
        · exact stops [] item rest s.store reason rfl rfl failed

theorem gc_iff (env : NodeEnv) (s : NodeState σ) :
    Ends (gc env) s (fun _ _ => True) (fun fault after => Caught fault →
      nodeRecords after = nodeRecords s) ↔ GcSafe env s.store := by
  have loop : gc (σ := σ) env = (gcChains env).forM fun chain => writeStore fun store =>
    prunedStore env store chain := by
    simp only [gc, gcChains, List.forM_eq_forM, List.forM_map, pruneToKeep_eq]
  rw [loop, forM_writeStore_ends]
  simp [GcSafe, nodeRecords]

theorem GcSafe.of_prunes {prunable : σ → Prop} {env : NodeEnv} {store : σ}
    (prunes : ∀ store chain keep, prunable store →
      ∃ after, Store.pruneChain store chain keep = .ok after ∧ prunable after)
    (starts : prunable store) : GcSafe env store := by
  have each : ∀ store chain, prunable store → ∃ after, prunedStore env store chain = .ok after ∧
    prunable after := by
    intro store chain fine
    unfold prunedStore
    split
    · split
      · exact prunes store chain _ fine
      · exact ⟨store, rfl, fine⟩
    · exact ⟨store, rfl, fine⟩
  have folded : ∀ (earlier : List UInt32) (store middle : σ), prunable store →
      earlier.foldlM (prunedStore env) store = .ok middle → prunable middle := by
    intro earlier
    induction earlier with
    | nil => exact fun store middle fine same => Except.ok.inj same ▸ fine
    | cons chain rest ih =>
        intro store middle fine pruned
        rw [List.foldlM_cons] at pruned
        obtain ⟨after, ran, others⟩ := except_bind_ok_iff.mp pruned
        obtain ⟨_, again, kept⟩ := each store chain fine
        exact ih after middle (ok_unique again ran ▸ kept) others
  intro earlier chain later middle reason _ pruned failed
  obtain ⟨after, ran, -⟩ := each middle chain (folded earlier store middle starts pruned)
  cases ran.symm.trans failed

theorem inMemory_gcSafe (env : NodeEnv) (store : InMemoryStore) : GcSafe env store :=
  .of_prunes
    (fun store chain keep (_ : True) => ⟨store.pruneChain chain keep, rfl, trivial⟩) trivial

theorem lmdb_gcSafe (env : NodeEnv) {store : LmdbStore} {contents : Contents}
    (droppable : LmdbStore.Droppable contents) (within : store.Within contents) :
    GcSafe env store := by
  refine .of_prunes (fun before chain keep (within : before.Within contents) => ?_) within
  obtain ⟨after, ran, -⟩ := within.pruneChain_ok droppable chain keep
  exact ⟨after, ran, within.pruneChain ran⟩

/-! All commands -/

/-- A command that can fail only before it has changed anything. -/
structure CommandSafe (d : Members σ) (args : List Text) : Prop where
  peerAdd : ∀ peer rest id ip port, args = text "peer-add" :: peer :: rest →
    split peer 58 = [id, ip, port] → PeerAddSafe setup d.node (parseNodeId setup id) ip
  dbGc : args.headD [] = text "db-gc" → GcSafe setup.env d.node.store

theorem peerAdd_iff (d : Members σ) (verb : Text) (rest : List Text) :
    Harmless (peerAdd setup (verb :: rest)) d ↔ ∀ peer others id ip port, rest = peer :: others →
      split peer 58 = [id, ip, port] → PeerAddSafe setup d.node (parseNodeId setup id) ip := by
  cases rest with
  | nil => exact iff_of_true (harmless_of_preserves (preserves_pure _) d) nofun
  | cons peer others =>
      simp only [peerAdd]
      split
      · rename_i id ip port parts
        have outcome := addPeer_iff setup d (parseNodeId setup id) ip
          (UInt16.ofInt (atoi port).toInt)
        simp only [Harmless, ends_bind, ends_pure, ne_eq, not_true_eq_false, false_implies, outcome]
        constructor
        · rintro safe _ _ other otherIp _ same again
          obtain ⟨rfl, rfl⟩ := List.cons.inj same
          rw [parts] at again
          obtain ⟨rfl, tail⟩ := List.cons.inj again
          obtain ⟨rfl, -⟩ := List.cons.inj tail
          exact safe
        · intro safe
          exact safe peer others id ip port rfl parts
      · rename_i other
        refine iff_of_true (harmless_of_preserves (preserves_pure _) d) ?_
        rintro _ _ id ip port same parts
        obtain ⟨rfl, rfl⟩ := List.cons.inj same
        exact absurd parts (other id ip port)

theorem dbGc_iff (d : Members σ) (args : List Text) : Harmless (dbGc setup args) d ↔
    GcSafe setup.env d.node.store := by
  rw [← gc_iff setup.env d.node]
  simp only [Harmless, dbGc, onNode, ends_bind, ends_zoom, ends_get, ends_pure, ne_eq,
    not_true_eq_false, false_implies]
  simp [Members.records, processRecords]

theorem lookup_verb (name : Text) (earlier : List (Text × (List Text → CommandM σ Reply)))
    {later : List (Text × (List Text → CommandM σ Reply))} {verb : List Text → CommandM σ Reply}
    (listed : verbs setup = earlier ++ (name, verb) :: later)
    (apart : name ∉ earlier.map Prod.fst) :
    (verbs setup).lookup name = some verb := by
  rw [List.lookup_eq_some_iff]
  refine ⟨earlier, later, listed, fun entry member => ?_⟩
  simp only [bne_iff_ne, ne_eq]
  rintro rfl
  exact apart (List.mem_map_of_mem member)

theorem command_peerAdd (rest : List Text) :
    command (σ := σ) setup (text "peer-add" :: rest) = peerAdd setup (text "peer-add" :: rest) := by
  have apart :
    text "peer-add" ∉ [text "publish", text "event", text "event-find", text "events"] := by simp
  have found := lookup_verb setup (text "peer-add") ((verbs (σ := σ) setup).take 4) rfl apart
  simp only [command, List.headD_cons, found]

theorem command_dbGc (rest : List Text) :
    command (σ := σ) setup (text "db-gc" :: rest) = dbGc setup (text "db-gc" :: rest) := by
  have apart : text "db-gc" ∉ [text "publish", text "event", text "event-find", text "events",
      text "peer-add", text "peer-ls", text "status", text "key", text "save",
      text "db-stat"] := by simp
  have found := lookup_verb setup (text "db-gc") ((verbs (σ := σ) setup).take 10) rfl apart
  simp only [command, List.headD_cons, found]

theorem cons_of_headD {verb : Text} (head : args.headD [] = verb) (some : verb ≠ []) :
    ∃ rest, args = verb :: rest := by
  cases args with
  | nil => exact absurd head.symm some
  | cons first rest => exact ⟨rest, by rw [← head]; rfl⟩

theorem command_harmless_iff (d : Members σ) (other : args.headD [] ≠ text "db-restore") :
    Harmless (command setup args) d ↔ CommandSafe setup d args := by
  constructor
  · intro harmless
    refine ⟨?_, fun head => ?_⟩
    · rintro peer rest id ip port rfl parts
      rw [command_peerAdd] at harmless
      exact (peerAdd_iff setup d _ _).mp harmless peer rest id ip port rfl parts
    · obtain ⟨rest, rfl⟩ := cons_of_headD head (by simp)
      rw [command_dbGc] at harmless
      exact (dbGc_iff setup d _).mp harmless
  · intro safe
    refine command_cases setup (fun entry member head => ?_) fun _ => rfl
    simp only [verbs, List.mem_cons, List.not_mem_nil, or_false] at member
    rcases member with
      rfl | rfl | rfl | rfl | rfl | rfl | rfl | rfl | rfl | rfl | rfl | rfl | rfl | rfl | rfl
    · exact publish_harmless setup args d
    · exact harmless_of_preserves (event_preserves args) d
    · exact harmless_of_preserves (eventFind_preserves args) d
    · exact harmless_of_preserves ((readStore_reads _).bind fun _ => preserves_pure _) d
    · have named : text "peer-add" ≠ [] := by simp
      obtain ⟨rest, rfl⟩ := cons_of_headD head.symm named
      refine (peerAdd_iff setup d _ _).mpr fun peer others id ip port same parts => ?_
      exact safe.peerAdd peer others id ip port (by rw [same]) parts
    · exact harmless_of_preserves (preserves_get.bind fun _ => preserves_pure _) d
    · exact harmless_of_preserves (preserves_get.bind fun _ => preserves_pure _) d
    · exact harmless_of_preserves (preserves_pure _) d
    · exact harmless_of_preserves (save_preserves setup args) d
    · exact harmless_of_preserves (dbStat_preserves setup args) d
    · exact (dbGc_iff setup d args).mpr (safe.dbGc head.symm)
    · exact harmless_of_preserves (dbBackup_preserves (fun _ _ => rfl) setup args) d
    · exact absurd head.symm other
    · exact harmless_of_preserves (quit_preserves (fun _ _ => rfl) args) d
    · exact harmless_of_preserves (quit_preserves (fun _ _ => rfl) args) d

/-! The deferred verbs -/

def daemonRecords (s : Daemon (Members σ)) := s.node.records

omit [Store σ] in
theorem nodeCall_records {m : NodeM σ Unit} (asks : ∀ s, Keeps (Asks setup.env s) m)
    (d : Members σ) : (nodeCall m d).after.records = d.records := by
  obtain ⟨_, _, _, _, same, -⟩ := ends_final.mp (asks d.node d.node (.refl setup.env d.node))
  simp only [nodeCall, Members.records, processRecords, nodeRecords, same]

omit [Store σ] in
theorem callNode_preserves {host : Host (Members σ)} {call : Members σ → Call (Members σ)}
    (same : ∀ d, (call d).after.records = d.records) :
    Preserves daemonRecords (callNode host call) := by
  intro s
  simp only [callNode, ends_bind, ends_get, ends_modify, ends_onControl]
  have kept :
    ∀ control, daemonRecords { s with node := (call s.node).after, control } = daemonRecords s :=
    fun _ => same s.node
  refine (yields_any _ _).mono (fun _ control _ => ?_) fun _ control _ => kept control
  rw [ends_ofExcept]
  exact ⟨fun _ _ => kept control, fun _ _ => kept control⟩

omit [Store σ] in
theorem resolveEvent_preserves {host : Host (Members σ)} (ref : Text) :
    Preserves daemonRecords (resolveEvent host ref) :=
  preserves_get.bind fun _ => preserves_ofExcept _

omit [Store σ] in
theorem register_preserves (request : Request) (replyFd : Option Nat) :
    Preserves daemonRecords (register (ν := Members σ) request replyFd) := by
  cases replyFd <;> exact fun _ => rfl

theorem discoverEventChain_preserves (e : Event) (range : TimeRange) :
    Preserves daemonRecords
    (callNode (lotidHost (σ := σ) setup) ((lotidHost setup).discoverEventChain e range)) :=
  callNode_preserves (nodeCall_records setup fun _ => discoverEventChain_asks e range _)

theorem dispatchQuery_preserves (verb : Text) (args : List Text) (replyFd : Option Nat) :
    Preserves daemonRecords (dispatchQuery (lotidHost (σ := σ) setup) verb args replyFd) := by
  unfold dispatchQuery
  split
  · split
    · refine (resolveEvent_preserves _).bind fun first =>
        (resolveEvent_preserves _).bind fun second => ?_
      split
      · refine (register_preserves _ _).bind fun _ =>
          Preserves.bind (callNode_preserves ?_) fun _ => preserves_pure _
        exact nodeCall_records setup fun _ => discoverEventOrder_asks _ _ _ _
      · exact preserves_pure _
    · exact preserves_pure _
  · split
    · refine (resolveEvent_preserves _).bind fun found => ?_
      split
      · split
        · refine (register_preserves _ _).bind fun _ =>
            Preserves.bind (callNode_preserves ?_) fun _ => preserves_pure _
          exact nodeCall_records setup fun _ => discoverEventBounds_asks _ _ _
        · refine (register_preserves _ _).bind fun _ => ?_
          exact (discoverEventChain_preserves setup _ _).bind fun _ => preserves_pure _
      · exact preserves_pure _
    · exact preserves_pure _

theorem dispatchProve_preserves (args : List Text) (replyFd : Option Nat) :
    Preserves daemonRecords (dispatchProve (lotidHost (σ := σ) setup) args replyFd) := by
  unfold dispatchProve
  split
  · split
    · split
      · refine (resolveEvent_preserves _).bind fun first =>
          (resolveEvent_preserves _).bind fun second => ?_
        split
        · refine (register_preserves _ _).bind fun _ =>
            (discoverEventChain_preserves setup _ _).bind fun _ => ?_
          exact (discoverEventChain_preserves setup _ _).bind fun _ => preserves_pure _
        · exact preserves_pure _
      · exact preserves_pure _
    · split
      · exact preserves_pure _
      · split
        · refine (resolveEvent_preserves _).bind fun found => ?_
          split
          · refine (register_preserves _ _).bind fun _ => ?_
            exact (discoverEventChain_preserves setup _ _).bind fun _ => preserves_pure _
          · exact preserves_pure _
        · exact preserves_pure _
  · exact preserves_pure _
  · exact preserves_pure _

def Deferred (verb : Text) : Prop :=
  verb = text "bounds" ∨ verb = text "chain" ∨ verb = text "order" ∨ verb = text "prove"

theorem dispatch_deferred (deferred : Deferred (args.headD [])) (replyFd : Option Nat) :
    Preserves daemonRecords (dispatch (lotidHost (σ := σ) setup) args replyFd) := by
  simp only [dispatch]
  split
  · exact dispatchQuery_preserves setup _ args replyFd
  · split
    · exact dispatchProve_preserves setup args replyFd
    · rename_i query prove
      unfold Deferred at deferred
      tauto

theorem CommandSafe.of_deferred {d : Members σ} (deferred : Deferred (args.headD [])) :
    CommandSafe setup d args := by
  have others : ¬Deferred (text "peer-add") ∧ ¬Deferred (text "db-gc") := by simp [Deferred]
  refine ⟨?_, fun head => absurd (head ▸ deferred) others.2⟩
  rintro peer rest id ip port rfl -
  exact absurd deferred others.1

theorem dispatch_command (prompt : ¬Deferred (args.headD [])) (replyFd : Option Nat)
    (s : Daemon (Members σ)) {post : Reply → Daemon (Members σ) → Prop} {thrown : ControlFault →
      Daemon (Members σ) → Prop} :
    Ends (dispatch (lotidHost setup) args replyFd) s post thrown ↔
      Ends (command setup args) s.node (fun reply node => post reply { s with node })
        (fun fault node => thrown (.fault fault) { s with node }) := by
  unfold Deferred at prompt
  have query : ¬(args.headD [] = text "bounds" ∨ args.headD [] = text "chain" ∨
    args.headD [] = text "order") := by tauto
  have prove : ¬args.headD [] = text "prove" := by tauto
  simp only [dispatch, if_neg query, if_neg prove, ends_bind, ends_get, lotidHost, runCommand,
    ends_modify, ends_ofExcept]
  unfold Ends
  cases command setup args s.node <;> simp

theorem dispatchGuarded_iff (s : Daemon (Members σ)) (args : List Text) (replyFd : Option Nat)
    {fine : Daemon (Members σ) → Prop} :
    (∀ reply after, dispatchGuarded (lotidHost setup) args replyFd s = .ok reply after →
      reply.error ≠ [] → fine after) ↔ Ends (dispatch (lotidHost setup) args replyFd) s
        (fun reply after => reply.error ≠ [] → fine after)
        (fun fault after => ∀ reason, fault = .fault (.exception reason) → fine after) := by
  have returned :
      (∀ reply after, dispatchGuarded (lotidHost setup) args replyFd s = .ok reply after →
      reply.error ≠ [] → fine after) ↔ Ends (dispatchGuarded (lotidHost setup) args replyFd) s
        (fun reply after => reply.error ≠ [] → fine after) (fun _ _ => True) := by
    unfold Ends
    cases dispatchGuarded (lotidHost setup) args replyFd s <;> simp
  have named : text "command failed: " ≠ [] := by simp
  rw [returned, dispatchGuarded, ends_tryCatch]
  constructor
  · intro ends
    refine ends.mono (fun _ _ fine => fine) ?_
    rintro _ after caught reason rfl
    exact caught (by simp [named])
  · intro ends
    refine ends.mono (fun _ _ fine => fine) fun fault after caught => ?_
    split
    · exact fun _ => caught _ rfl
    · trivial

/-- A command that fails leaves the overlay, the DAG, the store and the peers as they were if and
only if it is not one that fails half done. -/
theorem failedCommand_iff (s : Daemon (Members σ)) (args : List Text) (replyFd : Option Nat)
    (other : args.headD [] ≠ text "db-restore") :
    (∀ reply after, dispatchGuarded (lotidHost setup) args replyFd s = .ok reply after →
      reply.error ≠ [] → after.node.records = s.node.records) ↔ CommandSafe setup s.node args := by
  rw [dispatchGuarded_iff]
  by_cases deferred : Deferred (args.headD [])
  · refine iff_of_true ?_ (.of_deferred setup deferred)
    exact (dispatch_deferred setup deferred replyFd s).mono
      (fun _ _ same _ => same) fun _ _ same _ _ => same
  · rw [dispatch_command setup deferred, ← command_harmless_iff setup s.node other, Harmless]
    simp [Caught]

def sampleSystem : System where
  strtoull s := ((stoll s).getD 0).toUInt64
  inet := peerInet
  saveFails _ := none
  fileSize _ := 0
  syncFails := none

def sampleSetup : Setup where
  env := .simulated (fun bytes => bytes) 1 {}
  publicKey := none
  lmdbPath := none
  system := sampleSystem

def sampleDaemon : Daemon (Members InMemoryStore) := ⟨{ node := .boot sampleSetup.env {} }, {}⟩

def peeredDaemon : Daemon (Members InMemoryStore) :=
  final (dispatchGuarded (lotidHost sampleSetup) [text "peer-add", text "7:10.0.0.2:7000"]
    (some 5)) sampleDaemon

theorem failedCommand_iff_sample :
    (∃ reply after, dispatchGuarded (lotidHost sampleSetup) [text "peer-add", text "7:nowhere:7000"]
      (some 5) peeredDaemon = .ok reply after ∧ reply.error ≠ []) ∧
    ∀ reply after, dispatchGuarded (lotidHost sampleSetup) [text "peer-add", text "7:nowhere:7000"]
      (some 5) peeredDaemon = .ok reply after → reply.error ≠ [] →
      after.node.records = peeredDaemon.node.records := by
  have fails :
      Ends (dispatchGuarded (lotidHost sampleSetup)
        [text "peer-add", text "7:nowhere:7000"] (some 5))
      peeredDaemon (fun reply _ => reply.error ≠ []) (fun _ _ => False) := by
    decide +kernel
  obtain ⟨reply, after, returned, error⟩ := fails.returns fun _ _ never => never
  refine ⟨⟨reply, after, returned, error⟩, ?_⟩
  refine (failedCommand_iff sampleSetup peeredDaemon _ (some 5) (by decide +kernel)).mpr
    ⟨?_, fun other => ?_⟩
  · rintro peer rest id ip port args parts
    obtain ⟨known, routed, recorded⟩ : NodeId.ofUInt64 7 ∈ peeredDaemon.node.node.neighbors ∧
        peeredDaemon.node.node.destinationToNextHop[NodeId.ofUInt64 7]? = some (.ofUInt64 7) ∧
        peeredDaemon.node.node.store.routes[NodeId.ofUInt64 7]? = some (.ofUInt64 7) := by
      decide +kernel
    obtain ⟨rfl, -⟩ := List.cons.inj (List.cons.inj args).2
    obtain ⟨rfl, -⟩ := List.cons.inj
      (parts.symm.trans (by decide +kernel : _ = [text "7", text "nowhere", text "7000"]))
    have named : parseNodeId sampleSetup (text "7") = .ofUInt64 7 := by decide +kernel
    rw [named]
    refine Or.inl ⟨known, routed, fun store written => Or.inl ?_⟩
    rw [← Except.ok.inj written, insert_eq_self_iff.mpr recorded]
  · exact absurd other (by decide +kernel)

/-- A peer whose address cannot be read is a neighbor all the same. -/
theorem failedCommand_leaves_neighbor :
    ∃ reply after, dispatchGuarded (lotidHost sampleSetup) [text "peer-add", text "7:nowhere:7000"]
        (some 5) sampleDaemon = .ok reply after ∧
        reply.error = text "command failed: bad peer address: nowhere" ∧
      after.node.records ≠ sampleDaemon.node.records := by
  have ran : Ends (dispatchGuarded (lotidHost sampleSetup) [text "peer-add", text "7:nowhere:7000"]
      (some 5)) sampleDaemon
      (fun reply after => reply.error = text "command failed: bad peer address: nowhere" ∧
        NodeId.ofUInt64 7 ∈ after.node.node.neighbors ∧
        NodeId.ofUInt64 7 ∉ sampleDaemon.node.node.neighbors)
      (fun _ _ => False) := by
    decide +kernel
  obtain ⟨reply, after, returned, error, noted, new⟩ := ran.returns fun _ _ never => never
  refine ⟨reply, after, returned, error, fun same => ?_⟩
  exact records_new_neighbor new noted (congrArg Prod.fst same)

end Loti.Lotid
