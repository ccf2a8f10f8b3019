import Loti.Library.Transactions
import Loti.LmdbStore
import Loti.Node
import Loti.StoreWrites

/-!
`src/adapters/os/lmdb_store.cpp` at the level of bytes: the sub-databases map keys to encoded
records, `referencing` (DUPSORT) keeps a sorted set of values for each key, and every write is a
transaction that the code begins, fills, commits and aborts itself. The counters and the trackers of
the chains are members of the store object and not part of the file.

Each call of LMDB's writer ends as the script of the environment says. `put` refuses a key that is
empty or longer than 511 bytes, `get` and `del` an empty one. A second write transaction in the same
thread waits for the first one for ever. The `meta` sub-database, migrations and
the limit on the size of a value (`0xffffffff` bytes) are left out.
-/

namespace Loti

open Std StateExcept Transactions Wire

inductive ErrorCode
  | notFound
  | mapFull
  | badValsize
  | other (reason : String)
deriving DecidableEq

def ErrorCode.text : ErrorCode → String
  | .notFound => "MDB_NOTFOUND: No matching key/data pair found"
  | .mapFull => "MDB_MAP_FULL: Environment mapsize limit reached"
  | .badValsize => "MDB_BAD_VALSIZE: Unsupported size of key/DB name/data, or wrong DUPFIXED size"
  | .other reason => reason

inductive Db
  | events
  | eventIndex
  | clockEvents
  | clockIndex
  | neighbors
  | routes
  | timedRoutes
deriving DecidableEq

structure Tables where
  plain : Db → ExtTreeMap Bytes Bytes := fun _ => ∅
  referencing : ExtTreeMap Bytes (List Bytes) := ∅

namespace Tables

def put (t : Tables) (db : Db) (key value : Bytes) : Tables :=
  { t with plain := Function.update t.plain db ((t.plain db).insert key value) }

def del (t : Tables) (db : Db) (key : Bytes) : Tables :=
  { t with plain := Function.update t.plain db ((t.plain db).erase key) }

def drop (t : Tables) (db : Db) : Tables := { t with plain := Function.update t.plain db ∅ }

def insertDup (value : Bytes) (dups : List Bytes) : List Bytes :=
  if value ∈ dups then dups else dups.orderedInsert (fun a b => (compare a b).isLE) value

def putReferencing (t : Tables) (key value : Bytes) : Tables :=
  { t with referencing := t.referencing.insert key (insertDup value (t.referencing.getD key [])) }

def delReferencing (t : Tables) (key value : Bytes) : Tables :=
  let left := (t.referencing.getD key []).filter (· ≠ value)
  { t with referencing :=
    if left = [] then t.referencing.erase key else t.referencing.insert key left }

def dropReferencing (t : Tables) : Tables := { t with referencing := ∅ }

end Tables

/-- The build: the word size, and `kMaxMapSize` with 0 for none. -/
structure Build where
  wordBits : Nat
  maxMapSize : Nat

structure LmdbFile where
  env : Env Tables ErrorCode
  mapSize : Nat
  nextEventSeq : Nat := 0
  nextClockSeq : Nat := 0
  chainTipSeq : ExtTreeMap UInt32 Nat := ∅
  chainSeqs : ExtTreeMap UInt32 (List Nat) := ∅

/-- `LmdbMapFull` is caught by `durable`; the other faults leave the store. -/
inductive LmdbFault
  | mapFull
  | fault (fault : Fault)
deriving DecidableEq

abbrev LmdbM := EStateM LmdbFault LmdbFile

namespace LmdbFile

def check (what : String) : Option ErrorCode → LmdbM Unit
  | none => pure ()
  | some code => throw (.fault (.exception ("lmdb: " ++ what ++ ": " ++ code.text)))

def checkWrite (what : String) : Option ErrorCode → LmdbM Unit
  | some .mapFull => throw .mapFull
  | rc => check what rc

def txnBegin : LmdbM Unit := do
  let s ← get
  match s.env.start with
  | some env => set { s with env }
  | none => throw (.fault .diverges)

def call (change : Tables → Tables) : LmdbM (Option ErrorCode) := do
  let s ← get
  set { s with env := s.env.write change }
  return s.env.result

def mdbPut (db : Db) (key value : Bytes) : LmdbM (Option ErrorCode) :=
  if LmdbStore.ValidKey key then call fun t => t.put db key value else return some .badValsize

def mdbPutReferencing (key value : Bytes) : LmdbM (Option ErrorCode) :=
  if LmdbStore.ValidKey key then call fun t => t.putReferencing key value
  else return some .badValsize

def working (s : LmdbFile) : Tables := s.env.writer.getD s.env.committed

def mdbGet (db : Db) (key : Bytes) : LmdbM (Except ErrorCode Bytes) := do
  if key = [] then return .error .badValsize
  match ((← get).working.plain db)[key]? with
  | some value => return .ok value
  | none => return .error .notFound

def orNotFound (found : Bool) (rc : Option ErrorCode) : Option ErrorCode :=
  if found then rc else rc.or (some .notFound)

def mdbDelete (key : Bytes) (found : Tables → Bool) (change : Tables → Tables) :
    LmdbM (Option ErrorCode) := do
  if key = [] then return some .badValsize
  let t := (← get).working
  return orNotFound (found t) (← call change)

def mdbDel (db : Db) (key : Bytes) : LmdbM (Option ErrorCode) :=
  mdbDelete key (fun t => key ∈ t.plain db) fun t => t.del db key

def mdbDelReferencing (key value : Bytes) : LmdbM (Option ErrorCode) :=
  mdbDelete key (fun t => value ∈ t.referencing.getD key []) fun t => t.delReferencing key value

def mdbDrop (change : Tables → Tables) : LmdbM (Option ErrorCode) := call change

def txnCommit : LmdbM (Option ErrorCode) := do
  let s ← get
  set { s with env := s.env.commit }
  return s.env.result

def txnAbort : LmdbM Unit := modify fun s => { s with env := s.env.abort }

def be64 (seq : Nat) : Bytes := BigEndian.digits 8 seq

def getU64Be (bytes : Bytes) : Nat := BigEndian.value (bytes.take 8)

/-! `Batch` -/

structure Batch where
  eventSeq : Nat
  clockSeq : Nat
  pendingChainAppends : List (UInt32 × Nat) := []

def Batch.appendEvent (e : Event) (b : Batch) : LmdbM (Nat × Batch) := do
  let seq := b.eventSeq
  checkWrite "put event" (← mdbPut .events (be64 seq) (Writer.event e))
  checkWrite "put event_index" (← mdbPut .eventIndex e.hash (be64 seq))
  return (seq, { b with eventSeq := seq + 1 })

def Batch.appendClockEvent (c : LocalClockEvent) (b : Batch) : LmdbM (Nat × Batch) := do
  let seq := b.clockSeq
  checkWrite "put clock_event" (← mdbPut .clockEvents (be64 seq) (writeLocalClockEvent c))
  checkWrite "put clock_index" (← mdbPut .clockIndex c.hash (be64 seq))
  c.referencedEvents.forM fun ref => do
    checkWrite "put referencing" (← mdbPutReferencing ref.hash (be64 seq))
  return (seq, { b with
    clockSeq := seq + 1, pendingChainAppends := b.pendingChainAppends ++ [(c.chain, seq)] })

def Batch.updateClockEvent (c : LocalClockEvent) (b : Batch) : LmdbM (Unit × Batch) := do
  match ← mdbGet .clockIndex c.hash with
  | .error .notFound =>
      throw (.fault (.exception "lmdb: update_clock_event for an unknown clock event"))
  | .error code => throw (.fault (.exception ("lmdb: get clock_index: " ++ code.text)))
  | .ok seq =>
      checkWrite "update clock_event" (← mdbPut .clockEvents (seq.take 8) (writeLocalClockEvent c))
      return ((), b)

def tipsValue (tips : List EventHash) : Bytes := writeCount tips.length ++ tips.flatMap Writer.blob

def Batch.putNeighbor (n : Neighbor) (b : Batch) : LmdbM (Unit × Batch) := do
  checkWrite "put_neighbor" (← mdbPut .neighbors n.nodeId.bytes (tipsValue n.lastClockEventHashes))
  return ((), b)

def Batch.putRoute (destination nextHop : NodeId) (b : Batch) : LmdbM (Unit × Batch) := do
  checkWrite "put_route" (← mdbPut .routes destination.bytes nextHop.bytes)
  return ((), b)

def noteAppend (s : LmdbFile) (entry : UInt32 × Nat) : LmdbFile :=
  { s with
    chainTipSeq := s.chainTipSeq.insert entry.1 entry.2
    chainSeqs := s.chainSeqs.insert entry.1 (s.chainSeqs.getD entry.1 [] ++ [entry.2]) }

def Batch.commit (b : Batch) : LmdbM Unit := do
  checkWrite "txn_commit" (← txnCommit)
  modify fun s => b.pendingChainAppends.foldl noteAppend
    { s with nextEventSeq := b.eventSeq, nextClockSeq := b.clockSeq }

variable (build : Build)

def growMap : LmdbM Unit := do
  let s ← get
  if build.maxMapSize ≠ 0 ∧ build.maxMapSize ≤ s.mapSize then
    throw (.fault (.exception "lmdb: store full (32-bit address-space limit reached)"))
  let next := if build.maxMapSize = 0 then s.mapSize * 2 else min (s.mapSize * 2) build.maxMapSize
  set { s with mapSize := next }
  check "set_mapsize(grow)" (← call id)

/-- One attempt of `durable`. The destructor of the batch aborts a transaction that is not
committed. -/
def attempt {α : Type} (op : Batch → LmdbM (α × Batch)) : LmdbM α := do
  txnBegin
  let s ← get
  let body : LmdbM α := do
    let (value, b) ← op ⟨s.nextEventSeq, s.nextClockSeq, []⟩
    b.commit
    return value
  tryCatch body fun fault => do
    when ((← get).env.writer.isSome = true) txnAbort
    throw fault

def durableIn {α : Type} (op : Batch → LmdbM (α × Batch)) : Nat → LmdbM α
  | 0 => throw (.fault .diverges)
  | rounds + 1 => tryCatch (attempt op) fun
      | .mapFull => do
          growMap build
          durableIn op rounds
      | fault => throw fault

/-- Every attempt that fails takes a failure from the script, so the rounds suffice. -/
def durable {α : Type} (op : Batch → LmdbM (α × Batch)) : LmdbM α := do
  durableIn build op ((← get).env.script.length + 1)

/-! Writes of the port -/

def appendEvent (e : Event) : LmdbM Nat := durable build (Batch.appendEvent e)

def appendClockEvent (c : LocalClockEvent) : LmdbM Nat := durable build (Batch.appendClockEvent c)

def updateClockEvent (c : LocalClockEvent) : LmdbM Unit := durable build (Batch.updateClockEvent c)

def putNeighbor (n : Neighbor) : LmdbM Unit := durable build (Batch.putNeighbor n)

def putRoute (destination nextHop : NodeId) : LmdbM Unit :=
  durable build (Batch.putRoute destination nextHop)

def timedRoutesValue (routes : List TimedRoute) : Bytes :=
  writeCount routes.length ++ routes.flatMap fun route =>
    Writer.timeRange route.validity ++ Writer.nodeIds route.nextHops

def putTimedRoute (entry : NodeId × List TimedRoute) : LmdbM Unit := do
  checkWrite "put_timed_route" (← mdbPut .timedRoutes entry.1.bytes (timedRoutesValue entry.2))

def putTimedRoutes (table : TimedRouteTable) : LmdbM Unit := do
  txnBegin
  -- the return code of `mdb_drop` is ignored, and nothing aborts the transaction when a put throws
  let _ ← mdbDrop fun t => t.drop .timedRoutes
  table.toList.forM putTimedRoute
  checkWrite "commit timed_routes" (← txnCommit)

def readClockEvent (bytes : Bytes) : Except Fault ClockEvent :=
  match Reader.clockEvent ⟨bytes, build.wordBits⟩ 0 with
  | .ok record _ => .ok record
  | .error fault _ => .error fault

def checkDelete (what : String) : Option ErrorCode → LmdbM Unit
  | some .notFound => pure ()
  | rc => check what rc

def dropClockEvent (seq : Nat) : LmdbM Unit := do
  match ← mdbGet .clockEvents (be64 seq) with
  | .error .notFound => pure ()
  | .error code => check "get clock_event(prune)" (some code)
  | .ok bytes =>
      let ce ← ofExcept .fault (readClockEvent build bytes)
      ce.referencedEvents.forM fun ref => do
        checkDelete "del referencing(prune)" (← mdbDelReferencing ref.hash (be64 seq))
      checkDelete "del clock_index(prune)" (← mdbDel .clockIndex ce.hash)
      check "del clock_event(prune)" (← mdbDel .clockEvents (be64 seq))

def pruneChain (chain : UInt32) (keep : Nat) : LmdbM Unit := do
  match (← get).chainSeqs[chain]? with
  | none => pure ()
  | some seqs =>
      if keep = 0 ∨ seqs.length ≤ keep then return
      let toPrune := seqs.length - keep
      txnBegin
      let body : LmdbM Unit := do
        (seqs.take toPrune).forM (dropClockEvent build)
        check "txn_commit(prune)" (← txnCommit)
      tryCatch body fun fault => do
        txnAbort
        throw fault
      modify fun s => { s with chainSeqs := s.chainSeqs.insert chain (seqs.drop toPrune) }

def resetDrops : List (Tables → Tables) :=
  [fun t => t.drop .events, fun t => t.drop .eventIndex, fun t => t.drop .clockEvents,
    fun t => t.drop .clockIndex, Tables.dropReferencing, fun t => t.drop .neighbors,
    fun t => t.drop .routes, fun t => t.drop .timedRoutes]

def reset : LmdbM Unit := do
  txnBegin
  resetDrops.forM fun change => do
    match ← mdbDrop change with
    | none => pure ()
    | some code =>
        txnAbort
        check "drop" (some code)
  check "txn_commit" (← txnCommit)
  modify fun s => { s with nextEventSeq := 0, nextClockSeq := 0, chainTipSeq := ∅, chainSeqs := ∅ }

def perform : StoreWrite → LmdbM (Option Nat)
  | .appendEvent event => some <$> appendEvent build event
  | .appendClockEvent record => some <$> appendClockEvent build record
  | .updateClockEvent record => do updateClockEvent build record; return none
  | .putNeighbor neighbor => do putNeighbor build neighbor; return none
  | .putRoute destination nextHop => do putRoute build destination nextHop; return none
  | .putTimedRoutes table => do putTimedRoutes table; return none
  | .pruneChain chain keep => do pruneChain build chain keep; return none
  | .clear => do reset; return none

/-! Reads of the port, each in a read-only transaction -/

def readRecord {α : Type} (read : Buffer → ReadM α) (bytes : Bytes) : Except Fault α :=
  match read ⟨bytes, build.wordBits⟩ 0 with
  | .ok value _ => .ok value
  | .error fault _ => .error fault

def getBytes (s : LmdbFile) (db : Db) (key : Bytes) : Except Fault (Option Bytes) :=
  if key = [] then .error (.exception ("lmdb: get: " ++ ErrorCode.badValsize.text))
  else .ok (s.env.committed.plain db)[key]?

def seqOf (s : LmdbFile) (index : Db) (hash : EventHash) : Except Fault (Option Nat) := do
  match ← s.getBytes index hash with
  | none => return none
  | some bytes =>
      if bytes.length ≠ 8 then throw (.exception "lmdb: index value has an unexpected size")
      return some (getU64Be bytes)

def eventBySeq (s : LmdbFile) (seq : Nat) : Except Fault Event := do
  match ← s.getBytes .events (be64 seq) with
  | none => throw (.exception "lmdb: event seq out of range")
  | some bytes => readRecord build Reader.event bytes

def eventByHash (s : LmdbFile) (hash : EventHash) : Except Fault (Option Event) := do
  match ← s.seqOf .eventIndex hash with
  | none => return none
  | some seq => return some (← s.eventBySeq build seq)

def clockEventBySeq (s : LmdbFile) (seq : Nat) : Except Fault LocalClockEvent := do
  match ← s.getBytes .clockEvents (be64 seq) with
  | none => throw (.exception "lmdb: clock event seq out of range")
  | some bytes => readRecord build readLocalClockEvent bytes

def clockEventByHash (s : LmdbFile) (hash : EventHash) : Except Fault (Option LocalClockEvent) := do
  match ← s.seqOf .clockIndex hash with
  | none => return none
  | some seq => return some (← s.clockEventBySeq build seq)

def clockEventSeq (s : LmdbFile) (hash : EventHash) : Except Fault (Option Nat) :=
  s.seqOf .clockIndex hash

def clockEventsReferencing (s : LmdbFile) (hash : EventHash) : Except Fault (List Nat) :=
  if hash = [] then .error (.exception ("lmdb: cursor_next_dup: " ++ ErrorCode.badValsize.text))
  else .ok ((s.env.committed.referencing.getD hash []).map getU64Be)

def latestClockEvent (s : LmdbFile) : Except Fault (Option LocalClockEvent) :=
  match (s.env.committed.plain .clockEvents).toList.getLast? with
  | none => return none
  | some entry => some <$> readRecord build readLocalClockEvent entry.2

def latestClockEventOn (s : LmdbFile) (chain : UInt32) : Except Fault (Option LocalClockEvent) :=
  match s.chainTipSeq[chain]? with
  | none => return none
  | some seq => some <$> s.clockEventBySeq build seq

def eventCount (s : LmdbFile) : Nat := (s.env.committed.plain .events).size

def clockEventCount (s : LmdbFile) : Nat := (s.env.committed.plain .clockEvents).size

def loadClockEvents (s : LmdbFile) : Except Fault (List LocalClockEvent) :=
  (s.env.committed.plain .clockEvents).toList.mapM fun entry =>
    readRecord build readLocalClockEvent entry.2

def getNodeId (bytes : Bytes) : Except Fault NodeId :=
  if size : (bytes.take 16).length = 16 then .ok ⟨bytes.take 16, size⟩
  else .error .undefinedBehavior

def loadMap {α : Type} (readValue : NodeId → Bytes → Except Fault α)
    (table : ExtTreeMap Bytes Bytes) : Except Fault (ExtTreeMap NodeId α) :=
  table.toList.foldlM (fun out entry => do
    let nodeId ← getNodeId entry.1
    return out.insert nodeId (← readValue nodeId entry.2)) ∅

def readTips (buffer : Buffer) : ReadM (List EventHash) := readCounted buffer (Reader.blob buffer)

def loadNeighbors (s : LmdbFile) : Except Fault Neighbors :=
  loadMap (fun nodeId bytes => Neighbor.mk nodeId <$> readRecord build readTips bytes)
    (s.env.committed.plain .neighbors)

def loadRoutes (s : LmdbFile) : Except Fault (ExtTreeMap NodeId NodeId) :=
  loadMap (fun _ bytes => getNodeId bytes) (s.env.committed.plain .routes)

def readTimedRoute (buffer : Buffer) : ReadM TimedRoute := do
  let validity ← Reader.timeRange buffer
  let nextHops ← Reader.nodeIds buffer
  return { validity, nextHops }

def loadTimedRoutes (s : LmdbFile) : Except Fault TimedRouteTable :=
  loadMap (fun _ bytes =>
    readRecord build (fun buffer => readCounted buffer (readTimedRoute buffer)) bytes)
    (s.env.committed.plain .timedRoutes)

/-! Opening -/

def nextSeq (table : ExtTreeMap Bytes Bytes) : Nat :=
  match table.maxKey? with
  | some key => getU64Be key + 1
  | none => 0

structure Trackers where
  chainTipSeq : ExtTreeMap UInt32 Nat := ∅
  chainSeqs : ExtTreeMap UInt32 (List Nat) := ∅

def seedRecord (trackers : Trackers) (entry : Bytes × Bytes) : Except Fault Trackers := do
  let c ← readClockEvent build entry.2
  let seq := getU64Be entry.1
  return {
    chainTipSeq := trackers.chainTipSeq.insert c.chain seq
    chainSeqs := trackers.chainSeqs.insert c.chain (trackers.chainSeqs.getD c.chain [] ++ [seq]) }

def seedChainTips (t : Tables) : Except Fault Trackers :=
  (t.plain .clockEvents).toList.foldlM (seedRecord build) {}

def openFile (t : Tables) (script : List (Option ErrorCode)) (mapSize : Nat) :
    Except Fault LmdbFile := do
  let trackers ← seedChainTips build t
  return {
    env := { committed := t, script }
    mapSize
    nextEventSeq := nextSeq (t.plain .events)
    nextClockSeq := nextSeq (t.plain .clockEvents)
    chainTipSeq := trackers.chainTipSeq
    chainSeqs := trackers.chainSeqs }

def Matches (s : LmdbFile) : Prop :=
  s.nextEventSeq = nextSeq (s.env.committed.plain .events) ∧
    s.nextClockSeq = nextSeq (s.env.committed.plain .clockEvents) ∧
    seedChainTips build s.env.committed = .ok ⟨s.chainTipSeq, s.chainSeqs⟩

end LmdbFile

end Loti
