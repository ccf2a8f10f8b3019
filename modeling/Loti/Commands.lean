import Loti.ControlReply
import Loti.Transport

/-!
The daemon of `src/app/lotid/lotid.cpp` on its node: the verbs that are answered at once, the
lookup of events, and the calls of the node behind the deferred verbs. The backup files are those
of `src/adapters/os/store.hpp`.

What the C library and the file system decide stands in `System`. The daemon is the node's only
client, and its callbacks touch nothing of the node; they are delivered once the call has ended.
-/

namespace Loti.Lotid

open Std StateExcept

/-! Reading arguments -/

def splitFrom (sep : UInt8) (cur : Text) : Text → List Text
  | [] => [cur]
  | c :: rest => if c = sep then cur :: splitFrom sep [] rest else splitFrom sep (cur ++ [c]) rest

def split (s : Text) (sep : UInt8) : List Text := splitFrom sep [] s

def nib (c : UInt8) : Option Nat :=
  if 48 ≤ c ∧ c ≤ 57 then some (c.toNat - 48)
  else if 97 ≤ c ∧ c ≤ 102 then some (c.toNat - 87)
  else if 65 ≤ c ∧ c ≤ 70 then some (c.toNat - 55)
  else none

def unhexPairs : Text → Option Bytes
  | [] => some []
  | [_] => none
  | hi :: lo :: rest => do
      let high ← nib hi
      let low ← nib lo
      return UInt8.ofNat (16 * high + low) :: (← unhexPairs rest)

def unhex (s : Text) : Option Bytes := if s = [] then none else unhexPairs s

def cString (s : Text) : Text := s.takeWhile (· ≠ 0)

/-- An exception's text; a byte beyond ASCII becomes the character of its number. -/
def what (bytes : Text) : String := String.ofList (bytes.map fun byte => Char.ofNat byte.toNat)

/-! The daemon's members -/

inductive SaveStep
  | opening
  | writing
  | installing

structure System where
  strtoull : Text → UInt64
  inet : AddressReader
  saveFails : Text → Option SaveStep
  fileSize : Text → Int
  syncFails : Option String

/-- What stays fixed while the daemon runs. A signed daemon has a public key, a durable one the path
of its LMDB environment. -/
structure Setup where
  env : NodeEnv
  publicKey : Option Bytes
  lmdbPath : Option Text
  system : System

/-- The members of `Lotid` besides those that serve control clients, and the backup files. -/
structure Members (σ : Type) extends Process σ where
  peers : List (NodeId × Text × UInt16) := []
  lastEvent : EventHash := []
  files : ExtTreeMap Text Bytes := ∅
  running : Bool := true

abbrev CommandM (σ : Type) := EStateM Fault (Members σ)

variable {σ : Type} [Store σ] (setup : Setup)

def onNode {α : Type} (m : NodeM σ α) : CommandM σ α :=
  zoom (fun d => d.node) (fun node d => { d with node }) m

/-- 32 hexadecimal digits are the bytes of an id, with or without `0x`; anything else is a
number. -/
def parseNodeId (s : Text) : NodeId :=
  let h := match s with
    | 48 :: x :: c :: rest => if x = 120 ∨ x = 88 then c :: rest else s
    | _ => s
  match unhex h with
  | some bytes =>
      if sized : bytes.length = 16 then ⟨bytes, sized⟩
      else .ofUInt64 (setup.system.strtoull (cString s))
  | none => .ofUInt64 (setup.system.strtoull (cString s))

/-! Peers -/

def addPeer (id : NodeId) (ip : Text) (port : UInt16) : CommandM σ Unit := do
  zoom Members.toProcess (fun process d => { d with toProcess := process })
    (Loti.addPeer setup.system.inet id (what ip) port)
  modify fun d => { d with peers := d.peers ++ [(id, ip, port)] }

/-! Events -/

def scanEvents (store : σ) (start : Text) : List Nat → Except String (Option Event)
  | [] => return none
  | seq :: rest => do
      let e ← Store.eventBySeq store seq
      if start <+: hex e.hash then return some e
      scanEvents store start rest

def findByHashPrefix (store : σ) (start : Text) : Except String (Option Event) :=
  if start.length = 64 then
    match unhex start with
    | some bytes => Store.eventByHash store bytes
    | none => return none
  else scanEvents store start (List.range (Store.eventCount store))

def findEvent (ref : Text) (d : Members σ) : Except String (Option Event) :=
  if ref = text "last" then
    if d.lastEvent = [] then return none else findByHashPrefix d.node.store (hex d.lastEvent)
  else findByHashPrefix d.node.store ref

/-- A local reference is looked up; `<creator>:<hash>` points to an event that need not be here. -/
def resolveReference (ref : Text) (d : Members σ) : Except Fault (Option Event) :=
  if 58 ∈ ref then
    match unhex ((ref.dropWhile (· ≠ 58)).drop 1) with
    | some hash =>
        if hash.length = 32 then
          return some { (default : Event) with creator := parseNodeId setup (ref.takeWhile (· ≠ 58)), hash }
        else return none
    | none => return none
  else (findEvent ref d).mapError Fault.exception

/-! The verbs -/

def usage (error : String) : Reply := { code := kUsage, error := text error }

def count (n : Nat) : Text := decimal n

def joined (words : List Text) : Text := [32].intercalate words

def publish : List Text → CommandM σ Reply
  | _ :: word :: words => do
      let e ← onNode (publishEvent setup.env (joined (word :: words)))
      modify fun d => { d with lastEvent := e.hash }
      return { fields := [(text "event", hex e.hash)] }
  | _ => return usage "usage: publish <text>"

def event : List Text → CommandM σ Reply
  | _ :: ref :: _ => do
      match ← ofExcept .exception (findEvent ref (← get)) with
      | some e =>
          return { fields :=
            [(text "event", hex e.hash), (text "creator", hexId e.creator),
              (text "content", printable e.data), (text "size", count e.data.length),
              (text "references", count e.referencedEvents.length)] }
      | none => return noSuchEvent
  | _ => return usage "usage: event <hash|last>"

def allEvents (store : σ) : Except String (List Event) :=
  (List.range (Store.eventCount store)).mapM (Store.eventBySeq store)

def eventFind : List Text → CommandM σ Reply
  | _ :: word :: words => do
      let listed ← onNode (readStore allEvents)
      let fields := (listed.filter fun e => joined (word :: words) <:+: e.data).flatMap fun e =>
        [(text "event", hex e.hash), (text "content", printable e.data)]
      return if fields = [] then { code := kNotFound, error := text "no event matches" }
        else { fields }
  | _ => return usage "usage: event-find <text>"

def events (_ : List Text) : CommandM σ Reply := do
  let listed ← onNode (readStore allEvents)
  return { fields := listed.map fun e => (text "event", hex e.hash) }

def peerAdd : List Text → CommandM σ Reply
  | _ :: peer :: _ =>
      match split peer 58 with
      | [id, ip, port] => do
          addPeer setup (parseNodeId setup id) ip (UInt16.ofInt (atoi port).toInt)
          return { fields := [(text "peer", peer)] }
      | _ => return usage "want id:ip:port"
  | _ => return usage "usage: peer-add <id:ip:port>"

def peerLs (_ : List Text) : CommandM σ Reply := do
  let d ← get
  return { fields := d.peers.map fun peer =>
    (text "peer", hexId peer.1 ++ [32] ++ peer.2.1 ++ [58] ++ count peer.2.2.toNat) }

def eventCounts (d : Members σ) : ControlFields :=
  [(text "events", count (Store.eventCount d.node.store)),
    (text "clockEvents", count (Store.clockEventCount d.node.store))]

def status (_ : List Text) : CommandM σ Reply := do
  let d ← get
  return { fields :=
    [(text "node", hexId setup.env.id),
      (text "mode", if setup.publicKey.isSome then text "signed" else text "unsigned")] ++
    eventCounts d ++ [(text "peers", count d.peers.length)] }

def key (_ : List Text) : CommandM σ Reply :=
  return { fields :=
    [(text "node", hexId setup.env.id),
      (text "publicKey", match setup.publicKey with
        | some publicKey => hex publicKey
        | none => text "(unsigned)")] }

def storeName : Text := setup.lmdbPath.getD (text "(in-memory)")

def save (_ : List Text) : CommandM σ Reply := do
  match setup.lmdbPath, setup.system.syncFails with
  | some _, some reason => throw (.exception ("lmdb: env_sync: " ++ reason))
  | _, _ => return { fields := [(text "store", storeName setup)] }

def dbStat (_ : List Text) : CommandM σ Reply := do
  let blob ← onNode snapshot
  let d ← get
  return { fields :=
    [(text "store", storeName setup)] ++ eventCounts d ++
    [(text "chains", count setup.env.numChains), (text "peers", count d.peers.length),
      (text "snapshotBytes", count blob.length),
      (text "retention",
        text "per-chain ring; events stay boundable at the coarsest retained chain")] ++
    match setup.lmdbPath with
    | some path => [(text "diskBytes", decimal (setup.system.fileSize path))]
    | none => [] }

def dbGc (_ : List Text) : CommandM σ Reply := do
  onNode (gc setup.env)
  let d ← get
  return { fields :=
    [(text "gc", text "done"), (text "chains", count setup.env.numChains),
      (text "clockEvents", count (Store.clockEventCount d.node.store))] }

def saveFile (path : Text) (blob : Bytes) : CommandM σ Unit :=
  match setup.system.saveFails path with
  | some .opening => throw (.exception ("cannot open backup file " ++ what path ++ ".tmp"))
  | some .writing => throw (.exception ("cannot write backup file " ++ what path ++ ".tmp"))
  | some .installing => throw (.exception ("cannot install backup file " ++ what path))
  | none => modify fun d => { d with files := d.files.insert path blob }

def dbBackup : List Text → CommandM σ Reply
  | _ :: path :: _ => do
      let blob ← onNode snapshot
      saveFile setup path blob
      return { fields := [(text "backup", path)] ++ eventCounts (← get) }
  | _ => return usage "usage: db-backup <path>"

def loadFile (path : Text) (d : Members σ) : Option Bytes := d.files[path]?.filter (· ≠ [])

def restoreFrom (path : Text) (blob : Bytes) : CommandM σ Reply := do
  onNode (restore setup.env blob)
  return { fields := [(text "restored", path)] ++ eventCounts (← get) }

def dbRestore : List Text → CommandM σ Reply
  | _ :: path :: _ => do
      match loadFile path (← get) with
      | none => return { code := kNotFound, error := text "cannot read snapshot" }
      | some blob =>
          tryCatch (restoreFrom setup path blob) fun
            | .exception reason =>
                return { code := kInvalidResult, error := text "invalid snapshot: " ++ text reason }
            | fault => throw fault
  | _ => return usage "usage: db-restore <path>"

def quit (_ : List Text) : CommandM σ Reply := do
  modify fun d => { d with running := false }
  return { fields := [(text "status", text "stopping")] }

/-- The verbs that are answered at once, in the order in which `dispatch` compares. -/
def verbs : List (Text × (List Text → CommandM σ Reply)) :=
  [(text "publish", publish setup), (text "event", event), (text "event-find", eventFind),
    (text "events", events), (text "peer-add", peerAdd setup), (text "peer-ls", peerLs),
    (text "status", status setup), (text "key", key setup),
    (text "save", save setup), (text "db-stat", dbStat setup), (text "db-gc", dbGc setup),
    (text "db-backup", dbBackup setup), (text "db-restore", dbRestore setup), (text "quit", quit),
    (text "exit", quit)]

def command (args : List Text) : CommandM σ Reply :=
  match (verbs setup).lookup (args.headD []) with
  | some verb => verb args
  | none => return { code := kUsage, error := text "unknown command: " ++ args.headD [] }

/-! The daemon as a host of control clients -/

def nodeCall (m : NodeM σ Unit) (d : Members σ) : Call (Members σ) :=
  let after := final m d.node
  { after := { d with node := after }
    callbacks := after.discoveries.notified.drop d.node.discoveries.notified.length
    ended := match raised m d.node with | some fault => .error fault | none => .ok () }

def myReference : OfflineProof.Reference := ⟨setup.env.id, setup.publicKey.getD []⟩

def runCommand (args : List Text) (d : Members σ) : Except Fault Reply × Members σ :=
  match command setup args d with
  | .ok reply after => (.ok reply, after)
  | .error fault after => (.error fault, after)

theorem command_cases {args : List Text} {d : Members σ} {post : Reply → Members σ → Prop}
    {thrown : Fault → Members σ → Prop}
    (known : ∀ entry ∈ verbs setup, entry.1 = args.headD [] → Ends (entry.2 args) d post thrown)
    (unknown : post { code := kUsage, error := text "unknown command: " ++ args.headD [] } d) :
    Ends (command setup args) d post thrown := by
  unfold command
  split
  · rename_i verb found
    obtain ⟨before, after, listed, -⟩ := List.lookup_eq_some_iff.mp found
    exact known (args.headD [], verb) (by simp [listed]) rfl
  · exact unknown

def Prompt (reply : Reply) : Prop := reply.deferred = false

theorem restoreFrom_prompt (path : Text) (blob : Bytes) :
    Yields Prompt (restoreFrom (σ := σ) setup path blob) :=
  Yields.after fun _ => Yields.after fun _ => yields_pure rfl

theorem dbRestore_prompt (args : List Text) : Yields Prompt (dbRestore (σ := σ) setup args) := by
  unfold dbRestore
  split
  · refine Yields.after fun d => ?_
    split
    · exact yields_pure rfl
    · intro d
      rw [ends_tryCatch]
      refine (restoreFrom_prompt setup _ _ d).mono (fun _ _ prompt => prompt) fun fault after _ =>
        ?_
      split <;> trivial
  · exact yields_pure rfl

theorem verb_prompt (args : List Text) : ∀ entry ∈ verbs (σ := σ) setup, Yields Prompt
    (entry.2 args) := by
  intro entry member
  simp only [verbs, List.mem_cons, List.not_mem_nil, or_false] at member
  rcases member with
    rfl | rfl | rfl | rfl | rfl | rfl | rfl | rfl | rfl | rfl | rfl | rfl | rfl | rfl | rfl <;> dsimp only
  · unfold publish
    split
    · exact Yields.after fun _ => Yields.after fun _ => yields_pure rfl
    · exact yields_pure rfl
  · unfold event
    split
    · refine Yields.after fun _ => Yields.after fun found => ?_
      cases found <;> exact yields_pure rfl
    · exact yields_pure rfl
  · unfold eventFind
    split
    · refine Yields.after fun _ => yields_pure ?_
      unfold Prompt
      split <;> rfl
    · exact yields_pure rfl
  · exact Yields.after fun _ => yields_pure rfl
  · unfold peerAdd
    split
    · split
      · exact Yields.after fun _ => yields_pure rfl
      · exact yields_pure rfl
    · exact yields_pure rfl
  · exact Yields.after fun _ => yields_pure rfl
  · exact Yields.after fun _ => yields_pure rfl
  · exact yields_pure rfl
  · unfold save
    split
    · exact yields_throw _
    · exact yields_pure rfl
  · exact Yields.after fun _ => Yields.after fun _ => yields_pure rfl
  · exact Yields.after fun _ => Yields.after fun _ => yields_pure rfl
  · unfold dbBackup
    split
    · exact Yields.after fun _ => Yields.after fun _ => Yields.after fun _ => yields_pure rfl
    · exact yields_pure rfl
  · exact dbRestore_prompt setup args
  · exact Yields.after fun _ => yields_pure rfl
  · exact Yields.after fun _ => yields_pure rfl

theorem command_prompt (args : List Text) : Yields Prompt (command (σ := σ) setup args) := fun d =>
  command_cases setup (fun entry member _ => verb_prompt setup args entry member d) rfl

theorem runCommand_prompt (args : List Text) (d : Members σ) (reply : Reply)
    (answered : (runCommand setup args d).1 = .ok reply) : reply.deferred = false := by
  have prompt := command_prompt setup args d
  unfold Ends at prompt
  unfold runCommand at answered
  cases ran : command setup args d with
  | ok value after =>
      rw [ran] at prompt answered
      exact Except.ok.inj answered ▸ prompt
  | error fault after =>
      rw [ran] at answered
      cases answered

def lotidHost : Host (Members σ) where
  reference := myReference setup
  resolveEvent := resolveReference setup
  discoverEventChain e range := nodeCall (discoverEventChain setup.env e range (.client 0))
  discoverEventBounds e range := nodeCall (discoverEventBounds setup.env e range 0)
  discoverEventOrder a b range := nodeCall (discoverEventOrder setup.env a b range 0)
  command := runCommand setup
  prompt := runCommand_prompt setup

end Loti.Lotid
