import Loti.Effects
import Loti.LmdbStore
import Loti.WireFormat

/-!
The UDP transport of `src/adapters/os/transport.hpp` and the processes of the daemon that own
one. The transport checks the source of a datagram against its own table of peer addresses,
which a process fills as it goes; the neighbors of the node come from the store as well. Here
is when the check covers every datagram that the node processes.
-/

namespace Loti

open Std StateExcept Wire

structure SockAddr where
  address : Vector UInt8 16
  port : UInt16
deriving DecidableEq

structure AddressReader where
  inet6 : String → Option (Vector UInt8 16)
  inet4 : String → Option (Vector UInt8 4)

/-- An address literal on the dual-stack socket, where IPv4 is mapped to `::ffff:a.b.c.d`. -/
def AddressReader.read (inet : AddressReader) (ip : String) : Option (Vector UInt8 16) :=
  match inet.inet6 ip with
  | some address => some address
  | none => (inet.inet4 ip).map fun v4 =>
      (#v[0, 0, 0, 0, 0, 0, 0, 0, 0, 0, 0xff, 0xff] : Vector UInt8 12) ++ v4

def kMaxDatagram : Nat := 65535

structure Arrival where
  source : SockAddr
  bytes : Bytes
  size : bytes.length ≤ kMaxDatagram

/-- `registered` is every registration so far; `peers` holds the last one of each peer. -/
structure UdpTransport where
  peers : ExtTreeMap NodeId SockAddr := ∅
  registered : List (NodeId × SockAddr) := []

def UdpTransport.setPeer (transport : UdpTransport) (inet : AddressReader) (id : NodeId)
    (ip : String) (port : UInt16) : Except Fault UdpTransport :=
  match inet.read ip with
  | some address =>
      .ok { peers := transport.peers.insert id ⟨address, port⟩
            registered := transport.registered ++ [(id, ⟨address, port⟩)] }
  | none => .error (.exception ("bad peer address: " ++ ip))

/-- The body of the loop of `receive`: a datagram is skipped when it claims a peer from another
source. -/
def UdpTransport.receives (transport : UdpTransport) (arrival : Arrival) : Bool :=
  match senderOf arrival.bytes with
  | some sender =>
      match transport.peers[sender]? with
      | some registered => registered = arrival.source
      | none => true
  | none => true

structure Process (σ : Type) where
  node : NodeState σ
  transport : UdpTransport := {}

abbrev ProcessM (σ : Type) := EStateM Fault (Process σ)

section Daemon

variable {σ : Type} [Store σ]

def onNode (m : NodeM σ Unit) : ProcessM σ Unit :=
  zoom Process.node (fun node p => { p with node }) m

def addPeer (inet : AddressReader) (id : NodeId) (ip : String) (port : UInt16) :
    ProcessM σ Unit := do
  onNode (addNeighbor id)
  onNode (learnRoute id id)
  let transport ← ofExcept (fun fault => fault) ((← get).transport.setPeer inet id ip port)
  modify fun p => { p with transport }

/-- What the constructor and `main` do before the reactor runs. An exception ends the process. -/
def launch (env : NodeEnv) (inet : AddressReader) (peers : List (NodeId × String × UInt16))
    (routes : List (NodeId × NodeId)) : ProcessM σ Unit := do
  onNode (hydrateWorkingState env)
  peers.forM fun peer => addPeer inet peer.1 peer.2.1 peer.2.2
  routes.forM fun route => onNode (learnRoute route.1 route.2)
  onNode (start env)

/-- What reaches a running daemon: a datagram, a `peer-add`, or anything else that the node does for
a command or a timer, as the clock moves. -/
inductive ProcessAction
  | arrives (arrival : Arrival)
  | peerAdd (id : NodeId) (ip : String) (port : UInt16)
  | activity (action : NodeAction)

/-- The daemon has no other way to add a neighbor or to hand over a datagram; its node is built
once. -/
def ProcessAction.Possible : ProcessAction → Prop
  | .activity (.addNeighbor _) | .activity (.onPacketReceived _) | .activity .hydrateFromStore
  | .activity .restart | .activity (.learnRouteAt _ _ _) => False
  | _ => True

def guarded (m : ProcessM σ Unit) : ProcessM σ Unit :=
  tryCatch m fun
    | .exception _ => pure ()
    | fault => throw fault

def Process.step (env : NodeEnv) (inet : AddressReader) : ProcessAction → ProcessM σ Unit
  | .arrives arrival => do
      -- an empty datagram ends the drain loop
      when (arrival.bytes ≠ [] ∧ (← get).transport.receives arrival = true)
        (guarded (onNode (onPacketReceived env arrival.bytes)))
  | .peerAdd id ip port => guarded (addPeer inet id ip port)
  | .activity action => guarded (onNode (perform env action))

/-- The states of running processes. A process starts on whatever store an earlier one left. -/
inductive Process.Reached (env : NodeEnv) (inet : AddressReader) : Process σ → Prop
  | launched {store : σ} {peers : List (NodeId × String × UInt16)} {routes : List (NodeId × NodeId)}
      {p : Process σ} (started : launch env inet peers routes ⟨NodeState.fresh store, {}⟩ =
        .ok () p) : Reached env inet p
  | stepped {p p' : Process σ} {action : ProcessAction} (reached : Reached env inet p)
      (possible : action.Possible) (performed : step env inet action p = .ok () p') :
      Reached env inet p'

def Process.Handles (env : NodeEnv) (p : Process σ) (arrival : Arrival)
    (neighbor : NodeId) : Prop :=
  arrival.bytes ≠ [] ∧ p.transport.receives arrival = true ∧
    (∃ payload, decode ⟨arrival.bytes, env.wordBits⟩ = .ok ⟨neighbor, payload⟩) ∧
    neighbor ∈ p.node.neighbors

structure UdpTransport.Consistent (transport : UdpTransport) : Prop where
  held : ∀ (id : NodeId) (address : SockAddr),
    transport.peers[id]? = some address → (id, address) ∈ transport.registered
  kept : ∀ registration ∈ transport.registered, registration.1 ∈ transport.peers

theorem setPeer_consistent {transport after : UdpTransport} {inet : AddressReader} {id : NodeId}
    {ip : String} {port : UInt16} (consistent : transport.Consistent)
    (put : transport.setPeer inet id ip port = .ok after) :
    after.Consistent := by
  unfold UdpTransport.setPeer at put
  split at put
  · rename_i address read
    cases put
    constructor
    · intro other found registered
      rw [ExtTreeMap.getElem?_insert] at registered
      split at registered
      · rename_i same
        obtain rfl := LawfulEqCmp.compare_eq_iff_eq.mp same
        cases registered
        exact List.mem_append_right _ (List.mem_singleton_self _)
      · exact List.mem_append_left _ (consistent.held other found registered)
    · intro registration member
      rw [ExtTreeMap.mem_insert]
      rcases List.mem_append.mp member with old | new
      · exact Or.inr (consistent.kept registration old)
      · rw [List.mem_singleton.mp new]
        exact Or.inl (by simp)
  · cases put

omit [Store σ] in
theorem onNode_consistent (m : NodeM σ Unit) : Keeps (fun p : Process σ => p.transport.Consistent)
    (onNode m) := by
  intro p consistent
  simp only [onNode, ends_zoom]
  exact ends_final.mpr consistent

omit [Store σ] in
theorem guarded_consistent {m : ProcessM σ Unit}
    (keeps : Keeps (fun p : Process σ => p.transport.Consistent) m) :
    Keeps (fun p : Process σ => p.transport.Consistent) (guarded m) := by
  intro p consistent
  rw [guarded, ends_tryCatch]
  refine (keeps p consistent).mono (fun _ _ kept => kept) fun fault _ kept => ?_
  cases fault <;> exact kept

theorem addPeer_consistent (inet : AddressReader) (id : NodeId) (ip : String) (port : UInt16) :
    Keeps (fun p : Process σ => p.transport.Consistent) (addPeer inet id ip port) := by
  refine (onNode_consistent _).bind fun _ => (onNode_consistent _).bind fun _ => ?_
  intro p consistent
  simp only [ends_bind, ends_get, ends_ofExcept, ends_modify]
  exact ⟨fun _ put => setPeer_consistent consistent put, fun _ _ => consistent⟩

theorem launch_consistent (env : NodeEnv) (inet : AddressReader)
    (peers : List (NodeId × String × UInt16)) (routes : List (NodeId × NodeId)) :
    Keeps (fun p : Process σ => p.transport.Consistent) (launch env inet peers routes) := by
  refine (onNode_consistent _).bind fun _ => Keeps.bind ?_ fun _ => Keeps.bind ?_ fun _ =>
    onNode_consistent _
  · exact keeps_forM fun peer _ => addPeer_consistent inet peer.1 peer.2.1 peer.2.2
  · exact keeps_forM fun route _ => onNode_consistent _

theorem step_consistent (env : NodeEnv) (inet : AddressReader) (action : ProcessAction) :
    Keeps (fun p : Process σ => p.transport.Consistent) (Process.step env inet action) := by
  cases action with
  | arrives arrival =>
      intro p consistent
      simp only [Process.step, ends_bind, ends_get, ends_when]
      exact ⟨fun _ => guarded_consistent (onNode_consistent _) p consistent, fun _ => consistent⟩
  | peerAdd id ip port => exact guarded_consistent (addPeer_consistent inet id ip port)
  | activity action => exact guarded_consistent (onNode_consistent _)

theorem Process.Reached.consistent {env : NodeEnv} {inet : AddressReader} {p : Process σ}
    (reached : p.Reached env inet) : p.transport.Consistent := by
  induction reached with
  | launched started => exact (launch_consistent env inet _ _ _ ⟨by simp, by simp⟩).of_ok started
  | stepped _ _ performed ih => exact (step_consistent env inet _ _ ih).of_ok performed

def bareNotification (neighbor : NodeId) : Bytes :=
  encode ⟨neighbor, .clockNotification ⟨0, [], []⟩⟩

theorem bareNotification_length (neighbor : NodeId) : (bareNotification neighbor).length = 33 := by
  simp [bareNotification, encode, writeHeader, Payload.body, Writer.u8, Writer.nodeId,
    Writer.u64, Writer.blob, Writer.u32, BigEndian.digits_length, neighbor.size]

/-- Anti-spoofing across restarts: in every state of every process, each datagram that the node
processes as coming from a neighbor has a source that `set_peer` registered for it in that process,
exactly if the transport knows an address of every neighbor of the node. -/
theorem sources_registered_iff {env : NodeEnv} {inet : AddressReader} {p : Process σ}
    (bits : env.wordBits = 32 ∨ env.wordBits = 64) (reached : p.Reached env inet) :
    (∀ arrival neighbor, p.Handles env arrival neighbor →
      (neighbor, arrival.source) ∈ p.transport.registered) ↔
      ∀ neighbor ∈ p.node.neighbors, neighbor ∈ p.transport.peers := by
  have short : ∀ bytes : Bytes, bytes.length ≤ kMaxDatagram →
    (⟨bytes, env.wordBits⟩ : Buffer).Addressable := by
    intro bytes size
    refine ⟨bits, Nat.lt_of_le_of_lt size ?_⟩
    rcases bits with narrow | wide
    · simp [narrow, kMaxDatagram]
    · simp [wide, kMaxDatagram]
  constructor
  · intro registered neighbor known
    have size : (bareNotification neighbor).length ≤ kMaxDatagram := by
      simp [bareNotification_length, kMaxDatagram]
    have read : decode ⟨bareNotification neighbor, env.wordBits⟩ =
        .ok ⟨neighbor, .clockNotification ⟨0, [], []⟩⟩ :=
      decode_of_encoded (by simp [Payload.Fits]) (short _ size)
    by_contra unknown
    -- nothing is registered for this neighbor, so the transport lets any source pass
    let forged : Arrival := ⟨⟨Vector.replicate 16 0, 0⟩, bareNotification neighbor, size⟩
    have passes : p.transport.receives forged = true := by
      simp only [UdpTransport.receives, forged, senderOf_of_decode (short _ size) read]
      rw [ExtTreeMap.getElem?_eq_none unknown]
    have nonempty : bareNotification neighbor ≠ [] := by
      intro empty
      simpa [empty] using bareNotification_length neighbor
    have handled : p.Handles env forged neighbor := ⟨nonempty, passes, ⟨_, read⟩, known⟩
    exact unknown (reached.consistent.kept _ (registered forged neighbor handled))
  · rintro covered arrival neighbor ⟨-, passes, ⟨payload, read⟩, known⟩
    obtain ⟨address, found⟩ := Option.isSome_iff_exists.mp
      (ExtTreeMap.isSome_getElem?_iff_mem.mpr (covered neighbor known))
    simp only [UdpTransport.receives, senderOf_of_decode (short _ arrival.size) read, found,
      decide_eq_true_eq] at passes
    exact passes ▸ reached.consistent.held neighbor address found

end Daemon

def peerInet : AddressReader where
  inet6 _ := none
  inet4 ip := if ip = "10.0.0.2" then some #v[10, 0, 0, 2] else none

def daemonEnv : NodeEnv := .simulated (fun bytes => bytes) 1 {}

def firstProcess : Process LmdbStore :=
  final (launch daemonEnv peerInet [(.ofUInt64 2, "10.0.0.2", 7000)] []) ⟨.fresh {}, {}⟩

def secondProcess : Process LmdbStore :=
  final (launch daemonEnv peerInet [] []) ⟨.fresh firstProcess.node.store, {}⟩

theorem firstProcess_reached
      (started : raised (launch daemonEnv peerInet [(.ofUInt64 2, "10.0.0.2", 7000)] [])
      (⟨.fresh {}, {}⟩ : Process LmdbStore) = none) : firstProcess.Reached daemonEnv peerInet :=
  .launched (ok_of_not_raised started)

theorem secondProcess_reached (started : raised (launch daemonEnv peerInet [] [])
      (⟨.fresh firstProcess.node.store, {}⟩ : Process LmdbStore) =
      none) : secondProcess.Reached daemonEnv peerInet :=
  .launched (ok_of_not_raised started)

theorem sources_registered_sample : firstProcess.Reached daemonEnv peerInet ∧
    ∀ arrival neighbor, firstProcess.Handles daemonEnv arrival neighbor →
      (neighbor, arrival.source) ∈ firstProcess.transport.registered := by
  obtain ⟨started, covered⟩ :
      raised (launch daemonEnv peerInet [(.ofUInt64 2, "10.0.0.2", 7000)] [])
        (⟨.fresh {}, {}⟩ : Process LmdbStore) = none ∧
      ∀ neighbor ∈ firstProcess.node.neighbors.keys, neighbor ∈ firstProcess.transport.peers := by
    decide +kernel
  exact ⟨firstProcess_reached started,
    (sources_registered_iff (Or.inr rfl) (firstProcess_reached started)).mpr
    fun neighbor known => covered neighbor (ExtTreeMap.mem_keys.mpr known)⟩

def forgedArrival : Arrival :=
  ⟨⟨Vector.replicate 16 1, 9⟩, bareNotification (.ofUInt64 2), by decide⟩

/-- The second process knows node 2 from the store, and takes a datagram from anywhere for one of
node 2. -/
theorem persisted_neighbor_forged : secondProcess.Reached daemonEnv peerInet ∧
    secondProcess.Handles daemonEnv forgedArrival (.ofUInt64 2) ∧
    (.ofUInt64 2, forgedArrival.source) ∉ secondProcess.transport.registered := by
  obtain ⟨started, nonempty, passes, read, known, unregistered⟩ :
      raised (launch daemonEnv peerInet [] [])
      (⟨.fresh firstProcess.node.store, {}⟩ : Process LmdbStore) = none ∧
      forgedArrival.bytes ≠ [] ∧ secondProcess.transport.receives forgedArrival = true ∧
      decode ⟨forgedArrival.bytes, daemonEnv.wordBits⟩ =
        .ok ⟨.ofUInt64 2, .clockNotification ⟨0, [], []⟩⟩ ∧
      NodeId.ofUInt64 2 ∈ secondProcess.node.neighbors ∧
      (.ofUInt64 2, forgedArrival.source) ∉ secondProcess.transport.registered := by
    decide +kernel
  exact ⟨secondProcess_reached started, ⟨nonempty, passes, ⟨_, read⟩, known⟩, unregistered⟩

end Loti
